import DecisionWalk.Proofs.MachineMutator
import DecisionWalk.Proofs.Operands
import DecisionWalk.Proofs.Splices
import DecisionWalk.Proofs.Weights
import DecisionWalk.Random.Cycle

/-!
# Random mutations pick legal operands

What a random mutation picks passes the checks of the operation it is picked for.
So a mutation is refused only where there is nothing to pick from, or where a chunk
cannot be deleted because the walk could not go on behind it. The same holds on a
machine, where moreover no slice leaves its bounds. Both are carried through an
operation step by step: each step of the machine gives what the step of the mutator
gives, and is refused for permitted reasons only.
-/

set_option autoImplicit false

namespace DecisionWalk

open MutatingMachine

variable {K ρ α β : Type}

def Gives (y : Mutating ρ α) (a : α) : Prop := ∃ r r', y r = .ok a r'

structure Legal (permitted : Precondition → Prop) (x : MutatingMachine ρ α) (y : Mutating ρ α) :
    Prop where
  runs : ∀ r, x r = lifted (y r)
  refusals : ∀ r cause r', y r = .error (.precondition cause) r' → permitted cause

namespace Legal

variable {permitted : Precondition → Prop} {x : MutatingMachine ρ α} {y : Mutating ρ α}

theorem pure (a : α) : Legal permitted (pure a : MutatingMachine ρ α) (pure a) :=
  ⟨fun _ => rfl, fun _ _ _ h => by cases h⟩

theorem plain (h : ∀ r cause r', y r = .error (.precondition cause) r' → permitted cause) :
    Legal permitted (plain y) y :=
  ⟨fun _ => rfl, h⟩

theorem modifyGet (f : ρ → α × ρ) :
    Legal permitted (modifyGet f : MutatingMachine ρ α) (modifyGet f) :=
  ⟨fun _ => rfl, fun _ _ _ h => by cases h⟩

theorem throws {e : MutationError} (h : ∀ cause, e = .precondition cause → permitted cause) :
    Legal permitted (throw (.failed e) : MutatingMachine ρ α) (throw e) := by
  refine ⟨fun _ => rfl, ?_⟩
  intro r cause r' hthrown
  cases hthrown
  exact h cause rfl

theorem refuse {cause : Precondition} (h : permitted cause) :
    Legal permitted (refuse cause : MutatingMachine ρ α) (Mutator.refuse cause) := by
  refine throws fun cause' hsame => ?_
  cases hsame
  exact h

theorem bind {f : α → MutatingMachine ρ β} {g : α → Mutating ρ β} (hx : Legal permitted x y)
    (hf : ∀ a, Gives y a → Legal permitted (f a) (g a)) : Legal permitted (x >>= f) (y >>= g) := by
  constructor
  · intro r
    show EStateM.bind x f r = lifted (EStateM.bind y g r)
    rw [EStateM.bind, EStateM.bind, hx.runs]
    cases hy : y r with
    | ok a s => exact (hf a ⟨r, s, hy⟩).runs s
    | error e s => rfl
  · intro r cause r' h
    replace h : EStateM.bind y g r = _ := h
    rw [EStateM.bind] at h
    cases hy : y r with
    | ok a s =>
      rw [hy] at h
      exact (hf a ⟨r, s, hy⟩).refusals s cause r' h
    | error e s =>
      rw [hy] at h
      cases h
      exact hx.refusals r cause _ hy

theorem randomBytes [RandomSource ρ] (n : Nat) :
    Legal permitted (MutatingMachine.plain (Mutator.randomBytes n) : MutatingMachine ρ Bytes)
      (Mutator.randomBytes n) :=
  .plain fun _ _ _ h => by cases h

/-- A check in front of an action. -/
theorem guarded {p : Prop} [Decidable p] {e : MutationError}
    (he : p → ∀ cause, e = .precondition cause → permitted cause)
    (h : ¬ p → Legal permitted x y) :
    Legal permitted
      (if p then (throw (.failed e) : MutatingMachine ρ PUnit) >>= fun _ => x else x)
      (if p then (throw e : Mutating ρ PUnit) >>= fun _ => y else y) := by
  by_cases hp : p
  · rw [if_pos hp, if_pos hp]
    exact (throws (he hp)).bind fun a hgives => by
      obtain ⟨_, _, h⟩ := hgives
      cases h
  · rw [if_neg hp, if_neg hp]
    exact h hp

theorem passing {p : Prop} [Decidable p] {e : MutationError} (hp : ¬ p)
    (h : Legal permitted x y) :
    Legal permitted
      (if p then (throw (.failed e) : MutatingMachine ρ PUnit) >>= fun _ => x else x)
      (if p then (throw e : Mutating ρ PUnit) >>= fun _ => y else y) :=
  guarded (fun h' => absurd h' hp) fun _ => h

end Legal

section Slices

variable {xs : List α} {f : List α → MutatingMachine ρ β}

theorem slice_bind {s : Span} (h : s.Fits xs) : (slice s xs >>= f) = f (s.of xs) := by
  rw [slice, if_pos ⟨h.1, h.2⟩, pure_bind]

theorem front_bind {n : Nat} (h : n ≤ xs.length) : (front xs n >>= f) = f (xs.take n) := by
  rw [front, slice_bind ⟨Nat.zero_le n, h⟩, Span.of_left]

theorem back_bind {n : Nat} (h : n ≤ xs.length) : (back xs n >>= f) = f (xs.drop n) := by
  rw [back, slice_bind ⟨h, Nat.le_refl _⟩, Span.of_right]

end Slices

section Choices

variable [RandomSource ρ] {permitted : Precondition → Prop} {items : List α}

theorem fillFrom_eq {n size : Nat} (h : n ≤ size) :
    (fillFrom n size : MutatingMachine ρ Bytes) = plain (Mutator.randomBytes (size - n)) :=
  if_pos h

/-- The index that is drawn is one of the list. -/
theorem choose_legal (items : List α) : Legal permitted
    (choose items : MutatingMachine ρ (Option α)) (modifyGet fun r => Random.pick? r items) := by
  refine ⟨?_, fun _ _ _ h => by cases h⟩
  intro r
  have hpicked : (modifyGet (fun r => Random.pick? r items) : Mutating ρ (Option α)) r =
    .ok (Random.pick? r items).1 (Random.pick? r items).2 := rfl
  rw [hpicked]
  rcases Random.pick?_cases r items with ⟨rfl, hnone⟩ | ⟨a, hmem, hget, hsome⟩
  · rw [hnone]
    rfl
  · have hitem : (item items (Random.below r items.length).1 : MutatingMachine ρ α) =
        Pure.pure a := by
      rw [item, hget]
    have hitems : ¬ items.isEmpty = true := mt List.isEmpty_iff.1 (List.ne_nil_of_mem hmem)
    rw [hsome, choose, if_neg hitems]
    show (item items (Random.below r items.length).1 >>= fun a => Pure.pure (some a) :
      MutatingMachine ρ (Option α)) (Random.below r items.length).2 = _
    rw [hitem]
    rfl

theorem choose_gives {o : Option α}
    (h : Gives (modifyGet fun r => Random.pick? r items : Mutating ρ (Option α)) o) :
    (o = none → items = []) ∧ ∀ a, o = some a → a ∈ items := by
  obtain ⟨r, r', h⟩ := h
  obtain rfl : (Random.pick? r items).1 = o := by
    cases h
    rfl
  rcases Random.pick?_cases r items with ⟨hitems, hnone⟩ | ⟨a, hmem, -, hsome⟩
  · rw [hnone]
    exact ⟨fun _ => hitems, fun _ hb => by cases hb⟩
  · rw [hsome]
    constructor
    · rintro ⟨⟩
    · rintro b ⟨⟩
      exact hmem

theorem pick_legal {pool : Pool} (h : items = [] → permitted (.emptyPool pool)) :
    Legal permitted (pick pool items : MutatingMachine ρ α) (Mutator.pick pool items) := by
  refine (choose_legal items).bind fun o ho => ?_
  cases o with
  | none => exact .refuse (h ((choose_gives ho).1 rfl))
  | some a => exact .pure a

theorem pick_gives {pool : Pool} {a : α} (h : Gives (Mutator.pick pool items : Mutating ρ α) a) :
    a ∈ items := by
  obtain ⟨r, r', h⟩ := h
  obtain ⟨o, s, ho, h⟩ := Mutator.mutating_ok h
  cases o with
  | none => cases h
  | some b =>
    cases h
    exact (choose_gives ⟨r, _, ho⟩).2 a rfl

end Choices

namespace Mutator

/-- A verdict blames the watches and not what was asked for. -/
theorem verdict_error {watches : List (Watch K)} {outcome : SpliceOutcome} {e : MutationError}
    (h : verdict watches outcome = .error e) : ∀ cause, e ≠ .precondition cause := by
  induction watches generalizing outcome with
  | nil => cases h
  | cons w rest ih =>
    rw [verdict] at h
    split at h
    case h_1 =>
      cases h
      rintro cause ⟨⟩
    case h_2 =>
      split at h
      case h_1 => exact ih h
      case h_2 =>
        dsimp only at h
        split at h <;> exact ih h

end Mutator

variable [DecidableEq K]

structure MachineMutator.Follows (x : MachineMutator K) (m : Mutator K) (target : Walk K) :
    Prop where
  limits : x.limits = m.limits
  replay : ∀ decisions watches,
    (∀ w ∈ watches, ∀ d, w.depth = some d → ∃ c ∈ target.chunks, c.depth = d) →
    x.replay decisions watches = (m.grammar.replay m.limits decisions watches).mapError .failed

theorem MachineMutator.ofMutator_follows (m : Mutator K) (target : Walk K) :
    (ofMutator m).Follows m target :=
  ⟨rfl, fun _ _ _ => rfl⟩

section Operations

variable [RandomSource ρ] {permitted : Precondition → Prop} {x : MachineMutator K} {m : Mutator K}
  {target : Walk K} {chunk donor : Chunk K} {donorDecisions : Bytes}

theorem splice_legal (hx : x.Follows m target) (parts : List Bytes) :
    Legal permitted (x.splice parts : MutatingMachine ρ Bytes) (m.splice parts) := by
  rw [MachineMutator.splice, Mutator.splice, hx.limits]
  refine .guarded (fun _ _ h => by cases h) fun hfits => ?_
  rw [fillFrom_eq (Nat.le_of_not_lt hfits)]
  exact (Legal.randomBytes _).bind fun _ _ => .pure _

omit [RandomSource ρ] in
theorem regenerate_legal (hx : x.Follows m target) (operation : Operation) (decisions : Bytes)
    {watches : List (Watch K)}
    (hdepths : ∀ w ∈ watches, ∀ d, w.depth = some d → ∃ c ∈ target.chunks, c.depth = d) :
    Legal permitted (x.regenerate operation decisions watches : MutatingMachine ρ (Mutation K))
      (MonadExcept.ofExcept (m.regenerate operation decisions watches)) := by
  rw [MachineMutator.regenerate, Mutator.regenerate, hx.replay decisions watches hdepths]
  cases m.grammar.replay m.limits decisions watches with
  | error e => exact .throws fun _ h => by cases h
  | ok v =>
    obtain ⟨walk, watches'⟩ := v
    dsimp only [Except.mapError]
    cases hverdict : Mutator.verdict watches' .exact with
    | error e => exact .throws fun cause h => absurd h (Mutator.verdict_error hverdict cause)
    | ok outcome => exact .pure _

theorem spliced_legal (hx : x.Follows m target) (parts : List Bytes) (operation : Operation)
    {watches : List (Watch K)}
    (hdepths : ∀ w ∈ watches, ∀ d, w.depth = some d → ∃ c ∈ target.chunks, c.depth = d) :
    Legal permitted
      (x.splice parts >>= fun decisions => x.regenerate operation decisions watches :
        MutatingMachine ρ (Mutation K))
      (m.splice parts >>= fun decisions =>
        MonadExcept.ofExcept (m.regenerate operation decisions watches)) :=
  (splice_legal hx parts).bind fun decisions _ => regenerate_legal hx operation decisions hdepths

omit [DecidableEq K] in
theorem depths_singleton {w : Watch K} (hchunk : chunk ∈ target.chunks)
    (hw : w.depth = some chunk.depth) :
    ∀ v ∈ [w], ∀ d, v.depth = some d → ∃ c ∈ target.chunks, c.depth = d := by
  intro v hv d hd
  obtain rfl := List.mem_singleton.1 hv
  exact ⟨chunk, hchunk, Option.some.inj (hw.symm.trans hd)⟩

omit [DecidableEq K] in
theorem depths_none {watches : List (Watch K)} (h : ∀ w ∈ watches, w.depth = none) :
    ∀ w ∈ watches, ∀ d, w.depth = some d → ∃ c ∈ target.chunks, c.depth = d :=
  fun w hw _ hd => by cases (h w hw).symm.trans hd

theorem abstract_legal (hx : x.Follows m target) (ht : target.Sliceable)
    (hchunk : chunk ∈ target.chunks) :
    Legal permitted (x.abstractChunk target chunk : MutatingMachine ρ (Mutation K))
      (m.abstractChunk target chunk) := by
  have hspan := ht.span hchunk
  rw [MachineMutator.abstractChunk, Mutator.abstractChunk]
  dsimp only
  rw [front_bind (Nat.le_trans hspan.1 hspan.2)]
  refine (splice_legal hx _).bind fun decisions _ => ?_
  rw [back_bind hspan.2, fillFrom_eq (Nat.le_max_right _ _), hx.limits]
  refine (Legal.randomBytes _).bind fun rest _ => ?_
  exact regenerate_legal hx _ _ (depths_singleton hchunk rfl)

variable [ProductionKind K]

omit [DecidableEq K] [RandomSource ρ] in
theorem checkDonor_legal (h : donorDecisions.length = donor.decisionLength) :
    Legal permitted (plain (Mutator.checkDonor donor donorDecisions) : MutatingMachine ρ Unit)
      (Mutator.checkDonor donor donorDecisions) := by
  refine .plain fun r cause r' hrefused => ?_
  rw [Mutator.checkDonor, if_pos h] at hrefused
  cases hrefused

theorem replace_legal (hx : x.Follows m target) (ht : target.Sliceable)
    (hchunk : chunk ∈ target.chunks) (hcompatible : Mutator.compatible chunk donor = true)
    (hlength : donorDecisions.length = donor.decisionLength) :
    Legal permitted (x.replace target chunk donor donorDecisions : MutatingMachine ρ (Mutation K))
      (m.replace target chunk donor donorDecisions) := by
  have hspan := ht.span hchunk
  rw [MachineMutator.replace, Mutator.replace]
  refine .passing (by simp [hcompatible]) ((checkDonor_legal hlength).bind fun _ _ => ?_)
  dsimp only
  rw [front_bind (Nat.le_trans hspan.1 hspan.2), back_bind hspan.2]
  exact spliced_legal hx _ _ (depths_singleton hchunk rfl)

theorem insert_legal {point : InsertionPoint K} (hx : x.Follows m target) (ht : target.Sliceable)
    (hpoint : point ∈ target.points) (hoptional : donor.optional = true)
    (hlength : donorDecisions.length = donor.decisionLength) :
    Legal permitted (x.insert target point donor donorDecisions : MutatingMachine ρ (Mutation K))
      (m.insert target point donor donorDecisions) := by
  have hwithin := ht.points point hpoint
  rw [MachineMutator.insert, Mutator.insert]
  refine .passing (by simp [hoptional]) (.passing (by simp [hpoint]) ?_)
  refine (checkDonor_legal hlength).bind fun _ _ => ?_
  dsimp only
  rw [front_bind hwithin, back_bind hwithin]
  exact spliced_legal hx _ _ (depths_none (List.forall_mem_singleton.2 rfl))

theorem delete_legal (hx : x.Follows m target) (ht : target.Sliceable)
    (hchunk : chunk ∈ target.chunks) (hoptional : chunk.optional = true)
    (hstuck : chunk.appendable = false →
      (∀ next, Mutator.successor? target chunk = some next → next.optional = false) →
      permitted (.notDeletable chunk.label ((Mutator.successor? target chunk).map Chunk.label))) :
    Legal permitted (x.delete target chunk : MutatingMachine ρ (Mutation K))
      (m.delete target chunk) := by
  have hspan := ht.span hchunk
  rw [MachineMutator.delete, Mutator.delete]
  refine .passing (by simp [hoptional]) (.guarded ?_ fun _ => ?_)
  · intro hgap cause hcause
    cases hcause
    rw [Bool.and_eq_true, Bool.not_eq_true', Bool.not_eq_true', Option.any_eq_false] at hgap
    exact hstuck hgap.1 fun next hnext => by simpa using hgap.2 next hnext
  · dsimp only
    rw [front_bind (Nat.le_trans hspan.1 hspan.2), back_bind hspan.2]
    refine spliced_legal hx _ _ (depths_none ?_)
    intro w hw
    obtain ⟨next, -, rfl⟩ := List.mem_map.1 hw
    rfl

theorem swapOrdered_legal {first second : Chunk K} (hx : x.Follows m target)
    (ht : target.Sliceable) (hfirst : first ∈ target.chunks) (hsecond : second ∈ target.chunks)
    (hapart : first.decisions.stop ≤ second.decisions.start) :
    Legal permitted (x.swapOrdered target first second : MutatingMachine ρ (Mutation K))
      (m.swapOrdered target first second) := by
  have hf := ht.span hfirst
  have hs := ht.span hsecond
  have hmiddle : (⟨first.decisions.stop, second.decisions.start⟩ : Span).Fits target.decisions :=
    ⟨hapart, Nat.le_trans hs.1 hs.2⟩
  rw [MachineMutator.swapOrdered, Mutator.swapOrdered]
  refine .passing (Nat.not_lt.2 hapart) ?_
  dsimp only
  rw [slice_bind hs, slice_bind hmiddle, slice_bind hf, front_bind (Nat.le_trans hf.1 hf.2),
    back_bind hs.2]
  refine spliced_legal hx _ _ (depths_none ?_)
  exact List.forall_mem_cons.2 ⟨rfl, List.forall_mem_singleton.2 rfl⟩

/-- Whichever chunk starts first ends before the other: the other order would leave one empty. -/
theorem swap_legal {a b : Chunk K} (hx : x.Follows m target) (ht : target.Sliceable)
    (ha : a ∈ target.chunks) (hb : b ∈ Mutator.partners target a) :
    Legal permitted (x.swap target a b : MutatingMachine ρ (Mutation K)) (m.swap target a b) := by
  obtain ⟨hmem, hcompatible, hapart⟩ := Mutator.mem_partners.1 hb
  have hladen := ht.laden a ha
  have hladen' := ht.laden b hmem
  rw [MachineMutator.swap, Mutator.swap]
  refine .passing (by simp [hcompatible]) ?_
  split
  · exact swapOrdered_legal hx ht ha hmem (by omega)
  · exact swapOrdered_legal hx ht hmem ha (by omega)

end Operations

/-- Why a random mutation of a walk may be refused: there is nothing to pick, or a chunk that was
picked for deletion has nothing optional behind it and nothing can be appended to it. -/
inductive Barred [ProductionKind K] (corpus : Corpus K) (walk : Walk K) : Precondition → Prop where
  | pointless (h : walk.points = []) : Barred corpus walk (.emptyPool .insertionPoints)
  | allMandatory (h : ∀ c ∈ walk.chunks, c.optional = false) :
      Barred corpus walk (.emptyPool .optionalChunks)
  | donorless (h : corpus.optionalChunks = []) : Barred corpus walk .noOptionalDonor
  | partnerless {a : Chunk K} (ha : a ∈ walk.chunks) (h : Mutator.partners walk a = []) :
      Barred corpus walk (.emptyPool .swapPartners)
  | stuck {chunk : Chunk K} (hchunk : chunk ∈ walk.chunks) (hoptional : chunk.optional = true)
      (happendable : chunk.appendable = false)
      (hnext : ∀ next, Mutator.successor? walk chunk = some next → next.optional = false) :
      Barred corpus walk
        (.notDeletable chunk.label ((Mutator.successor? walk chunk).map Chunk.label))

section Random

variable [RandomSource ρ] [ProductionKind K] {x : MachineMutator K} {m : Mutator K}
  {files : List (CorpusFile K)} {walk : Walk K} {donor : Chunk K}

omit [RandomSource ρ] [ProductionKind K] in
/-- Donors have their decisions in the file that they are stamped with. -/
theorem donorDecisions_legal {permitted : Precondition → Prop}
    (hfiles : ∀ f ∈ files, f.walk.Sliceable) (hdonor : Corpus.Holds files donor) :
    Legal permitted
        (MachineMutator.donorDecisions (Corpus.ofFiles files) donor : MutatingMachine ρ Bytes)
        (Mutator.donorDecisions (Corpus.ofFiles files) donor) ∧
      ∀ bytes,
        Gives (Mutator.donorDecisions (Corpus.ofFiles files) donor : Mutating ρ Bytes) bytes →
        bytes.length = donor.decisionLength := by
  obtain ⟨f, hf, c, hc, hsame⟩ := hdonor
  have hspan : donor.decisions.Fits f.walk.decisions := by
    rw [hsame]
    exact (hfiles f (List.mem_of_getElem? hf)).span hc
  have hfile := Corpus.file_of_getElem hf
  have hmutator : (Mutator.donorDecisions (Corpus.ofFiles files) donor : Mutating ρ Bytes) =
      pure (donor.decisions.of f.walk.decisions) := by
    rw [Mutator.donorDecisions, Corpus.decisionsOf, hfile]
    rfl
  have hmachine : (MachineMutator.donorDecisions (Corpus.ofFiles files) donor :
      MutatingMachine ρ Bytes) = pure (donor.decisions.of f.walk.decisions) := by
    rw [MachineMutator.donorDecisions, hfile]
    exact if_pos ⟨hspan.1, hspan.2⟩
  rw [hmutator, hmachine]
  refine ⟨.pure _, ?_⟩
  rintro bytes ⟨r, r', h⟩
  cases h
  exact Span.length_of hspan

variable {number : Nat} {f : CorpusFile K}

theorem randomReplace_legal {permitted : Precondition → Prop} (hx : x.Follows m f.walk)
    (hfiles : ∀ f ∈ files, f.walk.Sliceable) (hf : files[number]? = some f) :
    Legal permitted
      (x.randomReplace (Corpus.ofFiles files) f.walk : MutatingMachine ρ (Mutation K))
      (m.randomReplace (Corpus.ofFiles files) f.walk) := by
  have ht := hfiles f (List.mem_of_getElem? hf)
  refine (pick_legal fun h => absurd h ht.chunks).bind fun chunk hpicked => ?_
  have hchunk := pick_gives hpicked
  refine (choose_legal _).bind fun o ho => ?_
  cases o with
  | none => exact absurd ((choose_gives ho).1 rfl) (Corpus.donors_ne_nil hf hchunk)
  | some donor =>
    obtain ⟨hcompatible, hholds⟩ := Corpus.mem_donors ((choose_gives ho).2 donor rfl)
    obtain ⟨hdecisions, hlength⟩ := donorDecisions_legal (ρ := ρ) hfiles hholds
    exact hdecisions.bind fun bytes hbytes =>
      replace_legal hx ht hchunk hcompatible (hlength bytes hbytes)

theorem randomInsert_legal (hx : x.Follows m f.walk) (hfiles : ∀ f ∈ files, f.walk.Sliceable)
    (hf : files[number]? = some f) :
    Legal (Barred (Corpus.ofFiles files) f.walk)
      (x.randomInsert (Corpus.ofFiles files) f.walk : MutatingMachine ρ (Mutation K))
      (m.randomInsert (Corpus.ofFiles files) f.walk) := by
  have ht := hfiles f (List.mem_of_getElem? hf)
  refine (pick_legal .pointless).bind fun point hpicked => ?_
  refine (choose_legal _).bind fun o ho => ?_
  cases o with
  | none => exact .refuse (.donorless ((choose_gives ho).1 rfl))
  | some donor =>
    obtain ⟨hoptional, hholds⟩ := Corpus.mem_optionalChunks ((choose_gives ho).2 donor rfl)
    obtain ⟨hdecisions, hlength⟩ := donorDecisions_legal (ρ := ρ) hfiles hholds
    exact hdecisions.bind fun bytes hbytes =>
      insert_legal hx ht (pick_gives hpicked) hoptional (hlength bytes hbytes)

theorem randomDelete_legal {corpus : Corpus K} (hx : x.Follows m walk) (ht : walk.Sliceable) :
    Legal (Barred corpus walk) (x.randomDelete walk : MutatingMachine ρ (Mutation K))
      (m.randomDelete walk) := by
  refine Legal.bind (pick_legal ?_) fun chunk hpicked => ?_
  · intro h
    refine .allMandatory fun c hc => ?_
    simpa using List.filter_eq_nil_iff.1 h c hc
  · obtain ⟨hchunk, hoptional⟩ := List.mem_filter.1 (pick_gives hpicked)
    exact delete_legal hx ht hchunk hoptional fun happendable hnext =>
      .stuck hchunk hoptional happendable hnext

omit [ProductionKind K] in
theorem randomAbstract_legal {permitted : Precondition → Prop} (hx : x.Follows m walk)
    (ht : walk.Sliceable) :
    Legal permitted (x.randomAbstract walk : MutatingMachine ρ (Mutation K))
      (m.randomAbstract walk) :=
  (pick_legal fun h => absurd h ht.chunks).bind fun _ hpicked =>
    abstract_legal hx ht (pick_gives hpicked)

theorem randomSwap_legal {corpus : Corpus K} (hx : x.Follows m walk) (ht : walk.Sliceable) :
    Legal (Barred corpus walk) (x.randomSwap walk : MutatingMachine ρ (Mutation K))
      (m.randomSwap walk) := by
  refine (pick_legal fun h => absurd h ht.chunks).bind fun a hpicked => ?_
  have ha := pick_gives hpicked
  exact (pick_legal fun h => .partnerless ha h).bind fun b hpartner =>
    swap_legal hx ht ha (pick_gives hpartner)

/-- Whichever operation is drawn, a random mutation of a file of a corpus is legal. -/
theorem mutate_legal (hx : x.Follows m f.walk) (hfiles : ∀ f ∈ files, f.walk.Sliceable)
    (hf : files[number]? = some f) :
    Legal (Barred (Corpus.ofFiles files) f.walk)
      (x.mutate (Corpus.ofFiles files) number : MutatingMachine ρ (Mutation K))
      (m.mutate (Corpus.ofFiles files) number) := by
  have ht := hfiles f (List.mem_of_getElem? hf)
  rw [MachineMutator.mutate, Mutator.mutate, Corpus.file_of_getElem hf]
  refine Legal.bind (.modifyGet _) fun choice _ => ?_
  match choice with
  | 0 => exact randomReplace_legal hx hfiles hf
  | 1 => exact randomInsert_legal hx hfiles hf
  | 2 => exact randomDelete_legal (ρ := ρ) hx ht
  | 3 => exact randomAbstract_legal (ρ := ρ) hx ht
  | _ + 4 => exact randomSwap_legal (ρ := ρ) hx ht

end Random

def Grammar.Makes (g : Grammar K Unit) (w : Walk K) : Prop :=
  ∃ (limits : Limits) (bytes : Bytes),
    g.parse limits bytes = .ok w ∨ g.generate limits bytes = .ok w

def Grammar.MakesOnMachine (g : Grammar K Unit) (w : Walk K) : Prop :=
  ∃ (limits : Limits) (bytes : Bytes),
    Manageable limits (.input bytes) ([] : List (Watch K)) ∧ g.parse limits bytes = .ok w ∨
      Manageable limits (.decisions bytes) ([] : List (Watch K)) ∧
        g.generate limits bytes = .ok w

/-- Random mutations among files of a grammar pick legal operands, whatever files were added to the
corpus, whatever the limits are and whatever the random source gives. -/
structure Grammar.MutatesLegally [ProductionKind K] (g : Grammar K Unit)
    (program : Machine K Unit) : Prop where
  refusals : ∀ {ρ : Type} [RandomSource ρ] (limits : Limits) (files : List (CorpusFile K)),
    (∀ f ∈ files, g.Makes f.walk) → ∀ (target : Nat) (h : target < files.length)
    (r r' : ρ) (cause : Precondition),
    (Mutator.mk g limits).mutate (Corpus.ofFiles files) target r =
      .error (.precondition cause) r' →
    Barred (Corpus.ofFiles files) files[target].walk cause
  slices : ∀ {ρ : Type} [RandomSource ρ] (limits : Limits) (files : List (CorpusFile K)),
    (∀ f ∈ files, g.Makes f.walk) → ∀ target < files.length, ∀ r : ρ,
    (MachineMutator.ofMutator ⟨g, limits⟩).mutate (Corpus.ofFiles files) target r =
      lifted ((Mutator.mk g limits).mutate (Corpus.ofFiles files) target r)
  replays : ∀ {ρ : Type} [RandomSource ρ] (limits : Limits) (files : List (CorpusFile K)),
    limits.streamCapacity < smallValues → limits.fileCapacity < smallValues →
    (∀ f ∈ files, g.Makes f.walk) → ∀ (target : Nat) (h : target < files.length),
    g.MakesOnMachine files[target].walk → ∀ r : ρ,
    (MachineMutator.ofProgram program limits).mutate (Corpus.ofFiles files) target r =
      lifted ((Mutator.mk g limits).mutate (Corpus.ofFiles files) target r)

section Formats

variable {g : Grammar K Unit} {program : Machine K Unit}

theorem Grammar.Makes.sliceable {w : Walk K} (h : g.Makes w)
    (hladen : ∀ (limits : Limits) (origin : Origin) (ws : List (Watch K)),
      (g.runFrom limits origin []).outcome = .ok (w, ws) →
      w.chunks ≠ [] ∧ ∀ c ∈ w.chunks, c.decisions.start < c.decisions.stop) : w.Sliceable := by
  obtain ⟨limits, bytes, hw⟩ := h
  obtain ⟨origin, ws, hrun⟩ := run_of_made hw
  exact Walk.sliceable_of_laden hrun (hladen _ _ _ hrun)

/-- A program that executes the walks of a grammar executes the replays of its mutations, whose
watches wait for the depths of chunks. -/
theorem MachineMutator.ofProgram_follows {limits : Limits} {target : Walk K}
    (hexecutes : ∀ {limits : Limits} {origin : Origin} {watches : List (Watch K)},
      Manageable limits origin watches → Executes program g limits origin watches)
    (hstream : limits.streamCapacity < smallValues) (hfile : limits.fileCapacity < smallValues)
    (ht : g.MakesOnMachine target) : (ofProgram program limits).Follows ⟨g, limits⟩ target := by
  have hdeep : ∀ c ∈ target.chunks, c.depth + 1 < wordValues := by
    obtain ⟨limits, bytes, ⟨hm, hw⟩ | ⟨hm, hw⟩⟩ := ht
    · obtain ⟨ws, hrun⟩ := Grammar.outcome_ok hw
      exact (hexecutes hm).depths _ _ hrun
    · obtain ⟨ws, hrun⟩ := Grammar.outcome_ok hw
      exact (hexecutes hm).depths _ _ hrun
  refine ⟨rfl, fun decisions watches hdepths => ?_⟩
  have hm : Manageable limits (.decisions decisions) watches := by
    refine ⟨hstream, hfile, (fun _ h => by cases h), ?_⟩
    intro w hw d hd
    obtain ⟨c, hc, rfl⟩ := hdepths w hw d hd
    exact hdeep c hc
  exact (hexecutes hm).runs

theorem Grammar.mutatesLegally_of [ProductionKind K]
    (hladen : ∀ {limits : Limits} {origin : Origin} {watches ws : List (Watch K)} {w : Walk K},
      (g.runFrom limits origin watches).outcome = .ok (w, ws) →
      w.chunks ≠ [] ∧ ∀ c ∈ w.chunks, c.decisions.start < c.decisions.stop)
    (hexecutes : ∀ {limits : Limits} {origin : Origin} {watches : List (Watch K)},
      Manageable limits origin watches → Executes program g limits origin watches) :
    g.MutatesLegally program := by
  have hsliceable : ∀ files : List (CorpusFile K), (∀ f ∈ files, g.Makes f.walk) →
      ∀ f ∈ files, f.walk.Sliceable :=
    fun files hfiles f hf => (hfiles f hf).sliceable fun _ _ _ hrun => hladen hrun
  constructor
  case refusals =>
    intro ρ _ limits files hfiles target h r r' cause hrefused
    exact (mutate_legal (MachineMutator.ofMutator_follows _ _) (hsliceable files hfiles)
      (List.getElem?_eq_getElem h)).refusals r cause r' hrefused
  case slices =>
    intro ρ _ limits files hfiles target h r
    exact (mutate_legal (MachineMutator.ofMutator_follows _ _) (hsliceable files hfiles)
      (List.getElem?_eq_getElem h)).runs r
  case replays =>
    intro ρ _ limits files hstream hfile hfiles target h htarget r
    have hfollows := MachineMutator.ofProgram_follows hexecutes hstream hfile htarget
    exact (mutate_legal hfollows (hsliceable files hfiles) (List.getElem?_eq_getElem h)).runs r

/-- Random mutations of images among images, and of sounds among sounds, pick legal operands. -/
theorem formats_mutate_legally :
    png.grammar.MutatesLegally Png.program ∧ riff.grammar.MutatesLegally Riff.program :=
  ⟨Grammar.mutatesLegally_of Png.chunks_laden fun h =>
      Png.program_serves.executes (by decide) (Png.grammar_stops (by decide)) h,
    Grammar.mutatesLegally_of Riff.chunks_laden fun h =>
      Riff.program_serves.executes (by decide) (Riff.grammar_stops (by decide)) h⟩

def refusal? : EStateM.Result MutationError ρ α → Option Precondition
  | .error (.precondition cause) _ => some cause
  | _ => none

theorem refusal?_eq_some {result : EStateM.Result MutationError ρ α} {cause : Precondition}
    (h : refusal? result = some cause) : ∃ r, result = .error (.precondition cause) r := by
  rw [refusal?.eq_def] at h
  split at h
  case h_1 cause' r =>
    cases h
    exact ⟨r, rfl⟩
  case h_2 => cases h

/-- The end of an image is drawn for deletion, and nothing is behind it. -/
theorem formats_mutate_legally_stuck :
    ∃ w r, png.grammar.generate { streamCapacity := 64 } Png.shortest = .ok w ∧
      (Mutator.mk png.grammar { streamCapacity := 64 }).mutate (Corpus.ofFiles [⟨"image", w⟩]) 0
        (Cycle.mk #[128] 0) =
          .error (.precondition (.notDeletable ⟨"png.iend", "iend", true⟩ none)) r ∧
      Barred (Corpus.ofFiles [⟨"image", w⟩]) w (.notDeletable ⟨"png.iend", "iend", true⟩ none) := by
  have hrun : (png.grammar.generate { streamCapacity := 64 } Png.shortest).toOption.any
      (fun w => refusal? ((Mutator.mk png.grammar { streamCapacity := 64 }).mutate
        (Corpus.ofFiles [⟨"image", w⟩]) 0 (Cycle.mk #[128] 0)) ==
          some (.notDeletable ⟨"png.iend", "iend", true⟩ none)) = true := by
    decide +kernel
  obtain ⟨w, hw, hrefused⟩ := ok_of_any hrun
  obtain ⟨r, hr⟩ := refusal?_eq_some (eq_of_beq hrefused)
  have hmakes : ∀ f ∈ [(⟨"image", w⟩ : CorpusFile Png.Kind)], png.grammar.Makes f.walk :=
    List.forall_mem_singleton.2 ⟨_, _, Or.inr hw⟩
  exact ⟨w, r, hw, hr,
    formats_mutate_legally.1.refusals _ _ hmakes 0 (Nat.zero_lt_one) _ r _ hr⟩

end Formats

end DecisionWalk
