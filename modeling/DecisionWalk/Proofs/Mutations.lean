import DecisionWalk.Mutation.Random
import DecisionWalk.Proofs.PngRoundTrip
import DecisionWalk.Proofs.Replaying
import DecisionWalk.Proofs.RiffRoundTrip
import DecisionWalk.Random.Cycle

/-!
# What mutations yield

Every mutation ends in a replay of spliced decisions, whatever was spliced and
whether or not the splice was exact. What the replay recorded regenerates the
file, and a faithful grammar parses what it generates.
-/

set_option autoImplicit false

namespace DecisionWalk

namespace Mutator

variable {K ρ α : Type} [DecidableEq K] [ProductionKind K] [RandomSource ρ]

inductive Makes (m : Mutator K) (result : Mutation K) : Prop where
  | replace {ρ : Type} [RandomSource ρ] {r r' : ρ} {target : Walk K} {chunk donor : Chunk K}
      {decisions : Bytes} (h : m.replace target chunk donor decisions r = .ok result r')
  | insert {ρ : Type} [RandomSource ρ] {r r' : ρ} {target : Walk K} {point : InsertionPoint K}
      {donor : Chunk K} {decisions : Bytes}
      (h : m.insert target point donor decisions r = .ok result r')
  | delete {ρ : Type} [RandomSource ρ] {r r' : ρ} {target : Walk K} {chunk : Chunk K}
      (h : m.delete target chunk r = .ok result r')
  | abstract {ρ : Type} [RandomSource ρ] {r r' : ρ} {target : Walk K} {chunk : Chunk K}
      (h : m.abstractChunk target chunk r = .ok result r')
  | swap {ρ : Type} [RandomSource ρ] {r r' : ρ} {target : Walk K} {a b : Chunk K}
      (h : m.swap target a b r = .ok result r')
  | mutate {ρ : Type} [RandomSource ρ] {r r' : ρ} {corpus : Corpus K} {target : Nat}
      (h : m.mutate corpus target r = .ok result r')

def Replays (m : Mutator K) (x : Mutating ρ (Mutation K)) : Prop :=
  ∀ r result r', x r = .ok result r' →
    ∃ decisions watches watches',
      m.grammar.replay m.limits decisions watches = .ok (result.walk, watches')

namespace Replays

variable {m : Mutator K}

omit [ProductionKind K] [RandomSource ρ] in
theorem refuse (cause : Precondition) : m.Replays (refuse cause : Mutating ρ (Mutation K)) := by
  intro r result r' h
  cases h

omit [ProductionKind K] [RandomSource ρ] in
theorem bind (x : Mutating ρ α) {f : α → Mutating ρ (Mutation K)} (hf : ∀ a, m.Replays (f a)) :
    m.Replays (x >>= f) := by
  intro r result r' h
  replace h : EStateM.bind x f r = .ok result r' := h
  rw [EStateM.bind] at h
  split at h
  case h_1 a s hx => exact hf a s result r' h
  case h_2 => cases h

omit [ProductionKind K] [RandomSource ρ] in
theorem guarded {p : Prop} [Decidable p] (x : Mutating ρ α) {y : Mutating ρ (Mutation K)}
    (hy : m.Replays y) : m.Replays (if p then x >>= fun _ => y else y) := by
  split
  · exact bind x fun _ => hy
  · exact hy

omit [ProductionKind K] [RandomSource ρ] in
theorem regenerate (operation : Operation) (decisions : Bytes) (watches : List (Watch K)) :
    m.Replays (MonadExcept.ofExcept (m.regenerate operation decisions watches) :
      Mutating ρ (Mutation K)) := by
  intro r result r' h
  cases hx : m.regenerate operation decisions watches with
  | error e =>
    rw [hx] at h
    cases h
  | ok made =>
    rw [hx] at h
    cases h
    rw [Mutator.regenerate] at hx
    split at hx
    case h_1 => cases hx
    case h_2 walk watches' hreplay =>
      split at hx
      case h_1 => cases hx
      case h_2 =>
        cases hx
        exact ⟨decisions, watches, watches', hreplay⟩

theorem replace (target : Walk K) (chunk donor : Chunk K) (decisions : Bytes) :
    m.Replays (m.replace target chunk donor decisions : Mutating ρ (Mutation K)) :=
  guarded _ (bind _ fun _ => bind _ fun _ => regenerate _ _ _)

theorem insert (target : Walk K) (point : InsertionPoint K) (donor : Chunk K) (decisions : Bytes) :
    m.Replays (m.insert target point donor decisions : Mutating ρ (Mutation K)) :=
  guarded _ (guarded _ (bind _ fun _ => bind _ fun _ => regenerate _ _ _))

theorem delete (target : Walk K) (chunk : Chunk K) :
    m.Replays (m.delete target chunk : Mutating ρ (Mutation K)) :=
  guarded _ (guarded _ (bind _ fun _ => regenerate _ _ _))

omit [ProductionKind K] in
theorem abstractChunk (target : Walk K) (chunk : Chunk K) :
    m.Replays (m.abstractChunk target chunk : Mutating ρ (Mutation K)) :=
  bind _ fun _ => bind _ fun _ => regenerate _ _ _

theorem swap (target : Walk K) (a b : Chunk K) :
    m.Replays (m.swap target a b : Mutating ρ (Mutation K)) := by
  have hordered : ∀ first second,
      m.Replays (m.swapOrdered target first second : Mutating ρ (Mutation K)) := fun _ _ =>
    guarded _ (bind _ fun _ => regenerate _ _ _)
  apply guarded
  split
  · exact hordered a b
  · exact hordered b a

theorem mutate (corpus : Corpus K) (target : Nat) :
    m.Replays (m.mutate corpus target : Mutating ρ (Mutation K)) := by
  rw [Mutator.mutate]
  split
  case h_1 => exact refuse _
  case h_2 file _ =>
    apply bind
    intro choice
    split
    · apply bind
      intro chunk
      apply bind
      intro donor
      cases donor with
      | none => exact refuse _
      | some donor => exact bind _ fun _ => replace _ _ _ _
    · apply bind
      intro point
      apply bind
      intro donor
      cases donor with
      | none => exact refuse _
      | some donor => exact bind _ fun _ => insert _ _ _ _
    · exact bind _ fun _ => delete _ _
    · exact bind _ fun _ => abstractChunk _ _
    · exact bind _ fun _ => bind _ fun _ => swap _ _ _

end Replays

theorem Makes.replayed {m : Mutator K} {result : Mutation K} (h : m.Makes result) :
    ∃ decisions watches watches',
      m.grammar.replay m.limits decisions watches = .ok (result.walk, watches') := by
  cases h with
  | replace h => exact Replays.replace _ _ _ _ _ _ _ h
  | insert h => exact Replays.insert _ _ _ _ _ _ _ h
  | delete h => exact Replays.delete _ _ _ _ _ h
  | abstract h => exact Replays.abstractChunk _ _ _ _ _ h
  | swap h => exact Replays.swap _ _ _ _ _ _ h
  | mutate h => exact Replays.mutate _ _ _ _ _ h

end Mutator

variable {K : Type} [DecidableEq K]

def Reproducible (g : Grammar K Unit) (limits : Limits) (w : Walk K) : Prop :=
  (∃ p, g.parse limits w.file = .ok p ∧ p.file = w.file) ∧
    ∃ q, g.generate limits w.decisions = .ok q ∧ q.file = w.file

/-- Mutations of the files of a faithful grammar are files of it. -/
theorem Faithful.makes [ProductionKind K] {g : Grammar K Unit} (hg : Faithful g) {limits : Limits}
    (hcap : limits.fileCapacity ≤ 2 ^ 32) {result : Mutation K}
    (h : (Mutator.mk g limits).Makes result) : Reproducible g limits result.walk := by
  obtain ⟨decisions, watches, watches', hreplay⟩ := h.replayed
  obtain ⟨hlen, hgen⟩ := Grammar.replay_retold hreplay
  have hself : g.generate limits result.walk.decisions = .ok result.walk := by
    have h := hgen [] hlen
    rw [List.append_nil] at h
    exact h
  obtain ⟨-, p, hparse, hfile, -⟩ := hg.parses hcap hself
  exact ⟨⟨p, hparse, hfile⟩, result.walk, hself, rfl⟩

/-- Whatever an operation makes of whatever walks, and with whatever randomness, is a file of the
format, and the decisions that come with it regenerate it. -/
theorem mutation_reproducible {limits : Limits} (hcap : limits.fileCapacity ≤ 2 ^ 32) :
    (∀ result, (Mutator.mk png.grammar limits).Makes result →
      Reproducible png.grammar limits result.walk) ∧
    ∀ result, (Mutator.mk riff.grammar limits).Makes result →
      Reproducible riff.grammar limits result.walk :=
  ⟨fun _ => Png.png_faithful.makes hcap, fun _ => Riff.riff_faithful.makes hcap⟩

def Mutator.abstracts (m : Mutator K) (decisions : Bytes) (slot : Nat) (r : Cycle) : Bool :=
  (m.grammar.generate m.limits decisions).toOption.any fun w =>
    w.chunks[slot]?.any fun chunk =>
      match m.abstractChunk w chunk r with
      | .ok _ _ => true
      | .error _ _ => false

theorem Mutator.abstracts_ok {m : Mutator K} {decisions : Bytes} {slot : Nat} {r : Cycle}
    (h : m.abstracts decisions slot r = true) :
    ∃ w chunk result r', m.grammar.generate m.limits decisions = .ok w ∧
      w.chunks[slot]? = some chunk ∧ m.abstractChunk w chunk r = .ok result r' := by
  obtain ⟨w, hw, h⟩ := ok_of_any h
  cases hc : w.chunks[slot]? with
  | none =>
    rw [hc] at h
    cases h
  | some chunk =>
    cases hx : m.abstractChunk w chunk r with
    | ok result r' => exact ⟨w, chunk, result, r', hw, hc, hx⟩
    | error e r' => simp [hc, hx] at h

/-- The header of an image and the list of a sound, regenerated from random decisions. -/
theorem mutation_reproducible_abstracted :
    (∃ w chunk result r', png.grammar.generate { streamCapacity := 64 } Png.shortest = .ok w ∧
      w.chunks[2]? = some chunk ∧
      (Mutator.mk png.grammar { streamCapacity := 64 }).abstractChunk w chunk (Cycle.mk #[1] 0) =
        .ok result r' ∧
      Reproducible png.grammar { streamCapacity := 64 } result.walk) ∧
    ∃ w chunk result r', riff.grammar.generate { streamCapacity := 64 } Riff.listed = .ok w ∧
      w.chunks[2]? = some chunk ∧
      (Mutator.mk riff.grammar { streamCapacity := 64 }).abstractChunk w chunk (Cycle.mk #[200] 0) =
        .ok result r' ∧
      Reproducible riff.grammar { streamCapacity := 64 } result.walk := by
  have hpng : (Mutator.mk png.grammar { streamCapacity := 64 }).abstracts Png.shortest 2 ⟨#[1], 0⟩ =
      true := by
    decide +kernel
  have hriff : (Mutator.mk riff.grammar { streamCapacity := 64 }).abstracts Riff.listed 2
      ⟨#[200], 0⟩ = true := by
    decide +kernel
  obtain ⟨w, chunk, result, r', hw, hc, hx⟩ := Mutator.abstracts_ok hpng
  obtain ⟨v, chunk', result', q', hv, hc', hx'⟩ := Mutator.abstracts_ok hriff
  have hcap : ({ streamCapacity := 64 } : Limits).fileCapacity ≤ 2 ^ 32 := by decide
  have h := mutation_reproducible hcap
  exact ⟨⟨w, chunk, result, r', hw, hc, hx, h.1 result (.abstract hx)⟩,
    v, chunk', result', q', hv, hc', hx', h.2 result' (.abstract hx')⟩

end DecisionWalk
