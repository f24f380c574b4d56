import DecisionWalk.Proofs.Strings

/-!
# What decides a draw

A draw looks at its stream and at the evil bit, and all it does is record. A
forced draw does not look at what is ahead either. So walks that stand at the
same place of equally large streams draw alike, whatever files they walk.
-/

set_option autoImplicit false

namespace DecisionWalk

variable {K α β : Type} {free : Prop}

inductive Cause where
  | violation (v : Violation)
  | capacity (resource : Resource) (limit : Nat)
  | defect (d : Defect)
  deriving DecidableEq, Repr

def Cause.raised : Cause → State K → WalkError
  | .violation v, s => .structural s.image.size s.tracker.path v
  | .capacity resource limit, _ => .capacityExceeded resource limit
  | .defect d, _ => .defect d

namespace Walker

def after (x : Walker K α) (s : State K) : State K :=
  match x s with
  | .ok _ t => t
  | .error _ t => t

theorem after_ok {x : Walker K α} {a : α} {s t : State K} (h : x s = .ok a t) : x.after s = t := by
  rw [after, h]

theorem after_error {x : Walker K α} {e : WalkError} {s t : State K} (h : x s = .error e t) :
    x.after s = t := by
  rw [after, h]

def ending : Except Cause α → Walker K α
  | .ok a => pure a
  | .error cause => fun s => .error (cause.raised s) s

/-- What comes behind a forced coin is told that coin. -/
theorem forcedCoin_bind {coin : Nat} (h : coin < 256) (f : Nat → Walker K α) :
    (decideBelow 256 (some coin) >>= f) =
      (putDecision coin 1 >>= fun _ => f coin) := by
  have hw : Sampler.decisionWidth 256 = 1 := Sampler.decisionWidth_eq_one _ (by decide) (by decide)
  simp only [decideBelow, hw, Nat.one_ne_zero, if_false, if_pos h, bind_assoc, pure_bind]

section Known

variable [DecidableEq α] {known : List α} {draw : Option α → Walker K α}

theorem chooseKnown_empty (found : Option α) (draw : Option α → Walker K α) :
    chooseKnown found [] draw = violation .nothingKnown := by
  funext s
  exact bind_error rfl

theorem chooseKnown_known {v : α} (hv : v ∈ known) :
    chooseKnown (some v) known draw =
      (putDecision EvilBit.goodCoin 1 >>= fun _ => drawIndexed known (some v)) := by
  have hafter : afterCoin known draw EvilBit.goodCoin (some v) = drawIndexed known (some v) :=
    funext fun t => coinFor_known hv ▸ afterCoin_known draw hv (some v) t
  funext s
  rw [chooseKnown_some known draw v s (List.ne_nil_of_mem hv) (Or.inl hv), coinFor_known hv,
    forcedCoin_bind (by decide), hafter]

theorem chooseKnown_unknown {v : α} (hk : known ≠ []) (hv : v ∉ known) :
    chooseKnown (some v) known draw = (do
      let s ← MonadState.get
      if s.evil.allowed then
        putDecision EvilBit.evilCoin 1
        draw (some v)
      else violation .notKnown) := by
  funext s
  rw [get_bind]
  split
  case isTrue hs =>
    rw [chooseKnown_some known draw v s hk (Or.inr hs), coinFor_unknown hv,
      forcedCoin_bind (by decide)]
    cases hp : putDecision EvilBit.evilCoin 1 s with
    | ok u t =>
      rw [bind_run hp, bind_run hp]
      obtain ⟨-, rfl⟩ := put_ok hp
      exact coinFor_unknown hv ▸ afterCoin_evil draw hv (some v) _ hs
    | error e t => rw [bind_error hp, bind_error hp]
  case isFalse hs =>
    have he : ¬ known.isEmpty = true := by simpa using hk
    unfold chooseKnown
    rw [if_neg he]
    refine (get_bind _ s).trans ?_
    dsimp only [Option.map_some]
    rw [if_pos ⟨congrArg some (findIdx_of_not_mem hv), Bool.eq_false_iff.2 hs⟩]
    exact bind_error rfl

end Known

end Walker

open Walker

structure SamePlace (free : Prop) (s t : State K) : Prop where
  position : t.stream.position = s.stream.position
  capacity : t.stream.capacity = s.stream.capacity
  evil : t.evil = s.evil
  ahead : free → t.stream.ahead = s.stream.ahead

theorem SamePlace.refl (s : State K) : SamePlace free s s := ⟨rfl, rfl, rfl, fun _ => rfl⟩

theorem SamePlace.recorded {s t : State K} (h : SamePlace free s t) (e : Bytes) :
    SamePlace free (s.recorded e) (t.recorded e) := by
  refine ⟨?_, h.capacity, h.evil, fun hf => ?_⟩
  · simp [h.position]
  · simp [h.ahead hf]

def Stream.Admits (s : Stream) (e : Bytes) : Prop :=
  s.length ≤ s.capacity → s.position + e.length ≤ s.capacity

theorem Stream.admits_nil (s : Stream) : s.Admits [] := by
  intro h
  rw [length, ← position] at h
  rw [List.length_nil]
  omega

theorem Stream.recorded_length_le {s : Stream} {e : Bytes} (h : s.Admits e)
    (hs : s.length ≤ s.capacity) : (s.recorded e).length ≤ s.capacity := by
  have he := h hs
  have hp := s.recorded_position e
  rw [length, ← position] at hs ⊢
  rw [hp, recorded_ahead, List.length_drop]
  omega

theorem Stream.admits_append {s : Stream} {e d : Bytes} (he : s.Admits e)
    (hd : (s.recorded e).Admits d) : s.Admits (e ++ d) := by
  intro h
  have h2 := hd (recorded_length_le he h)
  rw [recorded_position, recorded_capacity] at h2
  rw [List.length_append]
  omega

/-- Only the stream and the evil bit decide how the action ends, and all it does is record. Unless
it is `free`, it does not look at what is ahead. -/
def Draws (free : Prop) (x : Walker K α) : Prop :=
  ∀ s, ∃ e o, s.stream.Admits e ∧ ∀ t, SamePlace free s t → x t = ending o (t.recorded e)

namespace Draws

theorem forced (v : α) : some v = none → free := fun h => absurd h (Option.some_ne_none v)

/-- A draw leaves everything but the stream. -/
theorem after {x : Walker K α} (hx : Draws True x) (s : State K) :
    ∃ e, x.after s = s.recorded e := by
  obtain ⟨e, o, -, hrun⟩ := hx s
  refine ⟨e, ?_⟩
  cases o with
  | ok a => exact after_ok (hrun s (.refl s))
  | error cause => exact after_error (hrun s (.refl s))

/-- A forced draw is one that could look ahead. -/
theorem freely {x : Walker K α} (hx : Draws False x) : Draws True x := by
  intro s
  obtain ⟨e, o, he, hrun⟩ := hx s
  exact ⟨e, o, he, fun t ht => hrun t ⟨ht.position, ht.capacity, ht.evil, fun h => h.elim⟩⟩

theorem ending (o : Except Cause α) : Draws free (ending o : Walker K α) := by
  intro s
  exact ⟨[], o, s.stream.admits_nil, fun t _ => by rw [State.recorded_nil]⟩

theorem pure (a : α) : Draws free (pure a : Walker K α) := ending (.ok a)

theorem violation (v : Violation) : Draws free (violation v : Walker K α) :=
  ending (.error (.violation v))

theorem defect (d : Defect) : Draws free (throw (.defect d) : Walker K α) :=
  ending (.error (.defect d))

theorem bind {x : Walker K α} {f : α → Walker K β} (hx : Draws free x)
    (hf : ∀ a, Draws free (f a)) : Draws free (x >>= f) := by
  intro s
  obtain ⟨e, o, he, hrun⟩ := hx s
  cases o with
  | error cause =>
    refine ⟨e, .error cause, he, ?_⟩
    intro t ht
    exact bind_error (hrun t ht)
  | ok a =>
    obtain ⟨d, o, hd, hrun'⟩ := hf a (s.recorded e)
    refine ⟨e ++ d, o, Stream.admits_append he hd, ?_⟩
    intro t ht
    rw [bind_run (hrun t ht), hrun' _ (ht.recorded e), State.recorded_recorded]

/-- Walks on a level have the same evil bit. -/
theorem get {f : State K → Walker K α} (hf : ∀ s, Draws free (f s))
    (hsame : ∀ s t, t.evil = s.evil → f t = f s) : Draws free (get >>= f) := by
  intro s
  obtain ⟨e, o, he, hrun⟩ := hf s s
  refine ⟨e, o, he, ?_⟩
  intro t ht
  rw [get_bind, hsame s t ht.evil]
  exact hrun t ht

theorem ite {p : Prop} [Decidable p] {x y : Walker K α} (hx : Draws free x) (hy : Draws free y) :
    Draws free (if p then x else y) := by
  split
  · exact hx
  · exact hy

theorem mapM {f : α → Walker K β} (hf : ∀ a, Draws free (f a)) (xs : List α) :
    Draws free (xs.mapM f) := by
  induction xs with
  | nil => exact pure _
  | cons x xs ih =>
    rw [List.mapM_cons]
    exact (hf x).bind fun _ => ih.bind fun _ => pure _

theorem takeDecision (hf : free) (n : Nat) : Draws free (takeDecision n : Walker K Nat) := by
  intro s
  by_cases hn : n ≤ s.stream.ahead.length
  · have hsplit : s.stream.ahead = s.stream.ahead.take n ++ s.stream.ahead.drop n :=
      (List.take_append_drop n _).symm
    have hlen : (s.stream.ahead.take n).length = n := List.length_take_of_le hn
    refine ⟨s.stream.ahead.take n, .ok (leValue (s.stream.ahead.take n)), ?_, ?_⟩
    · intro hs
      rw [Stream.length, ← Stream.position] at hs
      omega
    · intro t ht
      have hrun := take_run (s := t) _ _ ((ht.ahead hf).trans hsplit)
      rw [hlen] at hrun
      exact hrun
  · refine ⟨[], .error (.capacity .stream s.stream.length), s.stream.admits_nil, ?_⟩
    intro t ht
    have hlen : t.stream.length = s.stream.length := by
      rw [Stream.length, Stream.length, ← Stream.position, ← Stream.position, ht.position,
        ht.ahead hf]
    have hpeek : t.stream.peek? n = none := by
      rw [Stream.peek?, ht.ahead hf]
      exact if_pos (by rw [List.length_take]; omega)
    rw [Walker.takeDecision, hpeek, State.recorded_nil, hlen]
    rfl

theorem putDecision (v n : Nat) : Draws free (putDecision v n : Walker K Unit) := by
  intro s
  by_cases hc : s.stream.position + n ≤ s.stream.capacity
  · refine ⟨leBytes n v, .ok (), fun _ => by rw [length_leBytes]; exact hc, ?_⟩
    intro t ht
    exact put_run v n (by rw [ht.position, ht.capacity]; exact hc)
  · refine ⟨[], .error (.capacity .stream s.stream.capacity), s.stream.admits_nil, ?_⟩
    intro t ht
    rw [Walker.putDecision, ht.position, ht.capacity, if_neg hc, State.recorded_nil]
    rfl

theorem decideBelow (bound : Nat) {forced : Option Nat} (hf : forced = none → free) :
    Draws free (decideBelow bound forced : Walker K Nat) := by
  apply ite (pure 0)
  cases forced with
  | none => exact (takeDecision (hf rfl) _).bind fun _ => pure _
  | some v => exact ite ((putDecision _ _).bind fun _ => pure _) (defect _)

theorem decideRaw (width : Nat) {forced : Option Nat} (hf : forced = none → free) :
    Draws free (decideRaw width forced : Walker K Nat) := by
  apply ite (pure 0)
  cases forced with
  | none => exact takeDecision (hf rfl) _
  | some v => exact (putDecision _ _).bind fun _ => pure _

theorem sampleSmall (width : Nat) {forced : Option Nat} (hf : forced = none → free) :
    Draws free (sampleSmall width forced : Walker K Nat) := by
  have hmap : ∀ f : Nat → Nat, forced.map f = none → free := fun f h =>
    hf (Option.map_eq_none_iff.1 h)
  rw [sampleSmall_eq]
  apply (decideBelow _ (hmap _)).bind
  intro selector
  apply bind
  · cases Tier.ofSelector selector with
    | tiny => exact decideBelow Sampler.tinyValues (hmap _)
    | byte => exact (decideRaw 1 (hmap _)).bind fun _ => pure _
    | wide => exact (decideRaw (min width 2) (hmap _)).bind fun _ => pure _
    | full => exact (decideRaw width (hmap _)).bind fun _ => pure _
  · intro raw
    exact pure _

section Known

variable [DecidableEq α] {draw : Option α → Walker K α}

theorem drawIndexed {found : Option α} (known : List α)
    (hf : (found.bind fun v => known.findIdx? (· == v)) = none → free) :
    Draws free (drawIndexed known found : Walker K α) := by
  apply (decideBelow _ hf).bind
  intro choice
  rw [pick]
  cases known[choice]? with
  | none => exact defect _
  | some v => exact pure v

theorem chooseKnown (known : List α) {found : Option α} (hf : found = none → free)
    (hd : Draws free (draw found)) : Draws free (Walker.chooseKnown found known draw) := by
  by_cases hk : known = []
  · rw [hk, chooseKnown_empty]
    exact violation _
  · cases found with
    | none =>
      rw [chooseKnown_none known draw hk]
      apply (decideBelow 256 fun _ => hf rfl).bind
      intro coin
      exact get (fun s => ite hd (drawIndexed known fun _ => hf rfl)) fun s t h => by rw [h]
    | some v =>
      by_cases hv : v ∈ known
      · obtain ⟨i, hi⟩ := findIdx_of_mem hv
        rw [chooseKnown_known hv]
        exact (putDecision _ _).bind fun _ => drawIndexed known fun h => forced i (hi.symm.trans h)
      · rw [chooseKnown_unknown hk hv]
        exact get (fun s => ite ((putDecision _ _).bind fun _ => hd) (violation _))
          fun s t h => by rw [h]

end Known

theorem drawSymbol (a : Alphabet) {b : Option UInt8} (hf : b = none → free) :
    Draws free (drawSymbol a b : Walker K UInt8) := by
  cases b with
  | none => exact (decideBelow _ fun _ => hf rfl).bind fun _ => pure _
  | some b =>
    rw [Walker.drawSymbol]
    split
    · exact (decideBelow _ (forced _)).bind fun _ => pure _
    · exact defect _

theorem drawFresh (hf : free) (a : Alphabet) (n : Nat) (drawn : Bytes) :
    Draws free (drawFresh a n drawn : Walker K Bytes) := by
  induction n generalizing drawn with
  | zero => exact pure _
  | succ n ih => exact (drawSymbol a fun _ => hf).bind fun b => ih _

theorem drawSymbols (a : Alphabet) (n : Nat) {found : Option Bytes} (hf : found = none → free) :
    Draws free (drawSymbols a n found : Walker K Bytes) := by
  cases found with
  | none => exact drawFresh (hf rfl) a n []
  | some bs => exact mapM (fun b => drawSymbol a (forced b)) bs

theorem stringCoin {found : Option Bytes} (hf : found = none → free) :
    Draws free (stringCoin found : Walker K Bool) :=
  (decideBelow _ fun h => hf (Option.map_eq_none_iff.1 h)).bind fun _ => pure _

theorem drawText (other : Alphabet) (n : Nat) {found : Option Bytes} (hf : found = none → free) :
    Draws free (drawText other n found : Walker K Bytes) := by
  apply (stringCoin hf).bind
  intro restricted
  exact drawSymbols _ n hf

end Draws

end DecisionWalk
