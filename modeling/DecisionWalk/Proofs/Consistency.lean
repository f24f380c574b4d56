import DecisionWalk.Proofs.Passing
import DecisionWalk.Proofs.Replaying

/-!
# Consistency of a walk

A walk may be called upon in any order, and go on after a call that failed. Its
stream and its image stay consistent all the same: the cursors stay within what
they point into, what was consumed stays as it was, only fixed bytes count
towards the size of a file, and a structural error tells that size.
-/

set_option autoImplicit false

namespace DecisionWalk

open Walker Image

variable {K : Type} {s t u : State K}

namespace Image

structure Coherent (m : Mode) (im : Image) : Prop where
  sizes : im.fixed.size = im.bytes.size
  size_le : im.size ≤ im.bytes.size
  fixed_lt : ∀ i, im.fixedAt i = true → i < im.size
  input : im.inputLength? = if m = .parse then some im.bytes.size else none
  within : m = .generate → im.bytes.size ≤ im.capacity
  blank : m = .generate → ∀ i, im.fixedAt i = false → im.byteAt i = 0

theorem store_bytes_size (im : Image) (p : Nat) (bs : Bytes) :
    (im.store p bs).bytes.size = max im.bytes.size (p + bs.length) := by
  simp only [store]
  rw [overwrite_size _ _ _ (by rw [extend_size]; omega), extend_size]
  omega

namespace Coherent

variable {m : Mode} {im : Image}

theorem moveTo (h : im.Coherent m) (p : Nat) : (im.moveTo p).Coherent m :=
  ⟨h.sizes, h.size_le, h.fixed_lt, h.input, h.within, h.blank⟩

theorem store (h : im.Coherent .generate) {p : Nat} {bs : Bytes}
    (hroom : p + bs.length ≤ im.capacity) : (im.store p bs).Coherent .generate := by
  have hbytes := store_bytes_size im p bs
  have hle := h.size_le
  have hwithin := h.within rfl
  have hsize : (im.store p bs).size = max im.size (p + bs.length) := rfl
  refine ⟨store_sizes im p bs h.sizes, by omega, ?_, h.input, ?_, ?_⟩
  · intro i hi
    rw [fixedAt_store] at hi
    rcases Bool.or_eq_true_iff.1 hi with hi | hi
    · have := h.fixed_lt i hi
      omega
    · have := of_decide_eq_true hi
      omega
  · intro _
    show (im.store p bs).bytes.size ≤ im.capacity
    omega
  · intro _ i hi
    rw [fixedAt_store] at hi
    obtain ⟨hfree, hout⟩ := Bool.or_eq_false_iff.1 hi
    rw [byteAt_store, if_neg (of_decide_eq_false hout)]
    exact h.blank rfl i hfree

theorem mark (h : im.Coherent .parse) {p n : Nat} (hin : p + n ≤ im.bytes.size) :
    (im.mark p n).Coherent .parse := by
  have hbytes := mark_bytes im p n hin
  have hle := h.size_le
  have hsize : (im.mark p n).size = max im.size (p + n) := rfl
  refine ⟨?_, ?_, ?_, ?_, fun hm => absurd hm (by decide), fun hm => absurd hm (by decide)⟩
  · rw [mark_fixed_size im p n (h.sizes ▸ hin), hbytes, h.sizes]
  · rw [hbytes]
    omega
  · intro i hi
    rw [fixedAt_mark] at hi
    rcases Bool.or_eq_true_iff.1 hi with hi | hi
    · have := h.fixed_lt i hi
      omega
    · have := of_decide_eq_true hi
      omega
  · rw [hbytes]
    exact h.input

end Coherent

end Image

structure Onward (s t : State K) : Prop where
  mode : t.mode = s.mode
  streamCapacity : t.stream.capacity = s.stream.capacity
  fileCapacity : t.image.capacity = s.image.capacity
  consumed : s.stream.consumed <+: t.stream.consumed
  within : s.stream.length ≤ s.stream.capacity → t.stream.length ≤ t.stream.capacity
  input : s.mode = .parse → t.image.bytes = s.image.bytes
  coherent : s.image.Coherent s.mode → t.image.Coherent t.mode

namespace Onward

theorem trans (h : Onward s t) (h' : Onward t u) : Onward s u where
  mode := h'.mode.trans h.mode
  streamCapacity := h'.streamCapacity.trans h.streamCapacity
  fileCapacity := h'.fileCapacity.trans h.fileCapacity
  consumed := h.consumed.trans h'.consumed
  within hs := h'.within (h.within hs)
  input hm := (h'.input (h.mode.trans hm)).trans (h.input hm)
  coherent hs := h'.coherent (h.coherent hs)

/-- Steps that change neither the stream nor the bytes of the image. -/
theorem aside (hm : t.mode = s.mode) (hs : t.stream = s.stream)
    (hi : t.image = s.image.moveTo t.image.cursor) : Onward s t where
  mode := hm
  streamCapacity := congrArg Stream.capacity hs
  fileCapacity := by
    rw [hi]
    rfl
  consumed := hs ▸ List.prefix_refl _
  within h := hs ▸ h
  input _ := by
    rw [hi]
    rfl
  coherent h := by
    rw [hm, hi]
    exact h.moveTo _

theorem refl (s : State K) : Onward s s := aside rfl rfl rfl

theorem moved (s : State K) (p : Nat) : Onward s (s.movedTo p) := aside rfl rfl rfl

theorem recorded (s : State K) {e : Bytes} (h : s.stream.Admits e) : Onward s (s.recorded e) where
  mode := rfl
  streamCapacity := rfl
  fileCapacity := rfl
  consumed := ⟨e, (Stream.recorded_consumed s.stream e).symm⟩
  within hs := Stream.recorded_length_le h hs
  input _ := rfl
  coherent hs := hs

theorem writes {bs : Bytes} (hm : s.mode = .generate)
    (h : s.image.cursor + bs.length ≤ s.image.capacity) :
    Onward s (s.touching bs.length
      ((s.image.store s.image.cursor bs).moveTo (s.image.cursor + bs.length))) where
  mode := rfl
  streamCapacity := rfl
  fileCapacity := rfl
  consumed := List.prefix_refl _
  within hs := hs
  input hp := absurd (hm.symm.trans hp) (by decide)
  coherent hs := by
    have hc : s.image.Coherent .generate := hm ▸ hs
    show Coherent s.mode _
    rw [hm]
    exact (hc.store h).moveTo _

theorem marks {bs : Bytes} (hm : s.mode = .parse) (h : s.image.Stands bs) :
    Onward s (s.touching bs.length
      ((s.image.mark s.image.cursor bs.length).moveTo (s.image.cursor + bs.length))) where
  mode := rfl
  streamCapacity := rfl
  fileCapacity := rfl
  consumed := List.prefix_refl _
  within hs := hs
  input _ := mark_bytes s.image s.image.cursor bs.length h.1
  coherent hs := by
    have hc : s.image.Coherent .parse := hm ▸ hs
    show Coherent s.mode _
    rw [hm]
    exact (hc.mark h.1).moveTo _

end Onward

theorem Passes.onward (h : Passes s t) : Onward s t := by
  induction h with
  | still s => exact .refl s
  | trans h1 h2 ih1 ih2 => exact ih1.trans ih2
  | records s e h => exact .recorded s h
  | writes s bs hm h => exact .writes hm h
  | marks s bs hm h => exact .marks hm h
  | moves s p h => exact .moved s p
  | tosses s e h => exact (Onward.recorded s h).trans (.aside rfl rfl rfl)
  | looks offset h ih => exact (Onward.moved _ _).trans (ih.trans (.aside rfl rfl rfl))
  | returns offset h ih => exact (Onward.moved _ _).trans (ih.trans (.moved _ _))
  | tempts s evil => exact .aside rfl rfl rfl
  | turns s order => exact .aside rfl rfl rfl
  | logs s log => exact .aside rfl rfl rfl

structure Kept (s t : State K) : Prop extends Onward s t where
  cursor : s.image.cursor ≤ s.image.size → t.image.cursor ≤ t.image.size

namespace Kept

theorem refl (s : State K) : Kept s s := ⟨.refl s, fun h => h⟩

theorem trans (h : Kept s t) (h' : Kept t u) : Kept s u :=
  ⟨h.toOnward.trans h'.toOnward, fun hs => h'.cursor (h.cursor hs)⟩

end Kept

theorem Passes.kept (h : Passes s t) : Kept s t := ⟨h.onward, h.cursor_le⟩

structure Consistent (origin : Origin) (start s : State K) : Prop where
  position_le : s.stream.position ≤ s.stream.length
  length_le : s.stream.length ≤ s.stream.capacity
  capacity : s.stream.capacity = start.stream.capacity
  sizes : s.image.bytes.size = s.image.fixed.size
  cursor_le : s.image.cursor ≤ s.image.size
  size_le : s.image.size ≤ s.image.bytes.size
  fixed_lt : ∀ i, s.image.fixedAt i = true → i < s.image.size
  file : match origin with
    | .decisions _ => s.mode = .generate ∧ s.image.bytes.size ≤ start.image.capacity ∧
        ∀ i, s.image.fixedAt i = false → s.image.byteAt i = 0
    | .input bytes => s.mode = .parse ∧ s.image.bytes.toList = bytes ∧
        s.image.size ≤ bytes.length

def Origin.mode : Origin → Mode
  | .decisions _ => .generate
  | .input _ => .parse

structure Seeded (origin : Origin) (start s : State K) : Prop where
  mode : s.mode = origin.mode
  streamCapacity : s.stream.capacity = start.stream.capacity
  fileCapacity : s.image.capacity = start.image.capacity
  within : s.stream.length ≤ s.stream.capacity
  cursor : s.image.cursor ≤ s.image.size
  input : ∀ bytes, origin = .input bytes → s.image.bytes = bytes.toArray
  coherent : s.image.Coherent s.mode

theorem Image.coherent_empty (capacity : Nat) : (empty capacity).Coherent .generate := by
  refine ⟨rfl, Nat.le_refl _, ?_, rfl, fun _ => Nat.zero_le _, ?_⟩
  · intro i hi
    simp [empty, fixedAt] at hi
  · intro _ i _
    simp [empty, byteAt]

theorem Image.coherent_forInput (im : Image) (input : Bytes) :
    (im.forInput input).Coherent .parse := by
  refine ⟨by simp [forInput], Nat.zero_le _, ?_, by simp [forInput],
    fun hm => absurd hm (by decide), fun hm => absurd hm (by decide)⟩
  intro i hi
  simp only [forInput, fixedAt, Array.getElem?_replicate] at hi
  split at hi
  · cases hi
  · cases hi

theorem Grammar.seed_seeded {origin : Origin} {start s : State K}
    (h : seed origin start = .ok () s) : Seeded origin start s := by
  cases origin with
  | decisions bytes =>
    rw [seed, seedGenerate, Stream.seed] at h
    by_cases hl : bytes.length ≤ start.stream.capacity
    · rw [if_pos hl] at h
      cases h
      refine ⟨rfl, rfl, rfl, ?_, Nat.le_refl _, ?_, coherent_empty _⟩
      · show 0 + bytes.length ≤ start.stream.capacity
        omega
      · intro input ho
        cases ho
    · rw [if_neg hl] at h
      cases h
  | input bytes =>
    cases h
    refine ⟨rfl, rfl, rfl, Nat.zero_le _, Nat.le_refl _, ?_, coherent_forInput _ _⟩
    intro input ho
    cases ho
    rfl

theorem Seeded.watching {origin : Origin} {start : State K} (hs : Seeded origin start s)
    (watches : List (Watch K)) : Seeded origin start { s with watches := watches } :=
  ⟨hs.mode, hs.streamCapacity, hs.fileCapacity, hs.within, hs.cursor, hs.input, hs.coherent⟩

theorem State.finish_raised {offset : Nat} {path : String} {v : Violation}
    (h : s.finish = .error (.structural offset path v)) : offset = s.image.size := by
  rw [finish] at h
  dsimp only at h
  split at h
  · cases h
    rfl
  · cases h

/-- What held at the start of a walk and what the walk keeps make up its invariant. -/
theorem Seeded.consistent {origin : Origin} {start : State K} (hs : Seeded origin start s)
    (hk : Kept s t) : Consistent origin start t := by
  have ht := hk.coherent hs.coherent
  have hmode := hk.mode.trans hs.mode
  refine ⟨Nat.le_add_right _ _, hk.within hs.within, hk.streamCapacity.trans hs.streamCapacity,
    ht.sizes.symm, hk.cursor hs.cursor, ht.size_le, ht.fixed_lt, ?_⟩
  cases origin with
  | decisions bytes =>
    have hcapacity := hk.fileCapacity.trans hs.fileCapacity
    exact ⟨hmode, hcapacity ▸ ht.within hmode, ht.blank hmode⟩
  | input bytes =>
    have hbytes := (hk.input hs.mode).trans (hs.input bytes rfl)
    have hsize := ht.size_le
    rw [hbytes, List.size_toArray] at hsize
    exact ⟨hmode, by rw [hbytes], hsize⟩

inductive Act (K : Type) : Type 1 where
  | ask {α : Type} (request : Request α)
  | opens (name : String) (kind : K)
  | closes (depth : Nat)

variable [DecidableEq K]

def Act.perform : Act K → Walker K Unit
  | .ask request => do
    let _ ← request.answer
    pure ()
  | .opens name kind => do
    let _ ← openScope name kind
    pure ()
  | .closes depth => closeScope depth

def visit (acts : List (Act K)) (s : State K) : State K :=
  acts.foldl (fun s act => act.perform.after s) s

theorem visit_append (before rest : List (Act K)) (s : State K) :
    visit (before ++ rest) s = visit rest (visit before s) := List.foldl_append

namespace Act

theorem ask_orderly {α : Type} (request : Request α) :
    Orderly (perform (.ask request : Act K)) :=
  (Orderly.answer request).bind fun _ => .pure ()

omit [DecidableEq K] in
/-- A watch that closes leaves what was consumed and keeps the stream within its capacity. -/
theorem closes_onward (depth : Nat) (s : State K) :
    Onward s ((closeScope depth : Walker K Unit).after s) := by
  obtain ⟨hpast, hcapacity, hlength⟩ := closeWatches_stream depth s.watches s.stream
  have hafter : (closeScope depth : Walker K Unit).after s =
      { s with
        tracker := s.tracker.closed s.stream.position s.image.cursor
        watches := (closeWatches depth s.watches s.stream).1
        stream := (closeWatches depth s.watches s.stream).2 } := rfl
  rw [hafter]
  refine ⟨rfl, hcapacity, rfl, ?_, ?_, fun _ => rfl, fun hs => hs⟩
  · have hsame : (closeWatches depth s.watches s.stream).2.consumed = s.stream.consumed :=
      congrArg Array.toList hpast
    exact ⟨[], (List.append_nil _).trans hsame.symm⟩
  · intro hs
    rw [hcapacity]
    exact hlength hs

theorem opens_cases (name : String) (kind : K) (s : State K) :
    (∃ tracker watches, perform (.opens name kind) s =
      .ok () { s with tracker := tracker, watches := watches }) ∨
    perform (.opens name kind) s = .error (.capacityExceeded .depth s.tracker.maxDepth) s := by
  by_cases hd : s.tracker.depth < s.tracker.maxDepth
  · exact Or.inl ⟨_, _, bind_run (if_pos hd)⟩
  · exact Or.inr (bind_error (if_neg hd))

theorem kept (act : Act K) (s : State K) : Kept s (act.perform.after s) := by
  cases act with
  | ask request => exact (ask_orderly request s).passes.kept
  | opens name kind =>
    rcases opens_cases name kind s with ⟨tracker, watches, h⟩ | h
    · rw [after_ok h]
      exact ⟨.aside rfl rfl rfl, fun hs => hs⟩
    · rw [after_error h]
      exact .refl s
  | closes depth => exact ⟨closes_onward depth s, fun hs => hs⟩

/-- A structural error tells the size of the file where it stopped. -/
theorem raised {act : Act K} {e : WalkError} (h : act.perform s = .error e t) :
    e.RaisedAt t.image.size := by
  cases act with
  | ask request =>
    have hend := ask_orderly request s
    rw [h] at hend
    exact hend.2
  | opens name kind =>
    rcases opens_cases name kind s with ⟨tracker, watches, ho⟩ | ho
    · rw [ho] at h
      cases h
    · rw [ho] at h
      cases h
      trivial
  | closes depth => cases h

end Act

theorem visit_kept (acts : List (Act K)) (s : State K) : Kept s (visit acts s) := by
  induction acts generalizing s with
  | nil => exact .refl s
  | cons act acts ih => exact (act.kept s).trans (ih _)

/-- Whatever is called upon a seeded walk, in whatever order and with whatever success, its state
stays consistent, the decisions consumed on the way stay as they are, and a structural error of
any further call, or of the end of the walk, tells the size of the file. -/
theorem visit_consistent {origin : Origin} {start seeded : State K}
    (h : Grammar.seed origin start = .ok () seeded) (watches : List (Watch K))
    (before rest : List (Act K)) :
    Consistent origin start (visit (before ++ rest) { seeded with watches := watches }) ∧
      (visit before { seeded with watches := watches }).stream.consumed <+:
        (visit (before ++ rest) { seeded with watches := watches }).stream.consumed ∧
      (∀ (act : Act K) (u : State K) offset path v,
        act.perform (visit (before ++ rest) { seeded with watches := watches }) =
            .error (.structural offset path v) u →
          offset = u.image.size) ∧
      ∀ offset path v,
        (visit (before ++ rest) { seeded with watches := watches }).finish =
            .error (.structural offset path v) →
          offset = (visit (before ++ rest) { seeded with watches := watches }).image.size := by
  have hs : Seeded origin start { seeded with watches := watches } :=
    (Grammar.seed_seeded h).watching watches
  refine ⟨hs.consistent (visit_kept _ _), ?_, ?_, ?_⟩
  · rw [visit_append]
    exact (visit_kept rest _).consumed
  · intro act u offset path v hc
    exact Act.raised hc
  · intro offset path v hf
    exact State.finish_raised hf

/-- A lookahead fixes a byte inside the field that is asked for next. -/
theorem visit_consistent_straddled :
    ∃ seeded u : State Unit,
      Grammar.seed (.decisions [1]) (State.empty { fileCapacity := 4 }) = .ok () seeded ∧
      Consistent (.decisions [1]) (State.empty { fileCapacity := 4 })
        (visit ([.ask (.lookBytes 2 1 [[9]])] ++ [.opens "field" ()]) seeded) ∧
      Act.perform (.ask (.uint 4))
          (visit ([.ask (.lookBytes 2 1 [[9]])] ++ [.opens "field" ()]) seeded) =
        .error (.structural 3 "field" (.straddles 4 0)) u ∧ 3 = u.image.size := by
  have hseed : Grammar.seed (.decisions [1]) (State.empty { fileCapacity := 4 }) =
      .ok () (State.generating { fileCapacity := 4 } [1] : State Unit) := rfl
  obtain ⟨hall, -, herror, -⟩ :=
    visit_consistent hseed [] [.ask (.lookBytes 2 1 [[9]])] [.opens "field" ()]
  have hrun : Act.perform (.ask (.uint 4))
      (visit ([.ask (.lookBytes 2 1 [[9]])] ++ [.opens "field" ()])
        (State.generating { fileCapacity := 4 } [1] : State Unit)) =
      .error (.structural 3 "field" (.straddles 4 0)) _ := rfl
  exact ⟨_, _, hseed, hall, hrun, herror _ _ _ _ _ hrun⟩

end DecisionWalk
