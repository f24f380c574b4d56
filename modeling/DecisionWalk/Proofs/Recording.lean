import DecisionWalk.Walker.Draw

/-!
# What a walk does to its stream

Whether decisions are read or recorded, a step appends some bytes to the past of
the stream and drops as many of those ahead. `recorded` names that one effect;
every later statement about the stream is in terms of it.
-/

set_option autoImplicit false

namespace DecisionWalk

namespace Stream

def recorded (s : Stream) (e : Bytes) : Stream :=
  { s with past := s.past ++ e, ahead := s.ahead.drop e.length }

@[simp] theorem recorded_nil (s : Stream) : s.recorded [] = s := by
  simp [recorded]

@[simp] theorem recorded_recorded (s : Stream) (e f : Bytes) :
    (s.recorded e).recorded f = s.recorded (e ++ f) := by
  have hp : s.past ++ e ++ f = s.past ++ (e ++ f) := Array.ext' (by simp)
  simp [recorded, List.drop_drop, hp]

@[simp] theorem recorded_capacity (s : Stream) (e : Bytes) :
    (s.recorded e).capacity = s.capacity := rfl

@[simp] theorem recorded_position (s : Stream) (e : Bytes) :
    (s.recorded e).position = s.position + e.length := by
  rw [recorded, position, position, ← Array.length_toList, Array.toList_appendList,
    List.length_append, Array.length_toList]

@[simp] theorem recorded_ahead (s : Stream) (e : Bytes) :
    (s.recorded e).ahead = s.ahead.drop e.length := rfl

@[simp] theorem recorded_past (s : Stream) (e : Bytes) : (s.recorded e).past = s.past ++ e := rfl

theorem recorded_consumed (s : Stream) (e : Bytes) :
    (s.recorded e).consumed = s.consumed ++ e := by
  simp [recorded, consumed]

theorem length_consumed (s : Stream) : s.consumed.length = s.position :=
  Array.length_toList

def Holds (s : Stream) (e : Bytes) : Prop :=
  s.position ≤ s.capacity → s.position + e.length ≤ s.capacity

theorem holds_nil (s : Stream) : s.Holds [] := fun h => h

theorem holds_append (s : Stream) (e f : Bytes) (he : s.Holds e) (hf : (s.recorded e).Holds f) :
    s.Holds (e ++ f) := by
  intro h
  have h1 := he h
  have h2 := hf (by rw [recorded_position]; exact h1)
  rw [recorded_position, recorded_capacity] at h2
  rw [List.length_append]
  omega

theorem record_eq (s : Stream) (v n : Nat) : s.record v n = s.recorded (leBytes n v) := by
  rw [record, recorded, length_leBytes]

theorem advance_eq (s : Stream) (e r : Bytes) (h : s.ahead = e ++ r) :
    s.advance e.length = s.recorded e := by
  simp [advance, recorded, h]

theorem peek_eq (s : Stream) (e r : Bytes) (h : s.ahead = e ++ r) :
    s.peek? e.length = some (leValue e) := by
  simp [peek?, h]

end Stream

namespace State

variable {K : Type}

def recorded (s : State K) (e : Bytes) : State K := { s with stream := s.stream.recorded e }

@[simp] theorem recorded_nil (s : State K) : s.recorded [] = s := by
  simp [recorded]

@[simp] theorem recorded_recorded (s : State K) (e f : Bytes) :
    (s.recorded e).recorded f = s.recorded (e ++ f) := by
  simp [recorded]

@[simp] theorem recorded_stream (s : State K) (e : Bytes) :
    (s.recorded e).stream = s.stream.recorded e := rfl

@[simp] theorem recorded_mode (s : State K) (e : Bytes) : (s.recorded e).mode = s.mode := rfl

@[simp] theorem recorded_image (s : State K) (e : Bytes) : (s.recorded e).image = s.image := rfl

@[simp] theorem recorded_evil (s : State K) (e : Bytes) : (s.recorded e).evil = s.evil := rfl

@[simp] theorem recorded_endian (s : State K) (e : Bytes) : (s.recorded e).endian = s.endian := rfl

@[simp] theorem recorded_tracker (s : State K) (e : Bytes) :
    (s.recorded e).tracker = s.tracker := rfl

@[simp] theorem recorded_watches (s : State K) (e : Bytes) :
    (s.recorded e).watches = s.watches := rfl

@[simp] theorem recorded_log (s : State K) (e : Bytes) : (s.recorded e).log = s.log := rfl

end State

namespace Walker

variable {K α β : Type}

@[simp] theorem pure_run (a : α) (s : State K) : (pure a : Walker K α) s = .ok a s := rfl

theorem bind_run {x : Walker K α} {f : α → Walker K β} {s t : State K} {a : α}
    (h : x s = .ok a t) : (x >>= f) s = f a t := by
  show EStateM.bind x f s = _
  rw [EStateM.bind, h]

theorem bind_error {x : Walker K α} {f : α → Walker K β} {s t : State K} {e : WalkError}
    (h : x s = .error e t) : (x >>= f) s = .error e t := by
  show EStateM.bind x f s = _
  rw [EStateM.bind, h]

/-- A sequence succeeds when both of its parts do. -/
theorem bind_ok {x : Walker K α} {f : α → Walker K β} {s u : State K} {b : β} :
    (x >>= f) s = .ok b u ↔ ∃ a t, x s = .ok a t ∧ f a t = .ok b u := by
  constructor
  · intro h
    cases hx : x s with
    | ok a t =>
      rw [bind_run hx] at h
      exact ⟨a, t, rfl, h⟩
    | error e t =>
      rw [bind_error hx] at h
      cases h
  · rintro ⟨a, t, hx, hf⟩
    rw [bind_run hx, hf]

@[simp] theorem get_bind (f : State K → Walker K β) (s : State K) :
    (get >>= f : Walker K β) s = f s s := rfl

@[simp] theorem violation_not_ok (v : Violation) (s t : State K) (a : α) :
    (violation v : Walker K α) s ≠ .ok a t := by
  intro h
  cases h

@[simp] theorem throw_not_ok (e : WalkError) (s t : State K) (a : α) :
    (throw e : Walker K α) s ≠ .ok a t := by
  intro h
  cases h

theorem take_run {s : State K} (e r : Bytes) (h : s.stream.ahead = e ++ r) :
    takeDecision e.length s = .ok (leValue e) (s.recorded e) := by
  rw [takeDecision, Stream.peek_eq _ _ _ h]
  simp only [Stream.advance_eq _ _ _ h]
  rfl

theorem take_ok {n v : Nat} {s t : State K} (h : takeDecision n s = .ok v t) :
    ∃ e r, s.stream.ahead = e ++ r ∧ e.length = n ∧ v = leValue e ∧ t = s.recorded e := by
  have hs : s.stream.ahead = s.stream.ahead.take n ++ s.stream.ahead.drop n :=
    (List.take_append_drop n _).symm
  by_cases hn : (s.stream.ahead.take n).length < n
  · simp only [takeDecision, Stream.peek?, if_pos hn] at h
    cases h
  · have hl : (s.stream.ahead.take n).length = n := by
      have := List.length_take_le n s.stream.ahead
      omega
    have hr := take_run _ _ hs
    rw [hl] at hr
    rw [hr] at h
    cases h
    exact ⟨_, _, hs, hl, rfl, rfl⟩

theorem put_run {s : State K} (v n : Nat) (h : s.stream.position + n ≤ s.stream.capacity) :
    putDecision v n s = .ok () (s.recorded (leBytes n v)) := by
  rw [putDecision, if_pos h, Stream.record_eq]
  rfl

theorem put_ok {v n : Nat} {s t : State K} {u : Unit} (h : putDecision v n s = .ok u t) :
    s.stream.position + n ≤ s.stream.capacity ∧ t = s.recorded (leBytes n v) := by
  by_cases hc : s.stream.position + n ≤ s.stream.capacity
  · rw [put_run v n hc] at h
    cases h
    exact ⟨hc, rfl⟩
  · rw [putDecision, if_neg hc] at h
    cases h

end Walker

end DecisionWalk
