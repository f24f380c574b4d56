import DecisionWalk.Proofs.Draws
import DecisionWalk.Proofs.Emission
import DecisionWalk.Grammar

/-!
# What a request can do

Whatever a request asks for and however it ends, it does no more to the state
than a few small steps: it records decisions, writes or checks bytes at the
cursor, moves the cursor, or looks ahead and comes back. `Passes` lists the
steps. What all of them keep, every request keeps.
-/

set_option autoImplicit false

namespace DecisionWalk

open Walker Image

variable {K α β : Type} {s t u : State K}

def State.movedTo (s : State K) (p : Nat) : State K := { s with image := s.image.moveTo p }

inductive Passes : State K → State K → Prop where
  | still (s : State K) : Passes s s
  | trans {s t u : State K} : Passes s t → Passes t u → Passes s u
  | records (s : State K) (e : Bytes) (h : s.stream.Admits e) : Passes s (s.recorded e)
  | writes (s : State K) (bs : Bytes) (hm : s.mode = .generate)
      (h : s.image.cursor + bs.length ≤ s.image.capacity) :
      Passes s (s.touching bs.length
        ((s.image.store s.image.cursor bs).moveTo (s.image.cursor + bs.length)))
  | marks (s : State K) (bs : Bytes) (hm : s.mode = .parse) (h : s.image.Stands bs) :
      Passes s (s.touching bs.length
        ((s.image.mark s.image.cursor bs.length).moveTo (s.image.cursor + bs.length)))
  | moves (s : State K) (p : Nat) (h : p ≤ s.image.size) : Passes s (s.movedTo p)
  | tosses (s : State K) (e : Bytes) (h : s.stream.Admits e) :
      Passes s { s.recorded e with
        tracker := s.tracker.lookahead ⟨s.stream.position, (s.recorded e).stream.position⟩ }
  | looks {s t : State K} (offset : Nat) (h : Passes (s.movedTo (s.image.cursor + offset)) t) :
      Passes s { t.movedTo s.image.cursor with
        tracker := t.tracker.lookahead ⟨s.stream.position, t.stream.position⟩ }
  | returns {s t : State K} (offset : Nat) (h : Passes (s.movedTo (s.image.cursor + offset)) t) :
      Passes s (t.movedTo s.image.cursor)
  | tempts (s : State K) (evil : EvilBit) : Passes s { s with evil := evil }
  | turns (s : State K) (order : Endian) : Passes s { s with endian := order }
  | logs (s : State K) (log : Array Observation) : Passes s { s with log := log }

namespace Passes

theorem size_le (h : Passes s t) : s.image.size ≤ t.image.size := by
  induction h with
  | trans h1 h2 ih1 ih2 => exact Nat.le_trans ih1 ih2
  | writes s bs hm h => exact Nat.le_max_left _ _
  | marks s bs hm h => exact Nat.le_max_left _ _
  | looks offset h ih => exact ih
  | returns offset h ih => exact ih
  | _ => exact Nat.le_refl _

/-- The cursor stays within the file. -/
theorem cursor_le (h : Passes s t) (hs : s.image.cursor ≤ s.image.size) :
    t.image.cursor ≤ t.image.size := by
  induction h with
  | trans h1 h2 ih1 ih2 => exact ih2 (ih1 hs)
  | writes s bs hm h => exact Nat.le_max_right _ _
  | marks s bs hm h => exact Nat.le_max_right _ _
  | moves s p h => exact h
  | looks offset h ih => exact Nat.le_trans hs h.size_le
  | returns offset h ih => exact Nat.le_trans hs h.size_le
  | _ => exact hs

end Passes

def WalkError.RaisedAt (size : Nat) : WalkError → Prop
  | .structural offset _ _ => offset = size
  | .grammarStop _ _ => False
  | .capacityExceeded _ _ => True
  | .defect _ => True

def Ended (s : State K) : EStateM.Result WalkError (State K) α → Prop
  | .ok _ t => Passes s t
  | .error e t => Passes s t ∧ e.RaisedAt t.image.size

theorem Ended.passes {x : Walker K α} (h : Ended s (x s)) : Passes s (x.after s) := by
  rw [after]
  cases hx : x s with
  | ok a t =>
    rw [hx] at h
    exact h
  | error e t =>
    rw [hx] at h
    exact h.1

theorem Ended.bind {x : Walker K α} {f : α → Walker K β} (hx : Ended s (x s))
    (hf : ∀ a t, x s = .ok a t → Ended t (f a t)) : Ended s ((x >>= f) s) := by
  cases hr : x s with
  | error e t =>
    rw [hr] at hx
    rw [bind_error hr]
    exact hx
  | ok a t =>
    rw [hr] at hx
    rw [bind_run hr]
    have hft := hf a t hr
    cases hr' : f a t with
    | ok b u =>
      rw [hr'] at hft
      exact hx.trans hft
    | error e u =>
      rw [hr'] at hft
      exact ⟨hx.trans hft.1, hft.2⟩

def Orderly (x : Walker K α) : Prop := ∀ s, Ended s (x s)

theorem Walker.found_looks (position length : Nat) (s : State K) :
    (∃ r, found position length s = .ok r s) ∨ ∃ v, found position length s = violation v s := by
  rw [found]
  split
  · split
    · split
      · exact Or.inl ⟨_, rfl⟩
      · exact Or.inr ⟨_, rfl⟩
    · exact Or.inr ⟨_, rfl⟩
  · split
    · exact Or.inl ⟨_, rfl⟩
    · exact Or.inl ⟨_, rfl⟩
    · exact Or.inr ⟨_, rfl⟩

namespace Orderly

/-- An action that looks at the state and leaves it alone. -/
theorem looks {x : Walker K α}
    (h : ∀ s, (∃ a, x s = .ok a s) ∨ ∃ v, x s = Walker.violation v s) : Orderly x := by
  intro s
  rcases h s with ⟨a, ha⟩ | ⟨v, hv⟩
  · rw [ha]
    exact .still s
  · rw [hv]
    exact ⟨.still s, rfl⟩

theorem pure (a : α) : Orderly (pure a : Walker K α) := fun s => .still s

theorem violation (v : Violation) : Orderly (violation v : Walker K α) := fun s => ⟨.still s, rfl⟩

theorem capacity (r : Resource) (n : Nat) :
    Orderly (throw (.capacityExceeded r n) : Walker K α) := fun s => ⟨.still s, trivial⟩

theorem bind {x : Walker K α} {f : α → Walker K β} (hx : Orderly x) (hf : ∀ a, Orderly (f a)) :
    Orderly (x >>= f) := fun s => (hx s).bind fun a t _ => hf a t

theorem get {f : State K → Walker K α} (hf : ∀ s, Orderly (f s)) : Orderly (get >>= f) :=
  fun s => hf s s

theorem ite {p : Prop} [Decidable p] {x y : Walker K α} (hx : Orderly x) (hy : Orderly y) :
    Orderly (if p then x else y) := by
  split
  · exact hx
  · exact hy

theorem draws {x : Walker K α} (hx : Draws True x) : Orderly x := by
  intro s
  obtain ⟨e, o, he, hrun⟩ := hx s
  rw [hrun s (.refl s)]
  cases o with
  | ok a => exact .records s e he
  | error cause =>
    cases cause with
    | violation v => exact ⟨.records s e he, rfl⟩
    | capacity resource limit => exact ⟨.records s e he, trivial⟩
    | defect d => exact ⟨.records s e he, trivial⟩

theorem emit (bs : Bytes) : Orderly (emit bs : Walker K Unit) := by
  intro s
  rw [Walker.emit]
  split
  case h_1 hm =>
    split
    case isTrue h => exact .writes s bs hm h
    case isFalse => exact ⟨.still s, trivial⟩
  case h_2 hm =>
    split
    case isTrue => exact violation _ s
    case isFalse =>
      split
      case isTrue h => exact .marks s bs hm (slice_stands h)
      case isFalse => exact violation _ s

theorem found (position length : Nat) :
    Orderly (found position length : Walker K (Option Bytes)) :=
  looks (found_looks position length)

theorem foundCString (most : Nat) : Orderly (foundCString most : Walker K (Option Bytes)) := by
  apply looks
  intro s
  rw [Walker.foundCString]
  dsimp only
  split
  · exact Or.inl ⟨_, rfl⟩
  · split
    · split
      · exact Or.inr ⟨_, rfl⟩
      · exact Or.inl ⟨_, rfl⟩
    · exact Or.inr ⟨_, rfl⟩

theorem fixedSlice (start stop : Nat) : Orderly (fixedSlice start stop : Walker K Bytes) := by
  apply looks
  intro s
  rw [Walker.fixedSlice]
  split
  · exact Or.inr ⟨_, rfl⟩
  · split
    · exact Or.inl ⟨_, rfl⟩
    · exact Or.inr ⟨_, rfl⟩

theorem tell : Orderly (tell : Walker K Nat) := looks fun _ => Or.inl ⟨_, rfl⟩

theorem checkWidth (width : Nat) : Orderly (checkWidth width : Walker K Unit) :=
  ite (pure _) (violation _)

theorem foundInteger (width : Nat) : Orderly (foundInteger width : Walker K (Option Nat)) :=
  get fun _ => (found _ _).bind fun _ => pure _

theorem emitInteger (width value : Nat) : Orderly (emitInteger width value : Walker K Unit) :=
  get fun _ => emit _

/-- The reads of integers differ in their draw only. -/
theorem readInteger (width : Nat) {draw : Option Nat → Walker K Nat}
    (hd : ∀ r, Draws True (draw r)) :
    Orderly (do
      Walker.checkWidth width
      let there ← Walker.foundInteger width
      let value ← draw there
      Walker.emitInteger width value
      Pure.pure value) :=
  (checkWidth _).bind fun _ => (foundInteger _).bind fun _ => (draws (hd _)).bind fun _ =>
    (emitInteger _ _).bind fun _ => pure _

/-- The reads of bytes differ in their draw only. -/
theorem readPlain (length : Nat) {draw : Option Bytes → Walker K Bytes}
    (hd : ∀ r, Draws True (draw r)) :
    Orderly (do
      let there ← Walker.found (← Walker.tell) length
      let bytes ← draw there
      Walker.emit bytes
      Pure.pure bytes) :=
  tell.bind fun _ => (found _ _).bind fun _ => (draws (hd _)).bind fun _ =>
    (emit _).bind fun _ => pure _

theorem readUIntKnown (width : Nat) (known : List Nat) :
    Orderly (readUIntKnown width known : Walker K Nat) :=
  readInteger width fun _ =>
    .chooseKnown known (fun _ => trivial) (.sampleSmall width fun _ => trivial)

theorem readUIntFull (width : Nat) : Orderly (readUIntFull width : Walker K Nat) :=
  readInteger width fun _ => .decideRaw width fun _ => trivial

theorem readBytesKnown (length : Nat) (known : List Bytes) :
    Orderly (readBytesKnown length known : Walker K Bytes) := by
  have hdraw : ∀ r, Draws (K := K) True
      (Walker.chooseKnown r known (Walker.drawSymbols .plain length)) := fun _ =>
    .chooseKnown known (fun _ => trivial) (.drawSymbols .plain length fun _ => trivial)
  have hrest := readPlain length hdraw
  rw [Walker.readBytesKnown]
  split
  · exact (violation _).bind fun _ => hrest
  · exact hrest

theorem decideCount (most : Nat) (derived : Option Nat) :
    Orderly (decideCount most derived : Walker K Nat) := by
  have hrest : Orderly (K := K) (do
      let value ← Walker.sampleSmall 8 derived
      Pure.pure (value % (most + 1))) :=
    (draws (.sampleSmall 8 fun _ => trivial)).bind fun _ => pure _
  cases derived with
  | none => exact get fun _ => ite ((violation _).bind fun _ => hrest) hrest
  | some v => exact ite ((violation _).bind fun _ => hrest) hrest

theorem fillGap (n : Nat) : Orderly (fillGap n : Walker K Unit) := by
  induction n with
  | zero => exact pure _
  | succ n ih => exact (readUIntFull 1).bind fun _ => ih

end Orderly

namespace Walker

theorem emit_cursor {bs : Bytes} {a : Unit} (h : emit bs s = .ok a t) :
    t.image.cursor = s.image.cursor + bs.length := by
  rw [emit] at h
  split at h
  · split at h
    · cases h
      rfl
    · cases h
  · split at h
    · cases h
    · split at h
      · cases h
        rfl
      · cases h

theorem found_state {position length : Nat} {r : Option Bytes}
    (h : found position length s = .ok r t) : t = s := by
  rcases found_looks position length s with ⟨a, ha⟩ | ⟨v, hv⟩
  · rw [ha] at h
    cases h
    rfl
  · rw [hv] at h
    cases h

theorem checkWidth_state {width : Nat} {a : Unit} (h : checkWidth width s = .ok a t) : t = s := by
  rw [checkWidth] at h
  split at h
  · cases h
    rfl
  · cases h

theorem foundInteger_state {width : Nat} {r : Option Nat} (h : foundInteger width s = .ok r t) :
    t = s := by
  obtain ⟨there, u, hf, hr⟩ := bind_ok.1 ((get_bind _ s).symm.trans h)
  cases hr
  exact found_state hf

theorem readUIntFull_cursor {width v : Nat} (h : readUIntFull width s = .ok v t) :
    t.image.cursor = s.image.cursor + width := by
  obtain ⟨_, s1, hw, h⟩ := bind_ok.1 h
  obtain ⟨there, s2, hf, h⟩ := bind_ok.1 h
  obtain ⟨value, s3, hd, h⟩ := bind_ok.1 h
  obtain ⟨_, s4, he, h⟩ := bind_ok.1 h
  cases h
  obtain rfl := checkWidth_state hw
  obtain rfl := foundInteger_state hf
  obtain ⟨e, hrecorded⟩ := (Draws.decideRaw width fun _ => trivial).after s2
  obtain rfl := (after_ok hd).symm.trans hrecorded
  rw [emit_cursor he, Endian.length_encode]
  rfl

/-- A filled gap takes the cursor to its end. -/
theorem fillGap_cursor {n : Nat} {a : Unit} (h : fillGap n s = .ok a t) :
    t.image.cursor = s.image.cursor + n := by
  induction n generalizing s with
  | zero =>
    cases h
    rfl
  | succ n ih =>
    obtain ⟨v, u, h1, h2⟩ := bind_ok.1 h
    rw [ih h2, readUIntFull_cursor h1]
    omega

end Walker

namespace Orderly

theorem seek (position : Nat) : Orderly (seek position : Walker K Unit) := by
  intro s
  have hrest : Ended s ((do
      if s.image.size < position then
        moveTo s.image.size
        Walker.fillGap (position - s.image.size)
      moveTo position : Walker K Unit) s) := by
    by_cases hp : s.image.size < position
    · -- The gap starts at the end of the file and takes the cursor to the new place.
      rw [if_pos hp]
      have hend : Passes s (s.movedTo s.image.size) := .moves s _ (Nat.le_refl _)
      refine Ended.bind (x := moveTo s.image.size) hend ?_
      intro a t h
      cases h
      refine (fillGap _ _).bind ?_
      intro a t h
      have hpass : Passes (s.movedTo s.image.size) t := after_ok h ▸ (fillGap _ _).passes
      have hcursor : t.image.cursor = s.image.size + (position - s.image.size) := fillGap_cursor h
      have hle := hpass.cursor_le (Nat.le_refl _)
      exact .moves t position (by omega)
    · rw [if_neg hp]
      exact .moves s position (by omega)
  show Ended s (Walker.seek position s)
  rw [Walker.seek, get_bind]
  by_cases hl : s.image.limit < position
  · rw [if_pos hl]
    cases s.mode with
    | parse => exact (violation _ s).bind fun _ _ h => absurd h (violation_not_ok _ _ _ _)
    | generate => exact (capacity _ _ s).bind fun _ _ h => absurd h (throw_not_ok _ _ _ _)
  · rw [if_neg hl]
    exact hrest

theorem reserve (width : Nat) : Orderly (reserve width : Walker K Reserved) :=
  (checkWidth _).bind fun _ => tell.bind fun _ => (found _ _).bind fun _ => get fun _ =>
    (emit _).bind fun _ => pure _

theorem patch (field : Reserved) (value : Nat) :
    Orderly (patch field value : Walker K Unit) := by
  have hrest : Orderly (K := K) (do
      let back ← Walker.tell
      Walker.seek field.position
      Walker.emitInteger field.width value
      Walker.seek back) :=
    tell.bind fun _ => (seek _).bind fun _ => (emitInteger _ _).bind fun _ => seek _
  exact get fun _ => ite ((violation _).bind fun _ => hrest) hrest

theorem ahead (offset : Nat) {read : Walker K α} (hr : Orderly read) :
    Orderly (ahead offset read) := by
  intro s
  have h := hr (s.movedTo (s.image.cursor + offset))
  rw [Walker.ahead]
  cases hx : read (s.movedTo (s.image.cursor + offset)) with
  | ok a t =>
    rw [hx] at h
    have hrun : read { s with image := s.image.moveTo (s.image.cursor + offset) } = .ok a t := hx
    rw [hrun]
    exact .looks offset h
  | error e t =>
    rw [hx] at h
    have hrun : read { s with image := s.image.moveTo (s.image.cursor + offset) } = .error e t := hx
    rw [hrun]
    exact ⟨.returns offset h.1, h.2⟩

theorem endOfFile (threshold : Nat) : Orderly (endOfFile threshold : Walker K Bool) := by
  intro s
  have hknown : ∃ forced, knownEnd s = .ok forced s := by
    rw [knownEnd]
    split
    · exact ⟨_, rfl⟩
    · exact ⟨_, rfl⟩
  obtain ⟨forced, hknown⟩ := hknown
  have hrun : Walker.endOfFile threshold s =
      (Walker.decideBelow 256 (forced.map fun ends => if ends then 0 else 255) >>= fun coin =>
        markLookahead s.stream.position >>= fun _ => Pure.pure (decide (coin < threshold))) s :=
    bind_run hknown
  have hcoin : Draws (K := K) True
      (Walker.decideBelow 256 (forced.map fun ends => if ends then 0 else 255)) :=
    .decideBelow 256 fun _ => trivial
  obtain ⟨e, o, he, hdraw⟩ := hcoin s
  cases o with
  | ok coin =>
    rw [hrun, bind_run (hdraw s (.refl s))]
    exact .tosses s e he
  | error cause =>
    have hend := draws hcoin s
    rw [hdraw s (.refl s)] at hend
    rw [hrun, bind_error (hdraw s (.refl s))]
    exact hend

theorem answer {α : Type} (r : Request α) : Orderly (r.answer : Walker K α) := by
  cases r with
  | uint width => exact readInteger width fun _ => .sampleSmall width fun _ => trivial
  | uintFull width => exact readUIntFull width
  | uintKnown width known => exact readUIntKnown width known
  | bytes length => exact readPlain length fun _ => .drawSymbols .plain length fun _ => trivial
  | bytesKnown length known => exact readBytesKnown length known
  | string length =>
    exact tell.bind fun _ => (found _ _).bind fun _ =>
      (draws (.stringCoin fun _ => trivial)).bind fun _ =>
        (draws (.drawSymbols _ _ fun _ => trivial)).bind fun _ => (emit _).bind fun _ => pure _
  | cstring most =>
    exact (foundCString _).bind fun _ => (draws (.sampleSmall _ fun _ => trivial)).bind fun _ =>
      (draws (.stringCoin fun _ => trivial)).bind fun _ =>
        (draws (.drawSymbols _ _ fun _ => trivial)).bind fun _ => (emit _).bind fun _ => pure _
  | count most derived => exact decideCount most derived
  | seek position => exact seek position
  | skip n => exact tell.bind fun _ => seek _
  | reserve width => exact reserve width
  | patch field value => exact patch field value
  | endOfFile threshold => exact endOfFile threshold
  | lookUInt offset width known => exact ahead offset (readUIntKnown width known)
  | lookBytes offset length known => exact ahead offset (readBytesKnown length known)
  | checksum32 start stop => exact (fixedSlice _ _).bind fun _ => pure _
  | checksum16 start stop => exact (fixedSlice _ _).bind fun _ => pure _
  | emit data => exact emit data
  | setEvil allowed => exact fun s => .tempts s ⟨allowed⟩
  | setEndian order => exact fun s => .turns s order
  | tell => exact tell
  | fileSize => exact looks fun _ => Or.inl ⟨_, rfl⟩
  | remaining => exact looks fun _ => Or.inl ⟨_, rfl⟩
  | note label value => exact fun s => .logs s _

end Orderly

end DecisionWalk
