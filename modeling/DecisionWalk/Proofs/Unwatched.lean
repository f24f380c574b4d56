import DecisionWalk.Proofs.Passing
import DecisionWalk.Proofs.Requests

/-!
# Requests under watches

Watches look at productions only. No request looks at them, so each does the same
under any watches.
-/

set_option autoImplicit false

namespace DecisionWalk

open Walker

variable {K α β : Type}

def State.watching (s : State K) (ws : List (Watch K)) : State K := { s with watches := ws }

def Blind (x : Walker K α) : Prop :=
  ∀ s a t, x s = .ok a t → ∀ ws, x (s.watching ws) = .ok a (t.watching ws)

namespace Blind

theorem failing {x : Walker K α} (h : ∀ s a t, x s ≠ .ok a t) : Blind x :=
  fun s a t hx => absurd hx (h s a t)

theorem violation (v : Violation) : Blind (Walker.violation v : Walker K α) :=
  failing fun s a t => violation_not_ok v s t a

theorem throw (e : WalkError) : Blind (throw e : Walker K α) :=
  failing fun s a t => throw_not_ok e s t a

/-- An action that only looks at other parts of the state. -/
theorem looks {x : Walker K α} (value : State K → α) (h : ∀ s, x s = .ok (value s) s)
    (hsame : ∀ s ws, value (State.watching s ws) = value s) : Blind x := by
  intro s a t hx ws
  rw [h] at hx
  cases hx
  rw [h, hsame]

theorem pure (a : α) : Blind (pure a : Walker K α) :=
  looks (fun _ => a) (fun _ => rfl) fun _ _ => rfl

theorem bind {x : Walker K α} {f : α → Walker K β} (hx : Blind x) (hf : ∀ a, Blind (f a)) :
    Blind (x >>= f) := by
  intro s b u h ws
  obtain ⟨a, t, h1, h2⟩ := bind_ok.1 h
  exact (bind_run (hx s a t h1 ws)).trans (hf a t b u h2 ws)

theorem get {f : State K → Walker K α} (hf : ∀ s, Blind (f s))
    (hsame : ∀ s ws, f (State.watching s ws) = f s) : Blind (get >>= f) := by
  intro s a t h ws
  rw [get_bind, hsame]
  exact hf s s a t h ws

theorem ite {p : Prop} [Decidable p] {x y : Walker K α} (hx : Blind x) (hy : Blind y) :
    Blind (if p then x else y) := by
  split
  · exact hx
  · exact hy

theorem modify {f : State K → State K} (hf : ∀ s ws, f (State.watching s ws) = (f s).watching ws) :
    Blind (modify f : Walker K PUnit) := by
  intro s a t h ws
  cases h
  exact congrArg (EStateM.Result.ok _) (hf s ws)

/-- A draw looks at its stream and at the evil bit. -/
theorem draws {x : Walker K α} (hx : Draws True x) : Blind x := by
  intro s a t h ws
  obtain ⟨e, o, -, hrun⟩ := hx s
  rw [hrun s (.refl s)] at h
  rw [hrun (s.watching ws) ⟨rfl, rfl, rfl, fun _ => rfl⟩]
  cases o with
  | ok b =>
    cases h
    rfl
  | error cause => cases h

theorem found (position length : Nat) :
    Blind (Walker.found position length : Walker K (Option Bytes)) := by
  intro s a t h ws
  obtain rfl := found_state h
  rw [Walker.found] at h ⊢
  cases hm : t.mode with
  | parse =>
    cases hs : t.image.slice? position (position + length) with
    | none =>
      simp only [hm, hs] at h
      cases h
    | some bs =>
      simp only [hm, hs] at h
      split at h
      case isTrue hin =>
        cases h
        simp [State.watching, hm, hs, hin]
      case isFalse => cases h
  | generate =>
    cases hr : t.image.region position length with
    | mixed =>
      simp only [hm, hr] at h
      cases h
    | _ =>
      simp only [hm, hr] at h
      cases h
      simp [State.watching, hm, hr]

theorem emit (bs : Bytes) : Blind (emit bs : Walker K Unit) := by
  intro s a t h ws
  rw [Walker.emit] at h ⊢
  cases hm : s.mode with
  | generate =>
    simp only [hm] at h
    split at h
    case isTrue hroom =>
      cases h
      simp [State.watching, hm, hroom]
    case isFalse => cases h
  | parse =>
    simp only [hm] at h
    split at h
    case isTrue => cases h
    case isFalse hroom =>
      split at h
      case isTrue hs =>
        cases h
        simp [State.watching, hm, hroom, hs]
      case isFalse => cases h

theorem foundCString (most : Nat) : Blind (foundCString most : Walker K (Option Bytes)) := by
  intro s a t h ws
  rw [Walker.foundCString] at h ⊢
  simp only at h
  split at h
  case isTrue hf =>
    cases h
    exact if_pos hf
  case isFalse hf =>
    split at h
    case h_1 length hi =>
      split at h
      case isTrue => cases h
      case isFalse hr =>
        cases h
        simp only [State.watching, hf, if_false, hi, hr]
    case h_2 => cases h

theorem fixedSlice (start stop : Nat) : Blind (fixedSlice start stop : Walker K Bytes) := by
  intro s a t h ws
  rw [Walker.fixedSlice] at h ⊢
  split at h
  case isTrue => cases h
  case isFalse hr =>
    split at h
    case h_1 bs hs =>
      cases h
      simp [State.watching, hr, hs]
    case h_2 => cases h

theorem knownEnd : Blind (knownEnd : Walker K (Option Bool)) := by
  intro s a t h ws
  rw [Walker.knownEnd] at h ⊢
  cases hm : s.mode with
  | _ =>
    simp only [hm] at h
    cases h
    simp [State.watching, hm]

theorem ahead (offset : Nat) {read : Walker K α} (hr : Blind read) : Blind (ahead offset read) := by
  intro s a t h ws
  obtain ⟨u, hu, rfl⟩ := ahead_ok h
  exact ahead_run (l := s.watching ws) (hr _ a u hu ws)

theorem tell : Blind (tell : Walker K Nat) := looks _ (fun _ => rfl) fun _ _ => rfl

theorem checkWidth (width : Nat) : Blind (checkWidth width : Walker K Unit) :=
  ite (pure _) (violation _)

theorem emitInteger (width value : Nat) : Blind (emitInteger width value : Walker K Unit) :=
  get (fun _ => emit _) fun _ _ => rfl

theorem readInteger (width : Nat) {draw : Option Nat → Walker K Nat}
    (hd : ∀ r, Draws True (draw r)) :
    Blind (do
      Walker.checkWidth width
      let there ← Walker.foundInteger width
      let value ← draw there
      Walker.emitInteger width value
      Pure.pure value) := by
  have hfound : Blind (Walker.foundInteger width : Walker K (Option Nat)) :=
    get (fun _ => (found _ _).bind fun _ => pure _) fun _ _ => rfl
  exact (checkWidth _).bind fun _ => hfound.bind fun _ => (draws (hd _)).bind fun _ =>
    (emitInteger _ _).bind fun _ => pure _

theorem readPlain (length : Nat) {draw : Option Bytes → Walker K Bytes}
    (hd : ∀ r, Draws True (draw r)) :
    Blind (do
      let there ← Walker.found (← Walker.tell) length
      let bytes ← draw there
      Walker.emit bytes
      Pure.pure bytes) :=
  tell.bind fun _ => (found _ _).bind fun _ => (draws (hd _)).bind fun _ =>
    (emit _).bind fun _ => pure _

theorem readUIntKnown (width : Nat) (known : List Nat) :
    Blind (readUIntKnown width known : Walker K Nat) :=
  readInteger width fun _ =>
    .chooseKnown known (fun _ => trivial) (.sampleSmall width fun _ => trivial)

theorem readUIntFull (width : Nat) : Blind (readUIntFull width : Walker K Nat) :=
  readInteger width fun _ => .decideRaw width fun _ => trivial

theorem readBytesKnown (length : Nat) (known : List Bytes) :
    Blind (readBytesKnown length known : Walker K Bytes) := by
  have hdraw : ∀ r, Draws (K := K) True
      (Walker.chooseKnown r known (Walker.drawSymbols .plain length)) := fun _ =>
    .chooseKnown known (fun _ => trivial) (.drawSymbols .plain length fun _ => trivial)
  have hrest := readPlain length hdraw
  rw [Walker.readBytesKnown]
  split
  · exact (violation _).bind fun _ => hrest
  · exact hrest

theorem decideCount (most : Nat) (derived : Option Nat) :
    Blind (decideCount most derived : Walker K Nat) := by
  have hrest : Blind (K := K) (do
      let value ← Walker.sampleSmall 8 derived
      Pure.pure (value % (most + 1))) :=
    (draws (.sampleSmall 8 fun _ => trivial)).bind fun _ => pure _
  cases derived with
  | none => exact get (fun _ => ite ((violation _).bind fun _ => hrest) hrest) fun _ _ => rfl
  | some v => exact ite ((violation _).bind fun _ => hrest) hrest

theorem moveTo (position : Nat) : Blind (moveTo position : Walker K Unit) :=
  modify fun _ _ => rfl

theorem fillGap (n : Nat) : Blind (fillGap n : Walker K Unit) := by
  induction n with
  | zero => exact pure _
  | succ n ih => exact (readUIntFull 1).bind fun _ => ih

theorem seek (position : Nat) : Blind (seek position : Walker K Unit) := by
  have hrest : ∀ s : State K, Blind (K := K) (do
      if s.image.size < position then
        Walker.moveTo s.image.size
        Walker.fillGap (position - s.image.size)
      Walker.moveTo position) := fun s =>
    ite ((moveTo _).bind fun _ => (fillGap _).bind fun _ => moveTo _) (moveTo _)
  refine get (fun s => ite ?_ (hrest s)) fun _ _ => rfl
  split
  · exact (violation _).bind fun _ => hrest s
  · exact (throw _).bind fun _ => hrest s

theorem reserve (width : Nat) : Blind (reserve width : Walker K Reserved) :=
  (checkWidth _).bind fun _ => tell.bind fun _ => (found _ _).bind fun _ =>
    get (fun _ => (emit _).bind fun _ => pure _) fun _ _ => rfl

theorem patch (field : Reserved) (value : Nat) : Blind (patch field value : Walker K Unit) := by
  have hrest : Blind (K := K) (do
      let back ← Walker.tell
      Walker.seek field.position
      Walker.emitInteger field.width value
      Walker.seek back) :=
    tell.bind fun _ => (seek _).bind fun _ => (emitInteger _ _).bind fun _ => seek _
  exact get (fun _ => ite ((violation _).bind fun _ => hrest) hrest) fun _ _ => rfl

theorem endOfFile (threshold : Nat) : Blind (endOfFile threshold : Walker K Bool) := by
  have hposition : Blind (Walker.position : Walker K Nat) := looks _ (fun _ => rfl) fun _ _ => rfl
  have hmark : ∀ start, Blind (Walker.markLookahead start : Walker K Unit) := fun _ =>
    modify fun _ _ => rfl
  exact hposition.bind fun _ => knownEnd.bind fun _ =>
    (draws (.decideBelow 256 fun _ => trivial)).bind fun _ => (hmark _).bind fun _ => pure _

/-- No request depends on the watches. -/
theorem answer {α : Type} (r : Request α) : Blind (r.answer : Walker K α) := by
  cases r with
  | uint width => exact readInteger width fun _ => .sampleSmall width fun _ => trivial
  | uintFull width => exact readUIntFull width
  | uintKnown width known => exact readUIntKnown width known
  | bytes length => exact readPlain length fun _ => .drawSymbols .plain length fun _ => trivial
  | bytesKnown length known => exact readBytesKnown length known
  | string length =>
    exact tell.bind fun _ => (found _ _).bind fun _ =>
      (draws (.stringCoin fun _ => trivial)).bind fun _ =>
      (draws (.drawSymbols _ _ fun _ => trivial)).bind fun _ => (emit _).bind fun _ => pure _
  | cstring most =>
    exact (foundCString _).bind fun _ => (draws (.sampleSmall _ fun _ => trivial)).bind fun _ =>
      (draws (.stringCoin fun _ => trivial)).bind fun _ =>
        (draws (.drawSymbols _ _ fun _ => trivial)).bind fun _ => (emit _).bind fun _ => pure _
  | count most derived => exact decideCount most derived
  | seek position => exact seek position
  | skip n => exact tell.bind fun _ => seek _
  | reserve width => exact reserve width
  | patch field value => exact patch field value
  | endOfFile threshold => exact endOfFile threshold
  | lookUInt offset width known => exact ahead offset (readUIntKnown width known)
  | lookBytes offset length known => exact ahead offset (readBytesKnown length known)
  | checksum32 start stop => exact (fixedSlice _ _).bind fun _ => pure _
  | checksum16 start stop => exact (fixedSlice _ _).bind fun _ => pure _
  | emit data => exact emit data
  | setEvil allowed =>
    intro s a t h ws
    cases h
    rfl
  | setEndian order => exact modify fun _ _ => rfl
  | tell => exact tell
  | fileSize => exact looks _ (fun _ => rfl) fun _ _ => rfl
  | remaining => exact looks _ (fun _ => rfl) fun _ _ => rfl
  | note label value => exact modify fun _ _ => rfl

end Blind

end DecisionWalk
