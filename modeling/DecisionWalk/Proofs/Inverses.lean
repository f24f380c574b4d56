import DecisionWalk.Proofs.Draws

/-!
# Forced draws and free draws are inverse

What a forced draw records for a value is read back as that value by the free
draw, which consumes it to the last byte. A sampled number is recorded in the
fewest decisions that it can be drawn from. A choice among known values refuses
a value only if it is not known and the evil bit is off.
-/

set_option autoImplicit false

namespace DecisionWalk

open Walker Sampler

variable {K α : Type} {T : Prop}

/-- Where the evil bit is `b`, `code` is what the forced draw records for `v` if there is room for
it, and what the free draw reads `v` from. -/
structure Inverse (b : Bool) (draw : Option α → Walker K α) (v : α) (code : Bytes) : Prop where
  forced : ∀ s : State K, s.evil.allowed = b →
    s.stream.position + code.length ≤ s.stream.capacity →
    draw (some v) s = .ok v (s.recorded code)
  room : ∀ (s t : State K) (w : α), s.evil.allowed = b →
    s.stream.position ≤ s.stream.capacity → draw (some v) s = .ok w t →
    s.stream.position + code.length ≤ s.stream.capacity
  free : ∀ (s : State K) (r : Bytes), s.evil.allowed = b → s.stream.ahead = code ++ r →
    draw none s = .ok v (s.recorded code)

theorem Codec.inverse {draw : Option α → Walker K α} {fits : Bool → α → Prop} {code : α → Bytes}
    (h : Codec T draw fits code) {b : Bool} {v : α} (hv : fits b v) :
    Inverse b draw v (code v) := by
  constructor
  · rintro s rfl hroom
    exact h.force s v hv hroom
  · rintro s t w rfl hle hrun
    exact (h.forced s v w t hv hrun).2.2 hle
  · rintro s r rfl hr
    exact h.replays s v r hv hr

/-- A number that is sampled fits its field. It is recorded exactly, and no stream that it can be
drawn from spends fewer decisions on it. -/
theorem Walker.sampleSmall_shortest (width : Nat) (h1 : 1 ≤ width) (h8 : width ≤ 8) :
    (∀ (s t : State K) (v : Nat), sampleSmall width none s = .ok v t → v < 256 ^ width) ∧
    ∀ v, v < 256 ^ width →
      (∀ b, Inverse b (sampleSmall (K := K) width) v (smallCode width v)) ∧
      ∀ s t : State K, sampleSmall width none s = .ok v t →
        ∃ e r, s.stream.ahead = e ++ r ∧ t = s.recorded e ∧
          (smallCode width v).length ≤ e.length := by
  have hcodec := sampleSmall_codec (K := K) (T := True) width h1 h8
  refine ⟨fun s t v h => (hcodec.drawn s v t h).1, ?_⟩
  intro v hv
  refine ⟨fun b => hcodec.inverse (b := b) hv, ?_⟩
  intro s t h
  obtain ⟨-, e, r, hahead, ht, -, hle⟩ := hcodec.drawn s v t h
  exact ⟨e, r, hahead, ht, hle trivial⟩

theorem Walker.sampleSmall_shortest_nine_bits :
    smallCode 4 300 = [2, 44, 1] ∧ (∀ b, Inverse b (sampleSmall (K := Unit) 4) 300 [2, 44, 1]) ∧
      ∃ s t : State Unit, s.stream.ahead = [1, 44, 1, 0, 0, 7] ∧
        sampleSmall 4 none s = .ok 300 t ∧ t = s.recorded [1, 44, 1, 0, 0] := by
  have hcode : smallCode 4 300 = [2, 44, 1] := by decide +kernel
  obtain ⟨-, h⟩ := sampleSmall_shortest (K := Unit) 4 (by decide) (by decide)
  obtain ⟨hinverse, -⟩ := h 300 (by decide)
  refine ⟨hcode, hcode ▸ hinverse, ?_⟩
  exact ⟨{ State.empty {} with stream := ⟨#[], [1, 44, 1, 0, 0, 7], 6⟩ }, _, rfl, rfl, rfl⟩

section Known

variable [DecidableEq α] {known : List α} {draw : Option α → Walker K α} {fits : α → Prop}
  {evilCode : α → Bytes}

structure Invertible (known : List α) (draw : Option α → Walker K α) (fits : α → Prop)
    (code : α → Bytes) : Prop where
  refuses : ∀ (s : State K) (v : α), v ∉ known → s.evil.allowed = false →
    chooseKnown (some v) known draw s = violation .notKnown s
  fails_iff : ∀ (s : State K) (v : α), fits v →
    s.stream.position + (code v).length ≤ s.stream.capacity →
    ((∃ e t, chooseKnown (some v) known draw s = .error e t) ↔
      v ∉ known ∧ s.evil.allowed = false)
  inverse : ∀ (b : Bool) (v : α), fits v → v ∈ known ∨ b = true →
    Inverse b (fun found => chooseKnown found known draw) v (code v)
  member : ∀ (s t : State K) (v : α), s.evil.allowed = false →
    chooseKnown none known draw s = .ok v t → v ∈ known

theorem Walker.chooseKnown_refuses (hk : known ≠ []) {v : α} (hv : v ∉ known) {s : State K}
    (hs : s.evil.allowed = false) :
    chooseKnown (some v) known draw s = violation .notKnown s := by
  rw [chooseKnown_unknown hk hv, get_bind, hs]
  rfl

theorem Codec.invertible (hk : known ≠ []) (hd : Codec False draw (fun _ => fits) evilCode) :
    Invertible known draw fits (knownCode known evilCode) := by
  have hcodec := chooseKnown_codec known draw fits evilCode hk hd False.elim
  have hinverse : ∀ (b : Bool) (v : α), fits v → v ∈ known ∨ b = true →
      Inverse b (fun found => chooseKnown found known draw) v (knownCode known evilCode v) := by
    intro b v hv hb
    exact hcodec.inverse (hb.imp_right fun hb => ⟨hb, hv⟩)
  refine ⟨fun s v hv hs => chooseKnown_refuses hk hv hs, ?_, hinverse, ?_⟩
  · intro s v hv hroom
    constructor
    · rintro ⟨e, t, herror⟩
      have hbarred : ¬ (v ∈ known ∨ s.evil.allowed = true) := by
        intro hb
        have hok := (hinverse s.evil.allowed v hv hb).forced s rfl hroom
        cases hok.symm.trans herror
      exact ⟨fun hv => hbarred (Or.inl hv), Bool.eq_false_iff.2 fun hs => hbarred (Or.inr hs)⟩
    · rintro ⟨hv, hs⟩
      exact ⟨_, _, chooseKnown_refuses hk hv hs⟩
  · intro s t v hs h
    rcases (hcodec.drawn s v t h).1 with hv | ⟨hevil, -⟩
    · exact hv
    · rw [hs] at hevil
      cases hevil

end Known

/-- Choices among known integers and among known byte strings are invertible, whatever the list of
known values is as long as there are some. -/
theorem Walker.known_choices_invertible :
    (∀ (width : Nat) (known : List Nat), 1 ≤ width → width ≤ 8 → known ≠ [] →
      Invertible known (sampleSmall (K := K) width) (· < 256 ^ width)
        (knownCode known (smallCode width))) ∧
    ∀ (length : Nat) (known : List Bytes), known ≠ [] →
      Invertible known (drawSymbols (K := K) .plain length) (·.length = length)
        (knownCode known Alphabet.plain.stringCode) := by
  constructor
  · intro width known h1 h8 hk
    exact (sampleSmall_codec width h1 h8).invertible hk
  · intro length known hk
    exact (drawBytes_codec length).invertible hk

theorem Walker.known_choices_invertible_repeated :
    (Invertible [300, 7, 300] (sampleSmall (K := Unit) 2) (· < 256 ^ 2)
        (knownCode [300, 7, 300] (smallCode 2)) ∧
      knownCode [300, 7, 300] (smallCode 2) 300 = [1, 0] ∧
      knownCode [300, 7, 300] (smallCode 2) 9 = [0, 32, 8]) ∧
    Invertible [[5, 0]] (drawSymbols (K := Unit) .plain 2) (·.length = 2)
        (knownCode [[5, 0]] Alphabet.plain.stringCode) ∧
      knownCode [[5, 0]] Alphabet.plain.stringCode [5, 0] = [1] ∧
      knownCode [[5, 0]] Alphabet.plain.stringCode [0, 5] = [0, 0, 5] := by
  obtain ⟨hintegers, hstrings⟩ := known_choices_invertible (K := Unit)
  exact ⟨⟨hintegers 2 [300, 7, 300] (by decide) (by decide) (by decide), by decide +kernel,
    by decide +kernel⟩, hstrings 2 [[5, 0]] (by decide), by decide +kernel, by decide +kernel⟩

end DecisionWalk
