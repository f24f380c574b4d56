import DecisionWalk.Proofs.Bytewise
import DecisionWalk.Proofs.Recording
import DecisionWalk.Walker.Field

/-!
# Emission

A generation writes what it emits, a parse checks that it stands there and marks
it. Both leave the same layout behind, and both find what was emitted before.
-/

set_option autoImplicit false

namespace DecisionWalk

variable {K : Type} {m : Mode} {s t : State K}

structure Sound (m : Mode) (s : State K) : Prop where
  mode : s.mode = m
  watches : s.watches = []
  sizes : s.image.fixed.size = s.image.bytes.size
  size_le : s.image.size ≤ s.image.bytes.size
  size_limit : s.image.size ≤ s.image.limit
  input : s.image.inputLength? = if m = .parse then some s.image.bytes.size else none

theorem Sound.limit_parse (hs : Sound .parse s) : s.image.limit = s.image.bytes.size := by
  rw [Image.limit, hs.input]
  rfl

theorem Sound.limit_generate (hs : Sound .generate s) : s.image.limit = s.image.capacity := by
  rw [Image.limit, hs.input]
  rfl

theorem Sound.like (hs : Sound m s) (hm : t.mode = s.mode) (hw : t.watches = s.watches)
    (hi : t.image = s.image) : Sound m t :=
  ⟨hm.trans hs.mode, hw.trans hs.watches, hi ▸ hs.sizes, hi ▸ hs.size_le, hi ▸ hs.size_limit,
    hi ▸ hs.input⟩

theorem Sound.recorded (hs : Sound m s) (e : Bytes) : Sound m (s.recorded e) :=
  hs.like rfl rfl rfl

theorem Sound.moveTo (hs : Sound m s) (p : Nat) :
    Sound m { s with image := s.image.moveTo p } :=
  ⟨hs.mode, hs.watches, hs.sizes, hs.size_le, hs.size_limit, hs.input⟩

namespace Image

def Stands (im : Image) (bs : Bytes) : Prop :=
  im.cursor + bs.length ≤ im.bytes.size ∧
    ∀ k (hk : k < bs.length), im.byteAt (im.cursor + k) = bs[k]

theorem stands_window {im : Image} {bs : Bytes} (h : im.Stands bs) :
    im.window im.cursor bs.length = bs :=
  window_eq im im.cursor bs h.1 h.2

theorem window_stands (im : Image) (n : Nat) (h : im.cursor + n ≤ im.bytes.size) :
    im.Stands (im.window im.cursor n) := by
  have hl := window_length im im.cursor n h
  refine ⟨by omega, ?_⟩
  intro k hk
  have hg := window_get im im.cursor n k h (by omega)
  rw [List.getElem?_eq_getElem hk] at hg
  exact (Option.some.inj hg).symm

theorem stands_slice {im : Image} {bs : Bytes} (h : im.Stands bs) :
    im.slice? im.cursor (im.cursor + bs.length) = some bs := by
  rw [slice_eq im im.cursor bs.length h.1, stands_window h]

theorem slice_stands {im : Image} {bs : Bytes}
    (h : im.slice? im.cursor (im.cursor + bs.length) = some bs) : im.Stands bs := by
  by_cases hl : im.cursor + bs.length ≤ im.bytes.size
  · rw [slice_eq im im.cursor bs.length hl] at h
    have hw := window_stands im bs.length hl
    rw [Option.some.inj h] at hw
    exact hw
  · rw [slice?, if_neg (by omega)] at h
    cases h

structure Writes (bs : Bytes) (a b : Image) : Prop where
  cursor : b.cursor = a.cursor + bs.length
  size : b.size = max a.size (a.cursor + bs.length)
  fixedAt : ∀ i, b.fixedAt i = (a.fixedAt i || decide (a.cursor ≤ i ∧ i < a.cursor + bs.length))
  byteAt : ∀ i, b.byteAt i =
    if a.cursor ≤ i ∧ i < a.cursor + bs.length then bs[i - a.cursor]?.getD 0 else a.byteAt i
  limit : b.limit = a.limit

theorem store_writes (im : Image) (bs : Bytes) :
    Writes bs im ((im.store im.cursor bs).moveTo (im.cursor + bs.length)) where
  cursor := rfl
  size := rfl
  fixedAt := fixedAt_store im im.cursor bs
  byteAt := byteAt_store im im.cursor bs
  limit := rfl

theorem mark_writes (im : Image) (bs : Bytes) (h : im.Stands bs) :
    Writes bs im ((im.mark im.cursor bs.length).moveTo (im.cursor + bs.length)) where
  cursor := rfl
  size := rfl
  fixedAt := fixedAt_mark im im.cursor bs.length
  byteAt := by
    intro i
    have hb : ((im.mark im.cursor bs.length).moveTo (im.cursor + bs.length)).byteAt i =
        im.byteAt i := congrArg (fun a => a[i]?.getD 0) (mark_bytes im im.cursor bs.length h.1)
    rw [hb]
    split
    · have hk : i - im.cursor < bs.length := by omega
      have hi := h.2 (i - im.cursor) hk
      rw [List.getElem?_eq_getElem hk, Option.getD_some, ← hi]
      congr 1
      omega
    · rfl
  limit := rfl

end Image

open Image

def State.touching (s : State K) (n : Nat) (im : Image) : State K :=
  { s with image := im, tracker := s.tracker.touch ⟨s.image.cursor, s.image.cursor + n⟩ }

structure Emits (bs : Bytes) (s t : State K) : Prop where
  writes : Writes bs s.image t.image
  rest : t = s.touching bs.length t.image
  input : s.mode = .parse → t.image.bytes = s.image.bytes

namespace Walker

theorem emit_generate (bs : Bytes) (hs : Sound .generate s)
    (h : s.image.cursor + bs.length ≤ s.image.limit) :
    ∃ t, emit bs s = .ok () t ∧ Emits bs s t ∧ Sound .generate t := by
  have hl := hs.limit_generate
  refine ⟨s.touching bs.length ((s.image.store s.image.cursor bs).moveTo
    (s.image.cursor + bs.length)), ?_, ⟨store_writes s.image bs, rfl, ?_⟩, ?_⟩
  · rw [emit]
    simp only [hs.mode, if_pos (hl ▸ h), State.touching]
  · intro hm
    rw [hs.mode] at hm
    cases hm
  · have hz := store_sizes s.image s.image.cursor bs hs.sizes
    have hb : ((s.image.store s.image.cursor bs).bytes).size =
        max s.image.bytes.size (s.image.cursor + bs.length) := by
      simp only [store]
      rw [overwrite_size _ _ _ (by rw [extend_size]; omega), extend_size]
      omega
    refine ⟨hs.mode, hs.watches, hz, ?_, ?_, hs.input⟩
    · have h1 := hs.size_le
      show max s.image.size (s.image.cursor + bs.length) ≤
        ((s.image.store s.image.cursor bs).bytes).size
      omega
    · have h1 := hs.size_limit
      show max s.image.size (s.image.cursor + bs.length) ≤ s.image.limit
      omega

theorem emit_parse {bs : Bytes} (hs : Sound .parse s) (h : s.image.Stands bs) :
    ∃ t, emit bs s = .ok () t ∧ Emits bs s t ∧ Sound .parse t := by
  have hl := hs.limit_parse
  have hb := mark_bytes s.image s.image.cursor bs.length h.1
  have hf := mark_fixed_size s.image s.image.cursor bs.length (by rw [hs.sizes]; exact h.1)
  have hin := h.1
  refine ⟨s.touching bs.length ((s.image.mark s.image.cursor bs.length).moveTo
    (s.image.cursor + bs.length)), ?_, ⟨mark_writes s.image bs h, rfl, fun _ => hb⟩, ?_⟩
  · rw [emit]
    simp only [hs.mode, if_neg (show ¬ s.image.limit < s.image.cursor + bs.length by omega),
      if_pos (stands_slice h), State.touching]
  · refine ⟨hs.mode, hs.watches, hf.trans (hs.sizes.trans (congrArg Array.size hb).symm),
      ?_, ?_, ?_⟩
    · have h1 := hs.size_le
      show max s.image.size (s.image.cursor + bs.length) ≤
        (s.image.mark s.image.cursor bs.length).bytes.size
      rw [hb]
      omega
    · have h1 := hs.size_limit
      show max s.image.size (s.image.cursor + bs.length) ≤ s.image.limit
      omega
    · have hi := hs.input
      rw [← hb] at hi
      exact hi

/-- What a successful emission tells, in either mode. -/
theorem emit_ok {bs : Bytes} {u : Unit} (hs : Sound m s) (h : emit bs s = .ok u t) :
    Emits bs s t ∧ Sound m t ∧ s.image.cursor + bs.length ≤ s.image.limit ∧
      (m = .parse → s.image.Stands bs) := by
  cases m with
  | generate =>
    by_cases hc : s.image.cursor + bs.length ≤ s.image.limit
    · obtain ⟨v, hv, he, ht⟩ := emit_generate bs hs hc
      rw [hv] at h
      cases h
      exact ⟨he, ht, hc, fun hm => nomatch hm⟩
    · rw [hs.limit_generate] at hc
      rw [emit] at h
      simp only [hs.mode, if_neg hc] at h
      cases h
  | parse =>
    by_cases hst : s.image.slice? s.image.cursor (s.image.cursor + bs.length) = some bs
    · obtain ⟨v, hv, he, ht⟩ := emit_parse hs (slice_stands hst)
      rw [hv] at h
      cases h
      exact ⟨he, ht, by rw [hs.limit_parse]; exact (slice_stands hst).1, fun _ => slice_stands hst⟩
    · rw [emit] at h
      simp only [hs.mode, if_neg hst] at h
      split at h
      · exact absurd h (violation_not_ok _ _ _ _)
      · exact absurd h (violation_not_ok _ _ _ _)

theorem found_parse (hs : Sound .parse s) (p n : Nat) (h : p + n ≤ s.image.bytes.size) :
    found p n s = .ok (some (s.image.window p n)) s := by
  rw [found]
  simp only [hs.mode, slice_eq _ _ _ h, hs.input]
  simp [h]

theorem found_parse_ok (hs : Sound .parse s) {p n : Nat} {r : Option Bytes}
    (h : found p n s = .ok r t) :
    t = s ∧ r = some (s.image.window p n) ∧ p + n ≤ s.image.bytes.size := by
  by_cases hl : p + n ≤ s.image.bytes.size
  · rw [found_parse hs p n hl] at h
    cases h
    exact ⟨rfl, rfl, hl⟩
  · rw [found] at h
    have hout : ¬ (p ≤ p + n ∧ p + n ≤ s.image.bytes.size) := by omega
    simp only [hs.mode, slice?, if_neg hout] at h
    exact absurd h (violation_not_ok _ _ _ _)

theorem found_fixed (hs : Sound .generate s) (p n : Nat) (h : p + n ≤ s.image.size)
    (hf : ∀ k, k < n → s.image.fixedAt (p + k) = true) :
    found p n s = .ok (some (s.image.window p n)) s := by
  have hl := hs.size_le
  rw [found]
  simp only [hs.mode, region_fixed _ _ _ hf, slice_eq s.image p n (by omega)]

theorem found_fresh (hs : Sound .generate s) (p n : Nat) (hn : n ≠ 0)
    (hf : ∀ k, k < n → s.image.fixedAt (p + k) = false) : found p n s = .ok none s := by
  rw [found]
  simp only [hs.mode, region_fresh _ _ _ hn hf]

end Walker

end DecisionWalk
