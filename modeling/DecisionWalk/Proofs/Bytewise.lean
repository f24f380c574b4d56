import DecisionWalk.Image

/-!
# The file image byte by byte

Storing and marking are read off at single offsets. A byte that the image does
not hold counts as zero and unfixed, so growing the image changes no byte.
-/

set_option autoImplicit false

namespace DecisionWalk

section Arrays

variable {α : Type}

theorem overwrite_size (a : Array α) (i : Nat) (xs : List α) (hi : i ≤ a.size) :
    (overwrite a i xs).size = max a.size (i + xs.length) := by
  induction xs generalizing a i with
  | nil =>
    rw [overwrite, List.length_nil]
    omega
  | cons x xs ih =>
    rw [overwrite, List.length_cons]
    by_cases h : i < a.size
    · rw [if_pos h, ih _ _ (by rw [Array.size_setIfInBounds]; omega), Array.size_setIfInBounds]
      omega
    · rw [if_neg h, ih _ _ (by rw [Array.size_push]; omega), Array.size_push]
      omega

theorem overwrite_get (a : Array α) (i : Nat) (xs : List α) (hi : i ≤ a.size) (j : Nat) :
    (overwrite a i xs)[j]? = if i ≤ j ∧ j < i + xs.length then xs[j - i]? else a[j]? := by
  induction xs generalizing a i with
  | nil =>
    rw [overwrite, if_neg (by simp)]
  | cons x xs ih =>
    have hx : (if i < a.size then a.setIfInBounds i x else a.push x)[j]? =
        if j = i then some x else a[j]? := by
      by_cases h : i < a.size
      · rw [if_pos h, Array.getElem?_setIfInBounds]
        by_cases hj : i = j
        · simp [hj, hj ▸ h]
        · simp [hj, Ne.symm hj]
      · rw [if_neg h, Array.getElem?_push]
        have he : i = a.size := by omega
        simp [he]
    have hs : i + 1 ≤ (if i < a.size then a.setIfInBounds i x else a.push x).size := by
      by_cases h : i < a.size
      · rw [if_pos h, Array.size_setIfInBounds]
        omega
      · rw [if_neg h, Array.size_push]
        omega
    rw [overwrite, ih _ _ hs, hx, List.length_cons]
    by_cases hj : j = i
    · subst hj
      rw [if_neg (by omega), if_pos rfl, if_pos (by omega), Nat.sub_self]
      rfl
    · by_cases hin : i + 1 ≤ j ∧ j < i + 1 + xs.length
      · have hd : j - i = (j - (i + 1)) + 1 := by omega
        rw [if_pos hin, if_pos (by omega), hd, List.getElem?_cons_succ]
      · rw [if_neg hin, if_neg hj, if_neg (by omega)]

theorem extend_size (a : Array α) (n : Nat) (x : α) : (extend a n x).size = max a.size n := by
  rw [extend, Array.size_append, Array.size_replicate]
  omega

theorem extend_getD (a : Array α) (n : Nat) (x : α) (j : Nat) :
    (extend a n x)[j]?.getD x = a[j]?.getD x := by
  rw [extend, Array.getElem?_append]
  by_cases h : j < a.size
  · rw [if_pos h]
  · rw [if_neg h, Array.getElem?_replicate, Array.getElem?_eq_none (by omega)]
    split <;> rfl

theorem extend_of_le (a : Array α) (n : Nat) (x : α) (h : n ≤ a.size) : extend a n x = a := by
  rw [extend, Nat.sub_eq_zero_of_le h]
  simp

end Arrays

namespace Image

def byteAt (im : Image) (i : Nat) : UInt8 := im.bytes[i]?.getD 0

def fixedAt (im : Image) (i : Nat) : Bool := im.fixed[i]?.getD false

def window (im : Image) (start n : Nat) : Bytes := (im.bytes.extract start (start + n)).toList

@[simp] theorem moveTo_cursor (im : Image) (p : Nat) : (im.moveTo p).cursor = p := rfl

@[simp] theorem moveTo_size (im : Image) (p : Nat) : (im.moveTo p).size = im.size := rfl

@[simp] theorem moveTo_fixedAt (im : Image) (p i : Nat) :
    (im.moveTo p).fixedAt i = im.fixedAt i := rfl

@[simp] theorem moveTo_byteAt (im : Image) (p i : Nat) : (im.moveTo p).byteAt i = im.byteAt i := rfl

@[simp] theorem moveTo_limit (im : Image) (p : Nat) : (im.moveTo p).limit = im.limit := rfl

theorem window_length (im : Image) (start n : Nat) (h : start + n ≤ im.bytes.size) :
    (im.window start n).length = n := by
  rw [window, Array.length_toList, Array.size_extract]
  omega

theorem window_get (im : Image) (start n k : Nat) (h : start + n ≤ im.bytes.size) (hk : k < n) :
    (im.window start n)[k]? = some (im.byteAt (start + k)) := by
  have hi : start + k < im.bytes.size := by omega
  rw [window, Array.getElem?_toList, Array.getElem?_extract, if_pos (by omega), byteAt,
    Array.getElem?_eq_getElem hi]
  rfl

/-- A window is settled by its single bytes. -/
theorem window_eq (im : Image) (start : Nat) (bs : Bytes)
    (h : start + bs.length ≤ im.bytes.size)
    (hb : ∀ k (hk : k < bs.length), im.byteAt (start + k) = bs[k]) :
    im.window start bs.length = bs := by
  apply List.ext_getElem?
  intro k
  by_cases hk : k < bs.length
  · rw [window_get im start _ k h hk, hb k hk, List.getElem?_eq_getElem hk]
  · rw [List.getElem?_eq_none (by rw [window_length im start _ h]; omega),
      List.getElem?_eq_none (by omega)]

theorem window_append (im : Image) (start k j : Nat) :
    im.window start (k + j) = im.window start k ++ im.window (start + k) j := by
  rw [window, window, window, ← Array.toList_append, Array.extract_append_extract]
  congr 2
  · omega
  · omega

theorem window_take (im : Image) (start n k : Nat) (h : k ≤ n) :
    (im.window start n).take k = im.window start k := by
  rw [window, window, Array.toList_extract, Array.toList_extract, List.extract_eq_take_drop,
    List.extract_eq_take_drop, List.take_take]
  congr 1
  omega

theorem slice_eq (im : Image) (start n : Nat) (h : start + n ≤ im.bytes.size) :
    im.slice? start (start + n) = some (im.window start n) := by
  rw [slice?, if_pos ⟨by omega, h⟩]
  rfl

theorem byteAt_store (im : Image) (p : Nat) (bs : Bytes) (i : Nat) :
    (im.store p bs).byteAt i =
      if p ≤ i ∧ i < p + bs.length then bs[i - p]?.getD 0 else im.byteAt i := by
  rw [byteAt, store]
  simp only
  rw [overwrite_get _ _ _ (by rw [extend_size]; omega)]
  split
  · rfl
  · exact extend_getD _ _ _ _

theorem fixedAt_overwrite (a : Array Bool) (p n i : Nat) :
    (overwrite (extend a (p + n) false) p (List.replicate n true))[i]?.getD false =
      (a[i]?.getD false || decide (p ≤ i ∧ i < p + n)) := by
  rw [overwrite_get _ _ _ (by rw [extend_size]; omega), List.length_replicate]
  by_cases h : p ≤ i ∧ i < p + n
  · rw [if_pos h, List.getElem?_replicate, if_pos (by omega)]
    simp [h]
  · rw [if_neg h, extend_getD]
    simp [h]

theorem fixedAt_store (im : Image) (p : Nat) (bs : Bytes) (i : Nat) :
    (im.store p bs).fixedAt i = (im.fixedAt i || decide (p ≤ i ∧ i < p + bs.length)) :=
  fixedAt_overwrite im.fixed p bs.length i

theorem fixedAt_mark (im : Image) (p n i : Nat) :
    (im.mark p n).fixedAt i = (im.fixedAt i || decide (p ≤ i ∧ i < p + n)) :=
  fixedAt_overwrite im.fixed p n i

theorem store_sizes (im : Image) (p : Nat) (bs : Bytes) (h : im.fixed.size = im.bytes.size) :
    (im.store p bs).fixed.size = (im.store p bs).bytes.size := by
  simp only [store]
  rw [overwrite_size _ _ _ (by rw [extend_size]; omega),
    overwrite_size _ _ _ (by rw [extend_size]; omega), extend_size, extend_size,
    List.length_replicate, h]

theorem mark_bytes (im : Image) (p n : Nat) (h : p + n ≤ im.bytes.size) :
    (im.mark p n).bytes = im.bytes :=
  extend_of_le _ _ _ h

theorem mark_fixed_size (im : Image) (p n : Nat) (h : p + n ≤ im.fixed.size) :
    (im.mark p n).fixed.size = im.fixed.size := by
  simp only [mark]
  rw [overwrite_size _ _ _ (by rw [extend_size]; omega), extend_size, List.length_replicate]
  omega

theorem fixedCount_eq (im : Image) (p n : Nat) :
    im.fixedCount p n = ((List.range n).map fun k => im.fixedAt (p + k)).count true := by
  induction n with
  | zero => simp [fixedCount]
  | succ n ih =>
    rw [List.range_succ, List.map_append, List.count_append, ← ih, fixedCount, fixedCount]
    by_cases h : p + n < im.fixed.size
    · have hx : im.fixed.extract p (p + (n + 1)) =
          (im.fixed.extract p (p + n)).push im.fixed[p + n] := by
        rw [Array.push_extract_getElem h, Nat.add_assoc]
        simp
      rw [hx, Array.toList_push, List.count_append]
      simp [fixedAt, h]
    · have hx : im.fixed.extract p (p + (n + 1)) = im.fixed.extract p (p + n) := by
        apply Array.ext_getElem?
        intro k
        rw [Array.getElem?_extract, Array.getElem?_extract, Nat.min_eq_right (by omega),
          Nat.min_eq_right (by omega)]
      rw [hx]
      simp [fixedAt, Array.getElem?_eq_none (Nat.le_of_not_lt h)]

theorem region_fixed (im : Image) (p n : Nat) (h : ∀ k, k < n → im.fixedAt (p + k) = true) :
    im.region p n = .fixed := by
  have hc : im.fixedCount p n = n := by
    rw [fixedCount_eq, List.count_eq_length.2]
    · simp
    · intro b hb
      obtain ⟨k, hk, rfl⟩ := List.mem_map.1 hb
      exact (h k (List.mem_range.1 hk)).symm
  rw [region, hc]
  by_cases hn : n = 0 <;> simp [hn]

theorem fixed_of_region (im : Image) (p n : Nat) (h : im.region p n = .fixed) :
    ∀ k, k < n → im.fixedAt (p + k) = true := by
  intro k hk
  have hc : im.fixedCount p n = n := by
    rw [region, if_neg (by omega)] at h
    by_cases h0 : im.fixedCount p n = 0
    · simp [h0] at h
    · by_cases hn : im.fixedCount p n = n
      · exact hn
      · simp [h0, hn] at h
  rw [fixedCount_eq] at hc
  have hall := List.count_eq_length.1 (hc.trans (by simp : n = _))
  exact (hall _ (List.mem_map.2 ⟨k, List.mem_range.2 hk, rfl⟩)).symm

theorem region_fresh (im : Image) (p n : Nat) (hn : n ≠ 0)
    (h : ∀ k, k < n → im.fixedAt (p + k) = false) : im.region p n = .fresh := by
  have hc : im.fixedCount p n = 0 := by
    rw [fixedCount_eq, List.count_eq_zero]
    intro hb
    obtain ⟨k, hk, hf⟩ := List.mem_map.1 hb
    rw [h k (List.mem_range.1 hk)] at hf
    exact Bool.false_ne_true hf
  rw [region, if_neg hn, hc]
  simp

end Image

end DecisionWalk
