import DecisionWalk.Proofs.Consistency

/-!
# Fixed bytes are spared

While a file is generated, bytes may be emitted where nothing is fixed yet, or
where they stand already. What is emitted only so changes no fixed byte.
-/

set_option autoImplicit false

namespace DecisionWalk

open Walker Image

variable {K α β : Type} {s t u : State K} {n : Nat}

namespace Image

theorem fresh_of_region (im : Image) (p n : Nat) (h : im.region p n = .fresh) :
    ∀ k, k < n → im.fixedAt (p + k) = false := by
  intro k hk
  have hc : im.fixedCount p n = 0 := by
    rw [region, if_neg (by omega)] at h
    by_cases h0 : im.fixedCount p n = 0
    · exact h0
    · by_cases hn : im.fixedCount p n = n
      · simp only [if_neg h0, if_pos hn] at h
        cases h
      · simp only [if_neg h0, if_neg hn] at h
        cases h
  rw [fixedCount_eq, List.count_eq_zero] at hc
  cases hf : im.fixedAt (p + k) with
  | false => rfl
  | true => exact absurd (List.mem_map.2 ⟨k, List.mem_range.2 hk, hf⟩) hc

/-- A range with fixed and with free bytes. -/
theorem region_mixed (im : Image) (p n i j : Nat) (hi : i < n) (hj : j < n)
    (hfixed : im.fixedAt (p + i) = true) (hfree : im.fixedAt (p + j) = false) :
    im.region p n = .mixed := by
  cases hr : im.region p n with
  | mixed => rfl
  | fresh =>
    rw [fresh_of_region im p n hr i hi] at hfixed
    cases hfixed
  | fixed =>
    rw [fixed_of_region im p n hr j hj] at hfree
    cases hfree

theorem slice_window {im : Image} {bs : Bytes} (h : im.slice? im.cursor (im.cursor + n) = some bs) :
    bs.length = n ∧ im.Stands bs := by
  by_cases hl : im.cursor + n ≤ im.bytes.size
  · rw [slice_eq im im.cursor n hl] at h
    cases h
    exact ⟨window_length im im.cursor n hl, window_stands im n hl⟩
  · rw [slice?, if_neg (by omega)] at h
    cases h

end Image

structure Generating (s : State K) : Prop where
  mode : s.mode = .generate
  coherent : s.image.Coherent .generate

def Spared (s t : State K) : Prop :=
  ∀ i, s.image.fixedAt i = true → t.image.fixedAt i = true ∧ t.image.byteAt i = s.image.byteAt i

theorem Spared.refl (s : State K) : Spared s s := fun _ h => ⟨h, rfl⟩

theorem Spared.trans (h : Spared s t) (h' : Spared t u) : Spared s u := by
  intro i hi
  obtain ⟨hf, hb⟩ := h i hi
  obtain ⟨hf', hb'⟩ := h' i hf
  exact ⟨hf', hb'.trans hb⟩

def Sparing (x : Walker K α) : Prop :=
  ∀ s, Generating s → Generating (x.after s) ∧ Spared s (x.after s)

theorem Orderly.generating {x : Walker K α} (hx : Orderly x) (hs : Generating s) :
    Generating (x.after s) := by
  have h := (hx s).passes.onward
  have hmode := h.mode.trans hs.mode
  have hc := h.coherent (by rw [hs.mode]; exact hs.coherent)
  rw [hmode] at hc
  exact ⟨hmode, hc⟩

namespace Walker

theorem after_bind_ok {x : Walker K α} {f : α → Walker K β} {a : α} (h : x s = .ok a t) :
    (x >>= f).after s = (f a).after t := by
  rw [after, bind_run h, after]

theorem after_bind_error {x : Walker K α} {f : α → Walker K β} {e : WalkError}
    (h : x s = .error e t) : (x >>= f).after s = t := by
  rw [after, bind_error h]

theorem after_bind_pure (x : Walker K α) (f : α → β) (s : State K) :
    (x >>= fun a => pure (f a)).after s = x.after s := by
  cases h : x s with
  | ok a t => rw [after_bind_ok h, after_ok h, after_ok (pure_run _ t)]
  | error e t => rw [after_bind_error h, after_error h]

/-- A lookahead leaves what its read leaves, but for the cursor and the tracker. -/
theorem ahead_after (offset : Nat) (read : Walker K α) (s : State K) :
    ∃ tracker, (ahead offset read).after s =
      { (read.after (s.movedTo (s.image.cursor + offset))).movedTo s.image.cursor with
        tracker := tracker } := by
  cases hx : read (s.movedTo (s.image.cursor + offset)) with
  | ok a t =>
    have hrun : read { s with image := s.image.moveTo (s.image.cursor + offset) } = .ok a t := hx
    exact ⟨_, by rw [after_ok hx, after, ahead, hrun]; rfl⟩
  | error e t =>
    have hrun : read { s with image := s.image.moveTo (s.image.cursor + offset) } = .error e t := hx
    exact ⟨t.tracker, by rw [after_error hx, after, ahead, hrun]; rfl⟩

theorem emit_room {bs : Bytes} (hm : s.mode = .generate)
    (h : s.image.cursor + bs.length ≤ s.image.capacity) :
    emit bs s = .ok () (s.touching bs.length
      ((s.image.store s.image.cursor bs).moveTo (s.image.cursor + bs.length))) := by
  rw [emit]
  simp only [hm, if_pos h, State.touching]

theorem emit_stands {bs : Bytes} (hm : s.mode = .parse) (hc : s.image.Coherent .parse)
    (h : s.image.Stands bs) :
    emit bs s = .ok () (s.touching bs.length
      ((s.image.mark s.image.cursor bs.length).moveTo (s.image.cursor + bs.length))) := by
  have hlimit : ¬ s.image.limit < s.image.cursor + bs.length := by
    rw [limit, hc.input]
    exact Nat.not_lt.2 h.1
  rw [emit]
  simp only [hm, if_neg hlimit, if_pos (stands_slice h), State.touching]

/-- Bytes may be emitted over free ones and over themselves. -/
theorem emit_spares {bs : Bytes} (hm : s.mode = .generate)
    (h : (∀ k, k < bs.length → s.image.fixedAt (s.image.cursor + k) = false) ∨ s.image.Stands bs) :
    Spared s ((emit bs).after s) := by
  by_cases hroom : s.image.cursor + bs.length ≤ s.image.capacity
  · rw [after_ok (emit_room hm hroom)]
    intro i hi
    have hw := store_writes s.image bs
    refine ⟨(hw.fixedAt i).trans (by rw [hi]; rfl), (hw.byteAt i).trans ?_⟩
    split
    case isFalse => rfl
    case isTrue hin =>
      have hk : i - s.image.cursor < bs.length := by omega
      have hback : s.image.cursor + (i - s.image.cursor) = i := by omega
      rcases h with hfree | hst
      · have hclash := hfree _ hk
        rw [hback, hi] at hclash
        cases hclash
      · have hsame := hst.2 _ hk
        rw [hback] at hsame
        rw [List.getElem?_eq_getElem hk, Option.getD_some, hsame]
  · have hrun : emit bs s = .error (.capacityExceeded .file s.image.capacity) s := by
      rw [emit]
      simp only [hm, if_neg hroom]
    rw [after_error hrun]
    exact .refl s

/-- Nothing is found only where nothing is fixed. -/
theorem found_unfixed (hs : Generating s) (h : found s.image.cursor n s = .ok none t) :
    ∀ k, k < n → s.image.fixedAt (s.image.cursor + k) = false := by
  rw [found, hs.mode] at h
  dsimp only at h
  split at h
  case h_1 hr => exact fresh_of_region _ _ _ hr
  case h_2 hr =>
    intro k hk
    have hlast := hs.coherent.fixed_lt _ (fixed_of_region _ _ _ hr (n - 1) (by omega))
    have hle := hs.coherent.size_le
    rw [slice_eq _ _ n (by omega)] at h
    cases h
  case h_3 => cases h

/-- What is found stands at the cursor. -/
theorem found_stands {bs : Bytes} (h : found s.image.cursor n s = .ok (some bs) t) :
    bs.length = n ∧ s.image.Stands bs := by
  rw [found] at h
  split at h
  · split at h
    case h_1 hs =>
      split at h
      · cases h
        exact slice_window hs
      · cases h
    case h_2 => cases h
  · split at h
    case h_1 => cases h
    case h_2 =>
      injection h with h1 h2
      exact slice_window h1
    case h_3 => cases h

end Walker

namespace Sparing

theorem pure (a : α) : Sparing (pure a : Walker K α) := fun s hs => ⟨hs, .refl s⟩

theorem violation (v : Violation) : Sparing (violation v : Walker K α) :=
  fun s hs => ⟨hs, .refl s⟩

theorem capacity (r : Resource) (limit : Nat) :
    Sparing (throw (.capacityExceeded r limit) : Walker K α) := fun s hs => ⟨hs, .refl s⟩

theorem bind {x : Walker K α} {f : α → Walker K β} (hx : Sparing x) (hf : ∀ a, Sparing (f a)) :
    Sparing (x >>= f) := by
  intro s hs
  obtain ⟨ht, hspared⟩ := hx s hs
  cases hr : x s with
  | ok a t =>
    rw [after_ok hr] at ht hspared
    rw [after_bind_ok hr]
    obtain ⟨hu, hspared'⟩ := hf a t ht
    exact ⟨hu, hspared.trans hspared'⟩
  | error e t =>
    rw [after_error hr] at ht hspared
    rw [after_bind_error hr]
    exact ⟨ht, hspared⟩

theorem get {f : State K → Walker K α} (hf : ∀ s, Sparing (f s)) : Sparing (get >>= f) :=
  fun s hs => hf s s hs

theorem ite {c : Prop} [Decidable c] {x y : Walker K α} (hx : Sparing x) (hy : Sparing y) :
    Sparing (if c then x else y) := by
  split
  · exact hx
  · exact hy

theorem moveTo (position : Nat) : Sparing (moveTo position : Walker K Unit) :=
  fun _ hs => ⟨⟨hs.mode, hs.coherent.moveTo position⟩, fun _ hi => ⟨hi, rfl⟩⟩

theorem ahead (offset : Nat) {read : Walker K α} (hr : Sparing read) :
    Sparing (ahead offset read) := by
  intro s hs
  have hmoved : Generating (s.movedTo (s.image.cursor + offset)) :=
    ⟨hs.mode, hs.coherent.moveTo _⟩
  obtain ⟨ht, hspared⟩ := hr _ hmoved
  obtain ⟨tracker, hafter⟩ := ahead_after offset read s
  rw [hafter]
  exact ⟨⟨ht.mode, ht.coherent.moveTo _⟩, hspared⟩

end Sparing

end DecisionWalk
