import DecisionWalk.Proofs.Materialized

/-!
# Terminated strings over fixed bytes

Whether a terminated string is there already is told by the byte at the cursor.
Where it is fixed, the zero byte is searched for, up to where the longest string
would have it; if the file does not have so many bytes yet, none are searched, and
no string is found. Where it is free, a string is drawn, and written over whatever
is fixed behind it.
-/

set_option autoImplicit false

namespace DecisionWalk

open Walker Image

variable {K : Type} {s t p : State K} {most : Nat} {text : Bytes}

structure FixedString (s : State K) (text : Bytes) : Prop where
  nonzero : ∀ b ∈ text, b ≠ 0
  stands : s.image.Stands (text ++ [0])
  fixed : ∀ k, k ≤ text.length → s.image.fixedAt (s.image.cursor + k) = true

/-- All bytes are there that are searched for the end of a string of at most `most` symbols. -/
def Searchable (most : Nat) (s : State K) : Prop :=
  min (s.image.cursor + most + 1) s.image.limit ≤ s.image.bytes.size

instance : Decidable (Searchable most s) := inferInstanceAs (Decidable (_ ≤ _))

def searched (most : Nat) (im : Image) : Nat := min (im.cursor + most + 1) im.limit - im.cursor

theorem Image.Coherent.cursor_lt {im : Image} (h : im.Coherent .generate)
    (hfixed : im.fixedAt im.cursor = true) :
    im.cursor < im.bytes.size ∧ im.bytes.size ≤ im.limit := by
  refine ⟨Nat.lt_of_lt_of_le (h.fixed_lt _ hfixed) h.size_le, ?_⟩
  rw [limit, h.input]
  exact h.within rfl

theorem Draws.drawTerminated {free : Prop} (most : Nat) {found : Option Bytes}
    (hf : found = none → free) : Draws free (drawTerminated most found : Walker K Bytes) :=
  (Draws.sampleSmall _ fun h => hf (Option.map_eq_none_iff.1 h)).bind fun _ =>
    Draws.drawText .nonNul _ hf

namespace Walker

theorem not_free (h : s.image.fixedAt s.image.cursor = true) :
    ¬ (s.mode = .generate ∧ s.image.region s.image.cursor 1 = .fresh) := by
  rintro ⟨-, hfresh⟩
  have hfree : s.image.fixedAt s.image.cursor = false :=
    fresh_of_region _ _ _ hfresh 0 (by decide)
  rw [h] at hfree
  cases hfree

theorem foundCString_unsearchable (h : s.image.fixedAt s.image.cursor = true)
    (hall : ¬ Searchable most s) :
    foundCString most s = violation (.unterminated (most + 1) s.image.cursor) s := by
  rw [foundCString]
  dsimp only
  rw [if_neg (not_free h), slice?, if_neg fun hboth => hall hboth.2]
  rfl

section Finding

variable (hs : Generating s)
include hs

theorem foundCString_free (most : Nat) (h : s.image.fixedAt s.image.cursor = false) :
    foundCString most s = .ok none s := by
  have hfresh : s.image.region s.image.cursor 1 = .fresh := by
    apply region_fresh _ _ _ (by decide)
    intro k hk
    rwa [Nat.lt_one_iff.1 hk]
  exact if_pos ⟨hs.mode, hfresh⟩

theorem foundCString_search (h : s.image.fixedAt s.image.cursor = true)
    (hall : Searchable most s) : foundCString most s =
      match (s.image.window s.image.cursor (searched most s.image)).findIdx? (· == 0) with
      | some length =>
        if s.image.region s.image.cursor (length + 1) = .fixed then
          .ok (some ((s.image.window s.image.cursor (searched most s.image)).take length)) s
        else violation .stringStraddles s
      | none => violation (.unterminated (most + 1) s.image.cursor) s := by
  have hin := hs.coherent.cursor_lt h
  have hstop : min (s.image.cursor + most + 1) s.image.limit =
      s.image.cursor + searched most s.image := by
    rw [searched]
    omega
  rw [Searchable, hstop] at hall
  rw [foundCString]
  dsimp only
  rw [if_neg (not_free h), hstop, slice_eq _ _ _ hall, Option.getD_some]
  cases (s.image.window s.image.cursor (searched most s.image)).findIdx? (· == 0) with
  | none => rfl
  | some length =>
    dsimp only
    by_cases hfixed : s.image.region s.image.cursor (length + 1) = .fixed
    · rw [if_pos hfixed, if_neg fun hbad => hbad.2 hfixed]
    · rw [if_neg hfixed, if_pos ⟨hs.mode, hfixed⟩]

theorem foundCString_there (hl : text.length ≤ most) (h : FixedString s text)
    (hall : Searchable most s) : foundCString most s = .ok (some text) s := by
  have hfirst := h.fixed 0 (Nat.zero_le _)
  have hin := hs.coherent.cursor_lt hfirst
  have hstop := h.stands.1
  rw [List.length_append, List.length_singleton] at hstop
  obtain ⟨hi, htake⟩ := findIdx?_window (n := searched most s.image)
    (by rw [searched]; omega) h.nonzero h.stands
  have hfixed : s.image.region s.image.cursor (text.length + 1) = .fixed :=
    region_fixed _ _ _ fun k hk => h.fixed k (Nat.le_of_lt_succ hk)
  rw [foundCString_search hs hfirst hall, hi]
  dsimp only
  rw [htake, if_pos hfixed]

theorem foundCString_fixed (most : Nat) (h : s.image.fixedAt s.image.cursor = true) :
    (∃ text, text.length ≤ most ∧ FixedString s text ∧ foundCString most s = .ok (some text) s) ∨
      ∃ v, foundCString most s = violation v s := by
  by_cases hall : Searchable most s
  · rw [foundCString_search hs h hall]
    cases hi : (s.image.window s.image.cursor (searched most s.image)).findIdx? (· == 0) with
    | none => exact Or.inr ⟨_, rfl⟩
    | some length =>
      dsimp only
      split
      case isTrue hfixed =>
        obtain ⟨hlt, hlen, hz, hst⟩ := window_terminated hi
        have hmost : searched most s.image ≤ most + 1 := by
          rw [searched]
          omega
        refine Or.inl ⟨_, by omega, ⟨hz, hst, ?_⟩, rfl⟩
        intro k hk
        exact fixed_of_region _ _ _ hfixed k (by omega)
      case isFalse => exact Or.inr ⟨_, rfl⟩
  · exact Or.inr ⟨_, foundCString_unsearchable h hall⟩

end Finding

theorem emit_changes {bs : Bytes} {i : Nat} (hm : s.mode = .generate)
    (h : ((emit bs).after s).image.byteAt i ≠ s.image.byteAt i) :
    (∃ t, emit bs s = .ok () t) ∧ s.image.cursor ≤ i ∧ i < s.image.cursor + bs.length := by
  by_cases hroom : s.image.cursor + bs.length ≤ s.image.capacity
  · have hrun := emit_room hm hroom
    refine ⟨⟨_, hrun⟩, ?_⟩
    rw [after_ok hrun] at h
    have hbyte := (store_writes s.image bs).byteAt i
    by_cases hin : s.image.cursor ≤ i ∧ i < s.image.cursor + bs.length
    · exact hin
    · rw [if_neg hin] at hbyte
      exact absurd hbyte h
  · have hrun : emit bs s = .error (.capacityExceeded .file s.image.capacity) s := by
      rw [emit]
      simp only [hm, if_neg hroom]
    rw [after_error hrun] at h
    exact absurd rfl h

theorem drawTerminated_kept (hmost : most < 2 ^ 64) (hl : text.length ≤ most)
    (hz : ∀ b ∈ text, b ≠ 0) {w : Bytes} (h : drawTerminated most (some text) s = .ok w t) :
    w = text := by
  have hcodec := terminated_codec (K := K) (T := True) most
  exact (hcodec.forced s text w t
    ⟨⟨hl, fun b hb => (Alphabet.nonNul_contains b).2 (hz b hb)⟩, Nat.lt_of_le_of_lt hl hmost⟩ h).1

section Reading

variable (hs : Generating s) (hmost : most < 2 ^ 64)
include hs hmost

/-- A fixed string is read as it stands. -/
theorem readCString_there (hl : text.length ≤ most) (h : FixedString s text)
    (hall : Searchable most s)
    (hroom : s.stream.position + (terminatedCode most text).length ≤ s.stream.capacity) :
    ∃ t, readCString most s = .ok text t ∧
      t.stream.consumed = s.stream.consumed ++ terminatedCode most text ∧
      t.image.cursor = s.image.cursor + text.length + 1 ∧
      ∀ i, t.image.byteAt i = s.image.byteAt i := by
  have hfind : (terminated most).find s = .ok (some text) s := foundCString_there hs hl h hall
  have hdraw : (terminated most).draw (some text) s = _ :=
    (terminated_codec (K := K) (T := True) most).force s text
      ⟨⟨hl, fun b hb => (Alphabet.nonNul_contains b).2 (h.nonzero b hb)⟩,
        Nat.lt_of_le_of_lt hl hmost⟩ hroom
  have hfile : s.image.cursor + (text ++ [0]).length ≤ s.image.capacity :=
    Nat.le_trans h.stands.1 (hs.coherent.within rfl)
  have hemit : emit (text ++ [0]) (s.recorded (terminatedCode most text)) = .ok () _ :=
    emit_room hs.mode hfile
  have hrun : (emit (text ++ [0]) >>= fun _ => pure text) _ = .ok text _ := bind_run hemit
  refine ⟨_, Eq.trans ?_ hrun, ?_, ?_, ?_⟩
  · rw [readCString_eq, Field.read_run hfind, bind_run hdraw, get_bind]
    rfl
  · exact Stream.recorded_consumed _ _
  · show s.image.cursor + (text ++ [0]).length = _
    rw [List.length_append, List.length_singleton, Nat.add_assoc]
  · intro i
    have hbyte := (store_writes s.image (text ++ [0])).byteAt i
    refine hbyte.trans ?_
    split
    case isFalse => rfl
    case isTrue hin =>
      have hk : i - s.image.cursor < (text ++ [0]).length := by omega
      have hsame := h.stands.2 _ hk
      rw [Nat.add_sub_cancel' hin.1] at hsame
      rw [List.getElem?_eq_getElem hk, Option.getD_some, hsame]

theorem readCString_alike (hl : text.length ≤ most) (h : FixedString s text)
    (hall : Searchable most s) (hp : p.mode = .parse) (hc : p.image.Coherent .parse)
    (hb : Beside (text.length + 1) s p) : Accord s p (readCString most s) (readCString most p) := by
  have hst : p.image.Stands (text ++ [0]) := by
    refine ⟨?_, ?_⟩
    · rw [List.length_append, List.length_singleton, hb.cursor]
      exact hb.inside
    · intro k hk
      rw [hb.cursor, hb.bytes k (by simpa using hk)]
      exact h.stands.2 k hk
  have hlimit : p.image.limit = p.image.bytes.size := by
    rw [limit, hc.input]
    rfl
  rw [readCString_eq]
  exact Field.read_alike hs hp hc ⟨hb.position, hb.capacity, hb.evil, fun h => h.elim⟩ hb.endian
    (foundCString_there hs hl h hall)
    (foundCString_parse most hp hlimit text hl h.nonzero hst)
    (.drawTerminated most (Draws.forced text)) h.stands hst
    fun w t hd => congrArg (· ++ [0]) (drawTerminated_kept hmost hl h.nonzero hd)

theorem readCString_spares (hfixed : s.image.fixedAt s.image.cursor = true) :
    Spared s ((readCString most).after s) := by
  rw [readCString_eq]
  rcases foundCString_fixed hs most hfixed with ⟨text, hl, htext, hfound⟩ | ⟨v, hv⟩
  · refine Field.read_spares hs.mode hfound (Draws.drawTerminated most fun _ => trivial) ?_
    intro w t hd
    right
    rw [drawTerminated_kept hmost hl htext.nonzero hd]
    exact htext.stands
  · have hrun : (terminated most).read s = violation v s := bind_error hv
    rw [after_error hrun]
    exact .refl s

omit hmost in
theorem readCString_draws (hfree : s.image.fixedAt s.image.cursor = false) {i : Nat}
    (h : ((readCString most).after s).image.byteAt i ≠ s.image.byteAt i) :
    ∃ text t, readCString most s = .ok text t ∧ s.image.cursor ≤ i ∧
      i ≤ s.image.cursor + text.length := by
  have hfind : (terminated most).find s = .ok none s := foundCString_free hs most hfree
  obtain ⟨e, hafter | ⟨text, hdraw, hafter⟩⟩ :=
    Field.read_after hfind (Draws.drawTerminated most fun _ => trivial)
  · rw [readCString_eq, hafter] at h
    exact absurd rfl h
  · rw [readCString_eq, hafter] at h
    obtain ⟨⟨t, hemit⟩, hle, hlt⟩ := emit_changes (s := s.recorded e) hs.mode h
    refine ⟨text, t, ?_, hle, ?_⟩
    · rw [readCString_eq, Field.read_run hfind, bind_run hdraw, get_bind]
      exact bind_run hemit
    · have hlen : ((terminated most).encode (K := K) s.endian text).length = text.length + 1 :=
        List.length_append
      rw [hlen, ← Nat.add_assoc] at hlt
      exact Nat.le_of_lt_succ hlt

end Reading

end Walker

variable [DecidableEq K]

/-- In a generation, a string that is fixed to its zero byte is returned, with the decisions that a
parse records, and changes no byte, if all the bytes are there that are searched for its end; if
they are not, the call is refused. It is refused, too, where the byte at the cursor is fixed and no
such string stands there. A fixed byte is changed only where the one at the cursor is free and the
string that is returned reaches over it. -/
theorem readCString_fixed (hs : Reached s) (hm : s.mode = .generate)
    (hword : s.image.cursor + most + 1 < 2 ^ 64) :
    (∀ text, text.length ≤ most → FixedString s text →
      (Searchable most s →
        (s.stream.position + (terminatedCode most text).length ≤ s.stream.capacity →
          ∃ t, readCString most s = .ok text t ∧
            t.stream.consumed = s.stream.consumed ++ terminatedCode most text ∧
            t.image.cursor = s.image.cursor + text.length + 1 ∧
            ∀ i, t.image.byteAt i = s.image.byteAt i) ∧
        ∀ p, Reached p → p.mode = .parse → Beside (text.length + 1) s p →
          Accord s p (readCString most s) (readCString most p)) ∧
      (¬ Searchable most s →
        readCString most s = violation (.unterminated (most + 1) s.image.cursor) s)) ∧
    (s.image.fixedAt s.image.cursor = true → (¬ ∃ text, text.length ≤ most ∧ FixedString s text) →
      ∃ offset path v, readCString most s = .error (.structural offset path v) s) ∧
    ∀ i, s.image.fixedAt i = true →
      ((readCString most).after s).image.byteAt i ≠ s.image.byteAt i →
        s.image.fixedAt s.image.cursor = false ∧ ∃ text t, readCString most s = .ok text t ∧
          s.image.cursor < i ∧ i ≤ s.image.cursor + text.length := by
  have hgen : Generating s := ⟨hm, hm ▸ hs.coherent⟩
  have hmost : most < 2 ^ 64 := by omega
  refine ⟨?_, ?_, ?_⟩
  · intro text hl htext
    refine ⟨fun hall => ⟨readCString_there hgen hmost hl htext hall, ?_⟩, fun hall => ?_⟩
    · intro p hp hpm hb
      exact readCString_alike hgen hmost hl htext hall hpm (hpm ▸ hp.coherent) hb
    · exact bind_error (foundCString_unsearchable (htext.fixed 0 (Nat.zero_le _)) hall)
  · intro hfixed hnone
    rcases foundCString_fixed hgen most hfixed with ⟨text, hl, htext, -⟩ | ⟨v, hv⟩
    · exact absurd ⟨text, hl, htext⟩ hnone
    · exact ⟨_, _, v, bind_error hv⟩
  · intro i hi hchanged
    cases hfixed : s.image.fixedAt s.image.cursor with
    | true => exact absurd (readCString_spares hgen hmost hfixed i hi).2 hchanged
    | false =>
      obtain ⟨text, t, hrun, hle, hlast⟩ := readCString_draws hgen hfixed hchanged
      refine ⟨rfl, text, t, hrun, Nat.lt_of_le_of_ne hle ?_, hlast⟩
      rintro rfl
      rw [hfixed] at hi
      cases hi

/-- A lookahead fixes a string of one symbol; a parse of it has tossed one coin. -/
theorem readCString_fixed_looked :
    ∃ s p : State Unit, Reached s ∧ Reached p ∧ FixedString s [97] ∧ Searchable 1 s ∧
      (∃ t, readCString 1 s = .ok [97] t ∧ t.stream.consumed = [1] ++ terminatedCode 1 [97]) ∧
      Accord s p (readCString 1 s) (readCString 1 p) ∧
      readCString 5 s = violation (.unterminated 6 0) s := by
  -- What is computed of the two states is all that the rest uses of them.
  have hfacts : ∃ s p : State Unit,
      (Reached s ∧ s.mode = .generate ∧ s.stream.consumed = [1] ∧ s.image.cursor = 0) ∧
      (Reached p ∧ p.mode = .parse) ∧ (FixedString s [97] ∧ Searchable 1 s ∧ ¬ Searchable 5 s) ∧
      s.stream.position + (terminatedCode 1 [97]).length ≤ s.stream.capacity ∧ Beside 2 s p := by
    refine ⟨visit [.ask (.lookBytes 0 2 [[97, 0]])] (State.generating {} [1]),
      visit [.ask (.endOfFile 128)] (State.parsing {} [97, 0]), ⟨?_, rfl, rfl, rfl⟩, ⟨?_, rfl⟩,
      ⟨⟨List.forall_mem_singleton.2 (by decide), ⟨by decide, by decide⟩, by decide⟩, by decide,
        by decide⟩, by decide, ⟨rfl, rfl, rfl, rfl, rfl, by decide, by decide⟩⟩
    · exact ⟨.decisions [1], State.empty {}, State.generating {} [1], [], _, rfl, rfl⟩
    · exact ⟨.input [97, 0], State.empty {}, State.parsing {} [97, 0], [], _, rfl, rfl⟩
  obtain ⟨s, p, ⟨hs, hm, hconsumed, hcursor⟩, ⟨hp, hpm⟩, ⟨htext, hall, hfar⟩, hroom, hb⟩ := hfacts
  have hone : s.image.cursor + 1 + 1 < 2 ^ 64 := by rw [hcursor]; decide
  have hfive : s.image.cursor + 5 + 1 < 2 ^ 64 := by rw [hcursor]; decide
  obtain ⟨hreturned, halike⟩ := ((readCString_fixed hs hm hone).1 [97] (by decide) htext).1 hall
  obtain ⟨t, hrun, hcode, -⟩ := hreturned hroom
  have hrefused := ((readCString_fixed hs hm hfive).1 [97] (by decide) htext).2 hfar
  rw [hcursor] at hrefused
  exact ⟨s, p, hs, hp, htext, hall, ⟨t, hrun, hconsumed ▸ hcode⟩, halike p hp hpm hb, hrefused⟩

theorem readCString_not_fixed :
    (∃ s : State Unit, Reached s ∧ s.mode = .generate ∧ FixedString s [97] ∧
      readCString 5 s = .error (.structural 2 "<root>" (.unterminated 6 0)) s) ∧
    ∃ s : State Unit, Reached s ∧ s.mode = .generate ∧ s.image.fixedAt 1 = true ∧
      s.image.byteAt 1 = 7 ∧ ∃ t, readCString 3 s = .ok [97] t ∧ t.image.byteAt 1 = 0 := by
  refine ⟨⟨visit [.ask (.lookBytes 0 2 [[97, 0]])] (State.generating {} [1]), ?_, rfl, ?_, rfl⟩,
    visit [.ask (.lookBytes 1 1 [[7]])] (State.generating {} [1, 32, 0, 255, 26]), ?_, rfl,
    by decide, by decide, _, rfl, by decide⟩
  · exact ⟨.decisions [1], State.empty {}, State.generating {} [1], [], _, rfl, rfl⟩
  · exact ⟨List.forall_mem_singleton.2 (by decide), ⟨by decide, by decide⟩, by decide⟩
  · exact ⟨.decisions [1, 32, 0, 255, 26], State.empty {},
      State.generating {} [1, 32, 0, 255, 26], [], _, rfl, rfl⟩

end DecisionWalk
