import DecisionWalk.Proofs.Portable
import DecisionWalk.Proofs.Visiting

/-!
# Generations that perform what was read

A rule that reads some bytes anywhere writes them anywhere too: a generation that
finds the decisions of the read ahead of it takes just these, and writes the same
bytes behind what it has written before. What was written stays what it is,
whatever comes after.
-/

set_option autoImplicit false

namespace DecisionWalk

open Image Walker Outline

variable {K α : Type} {e : Endian} {b : Bool} {past rest u d : Bytes} {s t : State K}

structure Writing (e : Endian) (b : Bool) (past rest : Bytes) (s : State K) : Prop where
  edge : At .generate noHole (Outline.edge past.length) s
  endian : s.endian = e
  evil : s.evil = ⟨b⟩
  output : s.image.output = past
  ahead : s.stream.ahead = rest
  within : s.stream.length ≤ s.stream.capacity

theorem Writing.start (e : Endian) (limits : Limits) (tracker : Tracker K) {decisions : Bytes}
    (hfits : decisions.length ≤ limits.streamCapacity) :
    Writing e limits.allowEvil [] decisions
      (State.tracking { State.generating limits decisions with endian := e } tracker) := by
  have hat := State.generating_at (K := K) limits decisions
  refine ⟨⟨hat.sound.like rfl rfl rfl, hat.shows, hat.behind⟩, rfl, rfl, rfl, rfl, ?_⟩
  show 0 + decisions.length ≤ limits.streamCapacity
  omega

def Image.halfway (im : Image) (past u : Bytes) : Image where
  bytes := (past ++ u).toArray
  fixed := (List.replicate past.length true ++ List.replicate u.length false).toArray
  cursor := past.length
  size := past.length
  capacity := im.capacity
  inputLength? := some (past ++ u).length

def State.reading (s : State K) (past u : Bytes) : State K :=
  { s with mode := .parse, image := s.image.halfway past u }

theorem Image.halfway_fixedAt (im : Image) (past u : Bytes) (i : Nat) :
    (im.halfway past u).fixedAt i = true ↔ i < past.length := by
  simp only [Image.fixedAt, Image.halfway, List.getElem?_toArray]
  by_cases hi : i < past.length
  · rw [List.getElem?_append_left (by rwa [List.length_replicate])]
    simp [hi]
  · rw [List.getElem?_append_right (by rw [List.length_replicate]; omega)]
    rw [List.getElem?_replicate]
    split <;> simp [hi]

theorem Writing.reading_at (h : Writing e b past rest s) (u : Bytes) :
    At .parse noHole (Outline.edge past.length) (s.reading past u) := by
  refine ⟨⟨rfl, h.edge.sound.watches, ?_, ?_, ?_, ?_⟩, ⟨rfl, rfl, ?_⟩, Nat.zero_le _⟩
  · simp [State.reading, Image.halfway]
  · simp [State.reading, Image.halfway]
  · simp [State.reading, Image.halfway, Image.limit]
  · simp [State.reading, Image.halfway]
  · intro i
    rw [State.reading, Image.halfway_fixedAt]
    simp only [Outline.edge]
    omega

theorem Writing.scanning (h : Writing e b past rest s) (u : Bytes) :
    Scanning e b 0 past u (s.reading past u) :=
  ⟨(h.reading_at u).sound, h.endian, h.evil, rfl, rfl, Nat.le_refl _, Nat.le_max_left _ _,
    fun i hi => (s.image.halfway_fixedAt past u i).2 hi⟩

theorem Writing.pairs {n : Nat} (h : Writing e b past rest s)
    (hroom : past.length + u.length ≤ s.image.capacity)
    (hdepth : s.tracker.depth + n ≤ s.tracker.maxDepth) :
    Pairs (.replay s.stream.bytes) noHole n (s.reading past u) s := by
  have hat := h.reading_at u
  have hsize : s.image.size = past.length := h.edge.shows.size
  refine ⟨h.edge.sound, ⟨h.edge.shows.cursor.symm, hsize.symm, ?_, ?_⟩, ?_, ⟨rfl, rfl, ?_⟩,
    ⟨rfl, hdepth⟩, rfl, rfl, rfl⟩
  · intro i
    rw [Bool.eq_iff_iff, hat.shows.fixedAt, h.edge.shows.fixedAt]
  · intro i hi _
    have hlt := (s.image.halfway_fixedAt past u i).1 hi
    have hget := output_get h.edge.sound (show i < s.image.size by omega)
    rw [h.output] at hget
    show (past ++ u).toArray[i]?.getD 0 = _
    rw [List.getElem?_toArray, List.getElem?_append_left hlt, hget]
    rfl
  · show (past ++ u).length ≤ s.image.limit
    rw [h.edge.sound.limit_generate, List.length_append]
    exact hroom
  · have hwithin := h.within
    rwa [Stream.length, ← Array.length_toList, ← List.length_append] at hwithin

theorem Agree.shows {hole : Span} {im im' : Image} {o : Outline} (h : Agree hole im im')
    (hs : o.Shows im) : o.Shows im' :=
  ⟨h.cursor.symm.trans hs.cursor, h.size.symm.trans hs.size, fun i => by
    rw [← h.fixedAt, hs.fixedAt]⟩

variable [DecidableEq K]

/-- A generation that finds the decisions ahead which a parse of `u` records writes `u`. The parse
is one that stands where the generation does, with `u` as its input. -/
theorem Recites.performs {g : Grammar K α} {depth : Nat} {a : α} {post : α → Outline → Prop}
    {ends : α → State K → Prop} (hx : Recites e b 0 depth past g.run u d a)
    (hfollow : Follows (.replay s.stream.bytes) noHole depth (Outline.edge past.length) g.run post
      ends) (hpost : ∀ o, post a o → Past 0 o) (hends : ∀ l, ends a l)
    (hs : Writing e b past (d ++ rest) s) (hroom : past.length + u.length ≤ s.image.capacity)
    (hdepth : s.tracker.depth + depth ≤ s.tracker.maxDepth) :
    ∃ t, g.run s = .ok a t ∧ Writing e b (past ++ u) rest t ∧ Noted d s t := by
  have hwithin := hs.within
  have hbytes : s.stream.bytes = s.stream.consumed ++ (d ++ rest) := by
    rw [Stream.bytes, hs.ahead]
    rfl
  rw [Stream.length, hs.ahead, List.length_append] at hwithin
  have hscan := hs.scanning u
  rw [← List.append_nil u] at hscan
  obtain ⟨l, hlead, hl, hnoted⟩ := hx [] _ hscan
    (show s.stream.position + d.length ≤ s.stream.capacity by rw [Stream.position]; omega) hdepth
  rw [List.append_nil] at hlead
  obtain ⟨o, ho, hat, -, hthen⟩ := hfollow _ a l (hs.reading_at u) hlead
  obtain ⟨c, -, rfl⟩ := hpost o ho
  have hreaches : (Link.replay s.stream.bytes).Within noHole l := by
    refine ⟨?_, trivial⟩
    show l.stream.consumed <+: s.stream.bytes
    rw [hnoted.consumed, hbytes, ← List.append_assoc]
    exact List.prefix_append _ _
  obtain ⟨t, hrun, hp, hsteps⟩ := hthen s (hs.pairs hroom hdepth) hreaches (hends l)
  obtain rfl : c = (past ++ u).length := hat.shows.cursor.symm.trans hl.cursor
  have hlength : l.image.inputLength?.getD 0 = l.image.size := by
    rw [hl.sound.input, if_pos rfl, hl.bytes, hl.forgets (Nat.zero_le _)]
    simp
  obtain ⟨c, hc⟩ := hsteps.stream
  obtain ⟨hpast, hall, -⟩ := hp.tapes
  have hrecorded : t.stream = s.stream.recorded d := by
    have hsame := congrArg Array.toList hpast
    have hnow := hnoted.consumed
    rw [hc, Stream.recorded_past, Array.toList_appendList] at hsame
    rw [hc, List.append_cancel_left (hsame.trans hnow)]
  have hstream : t.stream.ahead = rest := by
    rw [hrecorded, Stream.recorded_ahead, hs.ahead, List.drop_left]
  have hmaxDepth := g.after_maxDepth s
  rw [after_ok hrun] at hmaxDepth
  refine ⟨t, hrun, ⟨⟨hp.sound, hp.agree.shows hat.shows, Nat.zero_le _⟩, ?_, ?_, ?_, hstream, ?_⟩,
    ⟨hrecorded, hp.books.depth.symm.trans hnoted.depth, hmaxDepth⟩⟩
  · rw [← hp.endian, hl.endian]
  · rw [← hp.evil, hl.evil]
  · rw [← hp.agree.output hat.sound hp.sound (fun i hi => (hat.fixed_iff i).2 hi)
      (Nat.le_of_eq hlength) hp.sound.covered, output_parse hat.sound, hl.bytes, List.append_nil]
  · exact (Grammar.run_kept hrun).within hs.within

omit [DecidableEq K] in
theorem Writing.onward {c : Nat} (hs : Writing e b past rest s)
    (ht : At .generate noHole (Outline.edge c) t) (hgrows : Grows noHole s t)
    (hwithin : t.stream.length ≤ t.stream.capacity) (hevil : t.evil = s.evil)
    (hendian : t.endian = s.endian) :
    ∃ u, Writing e b (past ++ u) t.stream.ahead t := by
  have hsize : s.image.size = past.length := hs.edge.shows.size
  have hsize' : t.image.size = c := ht.shows.size
  have hlength := output_length ht.sound
  have hfront : t.image.output.take past.length = past := by
    apply List.ext_getElem?
    intro i
    by_cases hi : i < past.length
    · obtain ⟨-, hsame⟩ := hgrows.keeps i ((hs.edge.fixed_iff i).2 (by omega))
      have hold := output_get hs.edge.sound (show i < s.image.size by omega)
      have hsize := hgrows.size
      rw [List.getElem?_take, if_pos hi, output_get ht.sound (by omega), hsame (noHole_has i),
        ← hold, hs.output]
    · rw [List.getElem?_take, if_neg hi, List.getElem?_eq_none (by omega)]
  have hall : past ++ t.image.output.drop past.length = t.image.output := by
    have h := List.take_append_drop past.length t.image.output
    rwa [hfront] at h
  have hedge : c = (past ++ t.image.output.drop past.length).length := by
    rw [hall, hlength, hsize']
  refine ⟨t.image.output.drop past.length, hedge ▸ ht, hendian.trans hs.endian,
    hevil.trans hs.evil, hall.symm, rfl, hwithin⟩

/-- A field that is reserved is written too, and costs no decision. -/
theorem Writing.reserves {w : Nat} (h1 : 1 ≤ w) (h8 : w ≤ 8) (hs : Writing e b past rest s)
    (hroom : past.length + w ≤ s.image.capacity) :
    ∃ r v t, (Grammar.request (.reserve w) : Grammar K Reserved).run s = .ok r t ∧ v.length = w ∧
      Writing e b (past ++ v) rest t ∧ Noted [] s t := by
  have hcursor : s.image.cursor = past.length := hs.edge.shows.cursor
  have hopens : Field.Opens w s.image := hs.edge.shows.opens (by omega) (Or.inr rfl)
  obtain ⟨bs, t, rfl, hrun, hemit, hsound⟩ := reserve_run h1 h8 hs.edge.sound hopens
    (by rw [hcursor, hs.edge.sound.limit_generate]; exact hroom)
  have hat : At .generate noHole (Outline.edge (past.length + bs.length)) t :=
    ⟨hsound, (Reads.fresh past.length bs.length).shows hs.edge.shows hemit.writes, Nat.zero_le _⟩
  have hgrows : Grows noHole s t := by
    apply Grows.emitted (e := []) (by rw [State.recorded_nil]; exact hemit)
    intro j hj hfixed _
    rw [hopens.2 j hj] at hfixed
    cases hfixed
  have hrest := hemit.rest
  have hstream : t.stream = s.stream := by rw [hrest]; rfl
  obtain ⟨v, hwriting⟩ := hs.onward hat hgrows (hstream ▸ hs.within) (by rw [hrest]; rfl)
    (by rw [hrest]; rfl)
  have hedge := hwriting.edge.shows.cursor.symm.trans hat.shows.cursor
  rw [hstream, hs.ahead] at hwriting
  refine ⟨_, v, t, by rw [Grammar.run_request]; exact hrun, ?_, hwriting,
    ⟨?_, hgrows.depth, ?_⟩⟩
  · simp only [Outline.edge, List.length_append] at hedge
    omega
  · rw [hstream, Stream.recorded_nil]
  · rw [hrest]
    exact Tracker.touch_maxDepth _ _

end DecisionWalk
