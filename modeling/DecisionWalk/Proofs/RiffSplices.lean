import DecisionWalk.Proofs.RiffAssembly
import DecisionWalk.Proofs.Splices
import DecisionWalk.Random.Cycle

/-!
# Splices of a RIFF file are edits of its bytes

A chunk that is replaced or inserted takes its own bytes along, and all other
chunks keep theirs. Only the size of the container, in front of all of them, is
computed anew.
-/

set_option autoImplicit false

namespace DecisionWalk.Riff

open Mutator Walker

def resized (file : Bytes) : Bytes := file.take 4 ++ le32 (file.length - 8) ++ file.drop 8

section Edits

variable {form opening : Bytes} {ps qs mid rs : List Piece}

def heading (form : Bytes) (n : Nat) : Bytes := riffTag ++ le32 (form.length + n) ++ form

theorem heading_length (hform : form.length = 4) (n : Nat) : (heading form n).length = 12 := by
  simp [heading, hform, riffTag]

theorem whole_length (hform : form.length = 4) (qs : List Piece) :
    (whole form qs).length = 12 + (qs.flatMap Piece.bytes).length := by
  rw [← heading_length hform (qs.flatMap Piece.bytes).length, ← List.length_append]
  rfl

theorem resized_header {size body : Bytes} (hsize : size.length = 4) (hform : form.length = 4) :
    resized (riffTag ++ size ++ form ++ body) =
      riffTag ++ le32 (form.length + body.length) ++ form ++ body := by
  have hlength : (riffTag ++ size ++ form ++ body).length - 8 = form.length + body.length := by
    simp only [List.length_append, hsize, show riffTag.length = 4 from rfl]
    omega
  rw [resized, hlength]
  simp only [List.append_assoc]
  rw [List.take_left' (show riffTag.length = 4 from rfl), ← List.append_assoc riffTag size,
    List.drop_left' (show (riffTag ++ size).length = 8 by simp [hsize, riffTag])]

theorem resized_whole (hform : form.length = 4) (qs : List Piece) :
    resized (whole form qs) = whole form qs :=
  resized_header (le32_length _) hform

variable {limits : Limits} {w : Walk Kind}

theorem Dissected.front (h : Dissected limits form opening (ps ++ qs) w) :
    w.file.take (12 + (ps.flatMap Piece.bytes).length) =
        heading form ((ps ++ qs).flatMap Piece.bytes).length ++ ps.flatMap Piece.bytes ∧
      w.decisions.take (opening.length + (ps.flatMap Piece.decisions).length) =
        opening ++ ps.flatMap Piece.decisions := by
  constructor
  · rw [← heading_length h.opens.length ((ps ++ qs).flatMap Piece.bytes).length,
      ← List.length_append, h.file, whole, List.flatMap_append, ← List.append_assoc]
    exact List.take_left
  · rw [h.decisions, List.flatMap_append, ← List.append_assoc, List.append_assoc (opening ++ _),
      ← List.length_append, List.take_left]

theorem Dissected.back (h : Dissected limits form opening (ps ++ qs) w) :
    w.file.drop (12 + (ps.flatMap Piece.bytes).length) = qs.flatMap Piece.bytes ∧
      w.decisions.drop (opening.length + (ps.flatMap Piece.decisions).length) =
        qs.flatMap Piece.decisions ++ endCode true := by
  constructor
  · rw [← heading_length h.opens.length ((ps ++ qs).flatMap Piece.bytes).length,
      ← List.length_append, h.file, whole, List.flatMap_append, ← List.append_assoc]
    exact List.drop_left
  · rw [h.decisions, List.flatMap_append, ← List.append_assoc, List.append_assoc (opening ++ _),
      ← List.length_append, List.drop_left]

theorem Dissected.resized_edit (h : Dissected limits form opening (ps ++ qs ++ rs) w)
    (mid : List Piece) : resized (w.file.take (12 + (ps.flatMap Piece.bytes).length) ++
        mid.flatMap Piece.bytes ++ w.file.drop (12 + ((ps ++ qs).flatMap Piece.bytes).length)) =
      whole form (ps ++ mid ++ rs) := by
  obtain ⟨hback, -⟩ := h.back
  rw [List.append_assoc] at h
  obtain ⟨hfront, -⟩ := h.front
  rw [hfront, hback, heading, List.append_assoc, List.append_assoc (_ ++ _),
    resized_header (le32_length _) h.opens.length, whole]
  simp only [List.flatMap_append, List.append_assoc]

/-- A file with some of its pieces changed is a file again, if it is in order and there is room. Its
bytes are those of the pieces, and its size is its own. -/
theorem Dissected.edited (h : Dissected limits form opening (ps ++ qs ++ rs) w)
    (hfits : ∀ p ∈ mid, p.Fits limits.allowEvil)
    (horder : Stage.opened.after (ps ++ mid ++ rs) = some .filled)
    (hfile : w.file.length - (qs.flatMap Piece.bytes).length + (mid.flatMap Piece.bytes).length ≤
      limits.fileCapacity)
    (hsmall : w.file.length - (qs.flatMap Piece.bytes).length +
      (mid.flatMap Piece.bytes).length < 2 ^ 32)
    (hstream : w.decisions.length - (qs.flatMap Piece.decisions).length +
      (mid.flatMap Piece.decisions).length ≤ limits.streamCapacity) :
    ∃ w', Made limits form opening (ps ++ mid ++ rs) w' ∧
      w'.file = resized (w.file.take (12 + (ps.flatMap Piece.bytes).length) ++
        mid.flatMap Piece.bytes ++
          w.file.drop (12 + ((ps ++ qs).flatMap Piece.bytes).length)) ∧
      [w.decisions.take (opening.length + (ps.flatMap Piece.decisions).length),
        mid.flatMap Piece.decisions, w.decisions.drop
          (opening.length + ((ps ++ qs).flatMap Piece.decisions).length)].flatten =
        w'.decisions := by
  have hform := h.opens.length
  have hlength := congrArg List.length h.file
  have hspent := congrArg List.length h.decisions
  rw [whole_length hform] at hlength
  simp only [List.flatMap_append, List.length_append] at hlength hspent
  have hall : ∀ p ∈ ps ++ mid ++ rs, p.Fits limits.allowEvil := by
    intro p hp
    simp only [List.mem_append] at hp
    rcases hp with (hp | hp) | hp
    · exact h.fits p (by simp [hp])
    · exact hfits p hp
    · exact h.fits p (by simp [hp])
  obtain ⟨w', hmade⟩ := assembled h.opens hall horder
    (by simp only [List.flatMap_append, List.length_append]; omega)
    (by simp only [List.flatMap_append, List.length_append]; omega) h.maxDepth
    (by rw [whole_length hform]; simp only [List.flatMap_append, List.length_append]; omega)
  refine ⟨w', hmade, hmade.file.trans (h.resized_edit mid).symm, ?_⟩
  obtain ⟨-, hlater⟩ := h.back
  rw [List.append_assoc] at h
  obtain ⟨-, hearlier⟩ := h.front
  rw [hearlier, hlater, hmade.decisions]
  simp only [List.flatMap_append, List.flatten_cons, List.flatten_nil, List.append_nil,
    List.append_assoc]

theorem Dissected.piece_of {c : Chunk Kind} (h : Dissected limits form opening qs w)
    (hc : c ∈ w.chunks) : c = root w.file.length w.decisions.length ∨
      ∃ ps q rs, qs = ps ++ [q] ++ rs ∧ q.Stands (12 + (ps.flatMap Piece.bytes).length)
        (opening.length + (ps.flatMap Piece.decisions).length) c := by
  obtain ⟨cs, hchunks, hlaid, -⟩ := h.chunks
  rw [hchunks] at hc
  rcases List.mem_cons.1 hc with rfl | hc
  · exact Or.inl rfl
  · obtain ⟨before, behind, rfl⟩ := List.append_of_mem hc
    obtain ⟨ps, rest, rfl, -, hrest⟩ := hlaid.split
    obtain ⟨q, rs, rfl, hq, -⟩ := hrest.head
    exact Or.inr ⟨ps, q, rs, by simp, hq⟩

theorem Dissected.piece_shows {q : Piece} {c : Chunk Kind}
    (h : Dissected limits form opening (ps ++ [q] ++ rs) w)
    (hq : q.Stands (12 + (ps.flatMap Piece.bytes).length)
      (opening.length + (ps.flatMap Piece.decisions).length) c) :
    c.file.of w.file = q.bytes ∧ w.decisionsOf c = q.decisions := by
  obtain ⟨hfront, hearlier⟩ := h.front
  rw [List.flatMap_append, List.flatMap_singleton, List.length_append, ← Nat.add_assoc] at hfront
  rw [List.flatMap_append, List.flatMap_singleton, List.length_append, ← Nat.add_assoc] at hearlier
  constructor
  · rw [hq.file, Span.of, hfront, ← heading_length h.opens.length
      ((ps ++ [q] ++ rs).flatMap Piece.bytes).length, ← List.length_append, ← List.append_assoc]
    exact List.drop_left
  · rw [Walk.decisionsOf, hq.decisions, Span.of, hearlier, ← List.length_append,
      ← List.append_assoc]
    exact List.drop_left

theorem Kind.Reads.spends {kind : Kind} {b : Bool} {u d : Bytes} (hkind : kind ≠ .container)
    (h : kind.Reads b u d) : d ≠ [] := by
  let limits : Limits := { allowEvil := b, maxDepth := 1, streamCapacity := d.length }
  have hs : Scanning .little b 0 [] (u ++ [])
      { (State.parsing limits (u ++ []) : State Kind) with endian := .little } :=
    Scanning.start .little limits (u ++ [])
  obtain ⟨t, hrun, -, hnoted⟩ := h.run (hs.weaken (by omega)) (Nat.le_of_eq (Nat.zero_add _))
    (Nat.le_refl 1)
  have hproduced := Kind.produced hkind (Nat.le_refl 0) (Nat.zero_le _) hrun
  have hspent := hproduced.position
  rw [hnoted.position] at hspent
  exact List.length_pos_iff.1 (Nat.le_of_add_le_add_left hspent)

theorem Piece.Fits.spends {b : Bool} {q : Piece} (h : q.Fits b) : q.decisions ≠ [] := by
  obtain ⟨d, hd, hreads⟩ := h.reads
  rw [hd]
  exact List.append_ne_nil_of_right_ne_nil _ (hreads.spends h.inner)

theorem Made.met {q : Piece} {start : Nat} (h : Made limits form opening (ps ++ [q] ++ rs) w)
    (depth : Option Nat) (hstart : start = opening.length + (ps.flatMap Piece.decisions).length)
    (hdepth : depth.all (· == 1) = true) :
    Watch.Met
      { start := start, kind := some q.kind, depth := depth,
        expectedStop := some (start + q.decisions.length) } w := by
  obtain ⟨cs, hchunks, hlaid, -⟩ := h.chunks
  rw [List.append_assoc, List.singleton_append] at hlaid
  obtain ⟨before, c, behind, rfl, hbefore, hc⟩ := hlaid.at_piece
  have hfits : ∀ p ∈ ps ++ [q], p.Fits limits.allowEvil :=
    fun p hp => h.fits p (List.mem_append_left _ hp)
  have hinner := (hfits q (by simp)).inner
  refine ⟨⟨rfl, rfl, rfl⟩, c, ?_, ?_⟩
  · rw [List.find?_eq_some_iff_append]
    refine ⟨?_, root w.file.length w.decisions.length :: before, behind, hchunks, ?_⟩
    · simp [Watch.fits, hc.kind, hc.depth, hc.decisions, hstart, hdepth]
    · -- The root is a container, and all other chunks in front start earlier.
      intro x hx
      rcases List.mem_cons.1 hx with rfl | hx
      · simp [Watch.fits, root, hinner]
      · obtain ⟨-, hlt⟩ := hbefore.start_lt
          (fun p hp => (hfits p (List.mem_append_left _ hp)).spends) hx
        have hne : start ≠ x.decisions.start := by omega
        simp [Watch.fits, hne]
  · rw [hc.decisions, hstart]

end Edits

def soundOf (chunks : List Bytes) : Bytes :=
  resized (riffTag ++ le32 0 ++ [0x57, 0x41, 0x56, 0x45] ++
    (fmtTag ++ le32 16 ++ le16 1 ++ [1, 0] ++ le32 8000 ++ [64, 31, 0, 0] ++ [1, 0] ++ le16 8) ++
      chunks.flatten)

def remark (text : Bytes) : Bytes := listTag ++ le32 (4 + text.length) ++ infoTag ++ text

def beep : Bytes := dataTag ++ le32 1 ++ [128] ++ le16 (crc16 [128]).toNat ++ [0]

def gap : Bytes := junkTag ++ le32 1 ++ [9, 0]

def room : Limits := ⟨36, 64, 2, true⟩

theorem parse_remark : ∃ w, riff.grammar.parse room (soundOf [remark [65, 66], beep]) = .ok w ∧
    (Kind.list, true, ⟨36, 50⟩, ⟨18, 27⟩) ∈ w.chunks.map outline ∧ w.decisions.length = 34 :=
  parses_of_decide _ (by decide +kernel)

theorem parse_remark_padded : ∃ w,
    riff.grammar.parse room (soundOf [remark [67, 68, 69], [0], beep]) = .ok w ∧
    (Kind.list, true, ⟨36, 52⟩, ⟨18, 29⟩) ∈ w.chunks.map outline :=
  parses_of_decide _ (by decide +kernel)

theorem parse_beep : ∃ w, riff.grammar.parse room (soundOf [beep]) = .ok w ∧
    (∃ c ∈ w.chunks, c.appendable = true ∧ c.kind = .data ∧ c.file.stop = 48) ∧
    w.decisions.length = 27 :=
  parses_of_decide _ (by decide +kernel)

theorem parse_gap : ∃ w, riff.grammar.parse room (soundOf [beep, gap]) = .ok w ∧
    (Kind.junk, true, ⟨48, 58⟩, ⟨26, 32⟩) ∈ w.chunks.map outline :=
  parses_of_decide _ (by decide +kernel)

section Replacing

variable {limits : Limits} {t d form opening form' opening' : Bytes} {qs qs' : List Piece}
  {target donors : Walk Kind} {c e : Chunk Kind}

theorem Dissected.replace_root {ρ : Type} [RandomSource ρ]
    (hd : Dissected limits form opening qs donors)
    (target : Walk Kind) (hfile : donors.file.length ≤ limits.fileCapacity) (r : ρ) :
    ∃ w r', w.file = donors.file ∧ (Mutator.mk riff.grammar limits).replace target
      (root target.file.length target.decisions.length)
      (root donors.file.length donors.decisions.length) donors.decisions r =
        .ok ⟨.replace, w, .exact⟩ r' := by
  obtain ⟨w, hmade⟩ := assembled hd.opens hd.fits hd.order hd.small
    (hd.decisions ▸ hd.stream) hd.maxDepth (hd.file ▸ hfile)
  have hdecisions : w.decisions = donors.decisions := hmade.decisions.trans hd.decisions.symm
  have hfound :
      w.chunks.find? (Watch.fits { start := 0, kind := some .container, depth := some 0 }) =
        some (root w.file.length w.decisions.length) := by
    obtain ⟨cs, hchunks, -⟩ := hmade.chunks
    rw [hchunks]
    rfl
  have hmet : Watch.Met
      { start := 0, kind := some .container, depth := some 0,
        expectedStop := some (0 + donors.decisions.length) } w := by
    refine ⟨⟨rfl, rfl, rfl⟩, _, hfound, ?_⟩
    rw [Nat.zero_add, ← hdecisions]
    rfl
  have hparts : [target.decisions.take 0, donors.decisions,
      target.decisions.drop target.decisions.length].flatten = w.decisions := by
    simp [hdecisions]
  obtain ⟨r', hrun⟩ := replace_spliced (m := ⟨riff.grammar, limits⟩)
    (grammar_stops (by decide)) hmade.generated
    (rfl : compatible (root target.file.length target.decisions.length)
      (root donors.file.length donors.decisions.length) = true) rfl hparts hmet r
  exact ⟨w, r', hmade.file.trans hd.file.symm, hrun⟩

/-- A chunk gives way to another one of its kind, which is optional if it is. -/
theorem Dissected.replace_inside {ρ : Type} [RandomSource ρ] {ps rs ps' rs' : List Piece}
    {p q : Piece}
    (h : Dissected limits form opening (ps ++ [p] ++ rs) target)
    (hd : Dissected limits form' opening' (ps' ++ [q] ++ rs') donors)
    (hc : p.Stands (12 + (ps.flatMap Piece.bytes).length)
      (opening.length + (ps.flatMap Piece.decisions).length) c)
    (he : q.Stands (12 + (ps'.flatMap Piece.bytes).length)
      (opening'.length + (ps'.flatMap Piece.decisions).length) e)
    (hkind : e.kind = c.kind) (hoptional : e.optional = c.optional)
    (hfile : target.file.length - c.file.length + e.file.length ≤ limits.fileCapacity)
    (hsmall : target.file.length - c.file.length + e.file.length < 2 ^ 32)
    (hstream : target.decisions.length - c.decisions.length + e.decisions.length ≤
      limits.streamCapacity) (r : ρ) :
    ∃ w r', w.file = resized (target.file.take c.file.start ++ e.file.of donors.file ++
        target.file.drop c.file.stop) ∧
      (Mutator.mk riff.grammar limits).replace target c e (donors.decisionsOf e) r =
        .ok ⟨.replace, w, .exact⟩ r' := by
  obtain ⟨hbytes, hdecisions⟩ := hd.piece_shows he
  have hlabel : p.label = q.label := by
    rw [Piece.label, Piece.label, ← hc.kind, ← hc.optional, ← he.kind, ← he.optional, hkind,
      hoptional]
  have horder : Stage.opened.after (ps ++ [q] ++ rs) = some .filled := by
    have horder := h.order
    rw [List.append_assoc, List.singleton_append] at horder ⊢
    rw [← Stage.after_replace hlabel, horder]
  rw [hc.length, he.length] at hfile hsmall
  rw [hc.decision_length, he.decision_length] at hstream
  obtain ⟨w, hmade, hw, hparts⟩ := h.edited
    (List.forall_mem_singleton.2 (hd.fits q (by simp))) horder
    (by simpa only [List.flatMap_singleton] using hfile)
    (by simpa only [List.flatMap_singleton] using hsmall)
    (by simpa only [List.flatMap_singleton] using hstream)
  rw [List.flatMap_append, List.flatMap_singleton, List.flatMap_singleton, List.length_append,
    ← Nat.add_assoc, ← hc.stop, ← hc.start, ← hbytes] at hw
  rw [List.flatMap_append, List.flatMap_singleton, List.flatMap_singleton, List.length_append,
    ← Nat.add_assoc, ← hc.decision_stop, ← hc.decision_start, ← hdecisions] at hparts
  have hcompatible : compatible c e = true := by
    rw [compatible, hoptional, hkind]
    cases c.optional <;> simp
  have hdepth : (some c.depth).all (· == 1) = true := by
    rw [hc.depth]
    rfl
  have hmet := hmade.met _ hc.decision_start hdepth
  rw [← he.kind, ← hdecisions] at hmet
  have hlength : (donors.decisionsOf e).length = e.decisionLength := by
    rw [hdecisions]
    exact he.decision_length.symm
  obtain ⟨r', hrun⟩ := replace_spliced (m := ⟨riff.grammar, limits⟩) (grammar_stops (by decide))
    hmade.generated hcompatible hlength hparts hmet r
  exact ⟨w, r', hw, hrun⟩

/-- A chunk is replaced by another one of its kind by replacing its bytes, and the size of the
container is put right. Both chunks are optional or both are mandatory. -/
theorem riff_replace_bytes (ht : riff.grammar.parse limits t = .ok target)
    (hd : riff.grammar.parse limits d = .ok donors) (hc : c ∈ target.chunks)
    (he : e ∈ donors.chunks) (hkind : e.kind = c.kind) (hoptional : e.optional = c.optional)
    (hfile : t.length - c.file.length + e.file.length ≤ limits.fileCapacity)
    (hsmall : t.length - c.file.length + e.file.length < 2 ^ 32)
    (hstream : target.decisions.length - c.decisions.length + e.decisions.length ≤
      limits.streamCapacity) {ρ : Type} [RandomSource ρ] (r : ρ) :
    ∃ made r', (Mutator.mk riff.grammar limits).replace target c e (donors.decisionsOf e) r =
        .ok made r' ∧ made.outcome = .exact ∧
      made.walk.file = resized (t.take c.file.start ++ e.file.of d ++ t.drop c.file.stop) := by
  obtain ⟨rfl, form, opening, qs, h⟩ := parse_dissected ht
  obtain ⟨rfl, form', opening', qs', hdonor⟩ := parse_dissected hd
  rcases h.piece_of hc with rfl | ⟨ps, p, rs, rfl, hp⟩
  · -- Only the root is a container.
    rcases hdonor.piece_of he with rfl | ⟨ps', q, rs', rfl, hq⟩
    · have hall : donors.decisionsOf (root donors.file.length donors.decisions.length) =
          donors.decisions := Span.of_all _
      obtain ⟨w, r', hw, hrun⟩ := hdonor.replace_root target
        (Nat.le_trans (Nat.le_add_left _ _) hfile) r
      rw [hall]
      refine ⟨_, r', hrun, rfl, hw.trans ?_⟩
      have hsame := resized_whole hdonor.opens.length qs'
      rw [← hdonor.file] at hsame
      simp [root, Span.of, hsame]
    · exact absurd (hq.kind.symm.trans hkind) (hdonor.fits q (by simp)).inner
  · rcases hdonor.piece_of he with rfl | ⟨ps', q, rs', rfl, hq⟩
    · exact absurd (hp.kind.symm.trans hkind.symm) (h.fits p (by simp)).inner
    · obtain ⟨w, r', hw, hrun⟩ :=
        h.replace_inside hdonor hp hq hkind hoptional hfile hsmall hstream r
      exact ⟨_, r', hrun, rfl, hw⟩

theorem riff_replace_bytes_remark :
    ∃ target donors c e made r',
      riff.grammar.parse room (soundOf [remark [65, 66], beep]) = .ok target ∧
      riff.grammar.parse room (soundOf [remark [67, 68, 69], [0], beep]) = .ok donors ∧
      c ∈ target.chunks ∧ c.kind = .list ∧ e ∈ donors.chunks ∧ e.kind = .list ∧
      (Mutator.mk riff.grammar room).replace target c e (donors.decisionsOf e) (Cycle.mk #[1] 0) =
        .ok made r' ∧
      made.outcome = .exact ∧
      made.walk.file = soundOf [remark [67, 68, 69], [0], beep] := by
  obtain ⟨target, ht, hlist, hlength⟩ := parse_remark
  obtain ⟨donors, hd, hlist'⟩ := parse_remark_padded
  obtain ⟨c, hc, hkind, hoptional, hfile, hdecisions⟩ := chunk_of_outline hlist
  obtain ⟨e, he, hkind', hoptional', hfile', hdecisions'⟩ := chunk_of_outline hlist'
  obtain ⟨made, r', hrun, hexact, hmade⟩ := riff_replace_bytes ht hd hc he
    (hkind'.trans hkind.symm) (hoptional'.trans hoptional.symm)
    (by rw [hfile, hfile']; decide +kernel) (by rw [hfile, hfile']; decide +kernel)
    (by rw [hlength, hdecisions, hdecisions']; decide) (Cycle.mk #[1] 0)
  rw [hfile, hfile'] at hmade
  exact ⟨target, donors, c, e, made, r', ht, hd, hc, hkind, he, hkind', hrun, hexact,
    hmade.trans (by decide +kernel)⟩

end Replacing

section Inserting

variable {limits : Limits} {t d form opening : Bytes} {qs : List Piece}
  {target donors : Walk Kind} {p : InsertionPoint Kind} {e : Chunk Kind}

theorem Dissected.stepped {ps rs : List Piece} {q : Piece} {w : Walk Kind}
    (h : Dissected limits form opening (ps ++ [q] ++ rs) w) :
    ∃ stage next, Stage.opened.after ps = some stage ∧ stage.step q.label = some next ∧
      next.after rs = some .filled := by
  have horder := h.order
  rw [List.append_assoc, List.singleton_append] at horder
  obtain ⟨stage, hps, hrest⟩ := Stage.after_split horder
  obtain ⟨next, hstep, hrs⟩ := Stage.after_step hrest
  exact ⟨stage, next, hps, hstep, hrs⟩

/-- Junk is inserted behind the samples, or in front of junk or behind it, by inserting its bytes,
and the size of the container is put right. -/
theorem riff_insert_junk (ht : riff.grammar.parse limits t = .ok target)
    (hd : riff.grammar.parse limits d = .ok donors) (hp : p ∈ target.points) (hjunk : TakesJunk p)
    (he : e ∈ donors.chunks) (hkind : e.kind = .junk)
    (hfile : t.length + e.file.length ≤ limits.fileCapacity)
    (hsmall : t.length + e.file.length < 2 ^ 32)
    (hstream : target.decisions.length + e.decisions.length ≤ limits.streamCapacity)
    {ρ : Type} [RandomSource ρ] (r : ρ) :
    ∃ made r', (Mutator.mk riff.grammar limits).insert target p e (donors.decisionsOf e) r =
        .ok made r' ∧ made.outcome = .exact ∧
      made.walk.file = resized (t.take p.fileOffset ++ e.file.of d ++ t.drop p.fileOffset) := by
  obtain ⟨rfl, form, opening, qs, h⟩ := parse_dissected ht
  obtain ⟨rfl, form', opening', qs', hdonor⟩ := parse_dissected hd
  obtain ⟨ps, rs, rfl, hfilled, hoffset, hoffset'⟩ := h.points p hp hjunk
  rcases hdonor.piece_of he with rfl | ⟨ps', q, rs', rfl, hq⟩
  · cases hkind
  obtain ⟨hbytes, hdecisions⟩ := hdonor.piece_shows hq
  obtain ⟨_, _, -, hstep, -⟩ := hdonor.stepped
  have hqkind : q.kind = .junk := hq.kind.symm.trans hkind
  obtain ⟨-, -, hoptional⟩ := Stage.step_junk hstep hqkind
  have hlabel : q.label = (.junk, true) := by rw [Piece.label, hqkind, hoptional]
  rw [hq.length] at hfile hsmall
  rw [hq.decision_length] at hstream
  rw [← List.append_nil ps] at h
  obtain ⟨w, hmade, hw, hparts⟩ := h.edited
    (List.forall_mem_singleton.2 (hdonor.fits q (by simp)))
    (Stage.after_junk hfilled hlabel (by simpa using h.order))
    (by simpa using hfile) (by simpa using hsmall) (by simpa using hstream)
  rw [List.append_nil, ← hoffset, List.flatMap_singleton, ← hbytes] at hw
  rw [List.append_nil, ← hoffset', List.flatMap_singleton, ← hdecisions] at hparts
  have hmet := hmade.met none hoffset' rfl
  rw [← hq.kind, ← hdecisions] at hmet
  have hlength : (donors.decisionsOf e).length = e.decisionLength := by
    rw [hdecisions]
    exact hq.decision_length.symm
  obtain ⟨r', hrun⟩ := insert_spliced (m := ⟨riff.grammar, limits⟩) (grammar_stops (by decide))
    hmade.generated (hq.optional.trans hoptional) hp hlength hparts hmet r
  exact ⟨_, r', hrun, rfl, hw⟩

/-- A gap is put behind the samples. -/
theorem riff_insert_junk_gap :
    ∃ target donors p e made r',
      riff.grammar.parse room (soundOf [beep]) = .ok target ∧
      riff.grammar.parse room (soundOf [beep, gap]) = .ok donors ∧
      p ∈ target.points ∧ TakesJunk p ∧ e ∈ donors.chunks ∧ e.kind = .junk ∧
      (Mutator.mk riff.grammar room).insert target p e (donors.decisionsOf e) (Cycle.mk #[1] 0) =
        .ok made r' ∧
      made.outcome = .exact ∧ made.walk.file = soundOf [beep, gap] := by
  obtain ⟨target, ht, hdata, hlength⟩ := parse_beep
  obtain ⟨donors, hd, hjunk⟩ := parse_gap
  obtain ⟨c, hc, happendable, hckind, hstop⟩ := hdata
  obtain ⟨p, hp, hplacement, hpoint, hoffset⟩ := Grammar.point_behind ht hc happendable
  rw [hckind] at hpoint
  rw [hstop] at hoffset
  obtain ⟨e, he, hkind, -, hfile, hdecisions⟩ := chunk_of_outline hjunk
  have htakes : TakesJunk p := Or.inl ⟨hplacement, Or.inl hpoint⟩
  obtain ⟨made, r', hrun, hexact, hmade⟩ := riff_insert_junk ht hd hp htakes he hkind
    (by rw [hfile]; decide +kernel) (by rw [hfile]; decide +kernel)
    (by rw [hlength, hdecisions]; decide) (Cycle.mk #[1] 0)
  rw [hfile, hoffset] at hmade
  exact ⟨target, donors, p, e, made, r', ht, hd, hp, htakes, he, hkind, hrun, hexact,
    hmade.trans (by decide +kernel)⟩

end Inserting

end DecisionWalk.Riff
