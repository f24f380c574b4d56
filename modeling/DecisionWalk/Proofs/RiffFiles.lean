import DecisionWalk.Proofs.RiffCuts

/-!
# A RIFF file is its header and its pieces

A header holds the size of what follows it, as a parse checks in the end. So a
file that a parse accepts is told by its form type and its pieces alone, and its
chunks are the pieces, behind the chunk of the container itself.
-/

set_option autoImplicit false

namespace DecisionWalk.Riff

open Walker Grammar

def whole (form : Bytes) (qs : List Piece) : Bytes :=
  riffTag ++ le32 (form.length + (qs.flatMap Piece.bytes).length) ++ form ++
    qs.flatMap Piece.bytes

structure Opening (b : Bool) (form opening : Bytes) : Prop where
  length : form.length = 4
  recited : ∃ c d, opening = c ++ d ∧ Recited .little b 0 (tag riffTag).run riffTag c () ∧
    Recited .little b 0 (discard (request (.bytesKnown 4 formTypes)) : Rule).run form d ()

def header : Grammar Kind Reserved := do
  tag riffTag
  let total ← request (.reserve 4)
  discard (request (.bytesKnown 4 formTypes))
  pure total

theorem containerRule_run : containerRule.run = (header.run >>= fun total =>
    (Kind.format.production >>= fun _ => chunked total).run) := by
  show (tag riffTag >>= fun _ => request (.reserve 4) >>= fun total =>
    discard (request (.bytesKnown 4 formTypes)) >>= fun _ =>
      Kind.format.production >>= fun _ => chunked total).run = _
  simp only [header, run_bind, run_pure, bind_assoc, pure_bind]

section Headers

variable {b : Bool} {form opening middle input v : Bytes} {total : Reserved} {s t : State Kind}

theorem Opening.unique {opening' : Bytes} (h : Opening b form opening)
    (h' : Opening b form opening') : opening = opening' := by
  obtain ⟨c, d, rfl, htag, hform⟩ := h.recited
  obtain ⟨c', d', rfl, htag', hform'⟩ := h'.recited
  obtain ⟨-, rfl, -⟩ := htag.unique htag' (show riffTag ++ [] = riffTag ++ [] from rfl)
  obtain ⟨-, rfl, -⟩ := hform.unique hform' (show form ++ [] = form ++ [] from rfl)
  rfl

theorem header_cut (hs : Scanning .little b 0 [] input s) (hfresh : s.stream.consumed = [])
    (hrun : header.run s = .ok total t) :
    ∃ middle form opening v, input = riffTag ++ middle ++ form ++ v ∧ middle.length = 4 ∧
      total = heldSize riffTag middle ∧ Opening b form opening ∧
      Scanning .little b 0 (riffTag ++ middle ++ form) v t ∧ t.stream.consumed = opening ∧
      Strides 0 12 s t := by
  have hempty : s.image.cursor ≤ s.image.size := Nat.le_of_eq
    (hs.cursor.trans (hs.forgets (Nat.zero_le _)).symm)
  rw [header, run_bind] at hrun
  obtain ⟨_, s1, htag, hrun⟩ := bind_ok.1 hrun
  rw [run_bind] at hrun
  obtain ⟨field, s2, hreserve, hrun⟩ := bind_ok.1 hrun
  rw [run_bind] at hrun
  obtain ⟨_, s3, hform, hrun⟩ := bind_ok.1 hrun
  cases hrun
  have htag_portable : Portable .little b 0 0 4 [] fun _ => (tag riffTag).run :=
    tag_portable riffTag rfl
  have htag_scans : Scans .little b 0 0 [] (tag riffTag).run (Block 4 2 fun u => u = riffTag) :=
    Scans.literal 4 riffTag (by decide) rfl
  have hreserves : Scans .little b 0 0 riffTag (request (.reserve 4) : Grammar Kind Reserved).run
    fun u _ a n => u.length = 4 ∧ a = heldSize riffTag u ∧ n = 0 :=
    Scans.reserve 4 (by decide) (by decide)
  have hform_portable : Portable .little b 0 0 4 [] fun _ =>
    (discard (request (.bytesKnown 4 formTypes)) : Rule).run := form_portable
  obtain ⟨u, v, c, rfl, -, hs1, hnoted, htagged⟩ := htag_portable.recited hs htag
  obtain ⟨_, _, _, hsplit, ⟨-, rfl, -⟩, hs1', -⟩ := htag_scans.sound _ s _ s1 hs htag
  obtain ⟨rfl, rfl⟩ := List.append_inj hsplit (hs1.cursor.symm.trans hs1'.cursor)
  obtain ⟨middle, v, _, rfl, ⟨hmiddle, rfl, rfl⟩, hs2, hscanned⟩ :=
    hreserves.sound _ s1 _ s2 hs1 hreserve
  obtain ⟨form, v, d, rfl, hleast, hs3, hnoted', hformed⟩ := hform_portable.recited hs2 hform
  rw [run_request, Request.answer] at hreserve
  obtain ⟨-, -, bs, hbs, hspells⟩ := reserve_spells hreserve
  have htagged_strides := tag_strides (l := 0) riffTag 0 s _ s1 (.refl hempty) htag
  have hstrides := known_strides (l := 0 + 4 + 4) formTypes _ s2 _ t
    (hbs ▸ htagged_strides.spelled hspells) hform
  have hlength : form.length = 4 := by
    rw [run_discard] at hform
    obtain ⟨a, s3', hknown, hend⟩ := bind_ok.1 hform
    cases hend
    rw [run_request, Request.answer] at hknown
    obtain ⟨ha, hspells'⟩ := readBytesKnown_spells hknown
    have hcursor := hspells'.cursor
    rw [hs2.cursor, hs3.cursor, List.length_append, ha] at hcursor
    omega
  refine ⟨middle, form, c ++ d, v, ?_, hmiddle, rfl, ⟨hlength, c, d, rfl, htagged, hformed⟩, hs3,
    ?_, hstrides.weaken (Nat.zero_le _) (Nat.le_refl _)⟩
  · simp only [List.append_assoc]
  · rw [hnoted'.consumed, (Noted.silent hscanned).consumed, hnoted.consumed, hfresh,
      List.append_nil, List.nil_append]

theorem Opening.run (h : Opening b form opening) (hmiddle : middle.length = 4)
    (hs : Scanning .little b 0 [] (riffTag ++ middle ++ form ++ v) s)
    (hroom : s.stream.position + opening.length ≤ s.stream.capacity)
    (hdepth : s.tracker.depth ≤ s.tracker.maxDepth) :
    ∃ t, header.run s = .ok (heldSize riffTag middle) t ∧
      Scanning .little b 0 (riffTag ++ middle ++ form) v t ∧ Noted opening s t := by
  obtain ⟨c, d, rfl, htag, hform⟩ := h.recited
  have hreserves : Scans .little b 0 0 riffTag (request (.reserve 4) : Grammar Kind Reserved).run
    fun u _ a n => u.length = 4 ∧ a = heldSize riffTag u ∧ n = 0 :=
    Scans.reserve 4 (by decide) (by decide)
  rw [List.length_append] at hroom
  rw [List.append_assoc, List.append_assoc] at hs
  obtain ⟨s1, h1, hs1, hnoted1⟩ := htag [] _ s hs (by omega) hdepth
  obtain ⟨s2, n, h2, ⟨-, -, rfl⟩, hs2, hscanned⟩ := hreserves.complete middle _ s1 _ hs1
    ⟨0, hmiddle, rfl, rfl⟩ (fun n hn => by rw [hn.2.2, hnoted1.position, hnoted1.capacity]; omega)
    (by rw [hnoted1.depth, hnoted1.maxDepth]; exact hdepth)
  have hnoted2 := hnoted1.trans (.silent hscanned)
  rw [List.append_nil] at hnoted2
  obtain ⟨s3, h3, hs3, hnoted3⟩ := hform (riffTag ++ middle) v s2 hs2
    (by rw [hnoted2.position, hnoted2.capacity]; omega)
    (by rw [hnoted2.depth, hnoted2.maxDepth]; exact hdepth)
  refine ⟨s3, ?_, hs3, hnoted2.trans hnoted3⟩
  rw [header, run_bind, bind_run h1, run_bind, bind_run h2, run_bind, bind_run h3]
  rfl

end Headers

section Reading

variable {b : Bool} {middle form opening rest : Bytes} {qs : List Piece} {cs : List (Chunk Kind)}
  {last : Chunk Kind} {used : NameCounts} {look : Option Nat} {s t : State Kind} {a : Unit}

theorem Row.patched {field : Reserved} {n : Nat} (h : Row cs used look s)
    (hfield : field.position + field.width ≤ s.image.size) (hrun : patch field n s = .ok a t) :
    t.image.cursor = s.image.cursor ∧ t.image.size = s.image.size ∧ t.stream = s.stream ∧
      t.tracker = s.tracker := by
  have hcursor := h.cursor_le
  obtain ⟨bs, there, u, hlength, hthere, hemit, hback⟩ := patch_steps hrun
  obtain rfl : there = s.movedTo field.position := by
    rcases seek_cases hthere with ⟨-, h⟩ | ⟨hlt, -⟩
    · exact h
    · omega
  have hsize : u.image.size = max s.image.size (field.position + bs.length) := hemit.writes.size
  obtain rfl : t = u.movedTo s.image.cursor := by
    rcases seek_cases hback with ⟨-, h⟩ | ⟨hlt, -⟩
    · exact h
    · omega
  have hrest := hemit.rest
  refine ⟨rfl, ?_, ?_, ?_⟩
  · show u.image.size = _
    omega
  · rw [hrest]
    rfl
  · rw [hrest]
    show s.tracker.touch ⟨field.position, field.position + bs.length⟩ = s.tracker
    by_cases hwidth : bs.length = 0
    · rw [hwidth]
      exact Tracker.touch_empty _ _
    · have hspan : field.position < field.position + bs.length := by omega
      have hinside : field.position + bs.length ≤ s.image.size := by omega
      rw [Tracker.touch_cons h.stack ⟨_, _⟩ hspan]
      simp [Tracker.joinTouched, Span.hull, hinside, ← h.stack]

structure Completed (b : Bool) (middle form opening : Bytes) (qs : List Piece)
    (cs : List (Chunk Kind)) (s : State Kind) : Prop
    extends Sliced b opening.length qs .filled cs where
  row : ∃ used look, Row cs used look s
  scanning : Scanning .little b 0 (riffTag ++ middle ++ form ++ qs.flatMap Piece.bytes) [] s
  consumed : s.stream.consumed = opening ++ qs.flatMap Piece.decisions ++ endCode true
  flagged : Flagged cs
  pointed : Pointed opening.length qs s.tracker.points
  size : Endian.little.decode middle = form.length + (qs.flatMap Piece.bytes).length

theorem checkSize_scans {past back : Bytes} (size : Nat) (hpast : past = riffTag ++ middle ++ back)
    (hmiddle : middle.length = 4) :
    Scans .little b 0 0 past (request (.patch (heldSize riffTag middle) size) : Rule).run
      fun u _ _ n => u = [] ∧ Endian.little.decode middle = size ∧ n = 0 :=
  Scans.patch size hpast hmiddle

def ending (total : Reserved) : Rule := do
  repeatFrom () fun _ => trailing
  let size ← request .fileSize
  request (.patch total (size - 8))

theorem Cut.ending (hmiddle : middle.length = 4)
    (h : Cut b (riffTag ++ middle ++ form) opening qs .filled rest cs last used s)
    (hrun : (Riff.ending (heldSize riffTag middle)).run s = .ok a t) :
    ∃ ps cs', rest = ps.flatMap Piece.bytes ∧
      Completed b middle form opening (qs ++ ps) cs' t := by
  rw [Riff.ending, run_bind] at hrun
  obtain ⟨_, s1, hloop, hrun⟩ := bind_ok.1 hrun
  rw [run_repeatFrom, get_bind] at hloop
  obtain ⟨_, s', hrounds, hlast⟩ := iterate_ends hloop
  obtain ⟨ps, v, cs', last', used', rfl, hcut⟩ := h.rounds hrounds
  obtain ⟨rfl, rfl⟩ : v = [] ∧ s1 = coined s' true := by
    rcases trailing_ok hcut.scanning hlast with ⟨hnil, -, hs1⟩ | ⟨hagain, -⟩
    · exact ⟨hnil, hs1⟩
    · cases hagain
  have hscan := coined_scanning hcut.scanning true
  obtain ⟨hrow, hflagged, hpointed⟩ := hcut.peeked (by decide) (Nat.zero_le 4)
    (coined_peeked hcut.closed.size true)
  rw [run_bind, bind_run (Scans.fileSize (Nat.zero_le _) _ _ hscan)] at hrun
  have hpast : riffTag ++ middle ++ form ++ (qs ++ ps).flatMap Piece.bytes =
      riffTag ++ middle ++ (form ++ (qs ++ ps).flatMap Piece.bytes) := List.append_assoc _ _ _
  obtain ⟨u, _, _, hnil, ⟨rfl, hdecode, rfl⟩, ht, hscanned⟩ :=
    (checkSize_scans _ hpast hmiddle).sound [] _ a t hscan hrun
  rw [List.nil_append] at hnil
  subst hnil
  rw [List.append_nil] at ht
  rw [run_request, Request.answer] at hrun
  have hsize := hscan.forgets (Nat.zero_le _)
  obtain ⟨hcursor, hsize', hstream, htracker⟩ := hrow.patched (by
    rw [hsize]
    simp only [heldSize, List.length_append, hmiddle]
    omega) hrun
  refine ⟨ps, cs' ++ [last'.followed], List.append_nil _, ⟨⟨hcut.fits, hcut.order,
    hcut.laid.followed⟩, ⟨used', some s'.stream.position, ?_⟩, ht, ?_, hflagged, ?_, ?_⟩⟩
  · exact ⟨by rw [hcursor, hsize']; exact hrow.cursor_le,
      by rw [hcursor, hsize']; exact hrow.size_le,
      by rw [htracker, hsize']; exact hrow.stack, by rw [htracker]; exact hrow.chunks,
      by rw [htracker, hstream]; exact hrow.gate⟩
  · rw [hstream, (coined_noted s' true).consumed, hcut.consumed]
  · rw [htracker]
    exact hpointed
  · rw [hdecode]
    simp only [List.length_append, hmiddle, show riffTag.length = 4 from rfl]
    omega

/-- The samples, with or without a list in front of them, and all behind them. -/
theorem Cut.chunked (hmiddle : middle.length = 4)
    (h : Cut b (riffTag ++ middle ++ form) opening qs .formatted rest cs last used s)
    (hrun : (Riff.chunked (heldSize riffTag middle)).run s = .ok a t) :
    ∃ ps cs', rest = ps.flatMap Piece.bytes ∧
      Completed b middle form opening (qs ++ ps) cs' t := by
  rw [Riff.chunked, run_bind] at hrun
  obtain ⟨next, s1, hlook, hrun⟩ := bind_ok.1 hrun
  obtain ⟨hpeeked, htag, hs1, hnext⟩ := h.looked hlook
  have hsampled : ∀ {u : State Kind}, (sampled (heldSize riffTag middle)).run u = .ok a t →
      ∃ v, Kind.data.production.run u = .ok () v ∧
        (Riff.ending (heldSize riffTag middle)).run v = .ok a t := by
    intro u hu
    have hu' : (Kind.data.production >>= fun _ =>
      Riff.ending (heldSize riffTag middle)).run u = .ok a t := hu
    rw [run_bind] at hu'
    obtain ⟨_, v, hdata, hend⟩ := bind_ok.1 hu'
    exact ⟨v, hdata, hend⟩
  rcases hnext with ⟨rfl, hnoted⟩ | ⟨rfl, hnoted⟩
  · rw [if_pos rfl, run_bind] at hrun
    obtain ⟨_, s2, hlist, hrun⟩ := bind_ok.1 hrun
    obtain ⟨s3, hdata, hending⟩ := hsampled hrun
    obtain ⟨p, v, last1, used1, rfl, hcut⟩ := h.gated
      (show Stage.formatted.step (.list, true) = some .listed from rfl) (Nat.le_refl 4) hpeeked hs1
      hnoted (fun _ => htag) hlist
    obtain ⟨q, v, last2, used2, rfl, hcut'⟩ := hcut.plain hdata
    obtain ⟨ps, cs', rfl, hdone⟩ := hcut'.ending hmiddle hending
    refine ⟨p :: q :: ps, cs', by simp only [List.flatMap_cons], ?_⟩
    rwa [List.append_assoc, List.append_assoc] at hdone
  · rw [if_neg (by decide)] at hrun
    obtain ⟨s2, hdata, hending⟩ := hsampled hrun
    obtain ⟨q, v, last1, used1, rfl, hcut⟩ := h.gated
      (show Stage.formatted.step (.data, true) = some .filled from rfl) (Nat.le_refl 4) hpeeked hs1
      hnoted (fun _ => htag) hdata
    obtain ⟨ps, cs', rfl, hdone⟩ := hcut.ending hmiddle hending
    refine ⟨q :: ps, cs', by simp only [List.flatMap_cons], ?_⟩
    rwa [List.append_assoc] at hdone

/-- From its tag to its end, a container is cut into pieces. -/
theorem containerRule_cut {input : Bytes} {maxDepth : Nat}
    (htracker : s.tracker = (Tracker.empty maxDepth).opened "riff" .container 0 0)
    (hs : Scanning .little b 0 [] input s) (hfresh : s.stream.consumed = [])
    (hrun : containerRule.run s = .ok a t) :
    ∃ middle form opening qs cs, input = riffTag ++ middle ++ form ++ qs.flatMap Piece.bytes ∧
      middle.length = 4 ∧ Opening b form opening ∧ 2 ≤ maxDepth ∧
      Completed b middle form opening qs cs t := by
  rw [containerRule_run] at hrun
  obtain ⟨total, s1, hheader, hrun⟩ := bind_ok.1 hrun
  obtain ⟨middle, form, opening, v, rfl, hmiddle, rfl, hopening, hs1, hconsumed, hstrides⟩ :=
    header_cut hs hfresh hheader
  have hhead : (riffTag ++ middle ++ form).length = 12 := by
    simp [hmiddle, hopening.length, riffTag]
  rw [run_bind] at hrun
  obtain ⟨_, s2, hformat, hrun⟩ := bind_ok.1 hrun
  obtain ⟨hrow, hpoints⟩ := Row.start htracker hs.cursor (hs.forgets (Nat.zero_le _)) hstrides
    (hs1.cursor.trans hhead)
  have hposition := congrArg List.length hconsumed
  rw [Stream.length_consumed] at hposition
  have hsliced : Sliced b opening.length [] .opened [] :=
    ⟨fun _ hq => (nomatch hq), rfl, .nil⟩
  have hahead : Scanning .little b ((riffTag ++ middle ++ form ++ []).length + 4)
      (riffTag ++ middle ++ form ++ []) v s1 := by
    rw [List.append_nil]
    exact hs1.weaken (by omega)
  obtain ⟨q, v, rfl, hcut⟩ := hrow.read hsliced hhead (fun _ hc => nomatch hc) hahead
    (by simp [hconsumed]) (by simp [hposition])
    (show Stage.opened.step (.format, false) = some .formatted from rfl)
    (fun _ hoptional => nomatch hoptional) (by rw [hpoints]; exact fun _ hp => nomatch hp) hformat
  obtain ⟨ps, cs, rfl, hdone⟩ := hcut.chunked hmiddle hrun
  have hroom := inScope_room hs1.sound.watches hformat
  rw [hstrides.tracker, Tracker.touch_depth, Tracker.touch_maxDepth, htracker,
    Tracker.opened_depth, Tracker.opened_maxDepth] at hroom
  refine ⟨middle, form, opening, q :: ps, cs, ?_, hmiddle, hopening, hroom, hdone⟩
  rw [List.flatMap_cons]

theorem container_cut {limits : Limits} {input : Bytes}
    (hrun : (inScope "riff" .container containerRule).run
      { State.parsing limits input with endian := .little } = .ok () t) :
    ∃ middle form opening qs cs s, input = riffTag ++ middle ++ form ++ qs.flatMap Piece.bytes ∧
      middle.length = 4 ∧ Opening limits.allowEvil form opening ∧ 2 ≤ limits.maxDepth ∧
      Completed limits.allowEvil middle form opening qs cs s ∧
      t = s.tracking (s.tracker.closed s.stream.position s.image.cursor) := by
  have hstart := Scanning.start (K := Kind) .little limits input
  rw [run_inScope] at hrun
  obtain ⟨depth, s1, hopen, hrun1⟩ := bind_ok.1 hrun
  obtain ⟨_, s2, hcontainer, hrun2⟩ := bind_ok.1 hrun1
  obtain ⟨_, s3, hclose, hend⟩ := bind_ok.1 hrun2
  cases hend
  obtain ⟨-, rfl⟩ := openScope_ok hstart.sound.watches hopen
  have hscan := hstart.tracking
    ((Tracker.empty limits.maxDepth : Tracker Kind).opened "riff" .container 0 0)
  obtain ⟨middle, form, opening, qs, cs, hinput, hmiddle, hopening, hdepth, hdone⟩ :=
    containerRule_cut rfl hscan rfl hcontainer
  rw [closeScope_run depth hdone.scanning.sound.watches] at hclose
  cases hclose
  exact ⟨middle, form, opening, qs, cs, s2, hinput, hmiddle, hopening, hdepth, hdone, rfl⟩

end Reading

structure Dissected (limits : Limits) (form opening : Bytes) (qs : List Piece) (w : Walk Kind) :
    Prop where
  opens : Opening limits.allowEvil form opening
  fits : ∀ q ∈ qs, q.Fits limits.allowEvil
  order : Stage.opened.after qs = some .filled
  file : w.file = whole form qs
  small : form.length + (qs.flatMap Piece.bytes).length < 2 ^ 32
  decisions : w.decisions = opening ++ qs.flatMap Piece.decisions ++ endCode true
  chunks : ∃ cs, w.chunks = root w.file.length w.decisions.length :: cs ∧
    Laid 12 opening.length qs cs ∧ Flagged cs
  points : Pointed opening.length qs w.points
  stream : w.decisions.length ≤ limits.streamCapacity
  maxDepth : 2 ≤ limits.maxDepth

theorem parse_dissected {limits : Limits} {input : Bytes} {w : Walk Kind}
    (h : riff.grammar.parse limits input = .ok w) :
    w.file = input ∧ ∃ form opening qs, Dissected limits form opening qs w := by
  rw [parse_run] at h
  obtain ⟨t, ws, hrun, hfinish⟩ := conclude_ok (grammar_stops (by decide)) h
  have hkept := run_kept hrun
  have hscope : (inScope "riff" .container containerRule).run
      { State.parsing limits input with endian := .little } = .ok () t := hrun
  obtain ⟨middle, form, opening, qs, cs, s, rfl, hmiddle, hopening, hdepth, hdone, rfl⟩ :=
    container_cut hscope
  obtain ⟨used, look, hrow⟩ := hdone.row
  obtain ⟨hstack, hchunks, hpoints⟩ := hrow.rooted
  have hclosed : (s.tracking (s.tracker.closed s.stream.position s.image.cursor)).tracker.depth =
    0 := congrArg List.length hstack
  obtain ⟨hcovered, -⟩ := (State.finish_iff _ _).1 hfinish
  rw [State.finish_walked _ hclosed, if_pos hcovered] at hfinish
  cases hfinish
  have hall := hdone.scanning.bytes
  rw [List.append_nil] at hall
  have hfile : s.image.output = riffTag ++ middle ++ form ++ qs.flatMap Piece.bytes := by
    rw [output_parse hdone.scanning.sound, hall]
  have hsize : s.image.size = s.image.output.length := by
    rw [hfile]
    exact hdone.scanning.forgets (Nat.zero_le _)
  have hlt := Endian.little.decode_lt middle
  rw [hmiddle, hdone.size] at hlt
  have hmid := eq_le32 hmiddle
  rw [hdone.size] at hmid
  refine ⟨hfile, form, opening, qs, hopening, hdone.fits, hdone.order, ?_, hlt, hdone.consumed,
    ⟨cs, ?_, hdone.laid, hdone.flagged⟩, ?_, ?_, hdepth⟩
  · rw [whole, ← hmid]
    exact hfile
  · show (Tracker.closed _ _ _).chunks.toList = root s.image.output.length
      s.stream.consumed.length :: cs
    rw [hchunks, hsize, Stream.length_consumed]
  · intro p hp
    have hmem : p ∈ (Tracker.closed s.tracker s.stream.position s.image.cursor).points := by
      have hp' := List.mem_mergeSort.1 hp
      exact List.mem_reverse.1 hp'
    rw [hpoints] at hmem
    exact hdone.pointed p hmem
  · have hcapacity : s.stream.capacity = limits.streamCapacity := hkept.streamCapacity
    have hwithin : s.stream.length ≤ s.stream.capacity := hkept.within (Nat.zero_le _)
    rw [hcapacity] at hwithin
    show s.stream.consumed.length ≤ limits.streamCapacity
    rw [Stream.length_consumed]
    exact Nat.le_trans (Nat.le_add_right _ _) hwithin

end DecisionWalk.Riff
