import DecisionWalk.Proofs.RiffFiles

/-!
# Pieces make a RIFF file

Whatever fits together is a file: a header, a format, perhaps a list, samples and
junk, from one file or from several. A parse takes all of it, and its decisions
are those of the header and of the pieces one behind the other.
-/

set_option autoImplicit false

namespace DecisionWalk.Riff

open Walker Grammar

variable {b : Bool} {seen depth : Nat} {past u v c d : Bytes} {ps : List Piece}

def Concludes (b : Bool) (seen : Nat) (past : Bytes) (x : Walker Kind Unit) (u d : Bytes) : Prop :=
  ∀ s, Scanning .little b seen past u s → s.stream.position + d.length ≤ s.stream.capacity →
    s.tracker.depth + 1 ≤ s.tracker.maxDepth →
    ∃ t, x s = .ok () t ∧ Scanning .little b 0 (past ++ u) [] t ∧ Noted d s t

theorem Kind.Reads.concludes {kind : Kind} {f : Rule} (h : kind.Reads b u c)
    (hf : Concludes b 0 (past ++ u) f.run v d) :
    Concludes b (past.length + 4) past (kind.production >>= fun _ => f).run (u ++ v) (c ++ d) := by
  intro s hs hroom hdepth
  rw [List.length_append] at hroom
  obtain ⟨s', hread, hs', hnoted⟩ := h.run hs (by omega) hdepth
  obtain ⟨t, hrest, ht, hnoted'⟩ := hf s' hs'
    (by rw [hnoted.position, hnoted.capacity]; omega)
    (by rw [hnoted.depth, hnoted.maxDepth]; exact hdepth)
  refine ⟨t, ?_, ?_, hnoted.trans hnoted'⟩
  · rw [run_bind, bind_run hread]
    exact hrest
  · rwa [← List.append_assoc]

theorem endCode_length (ends : Bool) : (endCode ends).length = 1 := coinCode_length _

section Rounds

variable {rest : Bytes} {s : State Kind}

theorem trailing_reads {p : Piece} {next : Stage} (hp : p.Fits b)
    (hstep : Stage.filled.step p.label = some next)
    (hs : Scanning .little b 0 past (p.bytes ++ rest) s)
    (hroom : s.stream.position + p.decisions.length ≤ s.stream.capacity)
    (hdepth : s.tracker.depth + 1 ≤ s.tracker.maxDepth) :
    ∃ t, trailing.run s = .ok (.inl ()) t ∧ Scanning .little b 0 (past ++ p.bytes) rest t ∧
      Noted p.decisions s t := by
  obtain ⟨hlabel, -⟩ := Stage.step_filled hstep
  obtain ⟨d, hd, hreads⟩ := hp.reading hlabel
  rw [if_pos rfl, Kind.gate] at hd
  rw [hd, List.length_append, endCode_length] at hroom
  have hahead : p.bytes ++ rest ≠ [] := by
    have hleast := hreads.least
    intro hnil
    rw [(List.append_eq_nil_iff.1 hnil).1] at hleast
    exact absurd hleast (by decide)
  have hrun := coin_run hs (by omega)
  rw [decide_eq_false hahead] at hrun
  have hnoted := coined_noted s false
  obtain ⟨t, hjunk, ht, hnoted'⟩ := hreads.run ((coined_scanning hs false).weaken (by omega))
    (by rw [hnoted.position, hnoted.capacity, endCode_length]; omega)
    (by rw [hnoted.depth, hnoted.maxDepth]; exact hdepth)
  refine ⟨t, ?_, ht, hd ▸ hnoted.trans hnoted'⟩
  rw [trailing, run_bind, run_request]
  refine (bind_run hrun).trans ?_
  rw [if_neg Bool.false_ne_true, run_bind]
  exact bind_run hjunk

theorem trailing_ends (hs : Scanning .little b 0 past [] s)
    (hroom : s.stream.position + 1 ≤ s.stream.capacity) :
    trailing.run s = .ok (.inr ()) (coined s true) := by
  rw [trailing, run_bind, run_request]
  exact bind_run (coin_run hs hroom)

/-- Rounds read all the junk, and each of them takes a decision. -/
theorem trailings_iterate (hfits : ∀ p ∈ ps, p.Fits b)
    (horder : Stage.filled.after ps = some .filled) (past : Bytes) (s : State Kind) (left : Nat)
    (hs : Scanning .little b 0 past (ps.flatMap Piece.bytes) s)
    (hroom : s.stream.position + (ps.flatMap Piece.decisions).length + 1 ≤ s.stream.capacity)
    (hdepth : s.tracker.depth + 1 ≤ s.tracker.maxDepth)
    (hleft : s.stream.capacity < s.stream.position + left) :
    ∃ t, iterate (fun _ => trailing.run) left () s = .ok () t ∧
      Scanning .little b 0 (past ++ ps.flatMap Piece.bytes) [] t ∧
      Noted (ps.flatMap Piece.decisions ++ endCode true) s t := by
  have hidle : idleRounds = (idleRounds - 1) + 1 := by decide
  obtain ⟨left, rfl⟩ : ∃ k, left = k + 1 := ⟨left - 1, by omega⟩
  induction ps generalizing past s left with
  | nil =>
    refine ⟨coined s true, ?_, ?_, coined_noted s true⟩
    · apply iterate_inr
      rw [hidle]
      exact settle_inr (trailing_ends hs (by omega))
    · have hend := coined_scanning hs true
      rwa [List.flatMap_nil, ← List.append_nil past] at hend
  | cons p ps ih =>
    obtain ⟨next, hstep, hrest⟩ := Stage.after_step horder
    obtain ⟨-, rfl⟩ := Stage.step_filled hstep
    have hp := hfits p List.mem_cons_self
    rw [List.flatMap_cons] at hs
    rw [List.flatMap_cons, List.length_append] at hroom
    obtain ⟨t, hread, ht, hnoted⟩ := trailing_reads hp hstep hs (by omega) hdepth
    have hposition := hnoted.position
    have hcapacity := hnoted.capacity
    have hspent : 0 < p.decisions.length := by
      obtain ⟨d, hd, -⟩ := hp.reading (Stage.step_filled hstep).1
      rw [hd, if_pos rfl, List.length_append, Kind.gate, endCode_length]
      omega
    have hround : settle (fun _ => trailing.run) s.stream.position idleRounds () s =
        .ok (.inl ()) t := by
      rw [hidle, settle_inl hread, if_pos (by omega)]
    obtain ⟨left, rfl⟩ : ∃ k, left = k + 1 := ⟨left - 1, by omega⟩
    obtain ⟨t', hloop, ht', hnoted'⟩ := ih (fun q hq => hfits q (List.mem_cons_of_mem p hq)) hrest
      (past ++ p.bytes) t ht (by omega) (by rw [hnoted.depth, hnoted.maxDepth]; exact hdepth) left
      (by omega)
    refine ⟨t', (iterate_inl hround).trans hloop, ?_, ?_⟩
    · rwa [List.flatMap_cons, ← List.append_assoc]
    · rw [List.flatMap_cons, List.append_assoc]
      exact hnoted.trans hnoted'

end Rounds

section Runs

variable {middle back : Bytes}

theorem ending_concludes (hpast : past = riffTag ++ middle ++ back) (hmiddle : middle.length = 4)
    (hfits : ∀ p ∈ ps, p.Fits b) (horder : Stage.filled.after ps = some .filled)
    (hsize : Endian.little.decode middle = (past ++ ps.flatMap Piece.bytes).length - 8) :
    Concludes b 0 past (ending (heldSize riffTag middle)).run (ps.flatMap Piece.bytes)
      (ps.flatMap Piece.decisions ++ endCode true) := by
  intro s hs hroom hdepth
  rw [List.length_append, endCode_length] at hroom
  obtain ⟨s1, hloop, hs1, hnoted⟩ := trailings_iterate hfits horder past s _ hs (by omega) hdepth
    (show s.stream.capacity < s.stream.position + (s.stream.capacity + 1) by omega)
  have hsplit : past ++ ps.flatMap Piece.bytes =
      riffTag ++ middle ++ (back ++ ps.flatMap Piece.bytes) := by
    rw [hpast, List.append_assoc]
  rw [← List.nil_append []] at hs1
  obtain ⟨t, n, hpatch, ⟨-, -, rfl⟩, ht, hscanned⟩ := (checkSize_scans _ hsplit hmiddle).complete
    [] [] s1 () hs1 ⟨0, rfl, hsize, rfl⟩
    (fun n hn => by rw [hn.2.2, hnoted.position, hnoted.capacity, List.length_append,
      endCode_length]; omega)
    (by rw [hnoted.depth, hnoted.maxDepth]; omega)
  rw [List.append_nil] at ht
  have hall := hnoted.trans (.silent hscanned)
  rw [List.append_nil] at hall
  have hrepeat : (repeatFrom () fun _ => trailing : Rule).run s = .ok () s1 := by
    rw [run_repeatFrom, get_bind]
    exact hloop
  refine ⟨t, ?_, ht, hall⟩
  rw [ending, run_bind, bind_run hrepeat, run_bind,
    bind_run (Scans.fileSize (Nat.zero_le _) _ _ hs1)]
  exact hpatch

theorem looked_concludes {kind : Kind} {x : Bytes → Rule} (hkind : kind = .list ∨ kind = .data)
    (htag : u.take 4 = kind.tag)
    (hx : Concludes b (past.length + 4) past (x kind.tag).run u d) :
    Concludes b 0 past (underEvil false (request (.lookBytes 0 4 [listTag, dataTag])) >>= x).run u
      (kind.gate ++ d) := by
  have hgate : kind.gate = knownCode [listTag, dataTag] Alphabet.plain.stringCode kind.tag := by
    rcases hkind with rfl | rfl <;> rfl
  have hmem : kind.tag ∈ [listTag, dataTag] := by
    rcases hkind with rfl | rfl <;> decide
  intro s hs hroom hdepth
  rw [List.length_append] at hroom
  have hahead : Scanning .little b (past.length + 4) past u s := hs.weaken (by omega)
  obtain ⟨s1, hlook, hs1, hnoted⟩ : ∃ t, (underEvil false (request
      (.lookBytes 0 4 [listTag, dataTag])) : Grammar Kind Bytes).run s = .ok kind.tag t ∧
      Scanning .little b (past.length + 4) past u t ∧ Noted kind.gate s t := by
    rw [hgate]
    exact hahead.looks (by decide) (by decide) (by decide) (by decide) (Nat.le_refl _) hmem
      htag.symm (by rw [← hgate]; omega)
  obtain ⟨t, hrun, ht, hnoted'⟩ := hx s1 hs1 (by rw [hnoted.position, hnoted.capacity]; omega)
    (by rw [hnoted.depth, hnoted.maxDepth]; exact hdepth)
  refine ⟨t, ?_, ht, hnoted.trans hnoted'⟩
  rw [run_bind, bind_run hlook]
  exact hrun

theorem Concludes.sooner {x : Walker Kind Unit} {more : Nat} (h : Concludes b more past x u d)
    (hmore : seen ≤ max past.length more) : Concludes b seen past x u d := by
  intro s hs
  exact h s (hs.weaken (by omega))

theorem sampled_concludes (hpast : past = riffTag ++ middle ++ back) (hmiddle : middle.length = 4)
    (hreads : Kind.data.Reads b u d) (hfits : ∀ p ∈ ps, p.Fits b)
    (horder : Stage.filled.after ps = some .filled)
    (hsize : Endian.little.decode middle = (past ++ (u ++ ps.flatMap Piece.bytes)).length - 8) :
    Concludes b (past.length + 4) past (sampled (heldSize riffTag middle)).run
      (u ++ ps.flatMap Piece.bytes) (d ++ (ps.flatMap Piece.decisions ++ endCode true)) := by
  have hsplit : past ++ u = riffTag ++ middle ++ (back ++ u) := by
    rw [hpast, List.append_assoc]
  apply hreads.concludes
  apply ending_concludes hsplit hmiddle hfits horder
  rw [hsize, List.append_assoc]

theorem Piece.Fits.tagged {p : Piece} {kind : Kind} (h : p.Fits b) (hlabel : p.label = (kind, true))
    (hkind : kind = .list ∨ kind = .data) (v : Bytes) : (p.bytes ++ v).take 4 = kind.tag := by
  obtain ⟨rfl, hoptional⟩ := Prod.mk.inj hlabel
  rw [List.take_append_of_le_length h.least]
  exact h.told hkind hoptional

/-- What follows the format is read, with or without a list. -/
theorem chunked_concludes (hpast : past = riffTag ++ middle ++ back) (hmiddle : middle.length = 4)
    (hfits : ∀ p ∈ ps, p.Fits b) (horder : Stage.formatted.after ps = some .filled)
    (hsize : Endian.little.decode middle = (past ++ ps.flatMap Piece.bytes).length - 8) :
    Concludes b 0 past (chunked (heldSize riffTag middle)).run (ps.flatMap Piece.bytes)
      (ps.flatMap Piece.decisions ++ endCode true) := by
  cases ps with
  | nil => cases horder
  | cons p ps =>
    obtain ⟨next, hstep, hrest⟩ := Stage.after_step horder
    have hp := hfits p List.mem_cons_self
    have hps : ∀ q ∈ ps, q.Fits b := fun q hq => hfits q (List.mem_cons_of_mem p hq)
    rw [List.flatMap_cons] at hsize
    rw [List.flatMap_cons, List.flatMap_cons, List.append_assoc]
    rcases Stage.step_formatted hstep with ⟨hlabel, rfl⟩ | ⟨hlabel, rfl⟩
    · cases ps with
      | nil => cases hrest
      | cons q ps =>
        obtain ⟨next, hstep', hrest'⟩ := Stage.after_step hrest
        obtain ⟨hlabel', rfl⟩ := Stage.step_listed hstep'
        obtain ⟨c, hc, hlist⟩ := hp.reading hlabel
        obtain ⟨d, hd, hdata⟩ := (hps q List.mem_cons_self).reading hlabel'
        rw [if_pos rfl] at hc
        rw [if_neg Bool.false_ne_true, List.nil_append] at hd
        rw [List.flatMap_cons, ← List.append_assoc] at hsize
        rw [List.flatMap_cons, List.flatMap_cons, hc, hd, List.append_assoc, List.append_assoc]
        refine looked_concludes (Or.inl rfl) (hp.tagged hlabel (Or.inl rfl) _) ?_
        rw [if_pos (show Kind.list.tag = listTag from rfl)]
        have hsplit : past ++ p.bytes = riffTag ++ middle ++ (back ++ p.bytes) := by
          rw [hpast, List.append_assoc]
        apply hlist.concludes
        exact (sampled_concludes hsplit hmiddle hdata
          (fun x hx => hps x (List.mem_cons_of_mem q hx)) hrest' hsize).sooner (Nat.zero_le _)
    · obtain ⟨d, hd, hdata⟩ := hp.reading hlabel
      rw [if_pos rfl] at hd
      rw [hd, List.append_assoc]
      refine looked_concludes (Or.inr rfl) (hp.tagged hlabel (Or.inr rfl) _) ?_
      rw [if_neg (by decide)]
      exact sampled_concludes hpast hmiddle hdata hps hrest hsize

/-- From the header on, a whole file is read. -/
theorem containerRule_concludes {form opening : Bytes} (hopening : Opening b form opening)
    (hfits : ∀ p ∈ ps, p.Fits b) (horder : Stage.opened.after ps = some .filled)
    (hsmall : form.length + (ps.flatMap Piece.bytes).length < 2 ^ 32) :
    Concludes b 0 [] containerRule.run (whole form ps)
      (opening ++ ps.flatMap Piece.decisions ++ endCode true) := by
  cases ps with
  | nil => cases horder
  | cons p ps =>
    obtain ⟨next, hstep, hrest⟩ := Stage.after_step horder
    obtain ⟨hlabel, rfl⟩ := Stage.step_opened hstep
    obtain ⟨d, hd, hformat⟩ := (hfits p List.mem_cons_self).reading hlabel
    rw [if_neg Bool.false_ne_true, List.nil_append] at hd
    let middle := le32 (form.length + ((p :: ps).flatMap Piece.bytes).length)
    have hmiddle : middle.length = 4 := le32_length _
    have hdecode : Endian.little.decode middle =
      form.length + ((p :: ps).flatMap Piece.bytes).length := decode_le32 hsmall
    have hsplit : riffTag ++ middle ++ form ++ p.bytes = riffTag ++ middle ++ (form ++ p.bytes) :=
      List.append_assoc _ _ _
    have hchunked := chunked_concludes hsplit hmiddle
      (fun q hq => hfits q (List.mem_cons_of_mem p hq)) hrest (by
        rw [hdecode, List.flatMap_cons]
        simp only [List.length_append, hmiddle, show riffTag.length = 4 from rfl]
        omega)
    intro s hs hroom hdepth
    simp only [List.length_append] at hroom
    obtain ⟨s1, hheader, hs1, hnoted⟩ := hopening.run hmiddle hs (by omega) (by omega)
    rw [List.flatMap_cons] at hs1
    rw [List.flatMap_cons, hd] at hroom
    simp only [List.length_append] at hroom
    obtain ⟨t, hrun, ht, hnoted'⟩ := hformat.concludes hchunked s1 (hs1.weaken (by omega))
      (by rw [hnoted.position, hnoted.capacity]; simp only [List.length_append]; omega)
      (by rw [hnoted.depth, hnoted.maxDepth]; exact hdepth)
    refine ⟨t, ?_, ?_, ?_⟩
    · rw [containerRule_run, bind_run hheader]
      exact hrun
    · rw [← List.flatMap_cons] at ht
      exact ht
    · have hall := hnoted.trans hnoted'
      rw [List.flatMap_cons, hd]
      simp only [List.append_assoc] at hall ⊢
      exact hall

end Runs

section Files

variable {limits : Limits} {form opening : Bytes} {w : Walk Kind}

theorem whole_parses (hopening : Opening limits.allowEvil form opening)
    (hfits : ∀ p ∈ ps, p.Fits limits.allowEvil) (horder : Stage.opened.after ps = some .filled)
    (hsmall : form.length + (ps.flatMap Piece.bytes).length < 2 ^ 32)
    (hstream : (opening ++ ps.flatMap Piece.decisions ++ endCode true).length ≤
      limits.streamCapacity) (hdepth : 2 ≤ limits.maxDepth) :
    ∃ w, riff.grammar.parse limits (whole form ps) = .ok w ∧
      w.decisions = opening ++ ps.flatMap Piece.decisions ++ endCode true := by
  have hstart := Scanning.start (K := Kind) .little limits (whole form ps)
  have hopen : 0 < limits.maxDepth := by omega
  obtain ⟨t, hrun, ht, hnoted⟩ := containerRule_concludes hopening hfits horder hsmall _
    (hstart.tracking ((Tracker.empty limits.maxDepth : Tracker Kind).opened "riff" .container 0 0))
    (show 0 + _ ≤ limits.streamCapacity by omega) hdepth
  exact Scanning.parses (inScope_runs hstart.sound.watches hopen ht.sound.watches hrun)
    (ht.tracking _) hnoted.scoped

theorem whole_injective {form' : Bytes} {qs : List Piece} (hform : form.length = 4)
    (hform' : form'.length = 4) (h : whole form ps = whole form' qs) :
    form = form' ∧ ps.flatMap Piece.bytes = qs.flatMap Piece.bytes := by
  rw [whole, whole, List.append_assoc _ form, List.append_assoc _ form'] at h
  exact List.append_inj (List.append_inj h (by simp)).2 (hform.trans hform'.symm)

theorem Dissected.unique {form' opening' : Bytes} {qs : List Piece}
    (h : Dissected limits form opening ps w) (hopening : Opening limits.allowEvil form' opening')
    (hfits : ∀ q ∈ qs, q.Fits limits.allowEvil) (horder : Stage.opened.after qs = some .filled)
    (hfile : w.file = whole form' qs) : form = form' ∧ opening = opening' ∧ ps = qs := by
  obtain ⟨rfl, hbytes⟩ := whole_injective h.opens.length hopening.length (h.file.symm.trans hfile)
  exact ⟨rfl, h.opens.unique hopening, pieces_unique h.fits hfits h.order horder hbytes⟩

structure Made (limits : Limits) (form opening : Bytes) (ps : List Piece) (w : Walk Kind) : Prop
    extends Dissected limits form opening ps w where
  generated : riff.grammar.generate limits w.decisions = .ok w

theorem assembled (hopening : Opening limits.allowEvil form opening)
    (hfits : ∀ p ∈ ps, p.Fits limits.allowEvil) (horder : Stage.opened.after ps = some .filled)
    (hsmall : form.length + (ps.flatMap Piece.bytes).length < 2 ^ 32)
    (hstream : (opening ++ ps.flatMap Piece.decisions ++ endCode true).length ≤
      limits.streamCapacity) (hdepth : 2 ≤ limits.maxDepth)
    (hfile : (whole form ps).length ≤ limits.fileCapacity) :
    ∃ w, Made limits form opening ps w := by
  obtain ⟨p, hparse, hdecisions⟩ := whole_parses hopening hfits horder hsmall hstream hdepth
  obtain ⟨hinput, form', opening', qs, hd⟩ := parse_dissected hparse
  obtain ⟨rfl, rfl, rfl⟩ := hd.unique hopening hfits horder hinput
  have hgenerated := riff_faithful.generates hparse rfl hdepth hfile (by rwa [hdecisions])
  rw [← hinput] at hgenerated
  exact ⟨{ p with mode := .generate }, ⟨hd.opens, hd.fits, hd.order, hd.file, hd.small,
    hd.decisions, hd.chunks, hd.points, hd.stream, hd.maxDepth⟩, hgenerated⟩

end Files

end DecisionWalk.Riff
