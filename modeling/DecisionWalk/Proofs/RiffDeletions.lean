import DecisionWalk.Proofs.Missing
import DecisionWalk.Proofs.Performing
import DecisionWalk.Proofs.RiffSplices

/-!
# Deletions from a RIFF file

Junk may be deleted, and the file is what is left then, with its own size. The
samples behind a list may not, and neither may the list. But a look stands in
front of the samples where there is no list, and so they count as optional. What
follows the format must be samples again, or a list. So if junk comes behind the
samples, its watch finds nothing where they stood, and they are not deleted after
all. Only samples at the end of a file have nothing behind them that is watched.
-/

set_option autoImplicit false

namespace DecisionWalk.Riff

open Mutator Walker Grammar

section Pieces

variable {limits : Limits} {form opening : Bytes} {ps qs rs : List Piece} {p q : Piece}
  {stage next : Stage} {w : Walk Kind} {c : Chunk Kind}

namespace Stage

theorem after_opened (h : Stage.opened.after ps = some .opened) : ps = [] := by
  rcases ps.eq_nil_or_concat with rfl | ⟨front, last, rfl⟩
  · rfl
  · rw [List.concat_eq_append] at h
    obtain ⟨mid, -, hlast⟩ := after_split h
    obtain ⟨next, hstep, hend⟩ := after_step hlast
    cases hend
    obtain ⟨kind, optional, bytes, decisions⟩ := last
    cases mid <;> cases kind <;> cases optional <;> cases hstep

theorem after_formatted (h : Stage.opened.after ps = some .formatted) :
    ∃ p, ps = [p] ∧ p.label = (.format, false) := by
  rcases ps.eq_nil_or_concat with rfl | ⟨front, last, rfl⟩
  · cases h
  · rw [List.concat_eq_append] at h ⊢
    obtain ⟨mid, hfront, hlast⟩ := after_split h
    obtain ⟨next, hstep, hend⟩ := after_step hlast
    cases hend
    have hmid : mid = .opened := by
      obtain ⟨kind, optional, bytes, decisions⟩ := last
      cases mid <;> cases kind <;> cases optional <;> first | rfl | cases hstep
    subst hmid
    rw [after_opened hfront]
    exact ⟨last, rfl, (step_opened hstep).1⟩

theorem step_gated (h : stage.step p.label = some next) (hkind : p.kind ≠ .junk)
    (hoptional : p.optional = true) : stage = .formatted := by
  obtain ⟨kind, optional, bytes, decisions⟩ := p
  cases stage <;> cases kind <;> cases optional <;> simp_all [step, Piece.label]

end Stage

theorem cut_unique {ps' rs' : List Piece} (hsame : ps ++ rs = ps' ++ rs')
    (hspend : ∀ q ∈ ps ++ rs, q.decisions ≠ [])
    (hlength : (ps.flatMap Piece.decisions).length = (ps'.flatMap Piece.decisions).length) :
    ps = ps' ∧ rs = rs' := by
  have hnone : ∀ xs : List Piece, (∀ q ∈ xs, q.decisions ≠ []) →
      (xs.flatMap Piece.decisions).length = 0 → xs = [] := by
    intro xs hxs hzero
    apply List.eq_nil_iff_forall_not_mem.2
    intro q hq
    exact hxs q hq (List.flatMap_eq_nil_iff.1 (List.length_eq_zero_iff.1 hzero) q hq)
  rcases List.append_eq_append_iff.1 hsame with ⟨xs, rfl, rfl⟩ | ⟨xs, rfl, rfl⟩
  · rw [List.flatMap_append, List.length_append] at hlength
    obtain rfl := hnone xs (fun q hq => hspend q (by simp [hq])) (by omega)
    exact ⟨(List.append_nil ps).symm, rfl⟩
  · rw [List.flatMap_append, List.length_append] at hlength
    obtain rfl := hnone xs (fun q hq => hspend q (by simp [hq])) (by omega)
    exact ⟨List.append_nil ps', rfl⟩

theorem Dissected.follows {after : Chunk Kind}
    (h : Dissected limits form opening (ps ++ [q] ++ rs) w)
    (hq : q.Stands (12 + (ps.flatMap Piece.bytes).length)
      (opening.length + (ps.flatMap Piece.decisions).length) c)
    (hafter : successor? w c = some after) :
    ∃ r rs', rs = r :: rs' ∧ r.Stands (12 + ((ps ++ [q]).flatMap Piece.bytes).length)
      (opening.length + ((ps ++ [q]).flatMap Piece.decisions).length) after := by
  have hspend : ∀ p ∈ ps ++ [q] ++ rs, p.decisions ≠ [] := fun p hp => (h.fits p hp).spends
  have hmem : after ∈ w.chunks := List.mem_of_find?_eq_some hafter
  have hstart : after.decisions.start = c.decisions.stop := by
    have hfound := List.find?_some hafter
    rw [Bool.and_eq_true, beq_iff_eq] at hfound
    exact hfound.1
  have hstop : c.decisions.stop =
      opening.length + ((ps ++ [q]).flatMap Piece.decisions).length := by
    rw [hq.decision_stop, List.flatMap_append, List.flatMap_singleton, List.length_append,
      Nat.add_assoc]
  rw [hstop] at hstart
  rcases h.piece_of hmem with rfl | ⟨ps', r, rs', hsame, hr⟩
  · -- The container starts in front of all of its pieces.
    have hlong := List.length_pos_iff.2 (hspend q (by simp))
    rw [List.flatMap_append, List.flatMap_singleton, List.length_append] at hstart
    simp only [root] at hstart
    omega
  · rw [hr.decision_start] at hstart
    rw [List.append_assoc ps' [r] rs'] at hsame
    obtain ⟨rfl, rfl⟩ := cut_unique hsame hspend (by omega)
    exact ⟨r, rs', rfl, hr⟩

theorem Dissected.ends (h : Dissected limits form opening (ps ++ [q] ++ rs) w)
    (hq : q.Stands (12 + (ps.flatMap Piece.bytes).length)
      (opening.length + (ps.flatMap Piece.decisions).length) c)
    (hlast : successor? w c = none) : rs = [] := by
  cases rs with
  | nil => rfl
  | cons r rs =>
    obtain ⟨cs, hchunks, hlaid, -⟩ := h.chunks
    obtain ⟨before, after, behind, rfl, -, hafter⟩ := hlaid.at_piece
    have hlong := List.length_pos_iff.2 (h.fits r (by simp)).spends
    have hnever := List.find?_eq_none.1 hlast after (by rw [hchunks]; simp)
    rw [hafter.decisions, hq.decision_stop, List.flatMap_append, List.flatMap_singleton,
      List.length_append] at hnever
    simp [Span.isEmpty, Nat.add_assoc, List.ne_nil_of_length_pos hlong] at hnever

theorem Dissected.appendable (h : Dissected limits form opening qs w) (hc : c ∈ w.chunks)
    (hinner : c.kind ≠ .container) : c.appendable = true ↔ c.kind ≠ .list := by
  obtain ⟨cs, hchunks, -, hflagged⟩ := h.chunks
  rw [hchunks] at hc
  rcases List.mem_cons.1 hc with rfl | hc
  · exact absurd rfl hinner
  · exact hflagged c hc

end Pieces

section Replays

variable {b : Bool} {form opening past rest u d : Bytes} {s : State Kind}

theorem header_plain : header.Plain :=
  .bind (.discard (.underEvil (.request trivial))) fun _ => .bind (.request trivial) fun _ =>
    .bind (.discard (.request trivial)) fun _ => trivial

theorem formatRule_plain : formatRule.Plain :=
  .bind (.discard (.underEvil (.request trivial))) fun _ =>
    .bind (.discard (.request trivial)) fun _ => .bind (.discard (.request trivial)) fun _ =>
    .bind (.discard (.request trivial)) fun _ => .bind (.discard (.request trivial)) fun _ =>
    .bind (.discard (.request trivial)) fun _ => .bind (.discard (.request trivial)) fun _ =>
      .discard (.request trivial)

theorem Opening.performs (h : Opening b form opening)
    (hs : Writing .little b [] (opening ++ rest) s) (hroom : 12 ≤ s.image.capacity)
    (hdepth : s.tracker.depth ≤ s.tracker.maxDepth) :
    ∃ total past t, header.run s = .ok total t ∧ past.length = 12 ∧ Writing .little b past rest t ∧
      Noted opening s t := by
  obtain ⟨c, d, rfl, htag, hform⟩ := h.recited
  have hlength := h.length
  rw [List.append_assoc] at hs
  obtain ⟨s1, h1, hs1, hnoted1⟩ := (htag []).performs (tag_follows riffTag rfl (.fresh 0 4))
    (fun _ ho => ⟨_, Nat.zero_le _, ho⟩) (fun _ => trivial) hs
    (by simp only [riffTag, List.length_nil, List.length_cons]; omega) hdepth
  have hcapacity1 := (run_kept h1).fileCapacity
  obtain ⟨total, v, s2, h2, hv, hs2, hnoted2⟩ := hs1.reserves (by decide : 1 ≤ 4) (by decide)
    (by
      rw [hcapacity1]
      simp only [riffTag, List.nil_append, List.length_cons, List.length_nil]
      omega)
  have hcapacity2 := (run_kept h2).fileCapacity
  obtain ⟨s3, h3, hs3, hnoted3⟩ := (hform _).performs
    (Follows.bytesKnown 4 formTypes (by decide) (by decide) (by decide) (by decide)
      (.fresh _ 4)).discard
    (fun _ ho => ⟨_, Nat.zero_le _, ho⟩) (fun _ => trivial) hs2
    (by
      rw [hcapacity2, hcapacity1]
      simp only [List.length_append, hv, hlength, riffTag, List.length_nil, List.length_cons]
      omega)
    (by
      rw [hnoted2.depth, hnoted2.maxDepth, hnoted1.depth, hnoted1.maxDepth]
      exact hdepth)
  refine ⟨total, _, s3, ?_, ?_, hs3, ?_⟩
  · rw [header, run_bind, bind_run h1, run_bind, bind_run h2, run_bind, bind_run h3]
    rfl
  · simp [hv, hlength, riffTag]
  · exact hnoted1.trans (hnoted2.trans hnoted3)

theorem Kind.Reads.performs (h : Kind.format.Reads b u d)
    (hs : Writing .little b past (d ++ rest) s) (hroom : past.length + u.length ≤ s.image.capacity)
    (hdepth : s.tracker.depth + 1 ≤ s.tracker.maxDepth) :
    ∃ t, Kind.format.production.run s = .ok () t ∧ Writing .little b (past ++ u) rest t ∧
      Noted d s t :=
  (h.recited past).performs
    ((formatRule_follows past.length).inScope "fmt" Kind.format fun _ _ _ h => h)
    (fun _ ho => ⟨_, Nat.zero_le _, ho⟩) (fun _ => trivial) hs hroom hdepth

variable {limits : Limits} {decisions : Bytes} {total : Reserved} {a : Unit} {t : State Kind}
  {made : Walk Kind} {watch : Watch Kind} {ws : List (Watch Kind)}

theorem chunked_late (hwatches : s.watches = [watch]) (harmed : watch.armed = none)
    (hkind : watch.kind = some .junk) (hstart : watch.start = s.stream.position)
    (h : (chunked total).run s = .ok a t) : Late watch t := by
  rw [chunked, run_bind] at h
  obtain ⟨next, u, hlook, hrest⟩ := bind_ok.1 h
  have hlooked := Looked.underEvil hlook
  have hplain : (underEvil false (request (.lookBytes 0 4 [listTag, dataTag])) :
    Grammar Kind Bytes).Plain := .underEvil (.request trivial)
  have hwatches' : u.watches = [watch] := (hplain.watches hlook).trans hwatches
  have hposition : watch.start < u.stream.position := by
    rw [hstart]
    exact hlooked.position
  have hgate : ∀ g, u.tracker.gate = some g → g.stop = u.stream.position := by
    intro g hg
    rw [hlooked.tracker, Tracker.lookahead_gate] at hg
    cases hg
    rfl
  by_cases hlist : next = listTag
  · rw [if_pos hlist] at hrest
    exact inScope_late hwatches' harmed hkind (by decide) hposition hgate hrest
  · rw [if_neg hlist] at hrest
    have hsampled : (Kind.data.production >>= fun _ => ending total).run u = .ok a t := hrest
    exact inScope_late hwatches' harmed hkind (by decide) hposition hgate hsampled

theorem containerRule_late (hopening : Opening b form opening) (hformat : Kind.format.Reads b u d)
    (hs : Writing .little b [] (opening ++ (d ++ rest)) s) (hfresh : s.stream.position = 0)
    (hroom : 12 + u.length ≤ s.image.capacity)
    (hdepth : s.tracker.depth + 1 ≤ s.tracker.maxDepth) (harmed : watch.armed = none)
    (hkind : watch.kind = some .junk) (hstart : watch.start = opening.length + d.length)
    (h : containerRule.run (s.watching [watch]) = .ok a t) : Late watch t := by
  rw [containerRule_run] at h
  obtain ⟨total, s1, hheader, h⟩ := bind_ok.1 h
  rw [run_bind] at h
  obtain ⟨_, s2, hformatted, hchunked⟩ := bind_ok.1 h
  obtain ⟨u1, hheader', hu1, rfl⟩ := header_plain.unseen hs.edge.sound.watches hheader
  obtain ⟨_, past, _, hperformed, hpast, hwriting, hnoted⟩ :=
    hopening.performs hs (by omega) (by omega)
  rw [hheader'] at hperformed
  cases hperformed
  obtain ⟨u2, hformatted', rfl⟩ := formatRule_plain.unwatched hu1 hformatted
  obtain ⟨_, hperformed', hwriting', hnoted'⟩ := hformat.performs hwriting
    (by rw [hpast, (run_kept hheader').fileCapacity]; exact hroom)
    (by rw [hnoted.depth, hnoted.maxDepth]; exact hdepth)
  have hsame := hformatted'.symm.trans hperformed'
  cases hsame
  rw [List.map_singleton, Watch.arm_other hkind (by decide),
    State.closing_idle (by rw [harmed]; simp)] at hchunked
  refine chunked_late rfl harmed hkind ?_ hchunked
  show watch.start = u2.stream.position
  rw [hnoted'.position, hnoted.position, hfresh, hstart, Nat.zero_add]

/-- A watch for junk right behind the format of a file sees nothing. -/
theorem replay_misses (hopening : Opening limits.allowEvil form opening)
    (hformat : Kind.format.Reads limits.allowEvil u d)
    (hdecisions : decisions = opening ++ (d ++ rest))
    (hroom : 12 + u.length ≤ limits.fileCapacity) (hdepth : 2 ≤ limits.maxDepth)
    (harmed : watch.armed = none) (hkind : watch.kind = some .junk)
    (hstart : watch.start = opening.length + d.length)
    (h : riff.grammar.replay limits decisions [watch] = .ok (made, ws)) : ws = [watch] := by
  obtain ⟨hfits, houtcome⟩ := replay_fits h
  have hwalk : (conclude (riff.grammar.run { State.generating limits decisions with
      watches := [watch] })).outcome.map Prod.fst = .ok made := by
    rw [houtcome]
    rfl
  obtain ⟨t, ws', hrun, hfinish⟩ := conclude_ok (grammar_stops (by decide)) hwalk
  rw [hrun] at houtcome
  have hwatches : ws = t.watches := by
    simp only [conclude, hfinish] at houtcome
    cases houtcome
    obtain ⟨-, hends⟩ := (State.finish_iff _ _).1 hfinish
    cases hends
    rfl
  have hscope : (inScope "riff" .container containerRule).run
      { State.generating limits decisions with watches := [watch], endian := .little } =
        .ok () t := hrun
  rw [run_inScope] at hscope
  obtain ⟨depth, s1, hopen, hscope⟩ := bind_ok.1 hscope
  obtain ⟨_, s2, hcontainer, hscope⟩ := bind_ok.1 hscope
  obtain ⟨_, s3, hclose, hend⟩ := bind_ok.1 hscope
  cases hend
  obtain ⟨-, -, hs1⟩ := openScope_armed hopen
  have hopened : s1 = (State.tracking { State.generating limits decisions with endian := .little }
      ((Tracker.empty limits.maxDepth : Tracker Kind).opened "riff" .container 0 0)).watching
        [watch.arm 0 .container 1] := hs1
  rw [hopened, Watch.arm_other hkind (by decide)] at hcontainer
  have hwriting := Writing.start .little limits
    ((Tracker.empty limits.maxDepth : Tracker Kind).opened "riff" .container 0 0) hfits
  rw [hdecisions] at hwriting hcontainer
  have hlate := containerRule_late hopening hformat hwriting rfl hroom hdepth harmed hkind hstart
    hcontainer
  rw [hwatches]
  exact (hlate.closed hclose).watches

end Replays

section Deleting

variable {limits : Limits} {t form opening : Bytes} {ps rs : List Piece} {q : Piece}
  {target : Walk Kind} {c : Chunk Kind} {ρ : Type} [RandomSource ρ] {made : Mutation Kind}
  {r r' : ρ}

/-- Junk may be deleted. -/
theorem Dissected.delete_junk (h : Dissected limits form opening (ps ++ [q] ++ rs) target)
    (hq : q.Stands (12 + (ps.flatMap Piece.bytes).length)
      (opening.length + (ps.flatMap Piece.decisions).length) c) (hc : c ∈ target.chunks)
    (hkind : c.kind = .junk) (hfile : target.file.length ≤ limits.fileCapacity)
    (hcap : limits.fileCapacity ≤ 2 ^ 32) (r : ρ) :
    ∃ w r', w.file = resized (target.file.take c.file.start ++ target.file.drop c.file.stop) ∧
      (Mutator.mk riff.grammar limits).delete target c r = .ok ⟨.delete, w, .exact⟩ r' := by
  obtain ⟨stage, next, hps, hstep, hrs⟩ := h.stepped
  obtain ⟨rfl, rfl, hoptional⟩ := Stage.step_junk hstep (hq.kind.symm.trans hkind)
  have hleast := (h.fits q (by simp)).least
  have hstream := h.stream
  have horder : Stage.opened.after (ps ++ [] ++ rs) = some .filled := by
    rw [List.append_nil, Stage.after_append, hps, Option.bind_some, hrs]
  have hlong : q.bytes.length ≤ target.file.length := by
    rw [h.file, whole_length h.opens.length]
    simp only [List.flatMap_append, List.flatMap_singleton, List.length_append]
    omega
  have hnone : ∀ p ∈ ([] : List Piece), p.Fits limits.allowEvil := fun _ hp => nomatch hp
  obtain ⟨w, hmade, hw, hparts⟩ := h.edited hnone horder
    (by simp only [List.flatMap_singleton, List.flatMap_nil, List.length_nil]; omega)
    (by simp only [List.flatMap_singleton, List.flatMap_nil, List.length_nil]; omega)
    (by simp only [List.flatMap_nil, List.length_nil]; omega)
  rw [List.append_nil] at hmade
  rw [List.flatMap_append, List.flatMap_singleton, List.flatMap_nil, List.append_nil,
    List.length_append, ← Nat.add_assoc, ← hq.stop, ← hq.start] at hw
  rw [List.flatMap_append, List.flatMap_singleton, List.flatMap_nil, List.length_append,
    ← Nat.add_assoc, ← hq.decision_stop, ← hq.decision_start, List.flatten_cons, List.flatten_cons,
    List.nil_append] at hparts
  have hmet : ∀ after ∈ successor? target c, Watch.Met
      { start := c.decisions.start, kind := some after.kind,
        expectedStop := some (c.decisions.start + after.decisionLength) } w := by
    intro after hafter
    obtain ⟨p, rs', rfl, hp⟩ := h.follows hq hafter
    rw [← List.singleton_append, ← List.append_assoc] at hmade
    have hlength : after.decisionLength = p.decisions.length := hp.decision_length
    rw [hp.kind, hlength]
    exact hmade.met none hq.decision_start rfl
  obtain ⟨r', hrun⟩ := delete_spliced (m := ⟨riff.grammar, limits⟩) (grammar_stops (by decide))
    hmade.generated (hq.optional.trans hoptional)
    ((h.appendable hc (by rw [hkind]; decide)).2 (by rw [hkind]; decide)) hparts hmet r
  exact ⟨w, r', hw, hrun⟩

/-- Samples that are gated, with junk behind them, are not deleted: the junk is missed. -/
theorem Dissected.delete_gated (h : Dissected limits form opening (ps ++ [q] ++ rs) target)
    (hq : q.Stands (12 + (ps.flatMap Piece.bytes).length)
      (opening.length + (ps.flatMap Piece.decisions).length) c) (hkind : c.kind = .data)
    (hafter : successor? target c ≠ none) (hfile : target.file.length ≤ limits.fileCapacity) :
    (Mutator.mk riff.grammar limits).delete target c r ≠ .ok made r' := by
  intro hmade
  obtain ⟨hoptional, -, decisions, ws, ⟨more, hdecisions⟩, hreplay, hverdict⟩ := delete_ok hmade
  obtain ⟨after, hafter⟩ := Option.ne_none_iff_exists'.1 hafter
  obtain ⟨x, rs', rfl, hx⟩ := h.follows hq hafter
  obtain ⟨stage, next, hps, hstep, hrs⟩ := h.stepped
  have hqkind : q.kind = .data := hq.kind.symm.trans hkind
  obtain rfl := Stage.step_gated hstep (by rw [hqkind]; decide) (hq.optional.symm.trans hoptional)
  obtain rfl := Stage.filled_of_label hstep (Or.inl hqkind)
  obtain ⟨_, hstep', -⟩ := Stage.after_step hrs
  obtain ⟨hlabel, -⟩ := Stage.step_filled hstep'
  have hjunk : after.kind = .junk := hx.kind.trans (congrArg Prod.fst hlabel)
  obtain ⟨p, rfl, hformat⟩ := Stage.after_formatted hps
  obtain ⟨d, hd, hreads⟩ := (h.fits p (by simp)).reading hformat
  rw [if_neg Bool.false_ne_true, List.nil_append] at hd
  have hstart : c.decisions.start = opening.length + d.length := by
    rw [hq.decision_start, List.flatMap_singleton, hd]
  have hroom : 12 + p.bytes.length ≤ limits.fileCapacity := by
    rw [h.file, whole_length h.opens.length] at hfile
    simp only [List.flatMap_append, List.flatMap_singleton, List.length_append] at hfile
    omega
  have hopening := h.opens
  have hdepth := h.maxDepth
  rw [List.append_assoc [p]] at h
  obtain ⟨-, hfront⟩ := h.front
  rw [← hq.decision_start, List.flatMap_singleton, hd] at hfront
  rw [hfront, List.append_assoc, List.append_assoc] at hdecisions
  rw [hafter] at hreplay
  have hmissed := replay_misses hopening hreads hdecisions.symm hroom hdepth rfl
    (congrArg some hjunk) hstart hreplay
  rw [hmissed] at hverdict
  cases hverdict

theorem riff_delete_remakes (ht : riff.grammar.parse limits t = .ok target)
    (hcap : limits.fileCapacity ≤ 2 ^ 32) (hc : c ∈ target.chunks) (hkind : c.kind = .data)
    (hlast : successor? target c = none)
    (hmade : (Mutator.mk riff.grammar limits).delete target c r = .ok made r') :
    made.outcome = .exact ∧
      made.walk.file ≠ resized (t.take c.file.start ++ t.drop c.file.stop) := by
  obtain ⟨rfl, form, opening, qs, h⟩ := parse_dissected ht
  obtain ⟨hoptional, -, decisions, ws, -, hreplay, hverdict⟩ := delete_ok hmade
  rw [hlast] at hreplay
  obtain rfl : ws = [] := List.map_eq_nil_iff.1 (replay_expects hreplay)
  refine ⟨(Except.ok.inj hverdict).symm, ?_⟩
  rcases h.piece_of hc with rfl | ⟨ps, q, rs, rfl, hq⟩
  · cases hoptional
  obtain rfl := h.ends hq hlast
  obtain ⟨stage, next, hps, hstep, -⟩ := h.stepped
  have hqkind : q.kind = .data := hq.kind.symm.trans hkind
  obtain rfl := Stage.step_gated hstep (by rw [hqkind]; decide) (hq.optional.symm.trans hoptional)
  have hgenerated : riff.grammar.generate limits decisions = .ok made.walk :=
    congrArg (Except.map Prod.fst) hreplay
  obtain ⟨-, w, hparse, hfile, -⟩ := riff_faithful.parses hcap hgenerated
  obtain ⟨hinput, form', opening', qs, hw⟩ := parse_dissected hparse
  have hleft := h.resized_edit []
  rw [List.flatMap_nil, List.append_nil, List.append_nil, List.append_nil, List.flatMap_append,
    List.flatMap_singleton, List.length_append, ← Nat.add_assoc, ← hq.stop, ← hq.start] at hleft
  intro hsame
  obtain ⟨-, hbytes⟩ := whole_injective hw.opens.length h.opens.length
    (hw.file.symm.trans (hfile.trans (hsame.trans hleft)))
  obtain rfl := pieces_unique hw.fits (fun x hx => h.fits x (by simp [hx])) hw.order hps hbytes
  cases hw.order.symm.trans hps

/-- What is deleted is junk, and the file is what is left of it, with its own size. The exception
are samples behind the format alone that end the file. -/
theorem riff_delete_bytes (ht : riff.grammar.parse limits t = .ok target)
    (hcap : limits.fileCapacity ≤ 2 ^ 32) (hfile : t.length ≤ limits.fileCapacity)
    (hc : c ∈ target.chunks)
    (hlast : ¬ (c.kind = .data ∧ c.optional = true ∧ successor? target c = none))
    (hmade : (Mutator.mk riff.grammar limits).delete target c r = .ok made r') :
    c.kind = .junk ∧ made.outcome = .exact ∧
      made.walk.file = resized (t.take c.file.start ++ t.drop c.file.stop) := by
  obtain ⟨rfl, form, opening, qs, h⟩ := parse_dissected ht
  obtain ⟨hoptional, hgap, -⟩ := delete_ok hmade
  rcases h.piece_of hc with rfl | ⟨ps, q, rs, rfl, hq⟩
  · cases hoptional
  obtain ⟨stage, next, -, hstep, hrs⟩ := h.stepped
  have hqoptional : q.optional = true := hq.optional.symm.trans hoptional
  cases hkind : c.kind with
  | container => exact absurd (hq.kind.symm.trans hkind) (h.fits q (by simp)).inner
  | format =>
    have hqkind : q.kind = .format := hq.kind.symm.trans hkind
    obtain rfl := Stage.step_gated hstep (by rw [hqkind]; decide) hqoptional
    rcases Stage.step_formatted hstep with ⟨hlabel, -⟩ | ⟨hlabel, -⟩
    · cases hqkind.symm.trans (congrArg Prod.fst hlabel)
    · cases hqkind.symm.trans (congrArg Prod.fst hlabel)
  | list =>
    rcases hgap with happendable | hfollower
    · have hnever := (h.appendable hc (by rw [hkind]; decide)).1 happendable
      exact absurd hkind hnever
    · -- What follows a list are samples, and those are mandatory.
      obtain ⟨after, hafter, hafter'⟩ := (Option.any_eq_true _ _).1 hfollower
      obtain ⟨p, rs', rfl, hp⟩ := h.follows hq hafter
      obtain rfl := Stage.listed_of_label hstep (hq.kind.symm.trans hkind)
      obtain ⟨_, hstep', -⟩ := Stage.after_step hrs
      obtain ⟨hlabel, -⟩ := Stage.step_listed hstep'
      cases hafter'.symm.trans (hp.optional.trans (congrArg Prod.snd hlabel))
  | data =>
    have hmore : successor? target c ≠ none := fun hnone => hlast ⟨hkind, hoptional, hnone⟩
    exact absurd hmade (h.delete_gated hq hkind hmore hfile)
  | junk =>
    obtain ⟨w, r'', hw, hrun⟩ := h.delete_junk hq hc hkind hfile hcap r
    rw [hrun] at hmade
    cases hmade
    exact ⟨rfl, rfl, hw⟩

theorem riff_delete_bytes_gap :
    ∃ target c made r', riff.grammar.parse room (soundOf [beep, gap]) = .ok target ∧
      c ∈ target.chunks ∧ c.kind = .junk ∧
      (Mutator.mk riff.grammar room).delete target c (Cycle.mk #[1] 0) = .ok made r' ∧
      made.outcome = .exact ∧ made.walk.file = soundOf [beep] := by
  obtain ⟨target, c, made, r', ht, hc, hrun, hkind, hspan⟩ :=
    mutates_of_decide ⟨riff.grammar, room⟩ (Mutator.delete ⟨riff.grammar, room⟩)
      (soundOf [beep, gap]) 3 (Cycle.mk #[1] 0)
      (fun _ c _ => c.kind = .junk ∧ c.file = ⟨48, 58⟩) (by decide +kernel)
  obtain ⟨-, hexact, hfile⟩ := riff_delete_bytes ht (by decide) (by decide +kernel) hc
    (by rw [hkind]; rintro ⟨hdata, -⟩; cases hdata) hrun
  rw [hspan] at hfile
  exact ⟨target, c, made, r', ht, hc, hkind, hrun, hexact, hfile.trans (by decide +kernel)⟩

def silence : Bytes := dataTag ++ le32 0 ++ le16 (crc16 []).toNat

theorem riff_delete_bytes_not_silence :
    ∃ target c made r',
      riff.grammar.parse { streamCapacity := 64, fileCapacity := 128 } (soundOf [silence]) =
        .ok target ∧
      (soundOf [silence]).length ≤ 128 ∧ c ∈ target.chunks ∧ c.kind = .data ∧
      (Mutator.mk riff.grammar { streamCapacity := 64, fileCapacity := 128 }).delete target c
        (Cycle.mk #[0x7f] 0) = .ok made r' ∧
      made.outcome = .exact ∧
      made.walk.file ≠ resized ((soundOf [silence]).take c.file.start ++
        (soundOf [silence]).drop c.file.stop) := by
  obtain ⟨target, c, made, r', ht, hc, hrun, ⟨hexact, hkind⟩, hlong, hspan⟩ :=
    mutates_of_decide ⟨riff.grammar, { streamCapacity := 64, fileCapacity := 128 }⟩
      (Mutator.delete ⟨riff.grammar, { streamCapacity := 64, fileCapacity := 128 }⟩)
      (soundOf [silence]) 2 (Cycle.mk #[0x7f] 0)
      (fun _ c made => (made.outcome = .exact ∧ c.kind = .data) ∧ made.walk.file.length = 62 ∧
        c.file = ⟨36, 46⟩) (by decide +kernel)
  refine ⟨target, c, made, r', ht, by decide +kernel, hc, hkind, hrun, hexact, ?_⟩
  intro hsame
  have hlength := congrArg List.length hsame
  rw [hlong, hspan] at hlength
  exact absurd hlength (by decide +kernel)

end Deleting

end DecisionWalk.Riff
