import DecisionWalk.Proofs.PngSplices
import DecisionWalk.Proofs.PngTurns

/-!
# A chunk of a PNG made anew

Where a chunk is made anew from random decisions, the turns in front of it are
those of the file that it was taken from. When its production is closed, the
decisions behind the old chunk are put ahead again, and so the turns behind the
new one are the old ones too, as far as there is room for them.
-/

set_option autoImplicit false

namespace DecisionWalk.Png

open Walker Grammar Mutator

structure Paused (limits : Limits) (past : Bytes) (stage : Stage) (cs : List (Chunk Kind))
    (s : State Kind) : Prop where
  writing : Writing .big limits.allowEvil past s.stream.ahead s
  standing : Standing stage cs s
  fileCapacity : s.image.capacity = limits.fileCapacity
  streamCapacity : s.stream.capacity = limits.streamCapacity
  maxDepth : s.tracker.maxDepth = limits.maxDepth

section Turning

variable {limits : Limits} {past rest : Bytes} {stage next mid : Stage} {cs : List (Chunk Kind)}
  {s t : State Kind} {p : Piece} {ps : List Piece} {w : Watch Kind}

namespace Paused

theorem unwatched (h : Paused limits past stage cs s) : s.watches = [] :=
  h.writing.edge.sound.watches

theorem cursor (h : Paused limits past stage cs s) : s.image.cursor = past.length :=
  h.writing.edge.shows.cursor

theorem turn (h : Paused limits past stage cs s) (hrun : stage.turn.run s = .ok next t) :
    ∃ u cs' c, Paused limits (past ++ u) next (cs' ++ [c]) t ∧
      Added stage next s.stream.position cs cs' c s t ∧
      s.stream.consumed <+: t.stream.consumed := by
  obtain ⟨o, ho, hat, hgrows, -⟩ :=
    stage.turn_follows (k := .reparse #[]) past.length s next t h.writing.edge hrun
  obtain ⟨_, -, rfl⟩ := ho
  have hkept := run_kept hrun
  obtain ⟨hevil, hendian⟩ := stage.turn_tame s next t hrun
  obtain ⟨u, hwriting⟩ :=
    h.writing.onward hat hgrows (hkept.within h.writing.within) hevil hendian
  obtain ⟨cs', c, hadded⟩ := h.standing.turn hrun
  exact ⟨u, cs', c, ⟨hwriting, hadded.standing, hkept.fileCapacity.trans h.fileCapacity,
    hkept.streamCapacity.trans h.streamCapacity, hadded.maxDepth.trans h.maxDepth⟩, hadded,
    hkept.consumed⟩

theorem reads (h : Paused limits past stage cs s) (hreads : Reads limits.allowEvil stage p next)
    (hahead : s.stream.ahead = p.decisions ++ rest)
    (hroom : past.length + p.bytes.length ≤ limits.fileCapacity) (hdepth : 2 ≤ limits.maxDepth) :
    ∃ t cs' c, stage.turn.run s = .ok next t ∧
      Paused limits (past ++ p.bytes) next (cs' ++ [c]) t ∧
      Added stage next s.stream.position cs cs' c s t ∧
      t.stream = s.stream.recorded p.decisions := by
  have hwriting := h.writing
  rw [hahead] at hwriting
  obtain ⟨t, hrun, hwritten, hnoted⟩ := (hreads.turn past).performs
    (stage.turn_follows past.length) (fun _ ho => ho) (fun _ => trivial) hwriting
    (by rw [h.fileCapacity]; exact hroom)
    (by rw [h.standing.depth, h.maxDepth]; exact hdepth)
  obtain ⟨u, cs', c, hpaused, hadded, -⟩ := h.turn hrun
  have hsame : u = p.bytes :=
    List.append_cancel_left (hpaused.writing.output.symm.trans hwritten.output)
  exact ⟨t, cs', c, hrun, hsame ▸ hpaused, hadded, hnoted.stream⟩

theorem exchanged (h : Paused limits past stage cs s) {ahead : Bytes}
    (hfits : s.stream.position + ahead.length ≤ limits.streamCapacity) :
    Paused limits past stage cs { s with stream := { s.stream with ahead := ahead } } := by
  have hw := h.writing
  refine ⟨⟨⟨?_, hw.edge.shows, hw.edge.behind⟩, hw.endian, hw.evil, hw.output, rfl, ?_⟩,
    h.standing.exchanged ahead, h.fileCapacity, h.streamCapacity, h.maxDepth⟩
  · exact ⟨hw.edge.sound.mode, hw.edge.sound.watches, hw.edge.sound.sizes, hw.edge.sound.size_le,
      hw.edge.sound.size_limit, hw.edge.sound.input⟩
  · rw [h.streamCapacity]
    exact hfits

end Paused

theorem Turns.first (h : Turns stage s t) (hstep : stage.step p.kind = some next) :
    ∃ next s', stage.turn.run s = .ok next s' ∧ Turns next s' t := by
  cases h with
  | here => cases hstep
  | next hturn hrest => exact ⟨_, _, hturn, hrest⟩

/-- The pieces that are ahead are written one after the other, in turns that the watch is not
placed at. -/
theorem Paused.passes (h : Paused limits past stage cs s)
    (hfits : ∀ p ∈ ps, p.Fits limits.allowEvil)
    (hsteps : (ps.map Piece.kind).foldlM Stage.step stage = some mid)
    (hahead : s.stream.ahead = ps.flatMap Piece.decisions ++ rest)
    (hroom : past.length + (ps.flatMap Piece.bytes).length ≤ limits.fileCapacity)
    (hdepth : 2 ≤ limits.maxDepth) (harmed : w.armed = none)
    (hidle : ∀ i kind, i < s.stream.position + (ps.flatMap Piece.decisions).length →
      w.arm i kind 2 = w)
    (hturns : Turns stage (s.watching [w]) t) :
    ∃ u cs', Paused limits (past ++ ps.flatMap Piece.bytes) mid cs' u ∧
      u.stream = s.stream.recorded (ps.flatMap Piece.decisions) ∧ Turns mid (u.watching [w]) t ∧
      cs.map outline <+: cs'.map outline := by
  induction ps generalizing past stage cs s with
  | nil =>
    cases hsteps
    exact ⟨s, cs, by rwa [List.flatMap_nil, List.append_nil], (Stream.recorded_nil _).symm, hturns,
      List.prefix_refl _⟩
  | cons p ps ih =>
    rw [List.map_cons, List.foldlM_cons] at hsteps
    obtain ⟨next, hstep, hrest⟩ := Option.bind_eq_some_iff.1 hsteps
    have hreads := (hfits p List.mem_cons_self).reads hstep
    rw [List.flatMap_cons, List.append_assoc] at hahead
    rw [List.flatMap_cons, List.length_append] at hroom hidle
    obtain ⟨u, cs', c, hrun, hpaused, hadded, hstream⟩ :=
      h.reads hreads hahead (by omega) hdepth
    obtain ⟨next', s', hwatched, hturns'⟩ := hturns.first hstep
    obtain ⟨u', kind, hrun', -, rfl⟩ := h.standing.unwatched h.unwatched hwatched
    rw [hrun] at hrun'
    cases hrun'
    have hspent := hadded.spent
    have hposition : u.stream.position = s.stream.position + p.decisions.length := by
      rw [hstream, Stream.recorded_position]
    rw [List.map_singleton, hidle _ _ (by omega), State.closing_idle (by rw [harmed]; simp)]
      at hturns'
    have hahead' : u.stream.ahead = ps.flatMap Piece.decisions ++ rest := by
      rw [hstream, Stream.recorded_ahead, hahead, List.drop_left]
    obtain ⟨v, cs'', hpaused', hstream', hturns'', houtlines⟩ :=
      ih hpaused (fun q hq => hfits q (List.mem_cons_of_mem p hq)) hrest hahead'
        (by rw [List.length_append]; omega) (fun i kind hi => hidle i kind (by omega)) hturns'
    refine ⟨v, cs'', ?_, ?_, hturns'', ?_⟩
    · rwa [List.flatMap_cons, ← List.append_assoc]
    · rw [hstream', hstream, Stream.recorded_recorded, List.flatMap_cons]
    · rw [List.map_append, hadded.same] at houtlines
      exact (List.prefix_append _ _).trans houtlines

theorem arm_seen {n : Nat} (hseen : w.observedStop = some n) (i : Nat) (kind : Kind)
    (depth : Nat) : w.arm i kind depth = w := by
  rw [Watch.arm, if_neg]
  simp [Watch.awaits, hseen]

theorem Added.after {v : Bytes} {cs' : List (Chunk Kind)} {c : Chunk Kind} {start : Nat}
    (h : Added stage next start cs cs' c s t) (hs : Paused limits past stage cs s)
    (ht : Paused limits (past ++ v) next (cs' ++ [c]) t) : c.file = Span.after past v := by
  rw [h.file, hs.cursor, ht.cursor, List.length_append, Span.after]

theorem Paused.caught {tail : Bytes} (h : Paused limits past stage cs s) (hstage : stage ≠ .ended)
    (hawaits : ∀ kind next, stage.step kind = some next → w.awaits s.stream.position kind 2 = true)
    (htail : w.restore = some tail) (hturns : Turns stage (s.watching [w]) t) :
    ∃ next v x cs' c w', Paused limits (past ++ x) next (cs' ++ [c]) v ∧
      Added stage next s.stream.position cs cs' c s v ∧ s.stream.consumed <+: v.stream.consumed ∧
      v.stream.ahead = tail.take (limits.streamCapacity - c.decisions.stop) ∧
      (w'.armed = none ∧ w'.observedStop = some c.decisions.stop) ∧
      Turns next (v.watching [w']) t := by
  cases hturns with
  | here => exact absurd rfl hstage
  | @next _ next _ s' _ hwatched hrest =>
    obtain ⟨u, kind, hrun, hstep, rfl⟩ := h.standing.unwatched h.unwatched hwatched
    obtain ⟨x, cs', c, hpaused, hadded, hconsumed⟩ := h.turn hrun
    have harmed : (w.arm s.stream.position kind 2) = { w with armed := some 2 } :=
      if_pos (hawaits kind next hstep)
    have hinside : { w with armed := some 2 }.armed = some 2 := rfl
    have hstop : c.decisions.stop = u.stream.position := by rw [hadded.decisions]
    have hfull := hpaused.writing.within
    have hle : u.stream.position ≤ limits.streamCapacity := by
      rw [← hpaused.streamCapacity]
      exact Nat.le_trans (Nat.le_add_right _ _) hfull
    have hfits : u.stream.position + (tail.take (limits.streamCapacity - c.decisions.stop)).length ≤
        limits.streamCapacity := by
      rw [List.length_take, hstop]
      omega
    rw [List.map_singleton, harmed, State.closing_restores hinside htail, hpaused.streamCapacity,
      ← hstop] at hrest
    exact ⟨next, _, x, cs', c, _, hpaused.exchanged hfits,
      ⟨hadded.standing.exchanged _, hadded.same, hadded.step, hadded.file, hadded.decisions,
        hadded.spent, hadded.maxDepth⟩, hconsumed, rfl, ⟨rfl, rfl⟩, hrest⟩

theorem Paused.onward {n : Nat} (h : Paused limits past stage cs s) (harmed : w.armed = none)
    (hseen : w.observedStop = some n) (hturns : Turns stage (s.watching [w]) t) :
    ∃ v u cs', t = u.watching [w] ∧ Paused limits (past ++ v) .ended cs' u ∧
      s.stream.consumed <+: u.stream.consumed ∧ cs.map outline <+: cs'.map outline := by
  generalize hs : s.watching [w] = x at hturns
  induction hturns generalizing past cs s with
  | here =>
    exact ⟨[], s, cs, hs.symm, by rwa [List.append_nil], List.prefix_refl _, List.prefix_refl _⟩
  | next hwatched _ ih =>
    subst hs
    obtain ⟨u, kind, hrun, -, rfl⟩ := h.standing.unwatched h.unwatched hwatched
    obtain ⟨x, cs', c, hpaused, hadded, hconsumed⟩ := h.turn hrun
    have hidle : u.watching [w] = u.closing 2 ([w].map (·.arm s.stream.position kind 2)) := by
      rw [List.map_singleton, arm_seen hseen, State.closing_idle (by rw [harmed]; simp)]
    obtain ⟨v, t, cs'', rfl, hpaused', hconsumed', houtlines⟩ := ih hpaused hidle
    refine ⟨x ++ v, t, cs'', rfl, by rwa [← List.append_assoc], hconsumed.trans hconsumed', ?_⟩
    rw [List.map_append, hadded.same] at houtlines
    exact (List.prefix_append _ _).trans houtlines

end Turning

section Making

variable {limits : Limits} {decisions : Bytes} {made : Walk Kind} {w : Watch Kind}
  {ws : List (Watch Kind)}

theorem Paused.start (limits : Limits) (hfits : decisions.length ≤ limits.streamCapacity) :
    Paused limits [] .start []
      (State.tracking { State.generating limits decisions with endian := .big }
        ((Tracker.empty limits.maxDepth : Tracker Kind).opened "png" .file 0 0)) :=
  ⟨.start .big limits _ hfits, ⟨rfl, (Row.start rfl rfl rfl rfl).1⟩, rfl, rfl, rfl⟩

theorem replay_turns (h : png.grammar.replay limits decisions [w] = .ok (made, ws))
    (hdepth : w.depth = some 1) :
    ∃ s v, Paused limits [] .start [] s ∧ s.stream.consumed = [] ∧ s.stream.ahead = decisions ∧
      Turns .start (s.watching [w]) v ∧
      ∀ {file cs u w'}, v = u.watching [w'] → Paused limits file .ended cs u →
        made.file = file ∧ made.decisions = u.stream.consumed ∧
          made.chunks = root made.file.length made.decisions.length :: cs := by
  obtain ⟨hfits, hrun⟩ := replay_fits h
  have hwalk : (conclude (png.grammar.run { State.generating limits decisions with
      watches := [w] })).outcome.map Prod.fst = .ok made := by
    rw [hrun]
    rfl
  obtain ⟨t, ws', hrun, hfinish⟩ := conclude_ok (grammar_stops (by decide)) hwalk
  have hscope : (inScope "png" .file fileRule).run
    { State.generating limits decisions with watches := [w], endian := .big } = .ok () t := hrun
  obtain ⟨hclosed, -⟩ := file_layout hscope rfl rfl rfl rfl
  obtain ⟨hcovered, -⟩ := (State.finish_iff _ _).1 hfinish
  rw [State.finish_walked t hclosed, if_pos hcovered] at hfinish
  cases hfinish
  rw [run_inScope] at hscope
  obtain ⟨depth, s1, hopen, hrun1⟩ := bind_ok.1 hscope
  obtain ⟨_, s2, hfile, hrun2⟩ := bind_ok.1 hrun1
  obtain ⟨_, s3, hclose, hend⟩ := bind_ok.1 hrun2
  cases hend
  -- The watch waits for a production inside the file, so opening the file leaves it alone.
  have hidle : w.arm 0 .file 1 = w := by
    rw [Watch.arm, if_neg]
    simp [Watch.awaits, hdepth]
  obtain ⟨-, -, hs1⟩ := openScope_armed hopen
  have hopened : s1 = (State.tracking { State.generating limits decisions with endian := .big }
      ((Tracker.empty limits.maxDepth : Tracker Kind).opened "png" .file 0 0)).watching
        [w.arm 0 .file 1] := hs1
  rw [hopened, hidle] at hfile
  obtain ⟨closing, stream, hpast, rfl⟩ := closeScope_closed hclose
  refine ⟨_, s2, Paused.start limits hfits, rfl, rfl, fileRule_turns hfile, ?_⟩
  rintro file cs u w' rfl hpaused
  obtain ⟨_, _, used, -, hrow, -⟩ := hpaused.standing
  have hlength := output_length hpaused.writing.edge.sound
  have hconsumed : stream.consumed = u.stream.consumed := congrArg Array.toList hpast
  refine ⟨hpaused.writing.output, hconsumed, ?_⟩
  show _ = root u.image.output.length stream.consumed.length :: cs
  rw [hlength, hconsumed, Stream.length_consumed]
  exact hrow.rooted.2.1

end Making

theorem Stage.step_onward {stage next : Stage} {kind : Kind} (h : stage.step kind = some next)
    (hkind : kind ≠ .finish) : next = if stage = .start then .signed else .headed := by
  cases stage <;> cases kind <;> cases h
  all_goals first | rfl | exact absurd rfl hkind

theorem Stage.step_mandatory {stage next next' : Stage} {kind kind' : Kind}
    (h : stage.step kind = some next) (hmandatory : kind.flags.1 = false)
    (h' : stage.step kind' = some next') : kind' = kind := by
  cases stage <;> cases kind <;> cases h <;> cases hmandatory
  all_goals cases kind' <;> first | rfl | cases h'

theorem mem_of_outlines {cs cs' : List (Chunk Kind)} {c : Chunk Kind}
    (h : (cs ++ [c]).map outline <+: cs'.map outline) :
    ∃ r ∈ cs', r.kind = c.kind ∧ r.file = c.file ∧ r.decisions = c.decisions := by
  have hlisted : outline c ∈ cs'.map outline := by
    apply h.subset
    rw [List.map_append]
    exact List.mem_append_right _ (List.mem_singleton.2 rfl)
  obtain ⟨r, hr, houtline⟩ := List.mem_map.1 hlisted
  simp only [outline, Prod.mk.injEq] at houtline
  exact ⟨r, hr, houtline.1, houtline.2.2⟩

def remaking (c : Chunk Kind) (tail : Bytes) : Watch Kind :=
  { start := c.decisions.start, kind := if c.optional then none else some c.kind,
    depth := some c.depth, restore := some tail }

section Remaking

variable {limits : Limits} {t past rest tail more : Bytes} {target : Walk Kind} {c : Chunk Kind}
  {before behind cs : List (Chunk Kind)} {s v : State Kind} {w : Watch Kind}
  {stage next next' : Stage} {kind : Kind} {n : Nat}

theorem Dissected.awaited (h : Dissected limits t target) (hc : c ∈ target.chunks.tail)
    (hstep : stage.step c.kind = some next) (hnext : stage.step kind = some next') :
    (remaking c tail).awaits c.decisions.start kind 2 = true := by
  have hdepth := h.depth hc
  have hflags := congrArg Prod.fst (h.flags (List.mem_of_mem_tail hc))
  cases hoptional : c.optional with
  | true => simp [remaking, Watch.awaits, hdepth, hoptional]
  | false =>
    have hkind := Stage.step_mandatory hstep (hflags.symm.trans hoptional) hnext
    simp [remaking, Watch.awaits, hdepth, hoptional, hkind]

theorem Dissected.around_fit (h : Dissected limits t target)
    (htail : target.chunks.tail = before ++ c :: behind) :
    (∀ p ∈ before.map (piece target), p.Fits limits.allowEvil) ∧
      ∀ p ∈ behind.map (piece target), p.Fits limits.allowEvil := by
  have hfits := h.pieces_fit
  rw [pieces_split htail] at hfits
  exact ⟨fun p hp => hfits p (List.mem_append_left _ hp),
    fun p hp => hfits p (List.mem_append_right _ (List.mem_cons_of_mem _ hp))⟩

/-- Up to the chunk that the watch is placed at, the turns write the file as it was. -/
theorem Dissected.leads (h : Dissected limits t target)
    (htail : target.chunks.tail = before ++ c :: behind) (hfile : t.length ≤ limits.fileCapacity)
    (hs : Paused limits [] .start [] s) (hfresh : s.stream.consumed = [])
    (hahead : s.stream.ahead = target.decisions.take c.decisions.start ++ rest)
    (harmed : w.armed = none) (hstart : w.start = c.decisions.start)
    (hturns : Turns .start (s.watching [w]) v) :
    ∃ stage next u cs, Paused limits (t.take c.file.start) stage cs u ∧
      u.stream.consumed = target.decisions.take c.decisions.start ∧
      stage.step c.kind = some next ∧
      ((behind.map (piece target)).map Piece.kind).foldlM Stage.step next = some .ended ∧
      Turns stage (u.watching [w]) v := by
  obtain ⟨⟨hfront, -⟩, hearlier, -⟩ := h.around htail
  have horder := h.inOrder
  rw [pieces_split htail, List.map_append, List.map_cons] at horder
  obtain ⟨stage, next, hbefore, hstep, hbehind⟩ := horder.split
  have hposition : s.stream.position = 0 := by
    rw [← Stream.length_consumed, hfresh]
    rfl
  have hroom : (target.file.take c.file.start).length ≤ limits.fileCapacity := by
    rw [List.length_take, h.file]
    exact Nat.le_trans (Nat.min_le_right _ _) hfile
  rw [hearlier] at hahead
  rw [hfront] at hroom
  obtain ⟨u, cs, hpaused, hstream, hturns', -⟩ := hs.passes (h.around_fit htail).1 hbefore hahead
    (by rw [List.length_nil, Nat.zero_add]; exact hroom) h.maxDepth harmed (fun i kind hi => by
      rw [hposition, Nat.zero_add, ← (h.decided htail).1, ← hstart] at hi
      rw [Watch.arm, if_neg]
      simp [Watch.awaits]
      omega) hturns
  refine ⟨stage, next, u, cs, ?_, ?_, hstep, hbehind, hturns'⟩
  · rw [← h.file, hfront]
    exact hpaused
  · rw [hstream, Stream.consumed, Stream.recorded_past, Array.toList_appendList, hearlier]
    show s.stream.consumed ++ _ = _
    rw [hfresh, List.nil_append]

/-- A new chunk is made behind the front of the file. Unless the old one or the new one ends the
file, the pieces behind the old one may follow. -/
theorem Dissected.makes (h : Dissected limits t target)
    (htail : target.chunks.tail = before ++ c :: behind) (hfile : t.length ≤ limits.fileCapacity)
    (hs : Paused limits [] .start [] s) (hfresh : s.stream.consumed = [])
    (hahead : s.stream.ahead = target.decisions.take c.decisions.start ++ rest)
    (hturns : Turns .start (s.watching [remaking c tail]) v) :
    ∃ next x cs new u w, Paused limits (t.take c.file.start ++ x) next (cs ++ [new]) u ∧
      target.decisions.take c.decisions.start <+: u.stream.consumed ∧
      new.file = Span.after (t.take c.file.start) x ∧
      new.decisions.start = c.decisions.start ∧
      (c.kind ≠ .finish → new.kind ≠ .finish →
        ((behind.map (piece target)).map Piece.kind).foldlM Stage.step next = some .ended) ∧
      u.stream.ahead = tail.take (limits.streamCapacity - new.decisions.stop) ∧
      (w.armed = none ∧ w.observedStop = some new.decisions.stop) ∧
      Turns next (u.watching [w]) v := by
  obtain ⟨stage, next, u, cs, hpaused, hconsumed, hstep, hbehind, hturns'⟩ :=
    h.leads htail hfile hs hfresh hahead rfl rfl hturns
  have hstart : u.stream.position = c.decisions.start := by
    rw [← Stream.length_consumed, hconsumed, (h.around htail).2.1, ← (h.decided htail).1]
  have hstage : stage ≠ .ended := by
    rintro rfl
    cases hstep
  have hinside : c ∈ target.chunks.tail := htail ▸ List.mem_append_right _ List.mem_cons_self
  obtain ⟨next', x, u', cs', new, w, hpaused', hadded, hconsumed', hahead', hseen, hturns''⟩ :=
    hpaused.caught hstage (fun kind next hnext => hstart ▸ h.awaited hinside hstep hnext) rfl
      hturns'
  refine ⟨next', u', cs', new, x, w, hpaused', hconsumed ▸ hconsumed',
    hadded.after hpaused hpaused', ?_, ?_, hahead', hseen, hturns''⟩
  · rw [hadded.decisions]
    exact hstart
  · intro hfinish hfinish'
    rw [Stage.step_onward hadded.step hfinish', ← Stage.step_onward hstep hfinish]
    exact hbehind

theorem Dissected.trails (h : Dissected limits t target)
    (htail : target.chunks.tail = before ++ c :: behind)
    (hbehind : ((behind.map (piece target)).map Piece.kind).foldlM Stage.step stage = some .ended)
    (hs : Paused limits past stage cs s)
    (hahead : s.stream.ahead =
      (target.decisions.drop c.decisions.stop ++ more).take (limits.streamCapacity - n))
    (hroom : past.length + t.length - c.file.stop ≤ limits.fileCapacity)
    (hroom' : n + target.decisions.length - c.decisions.stop ≤ limits.streamCapacity)
    (harmed : w.armed = none) (hseen : w.observedStop = some n)
    (hturns : Turns stage (s.watching [w]) v) :
    v.image.output = past ++ t.drop c.file.stop := by
  have hmem := mem_of_tail htail
  obtain ⟨⟨-, hback⟩, -, hlater⟩ := h.around htail
  rw [h.file] at hback
  have hlength : (target.decisions.drop c.decisions.stop).length ≤ limits.streamCapacity - n := by
    have hin := (h.within hmem).2.2
    rw [List.length_drop]
    omega
  have hspace : past.length + (t.drop c.file.stop).length ≤ limits.fileCapacity := by
    have hin := (h.within hmem).1.2
    rw [h.file] at hin
    rw [List.length_drop]
    omega
  rw [List.take_append, List.take_of_length_le hlength, hlater] at hahead
  rw [hback] at hspace ⊢
  obtain ⟨u, cs', hwhole, -, hturns', -⟩ := hs.passes (h.around_fit htail).2 hbehind hahead hspace
    h.maxDepth harmed (fun i kind _ => arm_seen hseen i kind 2) hturns
  rw [hturns'.ended]
  exact hwhole.writing.output

/-- Everything in front of the new chunk is as it was, and everything behind it too when there is
room for it and the new chunk does not end the file. -/
theorem Dissected.remade (h : Dissected limits t target)
    (htail : target.chunks.tail = before ++ c :: behind) (hfile : t.length ≤ limits.fileCapacity)
    (hs : Paused limits [] .start [] s) (hfresh : s.stream.consumed = [])
    (hahead : s.stream.ahead = target.decisions.take c.decisions.start ++ rest)
    (hturns : Turns .start
      (s.watching [remaking c (target.decisions.drop c.decisions.stop ++ more)]) v) :
    ∃ file cs u w r, v = u.watching [w] ∧ Paused limits file .ended cs u ∧
      target.decisions.take c.decisions.start <+: u.stream.consumed ∧
      t.take c.file.start <+: file ∧ r ∈ cs ∧ r.decisions.start = c.decisions.start ∧
      (c.kind ≠ .finish → r.kind ≠ .finish →
        r.file.stop + t.length - c.file.stop ≤ limits.fileCapacity →
        r.decisions.stop + target.decisions.length - c.decisions.stop ≤ limits.streamCapacity →
          file = t.take c.file.start ++ r.file.of file ++ t.drop c.file.stop) := by
  obtain ⟨next, x, cs, new, u, w, hpaused, hconsumed, hspan, hstart, hbehind, hahead',
    ⟨harmed, hseen⟩, hturns'⟩ := h.makes htail hfile hs hfresh hahead hturns
  obtain ⟨y, u', cs', rfl, hended, hconsumed', houtlines⟩ := hpaused.onward harmed hseen hturns'
  obtain ⟨r, hr, hkind, hfile', hdecisions⟩ := mem_of_outlines houtlines
  refine ⟨_, cs', u', w, r, rfl, hended, hconsumed.trans hconsumed', ?_, hr, ?_, ?_⟩
  · rw [List.append_assoc]
    exact List.prefix_append _ _
  · rw [hdecisions]
    exact hstart
  · rw [hkind, hfile', hdecisions, hspan]
    intro hfinish hfinish' hroom hroom'
    have hwritten := h.trails htail (hbehind hfinish hfinish') hpaused hahead'
      (by rw [List.length_append]; exact hroom) hroom' harmed hseen hturns'
    rw [hended.writing.output.symm.trans hwritten, Span.of_append (Span.after_fits _ _),
      Span.after_of]

end Remaking

section Abstracting

variable {limits : Limits} {t : Bytes} {target : Walk Kind} {c : Chunk Kind}

theorem start_injective {a b : Nat} {cs : List (Chunk Kind)} {x y : Chunk Kind}
    (h : Tiles a (cs.map Chunk.decisions) b) (hx : x ∈ cs) (hy : y ∈ cs)
    (hstart : x.decisions.start = y.decisions.start) : x = y := by
  induction cs generalizing a with
  | nil => cases hx
  | cons c cs ih =>
    obtain ⟨hfirst, hlt, hrest⟩ := h
    have hlater : ∀ z ∈ cs, c.decisions.stop ≤ z.decisions.start := fun z hz =>
      hrest.le_start (List.mem_map_of_mem hz)
    rcases List.mem_cons.1 hx with rfl | hx'
    · rcases List.mem_cons.1 hy with rfl | hy'
      · rfl
      · have hbehind := hlater y hy'
        omega
    · rcases List.mem_cons.1 hy with rfl | hy'
      · have hbehind := hlater x hx'
        omega
      · exact ih hrest hx' hy'

theorem Row.start_iff {cs chunks : List (Chunk Kind)} {used : NameCounts} {look : Option Nat}
    {u : State Kind} {new : Chunk Kind} {a b : Nat} (h : Row cs used look u) (hnew : new ∈ cs)
    (hchunks : chunks = root a b :: cs) {x : Chunk Kind} (hx : x ∈ chunks) :
    x.depth = 1 ∧ x.decisions.start = new.decisions.start ↔ x = new := by
  constructor
  · rintro ⟨hdepth, hstart⟩
    rw [hchunks] at hx
    rcases List.mem_cons.1 hx with rfl | hx
    · cases hdepth
    · exact start_injective h.decisions hx hnew hstart
  · rintro rfl
    exact ⟨(h.inside x hnew).1, rfl⟩

theorem take_of_prefix {n : Nat} {bs cs : Bytes} (h : bs.take n <+: cs) (hn : n ≤ bs.length) :
    cs.take n = bs.take n := by
  have htake := (List.prefix_iff_eq_take.1 h).symm
  rwa [List.length_take, Nat.min_eq_left hn] at htake

theorem abstract_exact {decisions tail : Bytes} {made : Mutation Kind}
    {walk : Walk Kind} {ws : List (Watch Kind)}
    (hreplay : png.grammar.replay limits decisions [remaking c tail] = .ok (walk, ws))
    (hverdict : verdict ws .exact = .ok made.outcome) : made.outcome = .exact := by
  refine verdict_unexpecting ?_ hverdict
  intro v hv
  have hnone := List.mem_map_of_mem (f := Watch.expectedStop) hv
  rw [replay_expects hreplay] at hnone
  exact List.mem_singleton.1 hnone

/-- Making a chunk anew changes nothing in front of it, in the file and in its decisions. Behind it
nothing changes either, when the new chunk does not end the file and leaves room for the rest. -/
theorem png_abstract_bytes (ht : png.grammar.parse limits t = .ok target)
    (hfile : t.length ≤ limits.fileCapacity) (hc : c ∈ target.chunks) {ρ : Type} [RandomSource ρ]
    {made : Mutation Kind} {r r' : ρ}
    (hmade : (Mutator.mk png.grammar limits).abstractChunk target c r = .ok made r') :
    made.outcome = .exact ∧
    made.walk.decisions.take c.decisions.start = target.decisions.take c.decisions.start ∧
    made.walk.file.take c.file.start = t.take c.file.start ∧
    (c.kind ≠ .file → ∃ new ∈ made.walk.chunks,
      (∀ x ∈ made.walk.chunks,
        x.depth = c.depth ∧ x.decisions.start = c.decisions.start ↔ x = new) ∧
      (c.kind ≠ .finish → new.kind ≠ .finish →
        new.file.stop + t.length - c.file.stop ≤ limits.fileCapacity →
        new.decisions.stop + target.decisions.length - c.decisions.stop ≤ limits.streamCapacity →
        made.walk.file =
          t.take c.file.start ++ new.file.of made.walk.file ++ t.drop c.file.stop)) := by
  have h := parse_dissected ht
  obtain ⟨decisions, rest, ws, ⟨more, hdecisions⟩, hreplay, hverdict⟩ := abstract_ok hmade
  refine ⟨abstract_exact hreplay hverdict, ?_⟩
  by_cases hroot : c.kind = .file
  · obtain rfl := h.eq_root hc hroot
    exact ⟨rfl, rfl, fun hkind => absurd rfl hkind⟩
  · have hinside := h.mem_tail hc hroot
    obtain ⟨before, behind, htail⟩ := List.append_of_mem hinside
    have hdepth := h.depth hinside
    obtain ⟨s, v, hs, hfresh, hahead, hturns, hends⟩ :=
      replay_turns hreplay (congrArg some hdepth)
    obtain ⟨file, cs, u, w', new, hv, hended, hfront, hfront', hnew, hstart, hback⟩ :=
      h.remade htail hfile hs hfresh (hahead.trans hdecisions.symm) hturns
    obtain ⟨hwritten, hdecided, hchunks⟩ := hends hv hended
    obtain ⟨⟨hle, hin⟩, hle', hin'⟩ := h.within hc
    rw [h.file] at hin
    obtain ⟨used, hrow⟩ := hended.standing.row
    refine ⟨?_, ?_, fun _ => ⟨new, ?_, ?_, ?_⟩⟩
    · rw [hdecided]
      exact take_of_prefix hfront (Nat.le_trans hle' hin')
    · rw [hwritten]
      exact take_of_prefix hfront' (Nat.le_trans hle hin)
    · rw [hchunks]
      exact List.mem_cons_of_mem _ hnew
    · rw [hdepth, ← hstart]
      exact fun x hx => hrow.start_iff hnew hchunks hx
    · rw [hwritten]
      exact hback

/-- The time is made anew as physical dimensions, and the text behind it stays. -/
theorem png_abstract_bytes_stamped :
    ∃ target c made r' new,
      png.grammar.parse room (imageOf [stamp, label]) = .ok target ∧
      c ∈ target.chunks ∧ c.kind = .time ∧
      (Mutator.mk png.grammar room).abstractChunk target c (Cycle.mk #[2] 0) = .ok made r' ∧
      made.outcome = .exact ∧ new ∈ made.walk.chunks ∧ new.kind = .physicalDims ∧
      made.walk.file = (imageOf [stamp, label]).take 33 ++ new.file.of made.walk.file ++
        (imageOf [stamp, label]).drop 52 := by
  obtain ⟨target, c, made, r', ht, hc, hrun, ⟨hkind, hfile, hdecisions, hdepth⟩, hlength, hnew⟩ :=
    mutates_of_decide ⟨png.grammar, room⟩ (abstractChunk ⟨png.grammar, room⟩)
      (imageOf [stamp, label]) 3 (Cycle.mk #[2] 0)
      (fun target c made => (c.kind = .time ∧ c.file = ⟨33, 52⟩ ∧ c.decisions = ⟨16, 34⟩ ∧
        c.depth = 1) ∧ target.decisions.length = 50 ∧ ∃ x ∈ made.walk.chunks,
          (x.depth = 1 ∧ x.decisions = ⟨16, 29⟩) ∧ x.kind = .physicalDims ∧ x.file = ⟨33, 54⟩)
      (by decide +kernel)
  obtain ⟨x, hx, ⟨hdepth', hdecisions'⟩, hkind', hfile'⟩ := hnew
  obtain ⟨hexact, -, -, hmade⟩ := png_abstract_bytes ht (by decide +kernel) hc hrun
  obtain ⟨new, hmem, hunique, hback⟩ := hmade (by rw [hkind]; decide)
  obtain rfl : x = new := (hunique x hx).1 ⟨by rw [hdepth, hdepth'], by
    rw [hdecisions, hdecisions']⟩
  have hbytes := hback (by rw [hkind]; decide) (by rw [hkind']; decide)
    (by rw [hfile, hfile']; decide +kernel) (by rw [hdecisions, hdecisions', hlength]; decide)
  rw [hfile] at hbytes
  exact ⟨target, c, made, r', x, ht, hc, hkind, hrun, hexact, hmem, hkind', hbytes⟩

end Abstracting

end DecisionWalk.Png
