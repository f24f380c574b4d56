import DecisionWalk.Proofs.Performing
import DecisionWalk.Proofs.Plain
import DecisionWalk.Proofs.PngPieces
import DecisionWalk.Proofs.Splices

/-!
# A PNG chunk by chunk

A walk of a PNG takes one turn after the other: the signature, the header, and
the chunks up to the end. Every turn adds a chunk behind the ones before it, with
the bytes that it writes and the decisions that it takes, and a turn that finds
the decisions of a piece ahead of it writes the bytes of that piece.
-/

set_option autoImplicit false

namespace DecisionWalk.Png

open Walker Grammar

section Plain

theorem skipUInt_plain (width : Nat) : (skipUInt width).Plain :=
  .discard (.request trivial)

theorem oneOf_plain (width : Nat) (known : List Nat) : (oneOf width known).Plain :=
  .discard (.request trivial)

theorem literal_plain (width : Nat) (bytes : Bytes) :
    (discard (underEvil false (request (.bytesKnown width [bytes]))) : Rule).Plain :=
  .discard (.underEvil (.request trivial))

theorem framed_plain (type : Bytes) {body : Rule} (hbody : body.Plain) :
    (framed type body).Plain :=
  .bind (.request trivial) fun _ => .bind (literal_plain 4 type) fun _ => .bind hbody fun _ =>
    .bind (.request trivial) fun _ => .bind (.request trivial) fun _ => oneOf_plain _ _

theorem sized_plain (length : Nat) (type : Bytes) {body : Rule} (hbody : body.Plain) :
    (sized length type body).Plain :=
  .bind (oneOf_plain _ _) fun _ => framed_plain type hbody

theorem dataRule_plain : dataRule.Plain := by
  refine .bind (.request trivial) fun length => .bind (.request trivial) fun room => ?_
  split
  · exact trivial
  · exact framed_plain idat (.discard (.request trivial))

theorem textRule_plain : textRule.Plain := by
  refine .bind (.request trivial) fun length => framed_plain text ?_
  exact .bind (.request trivial) fun _ => .bind (.request trivial) fun _ =>
    .bind (.request trivial) fun _ => .bind (.discard (.request trivial)) fun _ =>
      .request trivial

/-- No chunk has others in it. -/
theorem Kind.rule_plain {kind : Kind} (hkind : kind ≠ .file) : kind.rule.Plain := by
  cases kind with
  | file => exact absurd rfl hkind
  | signature => exact literal_plain 8 signatureBytes
  | header =>
    exact sized_plain _ _ <| .bind (skipUInt_plain 4) fun _ => .bind (skipUInt_plain 4) fun _ =>
      .bind (oneOf_plain 1 _) fun _ => .bind (oneOf_plain 1 _) fun _ => .bind (oneOf_plain 1 _)
        fun _ => .bind (oneOf_plain 1 _) fun _ => oneOf_plain 1 _
  | data => exact dataRule_plain
  | text => exact textRule_plain
  | physicalDims =>
    exact sized_plain _ _ <| .bind (skipUInt_plain 4) fun _ => .bind (skipUInt_plain 4) fun _ =>
      oneOf_plain 1 _
  | time =>
    exact sized_plain _ _ <| .bind (skipUInt_plain 2) fun _ => .bind (oneOf_plain 1 _) fun _ =>
      .bind (oneOf_plain 1 _) fun _ => .bind (oneOf_plain 1 _) fun _ => .bind (oneOf_plain 1 _)
        fun _ => oneOf_plain 1 _
  | finish => exact sized_plain _ _ trivial

end Plain

def Stage.turn : Stage → Grammar Kind Stage
  | .start => Kind.signature.production >>= fun _ => pure .signed
  | .signed => Kind.header.production >>= fun _ => pure .headed
  | .headed => following >>= fun r => pure (r.elim (fun _ => .headed) fun _ => .ended)
  | .ended => .stop 1 "nothing follows the end"

inductive Turns : Stage → State Kind → State Kind → Prop where
  | here (s : State Kind) : Turns .ended s s
  | next {stage next : Stage} {s t u : State Kind} (h : stage.turn.run s = .ok next t)
      (rest : Turns next t u) : Turns stage s u

section Turning

variable {k : Link} {b : Bool} {stage next : Stage} {s t u : State Kind} {p : Piece}

theorem Turns.ended (h : Turns .ended s t) : t = s := by
  cases h with
  | here => rfl
  | next h => exact absurd h (throw_not_ok _ _ _ _)

theorem rounds_turns {a a' : Unit} (hr : Rounds (fun _ => following.run) a s a' t)
    (hlast : following.run t = .ok (.inr ()) u) : Turns .headed s u := by
  induction hr with
  | here a s =>
    have hturn : Stage.headed.turn.run s = .ok .ended u := by
      rw [Stage.turn, run_bind]
      exact bind_run hlast
    exact .next hturn (.here u)
  | @next _ c _ s t _ hstep _ ih =>
    have hturn : Stage.headed.turn.run s = .ok .headed t := by
      rw [Stage.turn, run_bind]
      exact bind_run hstep
    exact .next hturn (ih hlast)

theorem fileRule_turns {a : Unit} (h : fileRule.run s = .ok a t) : Turns .start s t := by
  have hrun : (Kind.signature.production >>= fun _ => Kind.header.production >>= fun _ =>
      repeatFrom () fun _ => following).run s = .ok a t := h
  rw [run_bind] at hrun
  obtain ⟨_, s1, hsignature, hrest⟩ := bind_ok.1 hrun
  rw [run_bind] at hrest
  obtain ⟨_, s2, hheader, hloop⟩ := bind_ok.1 hrest
  rw [run_repeatFrom, get_bind] at hloop
  obtain ⟨_, s3, hrounds, hlast⟩ := iterate_ends hloop
  have hfirst : Stage.start.turn.run s = .ok .signed s1 := by
    rw [Stage.turn, run_bind]
    exact bind_run hsignature
  have hsecond : Stage.signed.turn.run s1 = .ok .headed s2 := by
    rw [Stage.turn, run_bind]
    exact bind_run hheader
  exact .next hfirst (.next hsecond (rounds_turns hrounds hlast))

/-- A piece that can be read anywhere is read in a turn. -/
theorem Reads.turn (h : Reads b stage p next) :
    Recited .big b 1 stage.turn.run p.bytes p.decisions next := by
  have hdone : ∀ next : Stage, Recited .big b 1 (pure next : Grammar Kind Stage).run [] [] next :=
    fun next past v s hs _ _ => ⟨s, rfl, by rwa [List.append_nil], .refl s⟩
  have hturn : ∀ {α : Type} {g : Grammar Kind α} {f : α → Stage} {u d : Bytes} {a : α},
      Recited .big b 1 g.run u d a →
        Recited .big b 1 (g >>= fun a => pure (f a)).run u d (f a) := by
    intro α g f u d a hg
    have hboth := hg.seq (f := fun a => pure (f a)) (hdone (f a))
    rwa [List.append_nil, List.append_nil] at hboth
  cases h with
  | signature h => exact hturn (f := fun _ => Stage.signed) h
  | header h => exact hturn (f := fun _ => Stage.headed) h
  | inner _ _ _ h => exact hturn h
  | finish h => exact hturn h

/-- Every turn goes from one edge to the next. -/
theorem Stage.turn_follows (stage : Stage) (c : Nat) :
    Follows k noHole 1 (Outline.edge c) stage.turn.run (fun _ => Outline.Past 0) anyEnd := by
  have hdone : ∀ (c : Nat) (next : Stage), Follows k noHole 1 (Outline.edge c)
      (pure next : Grammar Kind Stage).run (fun _ => Outline.Past 0) anyEnd :=
    fun c next => .done ⟨c, Nat.zero_le c, rfl⟩
  cases stage with
  | start =>
    apply ((Follows.literal 8 signatureBytes (by decide) rfl
      (Outline.Reads.fresh c 8)).discard.inScope "signature" Kind.signature
        fun _ _ _ h => h).andThen
    intro _
    exact hdone _ _
  | signed =>
    apply ((headerRule_follows c).inScope "ihdr" .header fun _ _ _ h => h).seq
    rintro _ _ ⟨d, -, rfl⟩
    exact hdone _ _
  | headed =>
    refine Follows.seq (g := following) (?_ : Follows k noHole 1 (Outline.edge c) following.run
      (fun _ => Outline.Past 0) anyEnd) ?_
    · apply ((following_follows c).asking fun r _ _ => by cases r <;> trivial).weaken
      rintro (_ | _) _ h <;> exact h
    · rintro _ _ ⟨d, -, rfl⟩
      exact hdone _ _
  | ended => exact .failing fun _ _ _ => throw_not_ok _ _ _ _

theorem chunkOf_production (type : Bytes) : ∃ (kind : Kind) (r : Unit ⊕ Unit), kind ≠ .file ∧
    Stage.headed.step kind = some (r.elim (fun _ => .headed) fun _ => .ended) ∧
      chunkOf type = (kind.production >>= fun _ => pure r) := by
  rcases chunkOf_cases type with h | h | h | h | h
  · exact ⟨.data, .inl (), by decide, rfl, h⟩
  · exact ⟨.text, .inl (), by decide, rfl, h⟩
  · exact ⟨.physicalDims, .inl (), by decide, rfl, h⟩
  · exact ⟨.time, .inl (), by decide, rfl, h⟩
  · exact ⟨.finish, .inr (), by decide, rfl, h⟩

theorem typeAhead_plain :
    (underEvil false (request (.lookBytes 4 4 followingTypes)) : Grammar Kind Bytes).Plain :=
  .underEvil (.request trivial)

theorem Stage.turn_tame (stage : Stage) : Tame stage.turn.run := by
  have hproduction : ∀ {kind : Kind} {α : Type} (a : α), kind ≠ .file →
      Tame (kind.production >>= fun _ => pure a).run := by
    intro kind α a hkind
    rw [run_bind]
    exact ((Kind.rule_plain hkind).scope_tame _ _).bind fun _ => .pure a
  cases stage with
  | start => exact hproduction _ (by decide)
  | signed => exact hproduction _ (by decide)
  | headed =>
    rw [Stage.turn, run_bind, following, run_bind]
    refine .bind (typeAhead_plain.tame.bind fun type => ?_) fun _ => .pure _
    obtain ⟨kind, r, hkind, -, hchunk⟩ := chunkOf_production type
    rw [hchunk]
    exact hproduction r hkind
  | ended => exact fun s a t h => absurd h (throw_not_ok _ _ _ _)

end Turning

def Standing : Stage → List (Chunk Kind) → State Kind → Prop
  | .start, cs, s => cs = [] ∧ Row [] [] none s
  | _, cs, s => ∃ front last used, cs = front ++ [last] ∧ Closed cs used s ∧ last.appendable = false

namespace Standing

variable {stage next : Stage} {cs : List (Chunk Kind)} {s t : State Kind} {ws : List (Watch Kind)}

theorem row (h : Standing stage cs s) : ∃ used, Row cs used none s := by
  cases stage with
  | start =>
    obtain ⟨rfl, hrow⟩ := h
    exact ⟨[], hrow⟩
  | signed | headed | ended =>
    obtain ⟨_, _, used, -, hclosed, -⟩ := h
    exact ⟨used, hclosed.toRow⟩

theorem depth (h : Standing stage cs s) : s.tracker.depth = 1 := by
  obtain ⟨used, hrow⟩ := h.row
  exact congrArg List.length hrow.stack

theorem exchanged (h : Standing stage cs s) (ahead : Bytes) :
    Standing stage cs { s with stream := { s.stream with ahead := ahead } } := by
  have hrow : ∀ {cs : List (Chunk Kind)} {used : NameCounts}, Row cs used none s →
      Row cs used none { s with stream := { s.stream with ahead := ahead } } := fun h =>
    ⟨h.cursor_le, h.size_le, h.stack, h.chunks, h.gate, h.look_le, h.files, h.decisions, h.inside⟩
  cases stage with
  | start => exact ⟨h.1, hrow h.2⟩
  | signed | headed | ended =>
    obtain ⟨front, last, used, hcs, hclosed, hfresh⟩ := h
    exact ⟨front, last, used, hcs, ⟨hrow hclosed.toRow, hclosed.size, hclosed.moved,
      hclosed.lastExit⟩, hfresh⟩

end Standing

section Standing

variable {stage next : Stage} {cs : List (Chunk Kind)} {used : NameCounts} {look : Option Nat}
  {kind : Kind} {a : Unit} {s t : State Kind} {ws : List (Watch Kind)}

structure Added (stage next : Stage) (start : Nat) (cs cs' : List (Chunk Kind)) (c : Chunk Kind)
    (s t : State Kind) : Prop where
  standing : Standing next (cs' ++ [c]) t
  same : cs'.map outline = cs.map outline
  step : stage.step c.kind = some next
  file : c.file = ⟨s.image.cursor, t.image.cursor⟩
  decisions : c.decisions = ⟨start, t.stream.position⟩
  spent : start < t.stream.position
  maxDepth : t.tracker.maxDepth = s.tracker.maxDepth

theorem Row.added (hrow : Row cs used look s) (hkind : kind ≠ .file)
    (hstep : stage.step kind = some next) (hrun : kind.production.run s = .ok a t) :
    Added stage next (look.getD s.stream.position) cs cs
      (childOf kind.name kind used look s t) s t := by
  have hproduced := kind.produced hkind hrow.cursor_le hrun
  obtain ⟨hclosed, -⟩ := hrow.child hproduced
  have hspent := hproduced.position
  have hlook := hrow.look_le
  refine ⟨?_, rfl, hstep, rfl, rfl, by omega, ?_⟩
  · cases next with
    | start => cases stage <;> cases kind <;> cases hstep
    | signed | headed | ended => exact ⟨_, _, _, rfl, hclosed, rfl⟩
  · rw [hproduced.tracker, Tracker.closed_maxDepth, Tracker.touch_maxDepth,
      Tracker.opened_maxDepth]

/-- A turn adds a chunk. -/
theorem Standing.turn (h : Standing stage cs s) (hrun : stage.turn.run s = .ok next t) :
    ∃ cs' c, Added stage next s.stream.position cs cs' c s t := by
  cases stage with
  | start =>
    obtain ⟨rfl, hrow⟩ := h
    rw [Stage.turn, run_bind] at hrun
    obtain ⟨_, _, hrule, hend⟩ := bind_ok.1 hrun
    cases hend
    exact ⟨_, _, hrow.added (by decide) rfl hrule⟩
  | signed =>
    obtain ⟨_, _, _, rfl, hclosed, -⟩ := h
    rw [Stage.turn, run_bind] at hrun
    obtain ⟨_, _, hrule, hend⟩ := bind_ok.1 hrun
    cases hend
    exact ⟨_, _, hclosed.toRow.added (by decide) rfl hrule⟩
  | headed =>
    obtain ⟨front, last, used, rfl, hclosed, hfresh⟩ := h
    rw [Stage.turn, run_bind] at hrun
    obtain ⟨r, _, hround, hend⟩ := bind_ok.1 hrun
    cases hend
    rw [following, run_bind] at hround
    obtain ⟨type, u, hlook, hchunk⟩ := bind_ok.1 hround
    have hlooked := Looked.underEvil hlook
    obtain ⟨hrow, -⟩ := hclosed.looked hfresh hlooked
    obtain ⟨kind, result, hkind, hstep, hproduction⟩ := chunkOf_production type
    rw [hproduction, run_bind] at hchunk
    obtain ⟨_, _, hrule, hend⟩ := bind_ok.1 hchunk
    cases hend
    have hadded := hrow.added hkind hstep hrule
    refine ⟨_, _, hadded.standing, ?_, hadded.step, ?_, hadded.decisions, hadded.spent, ?_⟩
    · rw [List.map_append, List.map_append]
      rfl
    · rw [hadded.file, hlooked.cursor]
    · rw [hadded.maxDepth, hlooked.tracker, Tracker.lookahead_maxDepth, Tracker.touch_maxDepth]
  | ended => exact absurd hrun (throw_not_ok _ _ _ _)

theorem Row.unwatched (hrow : Row cs used look s) (hs : s.watches = []) (hkind : kind ≠ .file)
    (hrun : kind.production.run (s.watching ws) = .ok a t) :
    ∃ u, kind.production.run s = .ok a u ∧
      t = u.closing 2 (ws.map (·.arm (look.getD s.stream.position) kind 2)) := by
  have hdepth : s.tracker.depth = 1 := congrArg List.length hrow.stack
  obtain ⟨u, hrule, rfl⟩ := (Kind.rule_plain hkind).unwatched hs hrun
  rw [hrow.entering, hdepth]
  exact ⟨u, hrule, rfl⟩

/-- A turn goes the same way when it is watched. The watches look at one production, which starts
where the turn starts. -/
theorem Standing.unwatched (h : Standing stage cs s) (hs : s.watches = [])
    (hrun : stage.turn.run (s.watching ws) = .ok next t) :
    ∃ u kind, stage.turn.run s = .ok next u ∧ stage.step kind = some next ∧
      t = u.closing 2 (ws.map (·.arm s.stream.position kind 2)) := by
  cases stage with
  | start =>
    obtain ⟨rfl, hrow⟩ := h
    rw [Stage.turn, run_bind] at hrun ⊢
    obtain ⟨_, _, hrule, hend⟩ := bind_ok.1 hrun
    cases hend
    obtain ⟨u, hrule', rfl⟩ := hrow.unwatched hs (by decide) hrule
    exact ⟨u, .signature, bind_run hrule', rfl, rfl⟩
  | signed =>
    obtain ⟨_, _, _, rfl, hclosed, -⟩ := h
    rw [Stage.turn, run_bind] at hrun ⊢
    obtain ⟨_, _, hrule, hend⟩ := bind_ok.1 hrun
    cases hend
    obtain ⟨u, hrule', rfl⟩ := hclosed.toRow.unwatched hs (by decide) hrule
    exact ⟨u, .header, bind_run hrule', rfl, rfl⟩
  | headed =>
    obtain ⟨front, last, used, rfl, hclosed, hfresh⟩ := h
    rw [Stage.turn, run_bind] at hrun ⊢
    obtain ⟨r, _, hround, hend⟩ := bind_ok.1 hrun
    cases hend
    rw [following, run_bind] at hround ⊢
    obtain ⟨type, s1, hlook, hchunk⟩ := bind_ok.1 hround
    obtain ⟨s2, hbare, hs2, rfl⟩ := typeAhead_plain.unseen hs hlook
    obtain ⟨hrow, -⟩ := hclosed.looked hfresh (Looked.underEvil hbare)
    obtain ⟨kind, result, hkind, hstep, hproduction⟩ := chunkOf_production type
    rw [hproduction, run_bind] at hchunk
    obtain ⟨_, _, hrule, hend⟩ := bind_ok.1 hchunk
    cases hend
    obtain ⟨u, hrule', rfl⟩ := hrow.unwatched hs2 hkind hrule
    have hchunk' : (chunkOf type).run s2 = .ok r u := by
      rw [hproduction, run_bind]
      exact bind_run hrule'
    refine ⟨u, kind, ?_, hstep, rfl⟩
    have hround' := bind_run hbare (f := fun type => (chunkOf type).run)
    rw [hchunk'] at hround'
    exact bind_run hround'
  | ended => exact absurd hrun (throw_not_ok _ _ _ _)

end Standing

end DecisionWalk.Png
