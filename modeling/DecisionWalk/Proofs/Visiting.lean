import DecisionWalk.Proofs.Sparing

/-!
# A walk as a sequence of calls

Whatever a grammar asks for, and however its walk ends, the state it leaves is
one that single calls leave: requests, and productions opened and closed. So
what every call keeps, every walk keeps.
-/

set_option autoImplicit false

namespace DecisionWalk

open Walker

variable {K α β σ : Type} [DecidableEq K]

theorem Walker.openScope_opened {name : String} {kind : K} {depth : Nat} {s t : State K}
    (h : openScope name kind s = .ok depth t) : ∃ watches, t =
      { s with
        tracker := s.tracker.opened name kind s.stream.position s.image.cursor
        watches := watches } := by
  by_cases hd : s.tracker.depth < s.tracker.maxDepth
  · rw [openScope, if_pos hd] at h
    cases h
    exact ⟨_, rfl⟩
  · rw [openScope, if_neg hd] at h
    cases h

omit [DecidableEq K] in
/-- The watches may exchange what is ahead in the stream. -/
theorem Walker.closeScope_closed {depth : Nat} {a : Unit} {s t : State K}
    (h : closeScope depth s = .ok a t) : ∃ watches stream, stream.past = s.stream.past ∧ t =
      { s with
        tracker := s.tracker.closed s.stream.position s.image.cursor
        watches := watches
        stream := stream } := by
  obtain ⟨hpast, -, -⟩ := closeWatches_stream depth s.watches s.stream
  cases h
  exact ⟨_, _, hpast, rfl⟩

/-- What a call can do: what requests do, open a production, or close one. -/
theorem Act.perform_cases (act : Act K) (s : State K) :
    Passes s (act.perform.after s) ∨
    (∃ name kind watches, act.perform.after s =
      { s with
        tracker := s.tracker.opened name kind s.stream.position s.image.cursor
        watches := watches }) ∨
    ∃ watches stream, stream.past = s.stream.past ∧ act.perform.after s =
      { s with
        tracker := s.tracker.closed s.stream.position s.image.cursor
        watches := watches
        stream := stream } := by
  cases act with
  | ask request => exact Or.inl (ask_orderly request s).passes
  | opens name kind =>
    by_cases hd : s.tracker.depth < s.tracker.maxDepth
    · exact Or.inr (Or.inl ⟨name, kind, _, after_ok (bind_run (if_pos hd))⟩)
    · have hstill : (perform (.opens name kind)).after s = s := after_error (bind_error (if_neg hd))
      rw [hstill]
      exact Or.inl (.still s)
  | closes depth => exact Or.inr (Or.inr (closeScope_closed (a := ()) rfl))

omit [DecidableEq K] in
theorem Passes.maxDepth {s t : State K} (h : Passes s t) :
    t.tracker.maxDepth = s.tracker.maxDepth := by
  induction h with
  | trans h1 h2 ih1 ih2 => exact ih2.trans ih1
  | writes s bs hm h => exact Tracker.touch_maxDepth _ _
  | marks s bs hm h => exact Tracker.touch_maxDepth _ _
  | tosses s e h => exact Tracker.lookahead_maxDepth _ _
  | looks offset h ih => exact (Tracker.lookahead_maxDepth _ _).trans ih
  | returns offset h ih => exact ih
  | _ => rfl

theorem Act.maxDepth (act : Act K) (s : State K) :
    (act.perform.after s).tracker.maxDepth = s.tracker.maxDepth := by
  rcases act.perform_cases s with h | ⟨name, kind, _, h⟩ | ⟨_, _, -, h⟩
  · exact h.maxDepth
  · rw [h]
    exact Tracker.opened_maxDepth _ _ _ _ _
  · rw [h]
    exact Tracker.closed_maxDepth _ _ _

theorem visit_maxDepth (acts : List (Act K)) (s : State K) :
    (visit acts s).tracker.maxDepth = s.tracker.maxDepth := by
  induction acts generalizing s with
  | nil => rfl
  | cons act acts ih => exact (ih _).trans (act.maxDepth s)

def Visits (x : Walker K α) : Prop := ∀ s, ∃ acts, x.after s = visit acts s

namespace Visits

theorem pure (a : α) : Visits (pure a : Walker K α) := fun _ => ⟨[], rfl⟩

theorem throw (e : WalkError) : Visits (throw e : Walker K α) := fun _ => ⟨[], rfl⟩

theorem get : Visits (get : Walker K (State K)) := fun _ => ⟨[], rfl⟩

theorem answer (r : Request α) : Visits (r.answer : Walker K α) :=
  fun s => ⟨[.ask r], (after_bind_pure _ _ s).symm⟩

theorem openScope (name : String) (kind : K) : Visits (Walker.openScope name kind) :=
  fun s => ⟨[.opens name kind], (after_bind_pure _ _ s).symm⟩

theorem closeScope (depth : Nat) : Visits (Walker.closeScope depth : Walker K Unit) :=
  fun _ => ⟨[.closes depth], rfl⟩

theorem bind {x : Walker K α} {f : α → Walker K β} (hx : Visits x) (hf : ∀ a, Visits (f a)) :
    Visits (x >>= f) := by
  intro s
  obtain ⟨before, hb⟩ := hx s
  cases hr : x s with
  | error e t =>
    refine ⟨before, ?_⟩
    rw [after_bind_error hr, ← hb, after_error hr]
  | ok a t =>
    obtain ⟨rest, hrest⟩ := hf a t
    rw [after_ok hr] at hb
    refine ⟨before ++ rest, ?_⟩
    rw [after_bind_ok hr, hrest, visit_append, hb]

/-- The evil bit is set and set back as a request would do it. -/
theorem withEvil {x : Walker K α} (hx : Visits x) (allowed : Bool) :
    Visits (Walker.withEvil allowed x) := by
  intro s
  obtain ⟨acts, hacts⟩ := hx { s with evil := ⟨allowed⟩ }
  refine ⟨[.ask (.setEvil allowed)] ++ (acts ++ [.ask (.setEvil s.evil.allowed)]), ?_⟩
  have hbody : visit ([.ask (.setEvil allowed)] ++ (acts ++ [.ask (.setEvil s.evil.allowed)])) s =
      { x.after { s with evil := ⟨allowed⟩ } with evil := s.evil } := by
    rw [visit_append, visit_append, hacts]
    rfl
  rw [hbody]
  cases hr : x { s with evil := ⟨allowed⟩ } with
  | ok a t => rw [after_ok hr, after, Walker.withEvil, hr]
  | error e t => rw [after_error hr, after, Walker.withEvil, hr]

theorem composes : Composes (K := K) fun _ x => Visits x where
  pure _ a := .pure a
  stalled _ := .throw _
  bind _ _ _ _ hx hf := hx.bind hf
  reads _ _ hf := get.bind fun s => hf s.stream

end Visits

namespace Grammar

theorem run_visits (g : Grammar K α) : Visits g.run := by
  induction g with
  | done a => exact .pure a
  | ask request next ih => exact (Visits.answer request).bind ih
  | scope name kind body next ihb ih =>
    exact (Visits.openScope name kind).bind fun depth => ihb.bind fun b =>
      (Visits.closeScope depth).bind fun _ => ih b
  | withEvil allowed body next ihb ih => exact (ihb.withEvil allowed).bind ih
  | loop body init next ihb ih =>
    exact Visits.get.bind fun s => (Visits.composes.iterate ihb _ _).bind ih
  | stop code reason => exact .throw _

theorem after_kept (g : Grammar K α) (s : State K) : Kept s (g.run.after s) := by
  obtain ⟨acts, hacts⟩ := g.run_visits s
  rw [hacts]
  exact visit_kept acts s

theorem run_kept {g : Grammar K α} {s t : State K} {a : α} (h : g.run s = .ok a t) : Kept s t :=
  after_ok h ▸ g.after_kept s

theorem after_maxDepth (g : Grammar K α) (s : State K) :
    (g.run.after s).tracker.maxDepth = s.tracker.maxDepth := by
  obtain ⟨acts, hacts⟩ := g.run_visits s
  rw [hacts]
  exact visit_maxDepth acts s

/-- A walk that succeeds ends where some calls take the state that was seeded. -/
theorem runFrom_visits {g : Grammar K Unit} {limits : Limits} {origin : Origin}
    {watches : List (Watch K)} {v : Walk K × List (Watch K)}
    (h : (g.runFrom limits origin watches).outcome = .ok v) :
    ∃ seeded acts, seed origin (State.empty limits) = .ok () seeded ∧
      (visit acts { seeded with watches := watches }).finish = .ok v := by
  rw [runFrom] at h
  cases hseed : seed origin (State.empty limits : State K) with
  | error e s =>
    rw [hseed] at h
    cases h
  | ok u seeded =>
    rw [hseed] at h
    obtain ⟨o, t, hrun, -, hfinish⟩ := concluded h
    obtain ⟨acts, hacts⟩ := g.run_visits { seeded with watches := watches }
    have hend : g.run.after { seeded with watches := watches } = t := by
      rw [after, hrun]
      cases o <;> rfl
    exact ⟨seeded, acts, rfl, by rw [← hacts, hend, hfinish]⟩

end Grammar

end DecisionWalk
