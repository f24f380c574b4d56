import DecisionWalk.Proofs.MachineScopes
import DecisionWalk.Proofs.Plain

/-!
# What a watch misses

A watch waits for a production that starts at one place in the decisions. When the
stream has passed the place, and the latest look starts behind it as well, no
production will start there any more, so the watch will see nothing.
-/

set_option autoImplicit false

namespace DecisionWalk

open Walker

variable {K α β : Type} {s t : State K} {w : Watch K}

namespace Tracker

theorem touch_gate (t : Tracker K) (span : Span) : (t.touch span).gate = t.gate := by
  rw [touch]
  split
  · rfl
  · split <;> rfl

theorem closed_gate (t : Tracker K) (position cursor : Nat) :
    (t.closed position cursor).gate = t.gate := by
  rw [closed]
  split <;> rfl

end Tracker

theorem Passes.gate (h : Passes s t) {g : Span} (hg : t.tracker.gate = some g) :
    s.tracker.gate = some g ∨ s.stream.position ≤ g.start := by
  induction h with
  | trans h1 h2 ih1 ih2 =>
    rcases ih2 hg with hmid | hlater
    · exact ih1 hmid
    · exact Or.inr (Nat.le_trans h1.position_le hlater)
  | writes s bs hm h => exact Or.inl ((Tracker.touch_gate _ _).symm.trans hg)
  | marks s bs hm h => exact Or.inl ((Tracker.touch_gate _ _).symm.trans hg)
  | tosses s e h =>
    rw [Tracker.lookahead_gate] at hg
    cases hg
    exact Or.inr (Nat.le_refl _)
  | looks offset h ih =>
    rw [Tracker.lookahead_gate] at hg
    cases hg
    exact Or.inr (Nat.le_refl _)
  | returns offset h ih => exact ih hg
  | _ => exact Or.inl hg

structure Late (w : Watch K) (s : State K) : Prop where
  watches : s.watches = [w]
  armed : w.armed = none
  position : w.start < s.stream.position
  gate : ∀ g, s.tracker.gate = some g → w.start < g.start

namespace Late

theorem passed (h : Late w s) (hp : Passes s t) : Late w t := by
  refine ⟨hp.watches.trans h.watches, h.armed, Nat.lt_of_lt_of_le h.position hp.position_le, ?_⟩
  intro g hg
  rcases hp.gate hg with hold | hlater
  · exact h.gate g hold
  · exact Nat.lt_of_lt_of_le h.position hlater

variable [DecidableEq K]

/-- What is opened starts behind the place. -/
theorem opened (h : Late w s) (name : String) (kind : K) :
    Late w ((s.tracking (s.tracker.opened name kind s.stream.position s.image.cursor)).watching
      (s.watches.map (·.arm (s.tracker.entering s.stream.position).start kind
        (s.tracker.depth + 1)))) := by
  have hstart : w.start < (s.tracker.entering s.stream.position).start := by
    rcases s.tracker.entering_cases s.stream.position with ⟨g, hg, -, he⟩ | ⟨-, he⟩
    · rw [he]
      exact h.gate g hg
    · rw [he]
      exact h.position
  have hidle :
      w.arm (s.tracker.entering s.stream.position).start kind (s.tracker.depth + 1) = w := by
    rw [Watch.arm, if_neg]
    simp [Watch.awaits, Nat.ne_of_lt hstart]
  refine ⟨?_, h.armed, h.position, fun g hg => h.gate g (Tracker.opened_gate hg).1⟩
  rw [h.watches, List.map_singleton, hidle]
  rfl

omit [DecidableEq K] in
theorem closed (h : Late w s) {depth : Nat} {a : Unit} (hclose : closeScope depth s = .ok a t) :
    Late w t := by
  have hclosed : t = (s.tracking (s.tracker.closed s.stream.position s.image.cursor)).closing depth
      s.watches := by
    cases hclose
    rfl
  rw [h.watches, State.closing_idle (by rw [h.armed]; simp)] at hclosed
  rw [hclosed]
  exact ⟨rfl, h.armed, h.position, fun g hg => h.gate g ((Tracker.closed_gate _ _ _).symm.trans hg)⟩

theorem act (h : Late w s) (act : Act K) : Late w (act.perform.after s) := by
  cases act with
  | ask request => exact h.passed (Act.ask_orderly request s).passes
  | opens name kind =>
    by_cases hroom : s.tracker.depth < s.tracker.maxDepth
    · have hopened : (Act.perform (.opens name kind)).after s = _ :=
        after_ok (bind_run (if_pos hroom))
      rw [hopened]
      exact h.opened name kind
    · have hstill : (Act.perform (.opens name kind)).after s = s :=
        after_error (bind_error (if_neg hroom))
      rw [hstill]
      exact h
  | closes depth => exact h.closed (a := ()) rfl

theorem visit (h : Late w s) (acts : List (Act K)) : Late w (DecisionWalk.visit acts s) := by
  induction acts generalizing s with
  | nil => exact h
  | cons act acts ih => exact ih (h.act act)

theorem run (h : Late w s) {x : Walker K α} (hx : Visits x) {a : α} (hrun : x s = .ok a t) :
    Late w t := by
  obtain ⟨acts, hacts⟩ := hx s
  rw [after_ok hrun] at hacts
  rw [hacts]
  exact h.visit acts

end Late

theorem Watch.arm_other [DecidableEq K] {kind other : K} (hkind : w.kind = some other)
    (hne : other ≠ kind) (start depth : Nat) : w.arm start kind depth = w := by
  rw [Watch.arm, if_neg]
  simp [Watch.awaits, hkind, hne]

/-- Where the place is passed by a look, and the look gates a production of another kind than the
watch waits for, the watch is late. -/
theorem Grammar.inScope_late [DecidableEq K] {name : String} {kind other : K} {body : Grammar K β}
    {f : β → Grammar K α} {a : α} (hwatches : s.watches = [w]) (harmed : w.armed = none)
    (hkind : w.kind = some other) (hne : other ≠ kind) (hposition : w.start < s.stream.position)
    (hgate : ∀ g, s.tracker.gate = some g → g.stop = s.stream.position)
    (h : (Grammar.inScope name kind body >>= f).run s = .ok a t) : Late w t := by
  rw [run_bind, run_inScope] at h
  obtain ⟨b, u, hscope, hrest⟩ := bind_ok.1 h
  obtain ⟨depth, s1, hopen, hscope⟩ := bind_ok.1 hscope
  obtain ⟨-, -, hs1⟩ := openScope_armed hopen
  have hlate : Late w s1 := by
    rw [hs1]
    refine ⟨?_, harmed, hposition, ?_⟩
    · rw [hwatches, List.map_singleton, Watch.arm_other hkind hne]
      rfl
    · intro g hg
      obtain ⟨hold, hstop⟩ := Tracker.opened_gate hg
      exact absurd (hgate g hold) hstop
  have hinside := hlate.run (body.run_visits.bind fun b => (Visits.closeScope depth).bind fun _ =>
    Visits.pure b) hscope
  exact hinside.run (f b).run_visits hrest

end DecisionWalk
