import DecisionWalk.Proofs.Corpora
import DecisionWalk.Proofs.Splices
import DecisionWalk.Random.Cycle
import DecisionWalk.Script.Meaning

/-!
# A chunk in its own place

To replace a chunk by itself puts the decisions of a walk together as they were,
so the walk comes out again, whatever the random source gives behind them. What
is said of it is another matter. The watch knows the chunk by its start, its kind
and its depth only: it looks at the first production that has all three, and it
sees where that one stops if the production is closed before the walk ends.
-/

set_option autoImplicit false

namespace DecisionWalk

open Walker Ending

variable {K : Type} [DecidableEq K]

omit [DecidableEq K] in
theorem Ending.after_inState {α : Type} {x : Walker K α} {o : Ending α} {s t : State K}
    (h : x s = o.inState t) : x.after s = t := by
  cases o with
  | ok a => exact after_ok h
  | error c => exact after_error h

namespace Grammar

variable {g : Grammar K Unit} {limits : Limits} {decisions : Bytes} {w : Walk K}

/-- The slots of the productions that are still open where a walk ends. A walk that is stopped with
code zero leaves open what was open, and succeeds. -/
def leftOpen (g : Grammar K Unit) (limits : Limits) (decisions : Bytes) : List Nat :=
  (g.run.after (State.generating limits decisions)).tracker.slots

theorem generate_ends (h : g.generate limits decisions = .ok w) :
    w.decisions.length ≤ limits.streamCapacity ∧ ∃ (o : Ending Unit) (t : State K), o.Succeeds ∧
      (∃ ws, t.finish = .ok (w, ws)) ∧ t.tracker.slots = g.leftOpen limits decisions ∧
      ∀ tail, g.run (State.generating limits (w.decisions ++ tail)) =
        o.inState (t.retold tail) := by
  have hfits := generate_fits h
  rw [generate_run g hfits] at h
  obtain ⟨ws, hrun⟩ := outcome_ok h
  obtain ⟨o, t, hend, ho, hfinish⟩ := concluded hrun
  have hstart : (State.generating limits decisions : State K).stream.length ≤
      limits.streamCapacity := by
    show 0 + decisions.length ≤ limits.streamCapacity
    omega
  obtain ⟨hroom, hretold⟩ := ended_retold hend rfl hstart
  rw [← finish_decisions hfinish] at hroom hretold
  refine ⟨hroom, o, t, ho, ⟨ws, hfinish⟩, ?_, hretold rfl⟩
  rw [leftOpen, after_inState hend]

theorem leftOpen_nil (hg : g.StopsIn (· ≠ 0)) (h : g.generate limits decisions = .ok w) :
    g.leftOpen limits decisions = [] := by
  have hfits := generate_fits h
  rw [generate_run g hfits] at h
  obtain ⟨t, ws, hrun, -⟩ := conclude_ok hg h
  obtain ⟨-, hdepth, -⟩ := run_observed [] g _ (.ok ()) t (.generating limits decisions) hrun
  have hstack : t.tracker.stack = [] := List.length_eq_zero_iff.1 (hdepth () rfl)
  rw [leftOpen, after_ok hrun, Tracker.slots, hstack]
  rfl

theorem generates_of_decide {slot : Nat} {P : Walk K → Chunk K → Prop}
    [∀ w c, Decidable (P w c)] (h : (g.generate limits decisions).toOption.any (fun w =>
      w.chunks[slot]?.any fun c => decide (P w c)) = true) :
    ∃ w c, g.generate limits decisions = .ok w ∧ c ∈ w.chunks ∧ P w c := by
  obtain ⟨w, hw, h⟩ := ok_of_any h
  obtain ⟨c, hc, h⟩ := (Option.any_eq_true _ _).1 h
  exact ⟨w, c, hw, List.mem_of_getElem? hc, of_decide_eq_true h⟩

end Grammar

theorem Tracker.First.findIdx {t : Tracker K} {v : Watch K} {i : Nat} {c : Chunk K}
    (h : t.First v i c) : t.chunks.toList.findIdx v.fits = i := by
  have hlt : i < t.chunks.toList.length := by
    rw [Array.length_toList]
    exact h.lt
  rw [List.findIdx_eq hlt]
  refine ⟨?_, ?_⟩
  · rw [Array.getElem_toList, (Array.getElem?_eq_some_iff.1 h.here).2]
    exact h.fits
  · intro j hj
    apply h.before j _ hj
    rw [← Array.getElem?_toList]
    exact List.getElem?_eq_getElem _

/-- Where a walk ends, a watch that some chunk fits has seen the first one that does: either that
one was left open, or the watch holds where it stopped. -/
theorem Sees.ended {s : State K} {v v' : Watch K} {w : Walk K} {ws : List (Watch K)} {c : Chunk K}
    (h : Sees s.tracker v v') (hs : s.Tracks) (hfinish : s.finish = .ok (w, ws))
    (hc : c ∈ w.chunks) (hfits : v.fits c = true) :
    (w.chunks.findIdx v.fits ∈ s.tracker.slots ∧ ∃ depth, v' = { v with armed := some depth }) ∨
      (w.chunks.findIdx v.fits ∉ s.tracker.slots ∧
        ∃ d, w.chunks[w.chunks.findIdx v.fits]? = some d ∧
          v' = { v with observedStop := some d.decisions.stop }) := by
  obtain ⟨-, hw⟩ := (s.finish_iff _).1 hfinish
  have hchunks :
      w.chunks = (s.tracker.closeAll s.stream.position s.image.cursor).chunks.toList := by
    cases hw
    rfl
  obtain ⟨hr, hout⟩ := (Tracked.ordered hs).closeAll_chunks s.image.cursor
  rw [hchunks]
  cases h with
  | unseen h =>
    obtain ⟨j, hj⟩ := List.getElem?_of_mem hc
    rw [hchunks, Array.getElem?_toList] at hj
    obtain ⟨d, hd, hkey⟩ := hr.back hj
    rw [← v.fits_key hkey, h j d hd] at hfits
    cases hfits
  | @inside i d h hi =>
    obtain ⟨e, he, -⟩ := h.rekeyed hr
    rw [he.findIdx]
    exact Or.inl ⟨hi, _, rfl⟩
  | @behind i d h hi =>
    obtain ⟨e, he, -⟩ := h.rekeyed hr
    obtain rfl : e = d := Option.some.inj (he.here.symm.trans ((hout i hi).trans h.here))
    rw [he.findIdx, Array.getElem?_toList]
    exact Or.inr ⟨hi, e, he.here, rfl⟩

def Walk.slotLike (w : Walk K) (c : Chunk K) : Nat := w.chunks.findIdx fun d => d.key = c.key

theorem Walk.slotLike_lt {w : Walk K} {c : Chunk K} (hc : c ∈ w.chunks) :
    w.slotLike c < w.chunks.length :=
  List.findIdx_lt_length_of_exists ⟨c, hc, decide_eq_true rfl⟩

theorem Walk.slotLike_key {w : Walk K} {c d : Chunk K} (hd : w.chunks[w.slotLike c]? = some d) :
    d.key = c.key := by
  obtain ⟨hlt, rfl⟩ := List.getElem?_eq_some_iff.1 hd
  exact of_decide_eq_true (List.findIdx_getElem (w := hlt))

theorem Walk.decisions_eq_iff {w : Walk K} {c d : Chunk K} (hd : w.chunks[w.slotLike c]? = some d) :
    d.decisions = c.decisions ↔ d.decisions.stop = c.decisions.stop := by
  have hstart : d.decisions.start = c.decisions.start := congrArg Prod.fst (slotLike_key hd)
  refine ⟨congrArg Span.stop, fun hstop => ?_⟩
  show (⟨d.decisions.start, d.decisions.stop⟩ : Span) = _
  rw [hstart, hstop]

def Chunk.watch (c : Chunk K) (expected : Nat) : Watch K where
  start := c.decisions.start
  kind := some c.kind
  depth := some c.depth
  expectedStop := some expected

theorem Chunk.watch_fits (c : Chunk K) (expected : Nat) :
    (c.watch expected).fits = fun d => decide (d.key = c.key) := by
  funext d
  simp only [watch, Watch.fits, key, Option.all_some, Prod.mk.injEq, Bool.decide_and,
    beq_eq_decide, Bool.and_assoc, eq_comm]

omit [DecidableEq K] in
theorem State.finish_watching {s : State K} {w : Walk K} {ws : List (Watch K)}
    (h : s.finish = .ok (w, ws)) (ws' : List (Watch K)) :
    (s.watching ws').finish = .ok (w, ws') := by
  obtain ⟨hcovered, hw⟩ := (s.finish_iff _).1 h
  cases hw
  exact ((s.watching ws').finish_iff _).2 ⟨hcovered, rfl⟩

theorem Grammar.replay_watched {g : Grammar K Unit} {limits : Limits} {decisions tail : Bytes}
    {w : Walk K} {v : Watch K} (h : g.generate limits decisions = .ok w) (hv : v.Fresh)
    (htail : w.decisions.length + tail.length ≤ limits.streamCapacity) :
    ∃ (s : State K) (v' : Watch K), s.Tracks ∧ (∃ ws, s.finish = .ok (w, ws)) ∧
      s.tracker.slots = g.leftOpen limits decisions ∧ Sees s.tracker v v' ∧
      g.replay limits (w.decisions ++ tail) [v] = .ok (w, [v']) := by
  obtain ⟨-, o, t, ho, ⟨ws, hfinish⟩, hslots, hretold⟩ := generate_ends h
  obtain ⟨hcalm, -, hwatched⟩ :=
    run_observed [v] g _ o _ (.generating limits (w.decisions ++ tail)) (hretold tail)
  obtain ⟨_, ⟨f, rfl, hsees⟩, hrun⟩ := hwatched [v] (.start (List.forall_mem_singleton.2 hv))
  refine ⟨t.retold tail, f v, hcalm.tracks, ⟨[], finish_retold hfinish tail⟩, hslots,
    (hsees v List.mem_cons_self).2, ?_⟩
  have hfits : (w.decisions ++ tail).length ≤ limits.streamCapacity := by
    rw [List.length_append]
    exact htail
  rw [replay, runFrom_decisions g hfits]
  show (conclude (g.run ((State.generating limits (w.decisions ++ tail)).watching [v]))).outcome = _
  rw [hrun, conclude_inState ho]
  exact State.finish_watching (finish_retold hfinish tail) _

namespace Mutator

variable {ρ : Type} [RandomSource ρ] [ProductionKind K] {m : Mutator K} {w : Walk K} {c : Chunk K}
  {decisions : Bytes}

omit [ProductionKind K] in
theorem compatible_itself (c : Chunk K) : compatible c c = true := by
  rw [compatible]
  cases c.optional
  · exact beq_self_eq_true c.kind
  · rfl

omit [DecidableEq K] [RandomSource ρ] [ProductionKind K] in
theorem mutating_run {α β : Type} {x : Mutating ρ α} {f : α → Mutating ρ β} {a : α} {r r' : ρ}
    (h : x r = .ok a r') : (x >>= f) r = f a r' := by
  show EStateM.bind x f r = _
  rw [EStateM.bind, h]

omit [DecidableEq K] [ProductionKind K] in
theorem verdict_stopped {v : Watch K} {observed expected : Nat}
    (hobserved : v.observedStop = some observed) (hexpected : v.expectedStop = some expected) :
    verdict [v] .exact =
      .ok (if observed = expected then .exact else .mismatch (observed - expected)) := by
  simp only [verdict, hobserved, hexpected]
  by_cases hsame : observed = expected
  · rw [if_pos hsame, if_neg (by omega)]
  · rw [if_neg hsame, if_pos ⟨by omega, trivial⟩]

omit [ProductionKind K] in
/-- The report on the decisions of a walk, spliced under the watch of one of its chunks: it is made
of the first chunk that looks like this one, if the walk closed it. -/
theorem regenerate_itself (h : m.grammar.generate m.limits decisions = .ok w) (hc : c ∈ w.chunks)
    (expected : Nat) {tail : Bytes}
    (htail : w.decisions.length + tail.length ≤ m.limits.streamCapacity) (operation : Operation) :
    ∃ d, w.chunks[w.slotLike c]? = some d ∧
      m.regenerate operation (w.decisions ++ tail) [c.watch expected] =
        if w.slotLike c ∈ m.grammar.leftOpen m.limits decisions then
          .error (.chunkNotCreated c.decisions.start)
        else .ok ⟨operation, w, if d.decisions.stop = expected then .exact
          else .mismatch (d.decisions.stop - expected)⟩ := by
  obtain ⟨s, v', hs, ⟨ws, hfinish⟩, hslots, hsees, hreplay⟩ :=
    Grammar.replay_watched h (⟨rfl, rfl, rfl⟩ : (c.watch expected).Fresh) htail
  have hslot : w.chunks.findIdx (c.watch expected).fits = w.slotLike c := by
    rw [c.watch_fits, Walk.slotLike]
  have hended := hsees.ended hs hfinish hc (by rw [c.watch_fits]; exact decide_eq_true rfl)
  rw [hslot, hslots] at hended
  simp only [regenerate, hreplay]
  rcases hended with ⟨hopen, depth, rfl⟩ | ⟨hclosed, d, hd, rfl⟩
  · exact ⟨_, List.getElem?_eq_getElem (Walk.slotLike_lt hc), (if_pos hopen).symm⟩
  · refine ⟨d, hd, ?_⟩
    rw [if_neg hclosed, verdict_stopped rfl rfl]

/-- Replacing a chunk by itself gives the walk again, with a report on the first chunk that looks
like it, if the walk closed that one. -/
theorem replace_itself_reports (h : m.grammar.generate m.limits decisions = .ok w)
    (hc : c ∈ w.chunks) (r : ρ) :
    ∃ d r', w.chunks[w.slotLike c]? = some d ∧ m.replace w c c (w.decisionsOf c) r =
      if w.slotLike c ∈ m.grammar.leftOpen m.limits decisions then
        .error (.chunkNotCreated c.decisions.start) r'
      else .ok ⟨.replace, w, if d.decisions.stop = c.decisions.stop then .exact
        else .mismatch (d.decisions.stop - c.decisions.stop)⟩ r' := by
  have hfits : c.decisions.Fits w.decisions :=
    Walk.Made.decisions_fit ⟨m.grammar, m.limits, decisions, Or.inr h⟩ hc
  have hlength : (w.decisionsOf c).length = c.decisionLength := Span.length_of hfits
  have hstop : c.decisions.start + (w.decisionsOf c).length = c.decisions.stop := by
    rw [hlength]
    exact Nat.add_sub_cancel' hfits.1
  have hparts : [w.decisions.take c.decisions.start, w.decisionsOf c,
      w.decisions.drop c.decisions.stop].flatten = w.decisions := by
    rw [List.flatten_cons, List.flatten_cons, List.flatten_singleton, ← Span.of_left,
      ← Span.of_right, Walk.decisionsOf, Span.of_meet _ hfits.1 hfits.2,
      Span.of_meet _ (Nat.zero_le _) (Nat.le_trans hfits.1 hfits.2), Span.of_all]
  obtain ⟨tail, r', hsplice, htail⟩ := m.splice_run _ r
    (by rw [hparts]; exact (Grammar.generate_ends h).1)
  rw [hparts] at hsplice htail
  obtain ⟨d, hd, hregenerate⟩ :=
    regenerate_itself h hc c.decisions.stop (Nat.le_of_eq htail) .replace
  have hreplace : m.replace w c c (w.decisionsOf c) r = (MonadExcept.ofExcept
      (m.regenerate .replace (w.decisions ++ tail)
        [c.watch (c.decisions.start + (w.decisionsOf c).length)]) :
          Mutating ρ (Mutation K)) r' := by
    rw [replace, compatible_itself, checkDonor, if_pos hlength]
    exact mutating_run hsplice
  refine ⟨d, r', hd, ?_⟩
  rw [hreplace, hstop, hregenerate]
  split <;> rfl

omit [DecidableEq K] [RandomSource ρ] [ProductionKind K] in
theorem reports_exact {p : Prop} [Decidable p] {n : Int} {r : ρ} :
    (∃ r', (.ok ⟨.replace, w, if p then .exact else .mismatch n⟩ r :
      EStateM.Result MutationError ρ (Mutation K)) = .ok ⟨.replace, w, .exact⟩ r') ↔ p := by
  by_cases hp : p
  · rw [if_pos hp]
    exact ⟨fun _ => hp, fun _ => ⟨r, rfl⟩⟩
  · rw [if_neg hp]
    exact ⟨fun ⟨r', hexact⟩ => (nomatch hexact), fun h => absurd h hp⟩

/-- Replacing a chunk by itself gives the same file, decisions and chunks, reported as exact, if and
only if the first chunk that starts where this one does, with its kind and at its depth, has its
decisions too and was not left open. -/
theorem replace_itself_exact (h : m.grammar.generate m.limits decisions = .ok w)
    (hc : c ∈ w.chunks) (r : ρ) :
    (∃ r', m.replace w c c (w.decisionsOf c) r = .ok ⟨.replace, w, .exact⟩ r') ↔
      w.slotLike c ∉ m.grammar.leftOpen m.limits decisions ∧
        (w.chunks[w.slotLike c]?).map Chunk.decisions = some c.decisions := by
  obtain ⟨d, r1, hd, hreplace⟩ := replace_itself_reports h hc r
  rw [hd, hreplace, Option.map_some, Option.some.injEq, Walk.decisions_eq_iff hd]
  by_cases hopen : w.slotLike c ∈ m.grammar.leftOpen m.limits decisions
  · rw [if_pos hopen]
    exact ⟨fun ⟨r2, hexact⟩ => (nomatch hexact), fun hclosed => absurd hopen hclosed.1⟩
  · rw [if_neg hopen, reports_exact]
    exact ⟨fun hstop => ⟨hopen, hstop⟩, And.right⟩

theorem replace_itself_closed (hg : m.grammar.StopsIn (· ≠ 0))
    (h : m.grammar.generate m.limits decisions = .ok w) (hc : c ∈ w.chunks) (r : ρ) :
    ∃ d r', w.chunks[w.slotLike c]? = some d ∧ m.replace w c c (w.decisionsOf c) r =
      .ok ⟨.replace, w, if d.decisions.stop = c.decisions.stop then .exact
        else .mismatch (d.decisions.stop - c.decisions.stop)⟩ r' := by
  obtain ⟨d, r', hd, hreplace⟩ := replace_itself_reports h hc r
  rw [Grammar.leftOpen_nil hg h, if_neg List.not_mem_nil] at hreplace
  exact ⟨d, r', hd, hreplace⟩

/-- Where no production can be left early, a chunk comes back in its own place if and only if the
first chunk that starts where it does, with its kind and at its depth, has its decisions. -/
theorem replace_itself_exact_closed (hg : m.grammar.StopsIn (· ≠ 0))
    (h : m.grammar.generate m.limits decisions = .ok w) (hc : c ∈ w.chunks) (r : ρ) :
    (∃ r', m.replace w c c (w.decisionsOf c) r = .ok ⟨.replace, w, .exact⟩ r') ↔
      (w.chunks[w.slotLike c]?).map Chunk.decisions = some c.decisions := by
  obtain ⟨d, r1, hd, hreplace⟩ := replace_itself_closed hg h hc r
  rw [hd, hreplace, Option.map_some, Option.some.injEq, Walk.decisions_eq_iff hd]
  exact reports_exact

def reported (result : EStateM.Result MutationError ρ (Mutation K)) :
    Except MutationError SpliceOutcome :=
  match result with
  | .ok made _ => .ok made.outcome
  | .error e _ => .error e

def behindEmpty (kind : String) : Grammar String Unit := do
  Grammar.inScope "empty" kind (pure ())
  Grammar.inScope "field" "field" (do
    let _ ← Grammar.request (.uintFull 1))

def stopsInside : Grammar String Unit :=
  Grammar.inScope "field" "field" (do
    let _ ← Grammar.request (.uintFull 1)
    .stop 0 "enough")

def brief (g : Grammar String Unit) : Mutator String := ⟨g, { streamCapacity := 4 }⟩

theorem replace_itself_exact_gap :
    ∃ w c r', (behindEmpty "gap").generate { streamCapacity := 4 } [5] = .ok w ∧ c ∈ w.chunks ∧
      c.decisions = ⟨0, 1⟩ ∧
      (brief (behindEmpty "gap")).replace w c c (w.decisionsOf c) (⟨#[7], 0⟩ : Cycle) =
        .ok ⟨.replace, w, .exact⟩ r' := by
  have hfound : ((behindEmpty "gap").generate { streamCapacity := 4 } [5]).toOption.any (fun w =>
      w.chunks[1]?.any fun c => decide (c.decisions = ⟨0, 1⟩ ∧
        w.slotLike c ∉ (behindEmpty "gap").leftOpen { streamCapacity := 4 } [5] ∧
        (w.chunks[w.slotLike c]?).map Chunk.decisions = some c.decisions)) = true := by
    decide +kernel
  obtain ⟨w, c, hw, hc, hdecisions, hlike⟩ := Grammar.generates_of_decide hfound
  obtain ⟨r', hreplace⟩ :=
    (replace_itself_exact (m := brief (behindEmpty "gap")) hw hc (⟨#[7], 0⟩ : Cycle)).2 hlike
  exact ⟨w, c, r', hw, hc, hdecisions, hreplace⟩

/-- Some chunks are not found in their own place: a watch takes an empty production for the field
behind it, and never sees a field stop that the walk ends in. -/
theorem replace_itself_not_exact :
    (∃ w c, (behindEmpty "field").generate { streamCapacity := 4 } [5] = .ok w ∧ c ∈ w.chunks ∧
      reported ((brief (behindEmpty "field")).replace w c c (w.decisionsOf c) (⟨#[7], 0⟩ : Cycle)) =
        .ok (.mismatch (-1))) ∧
    ∃ w c, stopsInside.generate { streamCapacity := 4 } [5] = .ok w ∧ c ∈ w.chunks ∧
      reported ((brief stopsInside).replace w c c (w.decisionsOf c) (⟨#[7], 0⟩ : Cycle)) =
        .error (.chunkNotCreated 0) := by
  constructor
  · have hfound : ((behindEmpty "field").generate { streamCapacity := 4 } [5]).toOption.any
        (fun w => w.chunks[1]?.any fun c => decide (reported ((brief (behindEmpty "field")).replace
          w c c (w.decisionsOf c) (⟨#[7], 0⟩ : Cycle)) = .ok (.mismatch (-1)))) = true := by
      decide +kernel
    exact Grammar.generates_of_decide hfound
  · have hfound : (stopsInside.generate { streamCapacity := 4 } [5]).toOption.any
        (fun w => w.chunks[0]?.any fun c => decide (reported ((brief stopsInside).replace
          w c c (w.decisionsOf c) (⟨#[7], 0⟩ : Cycle)) = .error (.chunkNotCreated 0))) = true := by
      decide +kernel
    exact Grammar.generates_of_decide hfound

end Mutator

end DecisionWalk
