import DecisionWalk.Walk
import DecisionWalk.Proofs.Spending
import DecisionWalk.Proofs.Stops

/-!
# Round trips

Two walks of one grammar are linked from their first state to their last. Where
a grammar is followed in both directions, a parse gives the decisions that
generate its input, and a generated file can be parsed again.
-/

set_option autoImplicit false

namespace DecisionWalk

open Image Walker Outline

variable {K : Type}

namespace State

def parsing (limits : Limits) (input : Bytes) : State K :=
  { State.empty limits with
    mode := .parse
    image := (Image.empty limits.fileCapacity).forInput input }

def generating (limits : Limits) (decisions : Bytes) : State K :=
  { State.empty limits with stream := ⟨#[], decisions, limits.streamCapacity⟩ }

theorem parsing_at (limits : Limits) (input : Bytes) :
    At .parse noHole (edge 0) (parsing limits input : State K) := by
  refine ⟨⟨rfl, rfl, ?_, Nat.zero_le _, Nat.zero_le _, ?_⟩, ⟨rfl, rfl, ?_⟩, Nat.le_refl 0⟩
  · simp [parsing, forInput]
  · simp [parsing, forInput]
  · intro i
    simp only [parsing, forInput, fixedAt, edge, Array.getElem?_replicate]
    split <;> simp

theorem generating_at (limits : Limits) (decisions : Bytes) :
    At .generate noHole (edge 0) (generating limits decisions : State K) := by
  refine ⟨⟨rfl, rfl, rfl, Nat.zero_le _, Nat.zero_le _, rfl⟩, ⟨rfl, rfl, ?_⟩, Nat.le_refl 0⟩
  intro i
  simp [generating, State.empty, Image.empty, fixedAt, edge]

def ended (s : State K) : Walk K :=
  let (chunks, points) := s.tracker.finish s.stream.position s.image.cursor
  ⟨s.mode, s.image.output, s.stream.consumed, chunks, points⟩

theorem finish_iff (s : State K) (v : Walk K × List (Watch K)) :
    s.finish = .ok v ↔ s.image.inputLength?.getD 0 ≤ s.image.size ∧ v = (s.ended, s.watches) := by
  by_cases hsize : s.image.inputLength?.getD 0 ≤ s.image.size
  · have hfin : s.finish = .ok (s.ended, s.watches) := if_neg (by omega)
    rw [hfin, Except.ok.injEq]
    exact ⟨fun h => ⟨hsize, h.symm⟩, fun h => h.2.symm⟩
  · rw [finish, if_pos (by omega)]
    exact iff_of_false (fun h => nomatch h) fun h => hsize h.1

def walked (s : State K) : Walk K :=
  ⟨s.mode, s.image.output, s.stream.consumed, s.tracker.chunks.toList,
    s.tracker.points.reverse.mergeSort InsertionPoint.notAfter⟩

theorem finish_walked (s : State K) (hd : s.tracker.depth = 0) :
    s.finish = if s.image.inputLength?.getD 0 ≤ s.image.size then .ok (s.walked, s.watches)
      else .error (.structural s.image.size s.tracker.path
        (.uncovered (s.image.inputLength?.getD 0 - s.image.size))) := by
  have hc : s.tracker.closeAll s.stream.position s.image.cursor = s.tracker := by
    rw [Tracker.closeAll, hd]
    rfl
  by_cases hsize : s.image.inputLength?.getD 0 ≤ s.image.size
  · rw [if_pos hsize, finish, if_neg (by omega), Tracker.finish, hc]
    rfl
  · rw [if_neg hsize, finish, if_pos (by omega)]

end State

theorem At.fixed_iff {m : Mode} {hole : Span} {c : Nat} {s : State K}
    (h : At m hole (edge c) s) (i : Nat) : s.image.fixedAt i = true ↔ i < s.image.size := by
  have hsize : s.image.size = c := h.shows.size
  rw [h.shows.fixedAt, hsize]
  simp only [edge]
  omega

/-- Walks agree on what is fixed before they start: nothing. -/
theorem At.agree {m m' : Mode} {s t : State K} (hs : At m noHole (edge 0) s)
    (ht : At m' noHole (edge 0) t) : Agree noHole s.image t.image := by
  refine ⟨hs.shows.cursor.trans ht.shows.cursor.symm, hs.shows.size.trans ht.shows.size.symm,
    ?_, ?_⟩
  · intro i
    rw [Bool.eq_iff_iff, hs.shows.fixedAt, ht.shows.fixedAt]
  · intro i hi
    rw [hs.shows.fixedAt] at hi
    simp only [edge] at hi
    omega

theorem output_get {s : State K} (hs : Sound .generate s) {i : Nat} (hi : i < s.image.size) :
    s.image.output[i]? = some (s.image.byteAt i) := by
  have hlt : i < s.image.bytes.size := Nat.lt_of_lt_of_le hi hs.size_le
  have hnone : s.image.inputLength? = none := hs.input
  simp only [output, hnone, List.getElem?_take, if_pos hi, Array.getElem?_toList, byteAt,
    Array.getElem?_eq_getElem hlt, Option.getD_some]

theorem output_length {s : State K} (hs : Sound .generate s) :
    s.image.output.length = s.image.size := by
  have hle := hs.size_le
  have hnone : s.image.inputLength? = none := hs.input
  simp only [output, hnone, List.length_take, Array.length_toList]
  omega

theorem output_parse {s : State K} (hs : Sound .parse s) :
    s.image.output = s.image.bytes.toList := by
  have hsome : s.image.inputLength? = some s.image.bytes.size := hs.input
  simp only [output, hsome]

theorem Sound.covered {s : State K} (hs : Sound .generate s) :
    s.image.inputLength?.getD 0 ≤ s.image.size := by
  have hnone : s.image.inputLength? = none := hs.input
  rw [hnone]
  exact Nat.zero_le _

theorem output_window {m : Mode} {s : State K} (hs : Sound m s)
    (h : s.image.inputLength?.getD 0 ≤ s.image.size) :
    s.image.output = s.image.window 0 s.image.size := by
  cases m with
  | generate =>
    have hnone : s.image.inputLength? = none := hs.input
    simp [output, hnone, window]
  | parse =>
    have hsome : s.image.inputLength? = some s.image.bytes.size := hs.input
    rw [hsome] at h
    have hsize : s.image.size = s.image.bytes.size := Nat.le_antisymm hs.size_le h
    rw [output_parse hs, hsize, window, Nat.zero_add, Array.extract_size]

/-- Walks that leave the same layout behind leave the same file. -/
theorem Agree.output {m m' : Mode} {s t : State K} (h : Agree noHole s.image t.image)
    (hs : Sound m s) (ht : Sound m' t) (hfix : ∀ i, i < s.image.size → s.image.fixedAt i = true)
    (hws : s.image.inputLength?.getD 0 ≤ s.image.size)
    (hwt : t.image.inputLength?.getD 0 ≤ t.image.size) : s.image.output = t.image.output := by
  have hsize := h.size
  have hins := hs.size_le
  have hint := ht.size_le
  rw [output_window hs hws, output_window ht hwt, ← hsize]
  apply h.window (Nat.le_refl 0) ?_ (by omega) (by omega)
  intro j hj
  rw [Nat.zero_add]
  exact hfix j hj

/-- A generated file holds all that was fixed. -/
theorem covers_output {s : State K} (hs : Sound .generate s)
    (hfix : ∀ i, s.image.fixedAt i = true → i < s.image.size) :
    (Link.reparse s.image.output.toArray).Covers noHole s.image := by
  refine ⟨?_, ?_⟩
  · exact Nat.le_of_eq (output_length hs).symm
  · intro i hi _
    rw [List.getElem?_toArray, output_get hs (hfix i hi)]
    rfl

theorem ok_of_any {ε α : Type} {x : Except ε α} {p : α → Bool} (h : x.toOption.any p = true) :
    ∃ a, x = .ok a ∧ p a = true := by
  cases x with
  | error e => cases h
  | ok a => exact ⟨a, rfl, h⟩

namespace Grammar

variable [DecidableEq K]

theorem conclude_ok {g : Grammar K Unit} (hg : g.StopsIn (· ≠ 0)) {s : State K} {w : Walk K}
    (h : (conclude (g.run s)).outcome.map Prod.fst = .ok w) :
    ∃ t ws, g.run s = .ok () t ∧ t.finish = .ok (w, ws) := by
  cases hr : g.run s with
  | ok u t =>
    rw [hr] at h
    cases hf : t.finish with
    | error e =>
      simp only [conclude, hf] at h
      cases h
    | ok v =>
      simp only [conclude, hf] at h
      cases h
      exact ⟨t, v.2, rfl, hf⟩
  | error e t =>
    rw [hr] at h
    cases e with
    | grammarStop code reason =>
      have hcode := run_stopsIn hg s code reason t hr
      rw [conclude] at h
      · cases h
      · intro _ he
        cases he
        exact hcode rfl
    | _ =>
      simp only [conclude] at h
      cases h

omit [DecidableEq K] in
theorem conclude_walked {s : State K} (hd : s.tracker.depth = 0)
    (hsize : s.image.inputLength?.getD 0 ≤ s.image.size) :
    (conclude (.ok () s)).outcome.map Prod.fst = .ok s.walked := by
  simp only [conclude, s.finish_walked hd, if_pos hsize]
  rfl

theorem parse_run (g : Grammar K Unit) (limits : Limits) (input : Bytes) :
    g.parse limits input =
      (conclude (g.run (State.parsing limits input))).outcome.map Prod.fst := rfl

theorem runFrom_decisions (g : Grammar K Unit) {limits : Limits} {decisions : Bytes}
    (h : decisions.length ≤ limits.streamCapacity) (watches : List (Watch K)) :
    g.runFrom limits (.decisions decisions) watches =
      conclude (g.run { State.generating limits decisions with watches := watches }) := by
  have hseed : seed (.decisions decisions) (State.empty limits : State K) =
      .ok () (State.generating limits decisions) := by
    rw [seed, seedGenerate, Stream.seed,
      if_pos (show decisions.length ≤ (State.empty limits : State K).stream.capacity from h)]
    rfl
  rw [runFrom, hseed]

theorem runFrom_fits {g : Grammar K Unit} {limits : Limits} {decisions : Bytes}
    {watches : List (Watch K)} {v : Walk K × List (Watch K)}
    (h : (g.runFrom limits (.decisions decisions) watches).outcome = .ok v) :
    decisions.length ≤ limits.streamCapacity := by
  by_cases hd : decisions.length ≤ limits.streamCapacity
  · exact hd
  · have hseed : seed (.decisions decisions) (State.empty limits : State K) =
        .error (.capacityExceeded .stream limits.streamCapacity) (State.empty limits) := by
      rw [seed, seedGenerate, Stream.seed,
        if_neg (show ¬ decisions.length ≤ (State.empty limits : State K).stream.capacity from hd)]
      rfl
    rw [runFrom, hseed] at h
    cases h

omit [DecidableEq K] in
theorem outcome_ok {x : Except WalkError (Walk K × List (Watch K))} {w : Walk K}
    (h : x.map Prod.fst = .ok w) : ∃ ws, x = .ok (w, ws) := by
  cases x with
  | error e => cases h
  | ok v =>
    cases h
    exact ⟨v.2, rfl⟩

theorem generate_run (g : Grammar K Unit) {limits : Limits} {decisions : Bytes}
    (h : decisions.length ≤ limits.streamCapacity) :
    g.generate limits decisions =
      (conclude (g.run (State.generating limits decisions))).outcome.map Prod.fst := by
  rw [generate, runFrom_decisions g h]
  rfl

theorem generate_fits {g : Grammar K Unit} {limits : Limits} {decisions : Bytes} {w : Walk K}
    (h : g.generate limits decisions = .ok w) : decisions.length ≤ limits.streamCapacity := by
  obtain ⟨ws, hrun⟩ := outcome_ok h
  exact runFrom_fits hrun

end Grammar

theorem Tracker.alike_empty (maxDepth : Nat) :
    Alike 0 0 (Tracker.empty maxDepth : Tracker K) (Tracker.empty maxDepth) := by
  refine ⟨rfl, fun _ => rfl, rfl, rfl, rfl, rfl, rfl, ⟨?_, ?_⟩, ?_⟩
  · intro g hg
    cases hg
  · intro g hg
    cases hg
  · intro slot c d hs
    cases hs

section Start

variable {limits limits' : Limits} {input decisions : Bytes}

theorem pairs_replay (hevil : limits'.allowEvil = limits.allowEvil) (hdepth : 2 ≤ limits'.maxDepth)
    (hfile : input.length ≤ limits'.fileCapacity)
    (hstream : decisions.length ≤ limits'.streamCapacity) :
    Pairs (.replay decisions) noHole 2 (State.parsing limits input : State K)
      (State.generating limits' decisions) := by
  have hl := State.parsing_at (K := K) limits input
  have hg := State.generating_at (K := K) limits' decisions
  refine ⟨hg.sound, hl.agree hg, hfile, ⟨rfl, rfl, hstream⟩, ⟨rfl, hdepth⟩, rfl, ?_, rfl⟩
  · show EvilBit.mk limits.allowEvil = ⟨limits'.allowEvil⟩
    rw [hevil]

theorem pairs_reparse (hstream : decisions.length ≤ limits.streamCapacity)
    (hsize : input.length ≤ 2 ^ 32) :
    Pairs (.reparse input.toArray) noHole 2 (State.generating limits decisions : State K)
      (State.parsing limits input) := by
  have hl := State.generating_at (K := K) limits decisions
  have hg := State.parsing_at (K := K) limits input
  refine ⟨hg.sound, hl.agree hg, ⟨rfl, hsize⟩, ⟨Nat.le_refl _, ?_, Nat.le_refl _⟩, ?_, rfl, rfl,
    rfl⟩
  · show 0 + decisions.length ≤ limits.streamCapacity
    omega
  · exact Tracker.alike_empty limits.maxDepth

end Start

structure Faithful [DecidableEq K] (g : Grammar K Unit) : Prop where
  follows : ∀ k : Link, Follows k noHole 2 (edge 0) g.run (fun _ => Past 0) fun _ s => k.Whole s
  spends : Spends noHole (edge 0) g.run fun _ => True
  stops : g.StopsIn (· ≠ 0)

namespace Faithful

variable [DecidableEq K] {g : Grammar K Unit} {limits limits' : Limits} {w : Walk K}

/-- What a successful walk of a faithful grammar ends in. -/
theorem ended {m : Mode} (hg : Faithful g) (k : Link) (hk : k.leader = m) {s : State K}
    (hs : At m noHole (edge 0) s) (hd : s.tracker.depth = 0)
    (h : (Grammar.conclude (g.run s)).outcome.map Prod.fst = .ok w) :
    ∃ t c, g.run s = .ok () t ∧ At m noHole (edge c) t ∧ Grows noHole s t ∧ w = t.walked ∧
      t.image.inputLength?.getD 0 ≤ t.image.size ∧
      ∀ f, Pairs k noHole 2 s f → k.Within noHole t → k.Whole t →
        ∃ f', g.run f = .ok () f' ∧ Pairs k noHole 2 t f' := by
  subst hk
  obtain ⟨t, ws, hrun, hfin⟩ := Grammar.conclude_ok hg.stops h
  obtain ⟨_, ⟨c, -, rfl⟩, ht, hgrows, hfollow⟩ := hg.follows k s () t hs hrun
  rw [t.finish_walked (hgrows.depth.trans hd)] at hfin
  split at hfin
  case isFalse => cases hfin
  case isTrue hsize =>
    cases hfin
    refine ⟨t, c, hrun, ht, hgrows, rfl, hsize, ?_⟩
    intro f hp hin hwhole
    obtain ⟨f', hrun', hp', -⟩ := hfollow f hp hin hwhole
    exact ⟨f', hrun', hp'⟩

/-- The decisions of a parse generate its input. -/
theorem generates (hg : Faithful g) {input : Bytes} (h : g.parse limits input = .ok w)
    (hevil : limits'.allowEvil = limits.allowEvil) (hdepth : 2 ≤ limits'.maxDepth)
    (hfile : input.length ≤ limits'.fileCapacity)
    (hstream : w.decisions.length ≤ limits'.streamCapacity) :
    g.generate limits' w.decisions =
      .ok ⟨.generate, input, w.decisions, w.chunks, w.points⟩ := by
  rw [Grammar.parse_run] at h
  obtain ⟨t, c, hrun, ht, hgrows, rfl, hsize, hfollow⟩ :=
    hg.ended (.replay w.decisions) rfl (State.parsing_at limits input) rfl h
  obtain ⟨f, hrunf, hp⟩ := hfollow _ (pairs_replay hevil hdepth hfile hstream)
    ⟨List.prefix_refl _, trivial⟩ trivial
  have hbytes : t.image.bytes = input.toArray := hgrows.input rfl
  have hfile : f.image.output = input := by
    rw [← hp.agree.output ht.sound hp.sound (fun i hi => (ht.fixed_iff i).2 hi) hsize
      hp.sound.covered, output_parse ht.sound, hbytes]
  have htracker : f.tracker = t.tracker.limited f.tracker.maxDepth := hp.books.1
  have hwalked : f.walked = ⟨.generate, input, t.walked.decisions, t.walked.chunks,
      t.walked.points⟩ := by
    rw [State.walked, hfile, htracker, hp.sound.mode, Stream.consumed, hp.tapes.1]
    rfl
  have hdepth' : f.tracker.depth = 0 := hp.books.depth.symm.trans hgrows.depth
  rw [Grammar.generate_run g hstream, hrunf, Grammar.conclude_walked hdepth' hp.sound.covered,
    hwalked]

/-- A generated file can be parsed, into chunks of the same shape and into no more decisions. -/
theorem parses (hg : Faithful g) {decisions : Bytes} (hcap : limits.fileCapacity ≤ 2 ^ 32)
    (h : g.generate limits decisions = .ok w) :
    w.decisions.length ≤ decisions.length ∧ ∃ p, g.parse limits w.file = .ok p ∧
      p.file = w.file ∧ p.chunks.map Chunk.shape = w.chunks.map Chunk.shape ∧
      p.decisions.length ≤ w.decisions.length := by
  have hstream := Grammar.generate_fits h
  rw [Grammar.generate_run g hstream] at h
  obtain ⟨t, c, hrun, ht, hgrows, rfl, -, hfollow⟩ :=
    hg.ended (.reparse w.file.toArray) rfl (State.generating_at limits decisions) rfl h
  have hlength : t.walked.file.length = t.image.size := output_length ht.sound
  have hsize : t.walked.file.length ≤ 2 ^ 32 := by
    have hlimit := ht.sound.size_limit
    rw [hgrows.limit] at hlimit
    rw [hlength]
    exact Nat.le_trans hlimit hcap
  have hcovers : (Link.reparse t.walked.file.toArray).Within noHole t :=
    ⟨trivial, covers_output ht.sound fun i hi => (ht.fixed_iff i).1 hi⟩
  have hwhole : (Link.reparse t.walked.file.toArray).Whole t := Nat.le_of_eq hlength
  obtain ⟨f, hrunf, hp⟩ := hfollow _ (pairs_reparse hstream hsize) hcovers hwhole
  obtain ⟨e, hspent, -, hlen⟩ := hg.spends _ _ t (State.generating_at limits decisions) hrun trivial
  have hbytes : f.image.bytes = t.walked.file.toArray := hp.room.1
  have halike : Tracker.Alike t.stream.position f.stream.position t.tracker f.tracker := hp.books
  have hdepth : f.tracker.depth = 0 := hp.books.depth.symm.trans hgrows.depth
  refine ⟨?_, f.walked, ?_, ?_, ?_, ?_⟩
  · show t.stream.consumed.length ≤ decisions.length
    rw [hspent, Stream.recorded_consumed]
    exact hlen
  · rw [Grammar.parse_run, hrunf, Grammar.conclude_walked hdepth ?_]
    have hsome : f.image.inputLength? = some f.image.bytes.size := hp.sound.input
    rw [hsome, hbytes, ← hp.agree.size]
    exact Nat.le_of_eq hlength
  · show f.image.output = _
    rw [output_parse hp.sound, hbytes]
  · exact halike.shapes
  · exact hp.tapes.1

end Faithful

end DecisionWalk
