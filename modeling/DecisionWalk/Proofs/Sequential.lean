import DecisionWalk.Proofs.Replaying
import DecisionWalk.Proofs.Serial

/-!
# Round trips of sequential grammars

A grammar that only makes sequential requests is walked alike in both
directions: what a parse records generates its input again, and a generated file
is parsed as it was made.
-/

set_option autoImplicit false

namespace DecisionWalk

open Image Walker Abreast Outline

variable {K α β : Type}

namespace Grammar

def Only (q : {β : Type} → Request β → Prop) : {α : Type} → Grammar K α → Prop
  | _, .done _ => True
  | _, .ask request next => q request ∧ ∀ b, (next b).Only q
  | _, .scope _ _ body next => body.Only q ∧ ∀ b, (next b).Only q
  | _, .withEvil _ body next => body.Only q ∧ ∀ b, (next b).Only q
  | _, .loop body _ next => (∀ a, (body a).Only q) ∧ ∀ b, (next b).Only q
  | _, .stop _ _ => True

variable {q : {β : Type} → Request β → Prop}

theorem only_pure (a : α) : (pure a : Grammar K α).Only q := trivial

theorem only_request {r : Request α} (h : q r) : (request r : Grammar K α).Only q :=
  ⟨h, fun _ => trivial⟩

theorem only_bind {g : Grammar K α} {f : α → Grammar K β} (hg : g.Only q)
    (hf : ∀ a, (f a).Only q) : (g >>= f).Only q := by
  show (g.bind f).Only q
  induction g with
  | done a => exact hf a
  | ask request next ih => exact ⟨hg.1, fun b => ih b (hg.2 b) hf⟩
  | scope name kind body next _ ih => exact ⟨hg.1, fun b => ih b (hg.2 b) hf⟩
  | withEvil allowed body next _ ih => exact ⟨hg.1, fun b => ih b (hg.2 b) hf⟩
  | loop body init next _ ih => exact ⟨hg.1, fun b => ih b (hg.2 b) hf⟩
  | stop code reason => trivial

variable [DecidableEq K]

theorem Only.always {p r : {β : Type} → Request β → State K → Prop} {g : Grammar K α} {s : State K}
    (hr : ∀ {β : Type} (x : Request β) (t : State K), q x → p x t → r x t) (hq : g.Only q)
    (hp : g.Always p s) : g.Always r s := by
  induction g generalizing s with
  | done a => trivial
  | ask request next ih =>
    exact ⟨hr request s hq.1 hp.1, fun b t h => ih b (hq.2 b) (hp.2 b t h)⟩
  | scope name kind body next ihb ih =>
    intro depth t h
    obtain ⟨hbody, hnext⟩ := hp depth t h
    exact ⟨ihb hq.1 hbody, fun b u v hrun hclose => ih b (hq.2 b) (hnext b u v hrun hclose)⟩
  | withEvil allowed body next ihb ih =>
    exact ⟨ihb hq.1 hp.1, fun b t h => ih b (hq.2 b) (hp.2 b t h)⟩
  | loop body init next ihb ih =>
    exact ⟨fun a t h => ihb a (hq.1 a) (hp.1 a t h), fun b t h => ih b (hq.2 b) (hp.2 b t h)⟩
  | stop code reason => trivial

def trace (g : Grammar K Unit) (limits : Limits) (origin : Origin) : Array Observation :=
  (g.runFrom limits origin []).log

end Grammar

theorem Level.of_edge {m : Mode} {c : Nat} {s : State K} (h : At m noHole (edge c) s) :
    Level s := by
  have hcur : s.image.cursor = c := h.shows.cursor
  have hsize : s.image.size = c := h.shows.size
  refine ⟨h.sound.mode.symm ▸ h.sound, hsize.trans hcur.symm, ?_⟩
  intro i
  rw [h.shows.fixedAt, hcur]
  simp only [edge]
  omega

section Start

variable {limits : Limits} {input decisions stream : Bytes}

theorem abreast_replay (hfile : input.length ≤ limits.fileCapacity) :
    Abreast .parse input.toArray (State.parsing limits input : State K)
      (State.generating limits decisions) := by
  have hl := State.parsing_at (K := K) limits input
  have hf := State.generating_at (K := K) limits decisions
  exact ⟨.of_edge hf, hl.agree hf, fun _ => hfile, (fun hm => nomatch hm), ⟨rfl, rfl⟩, rfl, rfl,
    rfl⟩

theorem abreast_reparse (capacity : Nat) :
    Abreast .generate input.toArray (State.generating limits stream : State K)
      (State.parsing { limits with streamCapacity := capacity } input) := by
  have hl := State.generating_at (K := K) limits stream
  have hf := State.parsing_at (K := K) { limits with streamCapacity := capacity } input
  exact ⟨.of_edge hf, hl.agree hf, (fun hm => nomatch hm), fun _ => ⟨rfl, rfl⟩,
    Tracker.alike_empty limits.maxDepth, rfl, rfl, rfl⟩

theorem abreast_regenerate (capacity : Nat) :
    Abreast .generate input.toArray (State.generating limits stream : State K)
      (State.generating { limits with streamCapacity := capacity } decisions) := by
  have hl := State.generating_at (K := K) limits stream
  have hf := State.generating_at (K := K) { limits with streamCapacity := capacity } decisions
  exact ⟨.of_edge hf, hl.agree hf, fun _ => Nat.le_refl _, (fun hm => nomatch hm),
    Tracker.alike_empty limits.maxDepth, rfl, rfl, rfl⟩

theorem ready_start {f : State K} (hp : f.stream.past = #[])
    (ha : f.mode = .generate → f.stream.ahead = decisions)
    (hc : decisions.length ≤ f.stream.capacity) : Ready decisions f := by
  refine ⟨fun hm => ha hm ▸ List.prefix_refl _, ?_⟩
  rw [Stream.position, hp, Array.size_empty]
  omega

end Start

theorem Level.fixed_iff {s : State K} (h : Level s) (i : Nat) :
    s.image.fixedAt i = true ↔ i < s.image.size := by
  rw [h.fixedAt, h.size]

namespace Grammar

variable [DecidableEq K] {g : Grammar K Unit} {limits : Limits} {w : Walk K}

/-- What a sequential parse records generates its input. -/
theorem parse_regenerates {input : Bytes}
    (hg : g.Always (fun r s => r.Orderly .parse s) (State.parsing limits input))
    (hfile : input.length ≤ limits.fileCapacity) (hword : input.length ≤ 2 ^ 64)
    (h : g.parse limits input = .ok w) :
    g.generate limits w.decisions = .ok ⟨.generate, input, w.decisions, w.chunks, w.points⟩ ∧
      g.trace limits (.decisions w.decisions) = g.trace limits (.input input) := by
  obtain ⟨ws, hrun⟩ := outcome_ok h
  have hlead : (lockstep .parse input.toArray).lead (State.parsing limits input : State K) :=
    ⟨.of_edge (State.parsing_at limits input), rfl, fun _ => ⟨rfl, hword⟩⟩
  obtain ⟨t, e, hconc, hfin, ⟨hlevel, hmode, hbytes⟩, ⟨d, hd, -, hde⟩, hfollow⟩ :=
    (lockstep .parse input.toArray).concludes hg hlead hrun
  obtain rfl := hde rfl
  obtain ⟨hcovered, hw⟩ := (t.finish_iff _).1 hfin
  cases hw
  have hs : Sound .parse t := hmode ▸ hlevel.sound
  have htold : t.ended.decisions = d := by
    show t.stream.past.toList = d
    rw [hd]
    simp [State.parsing, State.empty, Stream.empty]
  have hcap : d.length ≤ limits.streamCapacity := by
    rw [← htold]
    exact (concluded_retold hrun rfl (Nat.zero_le _)).1
  obtain ⟨f, hconcf, hp, htake⟩ := hfollow (State.generating limits d) (abreast_replay hfile)
    (ready_start rfl (fun _ => rfl) hcap) (fun hm => absurd hm (by decide))
  have hgen : f.mode = .generate := htake.mode
  have hsf : Sound .generate f := hgen ▸ hp.level.sound
  have hout : f.image.output = input := by
    rw [← hp.agree.output hs hsf (fun i => (hlevel.fixed_iff i).2) hcovered hsf.covered,
      output_parse hs, (hbytes rfl).1]
  obtain ⟨hpast, htracker⟩ := hp.ledger
  have hended : f.ended =
      ⟨.generate, input, t.ended.decisions, t.ended.chunks, t.ended.points⟩ := by
    rw [State.ended, hsf.mode, hout, htracker, ← hp.agree.cursor, Stream.consumed, Stream.position,
      hpast]
    rfl
  have hrunf : g.runFrom limits (.decisions t.ended.decisions) [] = ⟨f.finish, f.log⟩ := by
    rw [htold]
    exact (runFrom_decisions g hcap []).trans hconcf
  constructor
  · rw [generate, hrunf, (f.finish_iff _).2 ⟨hsf.covered, rfl⟩, hended]
    rfl
  · rw [trace, hrunf, ← hp.log]
    exact (congrArg Run.log hconc).symm

/-- The walks over a generated file, and those that generate it again, come to the ends of
theirs. -/
theorem generate_followed {stream : Bytes}
    (hg : g.Always (fun r s => r.Orderly .generate s) (State.generating limits stream))
    (h : g.generate limits stream = .ok w) :
    ∃ t e, Level t ∧ Sound .generate t ∧ w = t.ended ∧
      g.runFrom limits (.decisions stream) [] = ⟨t.finish, t.log⟩ ∧
      ∀ f, Abreast .generate w.file.toArray (State.generating limits stream) f → Ready e f →
        ∃ f', conclude (g.run f) = ⟨f'.finish, f'.log⟩ ∧
          Abreast .generate w.file.toArray t f' ∧ Takes e f f' := by
  obtain ⟨ws, hrun⟩ := outcome_ok h
  have hstart := runFrom_decisions g (runFrom_fits hrun) []
  have hlead : (lockstep .generate w.file.toArray).lead
      (State.generating limits stream : State K) :=
    ⟨.of_edge (State.generating_at limits stream), rfl, (fun hm => nomatch hm)⟩
  obtain ⟨t, e, hconc, hfin, ⟨hlevel, hmode, -⟩, -, hfollow⟩ :=
    (lockstep .generate w.file.toArray).concludes hg hlead (hstart ▸ hrun)
  obtain ⟨-, hw⟩ := (t.finish_iff _).1 hfin
  cases hw
  have hs : Sound .generate t := hmode ▸ hlevel.sound
  have hgiven : (lockstep .generate t.ended.file.toArray).given t :=
    fun _ => covers_output hs fun i => (hlevel.fixed_iff i).1
  exact ⟨t, e, hlevel, hs, rfl, hstart.trans hconc, fun f hp hr => hfollow f hp hr hgiven⟩

/-- A sequentially generated file is parsed as it was made, and generated again from that. -/
theorem generate_reparses {stream : Bytes}
    (hg : g.Always (fun r s => r.Orderly .generate s) (State.generating limits stream))
    (h : g.generate limits stream = .ok w) :
    ∃ decisions : Bytes, ∀ capacity, decisions.length ≤ capacity →
      ∃ p q, g.parse { limits with streamCapacity := capacity } w.file = .ok p ∧
        p.decisions = decisions ∧
        g.trace { limits with streamCapacity := capacity } (.input w.file) =
          g.trace limits (.decisions stream) ∧
        p.chunks.map Chunk.shape = w.chunks.map Chunk.shape ∧
        g.generate { limits with streamCapacity := capacity } decisions = .ok q ∧
        q.file = w.file := by
  obtain ⟨t, e, hlevel, hs, rfl, hrun, hfollow⟩ := generate_followed hg h
  refine ⟨e, ?_⟩
  intro capacity hcap
  obtain ⟨f, hf, hp, htake⟩ := hfollow _ (abreast_reparse capacity)
    (ready_start rfl (fun hm => nomatch hm) hcap)
  obtain ⟨u, hu, hpu, htakeu⟩ := hfollow _ (abreast_regenerate capacity)
    (ready_start rfl (fun _ => rfl) hcap)
  have hparse : f.mode = .parse := htake.mode
  have hsf : Sound .parse f := hparse ▸ hp.level.sound
  have hgen : u.mode = .generate := htakeu.mode
  have hsu : Sound .generate u := hgen ▸ hpu.level.sound
  have hcovered : f.image.inputLength?.getD 0 ≤ f.image.size := by
    have hsome : f.image.inputLength? = some f.image.bytes.size := hsf.input
    have hlength : t.ended.file.length = t.image.size := output_length hs
    rw [hsome, (hp.input hparse).2, ← hp.agree.size]
    exact Nat.le_of_eq hlength
  have halike : Tracker.Alike t.stream.position f.stream.position t.tracker f.tracker := hp.ledger
  refine ⟨f.ended, u.ended, ?_, ?_, ?_, ?_, ?_, ?_⟩
  · rw [parse_run, hf, (f.finish_iff _).2 ⟨hcovered, rfl⟩]
    rfl
  · show f.stream.past.toList = e
    rw [htake.stream]
    simp [State.parsing, State.empty, Stream.empty]
  · rw [trace, trace, hrun]
    exact (congrArg Run.log hf).trans hp.log.symm
  · have hclosed := halike.closeAll t.image.cursor
    rw [hp.agree.cursor] at hclosed
    show _ = (t.tracker.closeAll t.stream.position t.image.cursor).chunks.toList.map Chunk.shape
    rw [hp.agree.cursor]
    exact hclosed.shapes
  · rw [generate_run g hcap, hu, (u.finish_iff _).2 ⟨hsu.covered, rfl⟩]
    rfl
  · exact (hpu.agree.output hs hsu (fun i => (hlevel.fixed_iff i).2) hs.covered hsu.covered).symm

end Grammar

end DecisionWalk
