import DecisionWalk.Proofs.Following
import DecisionWalk.Proofs.Passing

/-!
# Where a walk stops

Only a `stop` of the grammar itself stops a walk with a status: no request does.
So a walk stops only with statuses that its grammar states. What a grammar states
can be read off its tree, and so can the names that it gives its productions.
-/

set_option autoImplicit false

namespace DecisionWalk

variable {K α β σ : Type}

def Quiet (x : Walker K α) : Prop :=
  ∀ s code reason t, x s ≠ .error (.grammarStop code reason) t

namespace Quiet

theorem pure (a : α) : Quiet (pure a : Walker K α) := by
  intro s code reason t h
  cases h

theorem get : Quiet (get : Walker K (State K)) := by
  intro s code reason t h
  cases h

theorem defect (d : Defect) : Quiet (throw (.defect d) : Walker K α) := by
  intro s code reason t h
  cases h

/-- What requests do, they do without a stop. -/
theorem orderly {x : Walker K α} (hx : Orderly x) : Quiet x := by
  intro s code reason t h
  have hend := hx s
  rw [h] at hend
  exact hend.2

theorem answer {α : Type} (r : Request α) : Quiet (r.answer : Walker K α) := orderly (.answer r)

theorem fixedSlice (start stop : Nat) : Quiet (Walker.fixedSlice start stop : Walker K Bytes) :=
  orderly (.fixedSlice start stop)

theorem openScope [DecidableEq K] (name : String) (kind : K) :
    Quiet (Walker.openScope name kind) := by
  intro s code reason t h
  rw [Walker.openScope] at h
  split at h <;> cases h

theorem closeScope (depth : Nat) : Quiet (Walker.closeScope depth : Walker K Unit) := by
  intro s code reason t h
  cases h

end Quiet

def Grammar.StopsIn (p : Int → Prop) : {α : Type} → Grammar K α → Prop
  | _, .done _ => True
  | _, .ask _ next => ∀ b, (next b).StopsIn p
  | _, .scope _ _ body next => body.StopsIn p ∧ ∀ b, (next b).StopsIn p
  | _, .withEvil _ body next => body.StopsIn p ∧ ∀ b, (next b).StopsIn p
  | _, .loop body _ next => (∀ a, (body a).StopsIn p) ∧ ∀ b, (next b).StopsIn p
  | _, .stop code _ => p code

def Grammar.ScopesIn (p : String → Prop) : {α : Type} → Grammar K α → Prop
  | _, .done _ => True
  | _, .ask _ next => ∀ b, (next b).ScopesIn p
  | _, .scope name _ body next => p name ∧ body.ScopesIn p ∧ ∀ b, (next b).ScopesIn p
  | _, .withEvil _ body next => body.ScopesIn p ∧ ∀ b, (next b).ScopesIn p
  | _, .loop body _ next => (∀ a, (body a).ScopesIn p) ∧ ∀ b, (next b).ScopesIn p
  | _, .stop _ _ => True

def Grammar.Within (names : String → Prop) (p : Int → Prop) : {α : Type} → Grammar K α → Prop
  | _, .done _ => True
  | _, .ask _ next => ∀ b, (next b).Within names p
  | _, .scope name _ body next => names name ∧ body.Within names p ∧ ∀ b, (next b).Within names p
  | _, .withEvil _ body next => body.Within names p ∧ ∀ b, (next b).Within names p
  | _, .loop body _ next => (∀ a, (body a).Within names p) ∧ ∀ b, (next b).Within names p
  | _, .stop code _ => p code

namespace Grammar

variable {p : Int → Prop} {names : String → Prop}

theorem within_request (r : Request α) : (request r : Grammar K α).Within names p :=
  fun _ => trivial

theorem within_bind {g : Grammar K α} {f : α → Grammar K β} (hg : g.Within names p)
    (hf : ∀ a, (f a).Within names p) : (g >>= f).Within names p := by
  show (g.bind f).Within names p
  induction g with
  | done a => exact hf a
  | ask request next ih => exact fun b => ih b (hg b) hf
  | scope name kind body next ihb ih => exact ⟨hg.1, hg.2.1, fun b => ih b (hg.2.2 b) hf⟩
  | withEvil allowed body next ihb ih => exact ⟨hg.1, fun b => ih b (hg.2 b) hf⟩
  | loop body init next ihb ih => exact ⟨hg.1, fun b => ih b (hg.2 b) hf⟩
  | stop code reason => exact hg

theorem within_literal (w : Nat) (bs : Bytes) :
    (discard (underEvil false (request (.bytesKnown w [bs]))) : Grammar K Unit).Within names p :=
  ⟨fun _ => trivial, fun _ => trivial⟩

theorem Within.stops {g : Grammar K α} (h : g.Within names p) {q : Int → Prop}
    (hq : ∀ code, p code → q code) : g.StopsIn q := by
  induction g with
  | done a => trivial
  | ask request next ih => exact fun b => ih b (h b)
  | scope name kind body next ihb ih => exact ⟨ihb h.2.1, fun b => ih b (h.2.2 b)⟩
  | withEvil allowed body next ihb ih => exact ⟨ihb h.1, fun b => ih b (h.2 b)⟩
  | loop body init next ihb ih => exact ⟨fun a => ihb a (h.1 a), fun b => ih b (h.2 b)⟩
  | stop code reason => exact hq code h

theorem Within.scopes {g : Grammar K α} (h : g.Within names p) {q : String → Prop}
    (hq : ∀ name, names name → q name) : g.ScopesIn q := by
  induction g with
  | done a => trivial
  | ask request next ih => exact fun b => ih b (h b)
  | scope name kind body next ihb ih => exact ⟨hq name h.1, ihb h.2.1, fun b => ih b (h.2.2 b)⟩
  | withEvil allowed body next ihb ih => exact ⟨ihb h.1, fun b => ih b (h.2 b)⟩
  | loop body init next ihb ih => exact ⟨fun a => ihb a (h.1 a), fun b => ih b (h.2 b)⟩
  | stop code reason => trivial

def StopsWalk (p : Int → Prop) (x : Walker K α) : Prop :=
  ∀ s code reason t, x s = .error (.grammarStop code reason) t → p code

theorem StopsWalk.quiet {x : Walker K α} (h : Quiet x) : StopsWalk p x := by
  intro s code reason t hx
  exact absurd hx (h s code reason t)

theorem StopsWalk.bind {x : Walker K α} {f : α → Walker K β} (hx : StopsWalk p x)
    (hf : ∀ a, StopsWalk p (f a)) : StopsWalk p (x >>= f) := by
  intro s code reason t h
  cases hr : x s with
  | ok a u =>
    rw [Walker.bind_run hr] at h
    exact hf a u code reason t h
  | error e u =>
    rw [Walker.bind_error hr] at h
    cases h
    exact hx s code reason _ hr

theorem StopsWalk.composes (p : Int → Prop) :
    Composes (K := K) fun _ x => StopsWalk p x where
  pure _ a := quiet (Quiet.pure a)
  stalled _ := quiet (Quiet.defect _)
  bind _ _ _ _ hx hf := hx.bind hf
  reads _ _ hf := (quiet Quiet.get).bind fun s => hf s.stream

theorem StopsWalk.withEvil {x : Walker K α} (hx : StopsWalk p x) (allowed : Bool) :
    StopsWalk p (Walker.withEvil allowed x) := by
  intro s code reason t h
  rw [Walker.withEvil] at h
  cases hr : x { s with evil := ⟨allowed⟩ } with
  | ok a u =>
    rw [hr] at h
    cases h
  | error e u =>
    rw [hr] at h
    cases h
    exact hx _ code reason u hr

/-- A walk stops only with a status that its grammar states. -/
theorem run_stopsIn [DecidableEq K] {g : Grammar K α} (hg : g.StopsIn p) : StopsWalk p g.run := by
  induction g with
  | done a => exact .quiet (Quiet.pure a)
  | ask request next ih => exact (StopsWalk.quiet (Quiet.answer request)).bind fun b => ih b (hg b)
  | scope name kind body next ihb ih =>
    exact (StopsWalk.quiet (Quiet.openScope name kind)).bind fun depth => (ihb hg.1).bind fun b =>
      (StopsWalk.quiet (Quiet.closeScope depth)).bind fun _ => ih b (hg.2 b)
  | withEvil allowed body next ihb ih =>
    exact ((ihb hg.1).withEvil allowed).bind fun b => ih b (hg.2 b)
  | loop body init next ihb ih =>
    exact (StopsWalk.quiet Quiet.get).bind fun s =>
      ((StopsWalk.composes p).iterate (fun a => ihb a (hg.1 a)) _ init).bind fun b => ih b (hg.2 b)
  | stop code reason =>
    intro s code' reason' t h
    cases h
    exact hg

end Grammar

end DecisionWalk
