import DecisionWalk.Walk
import DecisionWalk.Proofs.Stops

/-!
# Walks in lockstep

One walk leads and others follow it through the same grammar. A bond says which
states belong together; where every request of the leader keeps the bond, the
whole walk does, through scopes, branches and loops. The leader's way through
the grammar fixes one list of decisions that every follower takes, whether it
reads or records them.
-/

set_option autoImplicit false

namespace DecisionWalk

open Walker

variable {K α β σ : Type}

abbrev Ending (α : Type) := Except (Int × String) α

namespace Ending

def inState (o : Ending α) (s : State K) : EStateM.Result WalkError (State K) α :=
  match o with
  | .ok a => .ok a s
  | .error (code, reason) => .error (.grammarStop code reason) s

def Succeeds : Ending α → Prop
  | .ok _ => True
  | .error (code, _) => code = 0

theorem inState_ok (a : α) (s : State K) : inState (.ok a) s = .ok a s := rfl

theorem ok_eq {o : Ending α} {a : α} {s t : State K} (h : .ok a s = o.inState t) :
    o = .ok a ∧ t = s := by
  cases o with
  | ok b =>
    cases h
    exact ⟨rfl, rfl⟩
  | error c => cases h

theorem error_eq {o : Ending α} {e : WalkError} {s t : State K} (h : .error e s = o.inState t) :
    ∃ code reason, o = .error (code, reason) ∧ e = .grammarStop code reason ∧ t = s := by
  cases o with
  | ok b => cases h
  | error c =>
    cases h
    exact ⟨c.1, c.2, rfl, rfl, rfl⟩

/-- A sequence ends where its first part stops, or else as its second part does. -/
theorem of_bind {x : Walker K α} {f : α → Walker K β} {o : Ending β} {s u : State K}
    (h : (x >>= f) s = o.inState u) :
    (∃ a t, x s = .ok a t ∧ f a t = o.inState u) ∨
      ∃ c, o = .error c ∧ x s = inState (.error c) u := by
  cases hx : x s with
  | ok a t =>
    rw [bind_run hx] at h
    exact Or.inl ⟨a, t, rfl, h⟩
  | error e t =>
    rw [bind_error hx] at h
    obtain ⟨code, reason, rfl, rfl, rfl⟩ := error_eq h
    exact Or.inr ⟨(code, reason), rfl, rfl⟩

theorem bind_stopped {x : Walker K α} {f : α → Walker K β} {c : Int × String} {s u : State K}
    (h : x s = inState (.error c) u) : (x >>= f) s = inState (.error c) u :=
  bind_error h

theorem of_quiet {x : Walker K α} (hx : Quiet x) {o : Ending α} {s t : State K}
    (h : x s = o.inState t) : ∃ a, o = .ok a ∧ x s = .ok a t := by
  cases o with
  | ok a => exact ⟨a, rfl, h⟩
  | error c => exact absurd h (hx s c.1 c.2 t)

theorem withEvil_ends {allowed : Bool} {x : Walker K α} {o : Ending α} {s t : State K}
    (h : x { s with evil := ⟨allowed⟩ } = o.inState t) :
    Walker.withEvil allowed x s = o.inState { t with evil := s.evil } := by
  rw [Walker.withEvil, h]
  cases o <;> rfl

theorem of_withEvil {allowed : Bool} {x : Walker K α} {o : Ending α} {s u : State K}
    (h : Walker.withEvil allowed x s = o.inState u) :
    ∃ t, x { s with evil := ⟨allowed⟩ } = o.inState t ∧ u = { t with evil := s.evil } := by
  rw [Walker.withEvil] at h
  cases hr : x { s with evil := ⟨allowed⟩ } with
  | ok a t =>
    rw [hr] at h
    obtain ⟨rfl, rfl⟩ := ok_eq h
    exact ⟨t, rfl, rfl⟩
  | error e t =>
    rw [hr] at h
    obtain ⟨code, reason, rfl, rfl, rfl⟩ := error_eq h
    exact ⟨t, rfl, rfl⟩

end Ending

open Ending

structure Ready (e : Bytes) (f : State K) : Prop where
  ahead : f.mode = .generate → e <+: f.stream.ahead
  room : f.stream.position + e.length ≤ f.stream.capacity

structure Takes (e : Bytes) (f g : State K) : Prop where
  stream : g.stream = f.stream.recorded e
  mode : g.mode = f.mode

theorem Ready.first {e d : Bytes} {f : State K} (h : Ready (e ++ d) f) : Ready e f := by
  refine ⟨fun hm => (List.prefix_append e d).trans (h.ahead hm), ?_⟩
  have := h.room
  rw [List.length_append] at this
  omega

theorem Ready.rest {e d : Bytes} {f g : State K} (h : Ready (e ++ d) f) (ht : Takes e f g) :
    Ready d g := by
  refine ⟨?_, ?_⟩
  · intro hm
    obtain ⟨r, hr⟩ := h.ahead (ht.mode ▸ hm)
    rw [ht.stream, Stream.recorded_ahead, ← hr, List.append_assoc, List.drop_left]
    exact List.prefix_append d r
  · have := h.room
    rw [List.length_append] at this
    rw [ht.stream, Stream.recorded_position, Stream.recorded_capacity]
    omega

theorem Ready.position_le {e : Bytes} {f : State K} (h : Ready e f) :
    f.stream.position ≤ f.stream.capacity := by
  have := h.room
  omega

theorem Takes.refl (f : State K) : Takes [] f f := ⟨(Stream.recorded_nil _).symm, rfl⟩

theorem Takes.trans {e d : Bytes} {f g h : State K} (hf : Takes e f g) (hg : Takes d g h) :
    Takes (e ++ d) f h :=
  ⟨by rw [hg.stream, hf.stream, Stream.recorded_recorded], hg.mode.trans hf.mode⟩

theorem Takes.position {e : Bytes} {f g : State K} (h : Takes e f g) :
    g.stream.position = f.stream.position + e.length := by
  rw [h.stream, Stream.recorded_position]

theorem Takes.capacity {e : Bytes} {f g : State K} (h : Takes e f g) :
    g.stream.capacity = f.stream.capacity := by
  rw [h.stream, Stream.recorded_capacity]

structure Bond (K : Type) where
  lead : State K → Prop
  given : State K → Prop
  pair : State K → State K → Prop
  exact : Prop

namespace Bond

variable (B : Bond K)

def Moves (e : Bytes) (l l' : State K) : Prop :=
  ∃ d : Bytes, l'.stream.past = l.stream.past ++ d ∧ (d = [] ↔ e = []) ∧ (B.exact → d = e)

variable {B}

theorem Moves.refl (l : State K) : B.Moves [] l l :=
  ⟨[], by simp, Iff.rfl, fun _ => rfl⟩

theorem Moves.trans {e e' : Bytes} {l l' l'' : State K} (h : B.Moves e l l')
    (h' : B.Moves e' l' l'') : B.Moves (e ++ e') l l'' := by
  obtain ⟨d, hd, hn, hx⟩ := h
  obtain ⟨d', hd', hn', hx'⟩ := h'
  refine ⟨d ++ d', ?_, ?_, ?_⟩
  · rw [hd', hd]
    exact Array.ext' (by simp)
  · simp [hn, hn']
  · intro he
    rw [hx he, hx' he]

theorem Moves.position {e : Bytes} {l l' : State K} (h : B.Moves e l l') :
    l.stream.position ≤ l'.stream.position ∧
      (l'.stream.position = l.stream.position ↔ e = []) := by
  obtain ⟨d, hd, hn, -⟩ := h
  have hp : l'.stream.position = l.stream.position + d.length := by
    rw [Stream.position, Stream.position, hd, ← Array.length_toList, Array.toList_appendList,
      List.length_append, Array.length_toList]
  refine ⟨by omega, ?_⟩
  rw [← hn, ← List.length_eq_zero_iff]
  omega

variable (B)

/-- However `x` ends for the leader in state `l`, unless it fails, it ends so for all followers. -/
def Leads (x : Walker K α) (l : State K) : Prop :=
  ∀ (o : Ending α) (l' : State K), B.lead l → x l = o.inState l' →
    B.lead l' ∧ (B.given l' → B.given l) ∧ ∃ e, B.Moves e l l' ∧
      ∀ f, B.pair l f → Ready e f → B.given l' →
        ∃ f', x f = o.inState f' ∧ B.pair l' f' ∧ Takes e f f'

def Led (x : Walker K α) (o : Ending α) (l l' : State K) : Prop :=
  B.lead l' ∧ (B.given l' → B.given l) ∧ ∃ e, B.Moves e l l' ∧
    ∀ f, B.pair l f → Ready e f → B.given l' →
      ∃ f', x f = o.inState f' ∧ B.pair l' f' ∧ Takes e f f'

variable {B}

theorem Led.alike {x : Walker K α} {y : Walker K β} {o : Ending α} {o' : Ending β}
    {l l' : State K} (h : B.Led x o l l')
    (hy : ∀ e f f', B.Moves e l l' → Takes e f f' → x f = o.inState f' → y f = o'.inState f') :
    B.Led y o' l l' := by
  obtain ⟨hl', hg, e, hm, hfollow⟩ := h
  refine ⟨hl', hg, e, hm, ?_⟩
  intro f hp hr hin
  obtain ⟨f', hrun, hp', ht⟩ := hfollow f hp hr hin
  exact ⟨f', hy e f f' hm ht hrun, hp', ht⟩

theorem Led.next {x : Walker K α} {y z : Walker K β} {a : α} {o : Ending β} {l m l' : State K}
    (h : B.Led x (.ok a) l m) (h' : B.Led y o m l')
    (hz : ∀ e f g f', B.Moves e l m → Takes e f g → x f = .ok a g → y g = o.inState f' →
      z f = o.inState f') : B.Led z o l l' := by
  obtain ⟨-, hg, e, hm, hfollow⟩ := h
  obtain ⟨hl', hg', e', hm', hfollow'⟩ := h'
  refine ⟨hl', fun h => hg (hg' h), e ++ e', hm.trans hm', ?_⟩
  intro f hp hr hin
  obtain ⟨g, hrun, hp', ht⟩ := hfollow f hp hr.first (hg' hin)
  obtain ⟨f', hrun', hp'', ht'⟩ := hfollow' g hp' (hr.rest ht) hin
  exact ⟨f', hz e f g f' hm ht hrun hrun', hp'', ht.trans ht'⟩

theorem Leads.quietly {x : Walker K α} {l : State K} (hq : Quiet x)
    (h : ∀ a l', B.lead l → x l = .ok a l' →
      B.lead l' ∧ (B.given l' → B.given l) ∧ ∃ e, B.Moves e l l' ∧
        ∀ f, B.pair l f → Ready e f → B.given l' →
          ∃ f', x f = .ok a f' ∧ B.pair l' f' ∧ Takes e f f') : B.Leads x l := by
  intro o l' hl hx
  obtain ⟨a, rfl, hx⟩ := of_quiet hq hx
  exact h a l' hl hx

/-- An action that takes no decision. -/
theorem Leads.still {x : Walker K α} {l : State K} (hq : Quiet x)
    (h : ∀ a l', B.lead l → x l = .ok a l' →
      B.lead l' ∧ (B.given l' → B.given l) ∧ l'.stream = l.stream ∧
        ∀ f, B.pair l f → ∃ f', x f = .ok a f' ∧ B.pair l' f' ∧ f'.stream = f.stream ∧
          f'.mode = f.mode) : B.Leads x l := by
  apply quietly hq
  intro a l' hl hx
  obtain ⟨hl', hg, hs, hf⟩ := h a l' hl hx
  refine ⟨hl', hg, [], ⟨[], by simp [hs], Iff.rfl, fun _ => rfl⟩, ?_⟩
  intro f hp _ _
  obtain ⟨f', hrun, hp', hs', hm⟩ := hf f hp
  exact ⟨f', hrun, hp', by rw [hs', Stream.recorded_nil], hm⟩

theorem Leads.failing {x : Walker K α} {l : State K} (hq : Quiet x)
    (h : ∀ a l', x l ≠ .ok a l') : B.Leads x l :=
  quietly hq fun a l' _ hx => absurd hx (h a l')

theorem Leads.pure (a : α) (l : State K) : B.Leads (pure a) l := by
  apply still (Quiet.pure a)
  intro b l' hl h
  cases h
  exact ⟨hl, fun h => h, rfl, fun f hp => ⟨f, rfl, hp, rfl, rfl⟩⟩

theorem Leads.bind {x : Walker K α} {f : α → Walker K β} {l : State K} (hx : B.Leads x l)
    (hf : ∀ a l', x l = .ok a l' → B.Leads (f a) l') : B.Leads (x >>= f) l := by
  intro o l'' hl h
  rcases of_bind h with ⟨a, l', h1, h2⟩ | ⟨c, rfl, h1⟩
  · have hled : B.Led x (.ok a) l l' := hx (.ok a) l' hl h1
    have hled' : B.Led (f a) o l' l'' := hf a l' h1 o l'' hled.1 h2
    exact hled.next hled' fun _ _ _ _ _ _ hrun hrun' => (bind_run hrun).trans hrun'
  · have hled : B.Led x (.error c) l l'' := hx (.error c) l'' hl h1
    exact hled.alike fun _ _ _ _ _ hrun => bind_stopped hrun

end Bond

inductive Rounds (step : σ → Walker K (σ ⊕ β)) : σ → State K → σ → State K → Prop where
  | here (a : σ) (s : State K) : Rounds step a s a s
  | next {a b c : σ} {s t u : State K} (h : step a s = .ok (.inl b) t)
      (rest : Rounds step b t c u) : Rounds step a s c u

theorem Rounds.trans {step : σ → Walker K (σ ⊕ β)} {a b c : σ} {s t u : State K}
    (h : Rounds step a s b t) (h' : Rounds step b t c u) : Rounds step a s c u := by
  induction h with
  | here a s => exact h'
  | next hs _ ih => exact .next hs (ih h')

theorem settle_rounds {step : σ → Walker K (σ ⊕ β)} {start idle : Nat} {a b : σ} {s t : State K}
    (h : Grammar.settle step start idle a s = .ok (.inl b) t) : Rounds step a s b t := by
  induction idle generalizing a s with
  | zero => exact absurd h (throw_not_ok _ _ _ _)
  | succ idle ih =>
    cases hx : step a s with
    | error e u =>
      rw [settle_error hx] at h
      cases h
    | ok r u =>
      cases r with
      | inr c =>
        rw [settle_inr hx] at h
        cases h
      | inl again =>
        rw [settle_inl hx] at h
        by_cases hm : start < u.stream.position
        · rw [if_pos hm] at h
          cases h
          exact .next hx (.here _ _)
        · rw [if_neg hm] at h
          exact .next hx (ih h)

namespace Bond

variable {B : Bond K} {step : σ → Walker K (σ ⊕ β)}

theorem Led.settled {idle : Nat} {a again : σ} {l u : State K}
    (h : B.Led (step a) (.ok (.inl again)) l u)
    (hmoved : l.stream.position < u.stream.position) :
    B.Led (fun s => Grammar.settle step s.stream.position (idle + 1) a s)
      (.ok (.inl again)) l u := by
  apply h.alike
  intro e f f' hm ht hrun
  have hne : e.length ≠ 0 := by
    intro he
    have := hm.position.2.2 (List.length_eq_zero_iff.1 he)
    omega
  have hpos := ht.position
  rw [settle_inl hrun, if_pos (by omega), inState_ok]

/-- After an idle round, leader and followers stand where they stood. -/
theorem Led.idled {idle : Nat} {a again : σ} {l u l' : State K} {o : Ending (σ ⊕ β)}
    (h : B.Led (step a) (.ok (.inl again)) l u)
    (hsame : u.stream.position = l.stream.position)
    (h' : B.Led (fun s => Grammar.settle step s.stream.position idle again s) o u l') :
    B.Led (fun s => Grammar.settle step s.stream.position (idle + 1) a s) o l l' := by
  apply h.next h'
  intro e f g f' hm ht hrun hrun'
  have hstay : g.stream.position = f.stream.position := by
    rw [ht.position, hm.position.2.1 hsame]
    rfl
  rw [settle_inl hrun, if_neg (by omega), ← hstay, hrun']

theorem Leads.settle (idle : Nat) (a : σ) (l : State K)
    (hstep : ∀ b t, Rounds step a l b t → B.Leads (step b) t) :
    B.Leads (fun s => Grammar.settle step s.stream.position idle a s) l := by
  induction idle generalizing a l with
  | zero =>
    intro o l' _ h
    obtain ⟨_, _, -, h, -⟩ := error_eq h
    cases h
  | succ idle ih =>
    intro o l' hl h
    have hround : ∀ o u, step a l = o.inState u → B.Led (step a) o l u :=
      fun o u => hstep a l (.here a l) o u hl
    dsimp only at h
    cases hx : step a l with
    | error e u =>
      rw [settle_error hx] at h
      obtain ⟨code, reason, rfl, rfl, rfl⟩ := error_eq h
      exact (hround (.error (code, reason)) l' hx).alike fun _ _ _ _ _ => settle_error
    | ok r u =>
      have hled := hround (.ok r) u hx
      obtain ⟨-, -, e, hm, -⟩ := id hled
      obtain ⟨hle, -⟩ := hm.position
      cases r with
      | inr c =>
        rw [settle_inr hx] at h
        obtain ⟨rfl, rfl⟩ := ok_eq h
        exact hled.alike fun _ _ _ _ _ => settle_inr
      | inl again =>
        rw [settle_inl hx] at h
        by_cases hmoved : l.stream.position < u.stream.position
        · rw [if_pos hmoved] at h
          obtain ⟨rfl, rfl⟩ := ok_eq h
          exact hled.settled hmoved
        · have hsame : u.stream.position = l.stream.position := by omega
          rw [if_neg hmoved, ← hsame] at h
          exact hled.idled hsame
            (ih again u (fun b t hrounds => hstep b t (.next hx hrounds)) o l' hled.1 h)

/-- Every round of the follower but the last takes a decision, so it cannot run out of rounds
before it runs out of stream. -/
theorem iterate_leads (fuel : Nat) (a : σ) (l : State K)
    (hstep : ∀ b t, Rounds step a l b t → B.Leads (step b) t) (o : Ending β) (l' : State K)
    (hl : B.lead l) (h : Grammar.iterate step fuel a l = o.inState l') :
    B.lead l' ∧ (B.given l' → B.given l) ∧ ∃ e, B.Moves e l l' ∧
      ∀ f left, B.pair l f → Ready e f → B.given l' →
        f.stream.capacity < f.stream.position + left →
        ∃ f', Grammar.iterate step left a f = o.inState f' ∧ B.pair l' f' ∧ Takes e f f' := by
  induction fuel generalizing a l with
  | zero =>
    obtain ⟨_, _, -, h, -⟩ := error_eq h
    cases h
  | succ fuel ih =>
    have hsettle := Leads.settle Grammar.idleRounds a l hstep
    cases hx : Grammar.settle step l.stream.position Grammar.idleRounds a l with
    | error e u =>
      rw [iterate_error hx] at h
      obtain ⟨code, reason, rfl, rfl, rfl⟩ := error_eq h
      obtain ⟨hl', hg, e, hm, hfollow⟩ := hsettle (.error (code, reason)) l' hl hx
      refine ⟨hl', hg, e, hm, ?_⟩
      intro f left hp hr hin hroom
      obtain ⟨f', hrun, hp', ht⟩ := hfollow f hp hr hin
      have hpos := hr.position_le
      obtain ⟨left, rfl⟩ : ∃ m, left = m + 1 := ⟨left - 1, by omega⟩
      exact ⟨f', iterate_error hrun, hp', ht⟩
    | ok r u =>
      obtain ⟨hu, hg, e, hm, hfollow⟩ := hsettle (.ok r) u hl hx
      cases r with
      | inr c =>
        rw [iterate_inr hx] at h
        obtain ⟨rfl, rfl⟩ := ok_eq h
        refine ⟨hu, hg, e, hm, ?_⟩
        intro f left hp hr hin hroom
        obtain ⟨f', hrun, hp', ht⟩ := hfollow f hp hr hin
        have hpos := hr.position_le
        obtain ⟨left, rfl⟩ : ∃ m, left = m + 1 := ⟨left - 1, by omega⟩
        exact ⟨f', iterate_inr hrun, hp', ht⟩
      | inl again =>
        rw [iterate_inl hx] at h
        have hmoved := settle_moves hx
        have hne : e.length ≠ 0 := by
          intro he
          have := hm.position.2.2 (List.length_eq_zero_iff.1 he)
          omega
        obtain ⟨hl', hg', e', hm', hfollow'⟩ :=
          ih again u (fun b t hrounds => hstep b t ((settle_rounds hx).trans hrounds)) hu h
        refine ⟨hl', fun h => hg (hg' h), e ++ e', hm.trans hm', ?_⟩
        intro f left hp hr hin hroom
        obtain ⟨f1, hrun, hp1, ht⟩ := hfollow f hp hr.first (hg' hin)
        have hpos := hr.position_le
        have hpos' := ht.position
        have hcap := ht.capacity
        obtain ⟨left, rfl⟩ : ∃ m, left = m + 1 := ⟨left - 1, by omega⟩
        obtain ⟨f2, hrun', hp2, ht'⟩ := hfollow' f1 left hp1 (hr.rest ht) hin (by omega)
        exact ⟨f2, (iterate_inl hrun).trans hrun', hp2, ht.trans ht'⟩

theorem Leads.iterate (a : σ) (l : State K)
    (hstep : ∀ b t, Rounds step a l b t → B.Leads (step b) t) :
    B.Leads (fun s => Grammar.iterate step (s.stream.capacity + 1) a s) l := by
  intro o l' hl h
  obtain ⟨hl', hg, e, hm, hfollow⟩ := iterate_leads _ a l hstep o l' hl h
  refine ⟨hl', hg, e, hm, ?_⟩
  intro f hp hr hin
  exact hfollow f _ hp hr hin (by omega)

end Bond

def Grammar.Always [DecidableEq K] (p : {β : Type} → Request β → State K → Prop) :
    {α : Type} → Grammar K α → State K → Prop
  | _, .done _, _ => True
  | _, .ask request next, s =>
    p request s ∧ ∀ b t, request.answer s = .ok b t → (next b).Always p t
  | _, .scope name kind body next, s =>
    ∀ depth t, openScope name kind s = .ok depth t → body.Always p t ∧
      ∀ b u v, body.run t = .ok b u → closeScope depth u = .ok () v → (next b).Always p v
  | _, .withEvil allowed body next, s =>
    body.Always p { s with evil := ⟨allowed⟩ } ∧
      ∀ b t, Walker.withEvil allowed body.run s = .ok b t → (next b).Always p t
  | _, .loop body init next, s =>
    (∀ a t, Rounds (fun a => (body a).run) init s a t → (body a).Always p t) ∧
      ∀ b t, iterate (fun a => (body a).run) (s.stream.capacity + 1) init s = .ok b t →
        (next b).Always p t
  | _, .stop _ _, _ => True

structure Lockstep (K : Type) [DecidableEq K] extends Bond K where
  admits : {β : Type} → Request β → State K → Prop
  asks : ∀ {β : Type} (r : Request β) l, admits r l → toBond.Leads r.answer l
  opens : ∀ name kind l, toBond.Leads (openScope name kind) l
  closes : ∀ depth l, toBond.Leads (closeScope depth) l
  evil : ∀ l f, pair l f → l.evil = f.evil
  setEvil : ∀ bit l f, pair l f → pair { l with evil := bit } { f with evil := bit }
  lead_setEvil : ∀ bit l, lead l → lead { l with evil := bit }
  given_setEvil : ∀ bit l, given { l with evil := bit } ↔ given l

namespace Lockstep

variable [DecidableEq K] (S : Lockstep K)

theorem withEvil (allowed : Bool) {x : Walker K α} {l : State K}
    (hx : S.Leads x { l with evil := ⟨allowed⟩ }) : S.Leads (Walker.withEvil allowed x) l := by
  intro o l' hl h
  obtain ⟨t, hx', rfl⟩ := of_withEvil h
  obtain ⟨ht, hg, e, hm, hfollow⟩ := hx o t (S.lead_setEvil _ l hl) hx'
  refine ⟨S.lead_setEvil _ t ht, ?_, e, hm, ?_⟩
  · intro h
    exact (S.given_setEvil _ l).1 (hg ((S.given_setEvil _ t).1 h))
  · intro f hp hr hin
    obtain ⟨f', hrunf, hp', htake⟩ := hfollow { f with evil := ⟨allowed⟩ } (S.setEvil _ l f hp)
      ⟨hr.ahead, hr.room⟩ ((S.given_setEvil _ t).1 hin)
    refine ⟨{ f' with evil := f.evil }, withEvil_ends hrunf, ?_, ⟨htake.stream, htake.mode⟩⟩
    rw [← S.evil l f hp]
    exact S.setEvil _ t f' hp'

/-- The followers walk the grammar as the leader does. -/
theorem run_leads (g : Grammar K α) (l : State K) (hg : g.Always S.admits l) :
    S.Leads g.run l := by
  induction g generalizing l with
  | done a => exact Bond.Leads.pure a l
  | ask request next ih =>
    exact (S.asks request l hg.1).bind fun b t h => ih b t (hg.2 b t h)
  | scope name kind body next ihb ih =>
    apply (S.opens name kind l).bind
    intro depth t hopen
    obtain ⟨hbody, hnext⟩ := hg depth t hopen
    apply (ihb t hbody).bind
    intro b u hrun
    apply (S.closes depth u).bind
    intro _ v hclose
    exact ih b v (hnext b u v hrun hclose)
  | withEvil allowed body next ihb ih =>
    exact (S.withEvil allowed (ihb _ hg.1)).bind fun b t h => ih b t (hg.2 b t h)
  | loop body init next ihb ih =>
    have hloop := Bond.Leads.iterate init l fun a t h => ihb a t (hg.1 a t h)
    exact hloop.bind fun b t h => ih b t (hg.2 b t h)
  | stop code reason =>
    intro o l' hl h
    obtain ⟨_, _, rfl, hcode, rfl⟩ := error_eq h
    cases hcode
    exact ⟨hl, fun h => h, [], Bond.Moves.refl _, fun f hp _ _ => ⟨f, rfl, hp, Takes.refl f⟩⟩

end Lockstep

namespace Grammar

theorem conclude_inState {o : Ending Unit} (ho : o.Succeeds) (s : State K) :
    conclude (o.inState s) = ⟨s.finish, s.log⟩ := by
  cases o with
  | ok u => rfl
  | error c =>
    obtain ⟨code, reason⟩ := c
    obtain rfl : code = 0 := ho
    rfl

/-- A walk succeeds when it ends well and its last state can be finished. -/
theorem concluded {r : EStateM.Result WalkError (State K) Unit} {v : Walk K × List (Watch K)}
    (h : (conclude r).outcome = .ok v) :
    ∃ (o : Ending Unit) (s : State K), r = o.inState s ∧ o.Succeeds ∧ s.finish = .ok v := by
  cases r with
  | ok u s => exact ⟨.ok u, s, rfl, trivial, h⟩
  | error e s =>
    cases e with
    | grammarStop code reason =>
      by_cases hc : code = 0
      · subst hc
        exact ⟨.error (0, reason), s, rfl, rfl, h⟩
      · rw [conclude] at h
        · cases h
        · intro _ he
          cases he
          exact hc rfl
    | _ =>
      simp only [conclude] at h
      cases h

end Grammar

/-- Where a leader's walk succeeds, its followers come to the ends of theirs. -/
theorem Lockstep.concludes [DecidableEq K] (S : Lockstep K) {g : Grammar K Unit} {s : State K}
    (hg : g.Always S.admits s) (hs : S.lead s) {v : Walk K × List (Watch K)}
    (h : (Grammar.conclude (g.run s)).outcome = .ok v) :
    ∃ t e, Grammar.conclude (g.run s) = ⟨t.finish, t.log⟩ ∧ t.finish = .ok v ∧ S.lead t ∧
      S.Moves e s t ∧ ∀ f, S.pair s f → Ready e f → S.given t →
        ∃ f', Grammar.conclude (g.run f) = ⟨f'.finish, f'.log⟩ ∧ S.pair t f' ∧ Takes e f f' := by
  obtain ⟨o, t, hrun, ho, hfin⟩ := Grammar.concluded h
  obtain ⟨ht, -, e, hm, hfollow⟩ := S.run_leads g s hg o t hs hrun
  refine ⟨t, e, by rw [hrun, Grammar.conclude_inState ho], hfin, ht, hm, ?_⟩
  intro f hp hr hin
  obtain ⟨f', hrun', hp', htake⟩ := hfollow f hp hr hin
  exact ⟨f', by rw [hrun', Grammar.conclude_inState ho], hp', htake⟩

end DecisionWalk
