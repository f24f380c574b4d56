import DecisionWalk.Command.Run

/-!
# Runs of tasks

A task on a disk that is a value runs to a result, the text printed so far, and
the disk it leaves behind. A failed step ends the task where it stands.
-/

set_option autoImplicit false

namespace DecisionWalk.Command

variable {σ α β : Type}

def after (x : Task (StateM σ) α) (out : String) (s : σ) : (Except Failure α × String) × σ :=
  (x.run.run out).run s

section Steps

variable {x : Task (StateM σ) α} {f : α → Task (StateM σ) β} {out out' : String} {s s' : σ}

theorem after_pure (a : α) (out : String) (s : σ) :
    after (pure a : Task (StateM σ) α) out s = ((.ok a, out), s) := rfl

theorem after_throw (e : Failure) (out : String) (s : σ) :
    after (throw e : Task (StateM σ) α) out s = ((.error e, out), s) := rfl

theorem after_bind (x : Task (StateM σ) α) (f : α → Task (StateM σ) β) (out : String) (s : σ) :
    after (x >>= f) out s =
      match after x out s with
      | ((.ok a, out'), s') => after (f a) out' s'
      | ((.error e, out'), s') => ((.error e, out'), s') := by
  show (match x.run out s with
    | ((r, out'), s') => ExceptT.bindCont f r out' s') = _
  rw [after]
  show _ = match x.run out s with
    | ((.ok a, out'), s') => after (f a) out' s'
    | ((.error e, out'), s') => ((.error e, out'), s')
  rcases x.run out s with ⟨⟨r, out'⟩, s'⟩
  cases r <;> rfl

theorem after_bind_ok {a : α} (h : after x out s = ((.ok a, out'), s')) :
    after (x >>= f) out s = after (f a) out' s' := by
  rw [after_bind, h]

theorem after_bind_error {e : Failure} (h : after x out s = ((.error e, out'), s')) :
    after (x >>= f) out s = ((.error e, out'), s') := by
  rw [after_bind, h]

/-- A task that succeeds succeeds step by step. -/
theorem of_after_bind {b : β} (h : after (x >>= f) out s = ((.ok b, out'), s')) :
    ∃ a out₁ s₁, after x out s = ((.ok a, out₁), s₁) ∧
      after (f a) out₁ s₁ = ((.ok b, out'), s') := by
  rw [after_bind] at h
  rcases hx : after x out s with ⟨⟨r, out₁⟩, s₁⟩
  rw [hx] at h
  cases r with
  | error e => cases h
  | ok a => exact ⟨a, out₁, s₁, rfl, h⟩

theorem after_lift (y : StateM σ α) (out : String) (s : σ) :
    after (y : Task (StateM σ) α) out s = ((.ok (y.run s).1, out), (y.run s).2) := rfl

theorem after_orFail (y : StateM σ (Except DiskError α)) (failure : DiskError → Failure)
    (out : String) (s : σ) : after (orFail y failure) out s =
      (((y.run s).1.mapError failure, out), (y.run s).2) := by
  refine (after_bind_ok (after_lift y out s)).trans ?_
  cases (y.run s).1 <;> rfl

end Steps

def Reads (x : Task (StateM σ) α) (s : σ) (r : Except Failure α) : Prop :=
  ∀ out, after x out s = ((r, out), s)

namespace Reads

variable {x : Task (StateM σ) α} {f : α → Task (StateM σ) β} {s : σ} {r : Except Failure α}

theorem pure (a : α) (s : σ) : Reads (Pure.pure a) s (.ok a) := fun out => after_pure a out s

theorem throw (e : Failure) (s : σ) :
    Reads (MonadExcept.throw e : Task (StateM σ) α) s (.error e) :=
  fun out => after_throw e out s

theorem bind {k : α → Except Failure β} (hx : Reads x s r) (hf : ∀ a, Reads (f a) s (k a)) :
    Reads (x >>= f) s (r >>= k) := by
  intro out
  cases r with
  | error e => exact after_bind_error (hx out)
  | ok a => exact (after_bind_ok (hx out)).trans (hf a out)

theorem orFail {y : StateM σ (Except DiskError α)} {a : Except DiskError α}
    (h : y.run s = (a, s)) (failure : DiskError → Failure) :
    Reads (orFail y failure) s (a.mapError failure) := by
  intro out
  rw [after_orFail, h]

end Reads

def Fails (p : Failure → Prop) (x : Task (StateM σ) α) : Prop :=
  ∀ out s e, (after x out s).1.1 = .error e → p e

namespace Fails

variable {p : Failure → Prop}

theorem pure (a : α) : Fails p (Pure.pure a : Task (StateM σ) α) := by
  intro out s e h
  cases h

theorem lift (y : StateM σ α) : Fails p (y : Task (StateM σ) α) := by
  intro out s e h
  cases h

theorem say (text : String) : Fails p (say text : Task (StateM σ) Unit) := by
  intro out s e h
  cases h

theorem bind {x : Task (StateM σ) α} {f : α → Task (StateM σ) β} (hx : Fails p x)
    (hf : ∀ a, Fails p (f a)) : Fails p (x >>= f) := by
  intro out s e h
  rw [after_bind] at h
  rcases hstep : after x out s with ⟨⟨r, out'⟩, s'⟩
  rw [hstep] at h
  cases r with
  | ok a => exact hf a out' s' e h
  | error e' =>
    have herror : (after x out s).1.1 = .error e' := by rw [hstep]
    cases h
    exact hx out s _ herror

theorem orFail (y : StateM σ (Except DiskError α)) {failure : DiskError → Failure}
    (h : ∀ e, p (failure e)) : Fails p (orFail y failure) := by
  intro out s e he
  rw [after_orFail] at he
  cases hy : (y.run s).1 with
  | ok a =>
    rw [hy] at he
    cases he
  | error d =>
    rw [hy] at he
    cases he
    exact h d

end Fails

end DecisionWalk.Command
