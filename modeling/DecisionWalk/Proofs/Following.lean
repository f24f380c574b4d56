import DecisionWalk.Proofs.Links
import DecisionWalk.Grammar

/-!
# Following a grammar

While a grammar is walked, the fixed bytes of the image have a simple outline:
everything before the cursor, and at most one run ahead of it. A walk follows
another through a grammar when each request is followed at the outline that the
requests before it leave.
-/

set_option autoImplicit false

namespace DecisionWalk

open Image Walker

structure Outline where
  cursor : Nat
  gap : Nat
  run : Nat
  deriving DecidableEq, Repr

namespace Outline

def edge (cursor : Nat) : Outline := ⟨cursor, 0, 0⟩

def Past (c : Nat) (o : Outline) : Prop := ∃ d, c ≤ d ∧ o = edge d

structure Shows (o : Outline) (im : Image) : Prop where
  cursor : im.cursor = o.cursor
  size : im.size = if o.run = 0 then o.cursor else o.cursor + o.gap + o.run
  fixedAt : ∀ i, im.fixedAt i = true ↔
    i < o.cursor ∨ o.cursor + o.gap ≤ i ∧ i < o.cursor + o.gap + o.run

inductive Reads : Outline → Nat → Outline → Prop where
  | fresh (c n : Nat) : Reads (edge c) n (edge (c + n))
  | gap (c n run : Nat) : Reads ⟨c, n, run⟩ n ⟨c + n, 0, run⟩
  | run (c n : Nat) : Reads ⟨c, 0, n⟩ n (edge (c + n))

theorem Shows.cursor_le {o : Outline} {im : Image} (h : o.Shows im) : o.cursor ≤ im.size := by
  rw [h.size]
  split <;> omega

theorem Reads.cursor {o o' : Outline} {n : Nat} (h : Reads o n o') :
    o'.cursor = o.cursor + n := by
  cases h <;> rfl

theorem Reads.shows {o o' : Outline} {im im' : Image} {bs : Bytes}
    (h : Reads o bs.length o') (hs : o.Shows im) (hw : Writes bs im im') : o'.Shows im' := by
  have hcur := hs.cursor
  have hsize := hs.size
  have hfix := hs.fixedAt
  generalize hn : bs.length = n at h
  cases h with
  | fresh c n =>
    simp only [edge] at hcur hsize hfix
    refine ⟨?_, ?_, ?_⟩
    · rw [hw.cursor, hcur, hn]
      rfl
    · rw [hw.size, hsize, hcur, hn]
      simp [edge]
    · intro i
      rw [hw.fixedAt, Bool.or_eq_true, hfix, decide_eq_true_eq, hcur, hn]
      simp only [edge]
      omega
  | gap c n run =>
    simp only at hcur hsize hfix
    refine ⟨?_, ?_, ?_⟩
    · rw [hw.cursor, hcur, hn]
    · rw [hw.size, hsize, hcur, hn]
      simp only
      split <;> omega
    · intro i
      rw [hw.fixedAt, Bool.or_eq_true, hfix, decide_eq_true_eq, hcur, hn]
      simp only
      omega
  | run c n =>
    simp only at hcur hsize hfix
    refine ⟨?_, ?_, ?_⟩
    · rw [hw.cursor, hcur, hn]
      rfl
    · rw [hw.size, hsize, hcur, hn]
      simp only [edge, if_true]
      split <;> omega
    · intro i
      rw [hw.fixedAt, Bool.or_eq_true, hfix, decide_eq_true_eq, hcur, hn]
      simp only [edge]
      omega

theorem Shows.opens {o : Outline} {n : Nat} {im : Image} (hs : o.Shows im) (hn : n ≠ 0)
    (hgap : n ≤ o.gap ∨ o.run = 0) : Field.Opens n im := by
  refine ⟨hn, ?_⟩
  intro k hk
  rw [Bool.eq_false_iff, Ne, hs.fixedAt, hs.cursor]
  omega

/-- No read goes over bytes of which only some are fixed. -/
theorem Reads.opens_or_shut {o o' : Outline} {n : Nat} {im : Image} (h : Reads o n o')
    (hs : o.Shows im) : Field.Opens n im ∨ Field.Shut n im := by
  have hcur := hs.cursor
  have hsize := hs.cursor_le
  by_cases hn : n = 0
  · subst hn
    exact Or.inr ⟨by omega, fun k hk => absurd hk (Nat.not_lt_zero k)⟩
  · cases h with
    | fresh c n => exact Or.inl (hs.opens hn (Or.inr rfl))
    | gap c n run => exact Or.inl (hs.opens hn (Or.inl (Nat.le_refl n)))
    | run c n =>
      right
      refine ⟨?_, ?_⟩
      · rw [hs.size, hcur, if_neg hn]
        simp
      · intro k hk
        rw [hs.fixedAt, hcur]
        simp only
        omega

end Outline

variable {K α β σ : Type}

structure At (m : Mode) (hole : Span) (o : Outline) (s : State K) : Prop where
  sound : Sound m s
  shows : o.Shows s.image
  behind : hole.stop ≤ o.cursor

structure Steps (l l' g g' : State K) : Prop where
  stream : ∃ d, g'.stream = g.stream.recorded d
  idle : l'.stream.position = l.stream.position ↔ g'.stream.position = g.stream.position

theorem recorded_position_le {s t : Stream} (h : ∃ e, t = s.recorded e) :
    s.position ≤ t.position := by
  obtain ⟨e, rfl⟩ := h
  rw [Stream.recorded_position]
  exact Nat.le_add_right _ _

/-- Two walks whose streams stay where they are. -/
theorem Steps.still {l l' g g' : State K} (hl : l'.stream = l.stream) (hg : g'.stream = g.stream) :
    Steps l l' g g' :=
  ⟨⟨[], by rw [hg, Stream.recorded_nil]⟩, iff_of_true (by rw [hl]) (by rw [hg])⟩

theorem Steps.refl (l g : State K) : Steps l l g g := Steps.still rfl rfl

theorem Steps.trans {hole hole' : Span} {l l' l'' g g' g'' : State K} (h : Steps l l' g g')
    (h' : Steps l' l'' g' g'') (hl : Grows hole l l') (hl' : Grows hole' l' l'') :
    Steps l l'' g g'' := by
  obtain ⟨d, hd⟩ := h.stream
  obtain ⟨d', hd'⟩ := h'.stream
  have h1 := recorded_position_le hl.stream
  have h2 := recorded_position_le hl'.stream
  have h3 := recorded_position_le h.stream
  have h4 := recorded_position_le h'.stream
  have h5 := h.idle
  have h6 := h'.idle
  refine ⟨⟨d ++ d', by rw [hd', hd, Stream.recorded_recorded]⟩, ?_⟩
  constructor
  · intro he
    have := h5.1 (by omega)
    have := h6.1 (by omega)
    omega
  · intro he
    have := h5.2 (by omega)
    have := h6.2 (by omega)
    omega

/-- From the outline `o` on, the follower does with `y` what the leader does with `x`: whenever `x`
succeeds for the leader, and the follower was given all that the leader has then (and what `ends`
asks for besides), `y` gives the follower the same result. At most `n` productions are opened inside
each other. -/
def Mirrors (k : Link) (hole : Span) (n : Nat) (o : Outline) (x y : Walker K α)
    (post : α → Outline → Prop) (ends : α → State K → Prop) : Prop :=
  ∀ l a l', At k.leader hole o l → x l = .ok a l' →
    ∃ o', post a o' ∧ At k.leader hole o' l' ∧ Grows hole l l' ∧
      ∀ g, Pairs k hole n l g → k.Within hole l' → ends a l' →
        ∃ g', y g = .ok a g' ∧ Pairs k hole n l' g' ∧ Steps l l' g g'

def Follows (k : Link) (hole : Span) (n : Nat) (o : Outline) (x : Walker K α)
    (post : α → Outline → Prop) (ends : α → State K → Prop) : Prop :=
  Mirrors k hole n o x x post ends

/-- What the first part asks for is settled by how the second part went. -/
theorem Mirrors.bindEnds {k : Link} {hole : Span} {n : Nat} {o : Outline} {x y : Walker K α}
    {post : α → Outline → Prop} {ends : α → State K → Prop} {f g : α → Walker K β}
    {postb : β → Outline → Prop} {endsb : β → State K → Prop}
    (hx : Mirrors k hole n o x y post ends)
    (hf : ∀ a o', post a o' → Mirrors k hole n o' (f a) (g a) postb endsb)
    (hends : ∀ a o' l' b o'' l'', post a o' → At k.leader hole o' l' → f a l' = .ok b l'' →
      postb b o'' → At k.leader hole o'' l'' → k.Within hole l'' → endsb b l'' → ends a l') :
    Mirrors k hole n o (x >>= f) (y >>= g) postb endsb := by
  intro l b l'' hl h
  obtain ⟨a, l', h1, h2⟩ := bind_ok.1 h
  obtain ⟨o', ha, hl', hg, hfollow⟩ := hx l a l' hl h1
  obtain ⟨o'', hb, hl'', hg', hfollow'⟩ := hf a o' ha l' b l'' hl' h2
  refine ⟨o'', hb, hl'', hg.trans hg', ?_⟩
  intro u hp hin hend
  obtain ⟨u', hu1, hp', hst⟩ := hfollow u hp (hin.earlier hg')
    (hends a o' l' b o'' l'' ha hl' h2 hb hl'' hin hend)
  obtain ⟨u'', hu2, hp'', hst'⟩ := hfollow' u' hp' hin hend
  exact ⟨u'', by rw [bind_run hu1, hu2], hp'', hst.trans hst' hg hg'⟩

def anyEnd (_ : α) (_ : State K) : Prop := True

theorem Mirrors.bind {k : Link} {hole : Span} {n : Nat} {o : Outline} {x y : Walker K α}
    {post : α → Outline → Prop} {f g : α → Walker K β} {postb : β → Outline → Prop}
    {endsb : β → State K → Prop} (hx : Mirrors k hole n o x y post anyEnd)
    (hf : ∀ a o', post a o' → Mirrors k hole n o' (f a) (g a) postb endsb) :
    Mirrors k hole n o (x >>= f) (y >>= g) postb endsb := by
  apply bindEnds hx hf
  intros
  trivial

namespace Follows

variable {k : Link} {hole : Span} {n : Nat} {o : Outline} {x : Walker K α}
  {post post' : α → Outline → Prop} {ends ends' : α → State K → Prop}

theorem weaken (h : Follows k hole n o x post ends) (hpost : ∀ a o', post a o' → post' a o') :
    Follows k hole n o x post' ends := by
  intro l a l' hl hx
  obtain ⟨o', ha, h'⟩ := h l a l' hl hx
  exact ⟨o', hpost a o' ha, h'⟩

theorem asking (h : Follows k hole n o x post ends) (hends : ∀ a s, ends' a s → ends a s) :
    Follows k hole n o x post ends' := by
  intro l a l' hl hx
  obtain ⟨o', ha, hl', hg, h'⟩ := h l a l' hl hx
  exact ⟨o', ha, hl', hg, fun g hp hin hend => h' g hp hin (hends a l' hend)⟩

theorem ending (h : Follows k hole n o x post anyEnd) : Follows k hole n o x post ends :=
  h.asking fun _ _ _ => trivial

theorem done {a : α} (h : post a o) : Follows k hole n o (pure a : Walker K α) post ends := by
  intro l b l' hl hx
  cases hx
  exact ⟨o, h, hl, Grows.refl hole l, fun g hp _ _ => ⟨g, rfl, hp, Steps.refl l g⟩⟩

theorem failing (h : ∀ s t a, x s ≠ .ok a t) : Follows k hole n o x post ends := by
  intro l a l' _ hx
  exact absurd hx (h l l' a)

theorem bindEnds {f : α → Walker K β} {postb : β → Outline → Prop}
    {endsb : β → State K → Prop} (hx : Follows k hole n o x post ends)
    (hf : ∀ a o', post a o' → Follows k hole n o' (f a) postb endsb)
    (hends : ∀ a o' l' b o'' l'', post a o' → At k.leader hole o' l' → f a l' = .ok b l'' →
      postb b o'' → At k.leader hole o'' l'' → k.Within hole l'' → endsb b l'' → ends a l') :
    Follows k hole n o (x >>= f) postb endsb :=
  Mirrors.bindEnds hx hf hends

theorem bind {f : α → Walker K β} {postb : β → Outline → Prop} {endsb : β → State K → Prop}
    (hx : Follows k hole n o x post anyEnd)
    (hf : ∀ a o', post a o' → Follows k hole n o' (f a) postb endsb) :
    Follows k hole n o (x >>= f) postb endsb :=
  Mirrors.bind hx hf

end Follows

namespace Grammar

variable [DecidableEq K]

theorem run_bind (g : Grammar K α) (f : α → Grammar K β) :
    (g >>= f).run = (g.run >>= fun a => (f a).run) := by
  show (g.bind f).run = _
  induction g with
  | done a => simp [Grammar.bind, run]
  | ask request next ih => simp [Grammar.bind, run, ih]
  | scope name kind body next ihb ih => simp [Grammar.bind, run, ih]
  | withEvil allowed body next ihb ih => simp [Grammar.bind, run, ih]
  | loop body init next ihb ih => simp [Grammar.bind, run, ih]
  | stop code reason =>
    simp only [Grammar.bind, run]
    rfl

theorem run_request (r : Request α) : (Grammar.request r : Grammar K α).run = r.answer := by
  simp [Grammar.request, run]

theorem run_pure (a : α) : (pure a : Grammar K α).run = pure a := rfl

theorem run_discard (g : Grammar K α) :
    (discard g : Grammar K PUnit).run = (g.run >>= fun _ => pure ()) := by
  rw [show discard g = (g >>= fun _ => pure ()) from rfl, run_bind]
  rfl

theorem run_inScope (name : String) (kind : K) (body : Grammar K α) :
    (inScope name kind body).run = (do
      let depth ← openScope name kind
      let a ← body.run
      closeScope depth
      pure a) := rfl

theorem run_underEvil (allowed : Bool) (body : Grammar K α) :
    (underEvil allowed body).run = Walker.withEvil allowed body.run := by
  simp [underEvil, run]

theorem run_repeatFrom (init : σ) (body : σ → Grammar K (σ ⊕ β)) :
    (repeatFrom init body).run = (do
      let s ← get
      iterate (fun a => (body a).run) (s.stream.capacity + 1) init) := by
  simp [repeatFrom, run]

end Grammar

def State.tracking (s : State K) (tracker : Tracker K) : State K := { s with tracker := tracker }

theorem At.tracking {m : Mode} {hole : Span} {o : Outline} {s : State K} (h : At m hole o s)
    (t : Tracker K) : At m hole o (s.tracking t) :=
  ⟨h.sound.like rfl rfl rfl, h.shows, h.behind⟩

namespace Walker

variable {s t : State K}

theorem closeScope_run (depth : Nat) (hw : s.watches = []) :
    closeScope depth s =
      .ok () (s.tracking (s.tracker.closed s.stream.position s.image.cursor)) := by
  simp only [closeScope, hw, closeWatches, State.tracking]

variable [DecidableEq K]

theorem openScope_run (name : String) (kind : K) (hw : s.watches = [])
    (h : s.tracker.depth < s.tracker.maxDepth) :
    openScope name kind s = .ok (s.tracker.depth + 1)
      (s.tracking (s.tracker.opened name kind s.stream.position s.image.cursor)) := by
  have hm : ∀ f : Watch K → Watch K, s.watches.map f = s.watches := by
    intro f
    rw [hw]
    rfl
  simp only [openScope, if_pos h, hm]
  rfl

theorem openScope_ok {name : String} {kind : K} {depth : Nat} (hw : s.watches = [])
    (h : openScope name kind s = .ok depth t) :
    s.tracker.depth < s.tracker.maxDepth ∧
      t = s.tracking (s.tracker.opened name kind s.stream.position s.image.cursor) := by
  by_cases hd : s.tracker.depth < s.tracker.maxDepth
  · rw [openScope_run name kind hw hd] at h
    cases h
    exact ⟨hd, rfl⟩
  · rw [openScope, if_neg hd] at h
    cases h

end Walker

namespace Follows

variable [DecidableEq K] {k : Link} {hole : Span} {n : Nat} {o : Outline}
  {post : α → Outline → Prop} {ends : α → State K → Prop}

theorem seq {g : Grammar K α} {f : α → Grammar K β} {postb : β → Outline → Prop}
    {endsb : β → State K → Prop} (hg : Follows k hole n o g.run post anyEnd)
    (hf : ∀ a o', post a o' → Follows k hole n o' (f a).run postb endsb) :
    Follows k hole n o (g >>= f).run postb endsb := by
  rw [Grammar.run_bind]
  exact hg.bind hf

/-- A step that leaves a known outline, and what comes after it. -/
theorem andThen {o' : Outline} {g : Grammar K α} {f : α → Grammar K β}
    {postb : β → Outline → Prop} {endsb : β → State K → Prop}
    (hg : Follows k hole n o g.run (fun _ o'' => o'' = o') anyEnd)
    (hf : ∀ a, Follows k hole n o' (f a).run postb endsb) :
    Follows k hole n o (g >>= f).run postb endsb := by
  apply hg.seq
  rintro a _ rfl
  exact hf a

theorem discard {g : Grammar K α} {posto : Outline → Prop}
    (hg : Follows k hole n o g.run (fun _ => posto) anyEnd) :
    Follows k hole n o (discard g : Grammar K Unit).run (fun _ => posto) anyEnd := by
  rw [Grammar.run_discard]
  apply hg.bind
  intro a o' h
  exact done h

theorem underEvil {body : Grammar K α} (allowed : Bool)
    (hb : Follows k hole n o body.run post anyEnd) :
    Follows k hole n o (Grammar.underEvil allowed body).run post anyEnd := by
  rw [Grammar.run_underEvil]
  intro l a l' hl h
  rw [Walker.withEvil] at h
  cases hx : body.run { l with evil := ⟨allowed⟩ } with
  | error e t =>
    rw [hx] at h
    cases h
  | ok b t =>
    rw [hx] at h
    cases h
    obtain ⟨o', ha, ht, hg, hfollow⟩ := hb { l with evil := ⟨allowed⟩ } _ t
      ⟨hl.sound.like rfl rfl rfl, hl.shows, hl.behind⟩ hx
    refine ⟨o', ha, ⟨ht.sound.like rfl rfl rfl, ht.shows, ht.behind⟩,
      ⟨hg.mode, hg.limit, hg.input, hg.stream, hg.depth, hg.endian, hg.size, hg.keeps⟩, ?_⟩
    intro g hp hin _
    obtain ⟨g', hrun, hp', hst⟩ := hfollow _ (hp.setEvil ⟨allowed⟩) hin trivial
    refine ⟨{ g' with evil := g.evil }, ?_, ?_, ⟨hst.stream, hst.idle⟩⟩
    · rw [Walker.withEvil, hrun]
    · rw [← hp.evil]
      exact hp'.setEvil l.evil

theorem inScope {body : Grammar K α} (name : String) (kind : K)
    (hb : Follows k hole n o body.run post ends)
    (hends : ∀ a s t, ends a (State.tracking s t) → ends a s) :
    Follows k hole (n + 1) o (Grammar.inScope name kind body).run post ends := by
  rw [Grammar.run_inScope]
  intro l a l' hl h
  obtain ⟨depth, l1, h1, h2⟩ := bind_ok.1 h
  obtain ⟨b, l2, h3, h4⟩ := bind_ok.1 h2
  obtain ⟨_, l3, h5, h6⟩ := bind_ok.1 h4
  cases h6
  obtain ⟨hdepth, rfl⟩ := openScope_ok hl.sound.watches h1
  obtain ⟨o', ha, hl2, hg, hfollow⟩ := hb _ _ l2 (hl.tracking _) h3
  rw [closeScope_run depth hl2.sound.watches] at h5
  cases h5
  have hopen : l2.tracker.depth = l.tracker.depth + 1 := by
    rw [hg.depth]
    exact Tracker.opened_depth _ _ _ _ _
  refine ⟨o', ha, hl2.tracking _,
    ⟨hg.mode, hg.limit, hg.input, hg.stream, ?_, hg.endian, hg.size, hg.keeps⟩, ?_⟩
  · have hc : (l2.tracker.closed l2.stream.position l2.image.cursor).depth = l2.tracker.depth - 1 :=
      Tracker.closed_depth _ _ _
    show (l2.tracker.closed l2.stream.position l2.image.cursor).depth = _
    omega
  · intro g hp hin hend
    have hbooks := hp.books.opened hp.tapes name kind l.image.cursor
    have hp1 : Pairs k hole n
        (l.tracking (l.tracker.opened name kind l.stream.position l.image.cursor))
        (g.tracking (g.tracker.opened name kind g.stream.position g.image.cursor)) :=
      ⟨hp.sound.like rfl rfl rfl, hp.agree, hp.room, hp.tapes, hp.agree.cursor ▸ hbooks,
        hp.endian, hp.evil, hp.log⟩
    obtain ⟨g2, hrun, hp2, hst⟩ := hfollow _ hp1 hin (hends _ _ _ hend)
    have hbooks2 := hp2.books.closed hp2.tapes (by omega) l2.image.cursor
    refine ⟨g2.tracking (g2.tracker.closed g2.stream.position g2.image.cursor), ?_,
      ⟨hp2.sound.like rfl rfl rfl, hp2.agree, hp2.room, hp2.tapes, ?_, hp2.endian, hp2.evil,
        hp2.log⟩, ⟨hst.stream, hst.idle⟩⟩
    · rw [bind_run (openScope_run name kind hp.sound.watches (hp.books.mayOpen hdepth)),
        bind_run hrun, bind_run (closeScope_run _ hp2.sound.watches), pure_run]
    · have hcur := hp2.agree.cursor
      show k.Books (n + 1) l2.stream g2.stream _
        (g2.tracker.closed g2.stream.position g2.image.cursor)
      rw [← hcur]
      exact hbooks2

end Follows

section Loop

variable {k : Link} {hole : Span} {n : Nat} {step : σ → Walker K (σ ⊕ β)}
  {inv : σ → Outline → Prop} {post : β → Outline → Prop} {ends : β → State K → Prop}

section Rounds

variable {start idle left : Nat} {a b : σ} {c : β} {s t : State K} {e : WalkError}

theorem settle_error (h : step a s = .error e t) :
    Grammar.settle step start (idle + 1) a s = .error e t := by
  simp only [Grammar.settle, h]

theorem settle_inr (h : step a s = .ok (.inr c) t) :
    Grammar.settle step start (idle + 1) a s = .ok (.inr c) t := by
  simp only [Grammar.settle, h]

theorem settle_inl (h : step a s = .ok (.inl b) t) :
    Grammar.settle step start (idle + 1) a s =
      if start < t.stream.position then .ok (.inl b) t
      else Grammar.settle step start idle b t := by
  simp only [Grammar.settle, h]

theorem iterate_error
    (h : Grammar.settle step s.stream.position Grammar.idleRounds a s = .error e t) :
    Grammar.iterate step (left + 1) a s = .error e t := by
  simp only [Grammar.iterate, h]

theorem iterate_inr
    (h : Grammar.settle step s.stream.position Grammar.idleRounds a s = .ok (.inr c) t) :
    Grammar.iterate step (left + 1) a s = .ok c t := by
  simp only [Grammar.iterate, h]

theorem iterate_inl
    (h : Grammar.settle step s.stream.position Grammar.idleRounds a s = .ok (.inl b) t) :
    Grammar.iterate step (left + 1) a s = Grammar.iterate step left b t := by
  simp only [Grammar.iterate, h]

/-- A round, and a look at whether it has moved the stream. -/
theorem settle_succ (start idle : Nat) (a : σ) : Grammar.settle step start (idle + 1) a =
    step a >>= Sum.elim
      (fun again => get >>= fun t =>
        if start < t.stream.position then pure (.inl again)
        else Grammar.settle step start idle again)
      fun b => pure (.inr b) := by
  funext s
  cases hx : step a s with
  | error e t => rw [settle_error hx, bind_error hx]
  | ok r t =>
    rw [bind_run hx]
    cases r with
    | inl again =>
      rw [settle_inl hx, Sum.elim_inl, get_bind]
      split <;> rfl
    | inr b => exact settle_inr hx

theorem iterate_get (left : Nat) (a : σ) : Grammar.iterate step (left + 1) a =
    get >>= fun s => Grammar.settle step s.stream.position Grammar.idleRounds a >>=
      Sum.elim (Grammar.iterate step left) pure := by
  funext s
  rw [get_bind]
  cases hx : Grammar.settle step s.stream.position Grammar.idleRounds a s with
  | error e t => rw [iterate_error hx, bind_error hx]
  | ok r t =>
    rw [bind_run hx]
    cases r with
    | inl again => exact iterate_inl hx
    | inr b => exact iterate_inr hx

structure Composes (P : (α : Type) → Walker K α → Prop) : Prop where
  pure : ∀ (α : Type) (a : α), P α (pure a)
  stalled : ∀ α : Type, P α (throw (.defect .stalled))
  bind : ∀ (α β : Type) (x : Walker K α) (f : α → Walker K β), P α x → (∀ a, P β (f a)) →
    P β (x >>= f)
  reads : ∀ (β : Type) (f : Stream → Walker K β), (∀ stream, P β (f stream)) →
    P β (get >>= fun s => f s.stream)

namespace Composes

variable {P : (α : Type) → Walker K α → Prop}

theorem settle (hP : Composes P) (hstep : ∀ a, P (σ ⊕ β) (step a)) (start idle : Nat) (a : σ) :
    P (σ ⊕ β) (Grammar.settle step start idle a) := by
  induction idle generalizing a with
  | zero => exact hP.stalled _
  | succ idle ih =>
    rw [settle_succ]
    refine hP.bind _ _ _ _ (hstep a) fun r => ?_
    cases r with
    | inr b => exact hP.pure _ _
    | inl again =>
      refine hP.reads _ (fun stream => if start < stream.position then Pure.pure (.inl again)
        else Grammar.settle step start idle again) fun stream => ?_
      split
      · exact hP.pure _ _
      · exact ih again

/-- What each round keeps, the loop keeps. -/
theorem iterate (hP : Composes P) (hstep : ∀ a, P (σ ⊕ β) (step a)) (left : Nat) (a : σ) :
    P β (Grammar.iterate step left a) := by
  induction left generalizing a with
  | zero => exact hP.stalled _
  | succ left ih =>
    rw [iterate_get]
    refine hP.reads _ (fun stream => Grammar.settle step stream.position Grammar.idleRounds a >>=
      Sum.elim (Grammar.iterate step left) Pure.pure) fun stream => ?_
    refine hP.bind _ _ _ _ (hP.settle hstep stream.position Grammar.idleRounds a) fun r => ?_
    cases r with
    | inr b => exact hP.pure _ _
    | inl again => exact ih again

end Composes

end Rounds

/-- A round that does not end the loop has moved the stream. -/
theorem settle_moves {start idle : Nat} {a b : σ} {s t : State K}
    (h : Grammar.settle step start idle a s = .ok (.inl b) t) : start < t.stream.position := by
  induction idle generalizing a s with
  | zero => exact absurd h (throw_not_ok _ _ _ _)
  | succ idle ih =>
    cases hx : step a s with
    | error e u =>
      rw [settle_error hx] at h
      cases h
    | ok r u =>
      cases r with
      | inr b =>
        rw [settle_inr hx] at h
        cases h
      | inl again =>
        rw [settle_inl hx] at h
        by_cases hm : start < u.stream.position
        · rw [if_pos hm] at h
          cases h
          exact hm
        · rw [if_neg hm] at h
          exact ih h

theorem settle_follows
    (hstep : ∀ a o, inv a o →
      Follows k hole n o (step a) (Sum.elim inv post) (Sum.elim anyEnd ends))
    (idle : Nat) (a : σ) (o : Outline) (hinv : inv a o) :
    Follows k hole n o (fun s => Grammar.settle step s.stream.position idle a s)
      (Sum.elim inv post) (Sum.elim anyEnd ends) := by
  induction idle generalizing a o with
  | zero => exact Follows.failing fun s t r => throw_not_ok _ _ _ _
  | succ idle ih =>
    intro l r l' hl h
    dsimp only at h
    cases hx : step a l with
    | error e u =>
      rw [settle_error hx] at h
      cases h
    | ok q u =>
      obtain ⟨o', hq, hu, hg, hfollow⟩ := hstep a o hinv l q u hl hx
      cases q with
      | inr b =>
        rw [settle_inr hx] at h
        cases h
        refine ⟨o', hq, hu, hg, ?_⟩
        intro g hp hin hend
        obtain ⟨g', hrun, hp', hst⟩ := hfollow g hp hin hend
        exact ⟨g', settle_inr hrun, hp', hst⟩
      | inl again =>
        rw [settle_inl hx] at h
        by_cases hm : l.stream.position < u.stream.position
        · rw [if_pos hm] at h
          cases h
          refine ⟨o', hq, hu, hg, ?_⟩
          intro g hp hin hend
          obtain ⟨g', hrun, hp', hst⟩ := hfollow g hp hin trivial
          have hle := recorded_position_le hst.stream
          have hne : g'.stream.position ≠ g.stream.position := fun he => by
            have := hst.idle.2 he
            omega
          refine ⟨g', ?_, hp', hst⟩
          dsimp only
          rw [settle_inl hrun, if_pos (by omega)]
        · -- An idle round: leader and follower both stand where they stood.
          have hsame : u.stream.position = l.stream.position := by
            have := recorded_position_le hg.stream
            omega
          rw [if_neg hm, ← hsame] at h
          obtain ⟨o'', hr, hl', hg', hfollow'⟩ := ih again o' hq u r l' hu h
          refine ⟨o'', hr, hl', hg.trans hg', ?_⟩
          intro g hp hin hend
          obtain ⟨g1, hrun, hp1, hst⟩ := hfollow g hp (hin.earlier hg') trivial
          obtain ⟨g2, hrun', hp2, hst'⟩ := hfollow' g1 hp1 hin hend
          have hstay := hst.idle.1 hsame
          refine ⟨g2, ?_, hp2, hst.trans hst' hg hg'⟩
          dsimp only at hrun' ⊢
          rw [settle_inl hrun, if_neg (by omega), ← hstay, hrun']

/-- The follower takes as many rounds as the leader, each with a decision, so it cannot run out of
rounds before it runs out of stream. -/
theorem iterate_follows
    (hstep : ∀ a o, inv a o →
      Follows k hole n o (step a) (Sum.elim inv post) (Sum.elim anyEnd ends))
    (fuel : Nat) (a : σ) (o : Outline) (hinv : inv a o) (l : State K) (b : β) (l' : State K)
    (hl : At k.leader hole o l) (h : Grammar.iterate step fuel a l = .ok b l') :
    ∃ o', post b o' ∧ At k.leader hole o' l' ∧ Grows hole l l' ∧
      ∀ g left, Pairs k hole n l g → k.Within hole l' → ends b l' →
        g.stream.capacity < g.stream.position + left →
        ∃ g', Grammar.iterate step left a g = .ok b g' ∧ Pairs k hole n l' g' ∧
          Steps l l' g g' := by
  induction fuel generalizing a o l with
  | zero => exact absurd h (throw_not_ok _ _ _ _)
  | succ fuel ih =>
    cases hx : Grammar.settle step l.stream.position Grammar.idleRounds a l with
    | error e u =>
      rw [iterate_error hx] at h
      cases h
    | ok q u =>
      obtain ⟨o', hq, hu, hg, hfollow⟩ :=
        settle_follows hstep Grammar.idleRounds a o hinv l q u hl hx
      cases q with
      | inr b =>
        rw [iterate_inr hx] at h
        cases h
        refine ⟨o', hq, hu, hg, ?_⟩
        intro g left hp hin hend hroom
        obtain ⟨g', hrun, hp', hst⟩ := hfollow g hp hin hend
        have hpos := hp.tapes.position_le
        obtain ⟨left, rfl⟩ : ∃ m, left = m + 1 := ⟨left - 1, by omega⟩
        exact ⟨g', iterate_inr hrun, hp', hst⟩
      | inl again =>
        rw [iterate_inl hx] at h
        have hmoved := settle_moves hx
        obtain ⟨o'', hb, hl', hg', hfollow'⟩ := ih again o' hq u hu h
        refine ⟨o'', hb, hl', hg.trans hg', ?_⟩
        intro g left hp hin hend hroom
        obtain ⟨g1, hrun, hp1, hst⟩ := hfollow g hp (hin.earlier hg') trivial
        have hpos := hp.tapes.position_le
        have hle := recorded_position_le hst.stream
        have hne : g1.stream.position ≠ g.stream.position := fun he => by
          have := hst.idle.2 he
          omega
        have hcap : g1.stream.capacity = g.stream.capacity := by
          obtain ⟨d, hd⟩ := hst.stream
          rw [hd, Stream.recorded_capacity]
        obtain ⟨left, rfl⟩ : ∃ m, left = m + 1 := ⟨left - 1, by omega⟩
        obtain ⟨g2, hrun', hp2, hst'⟩ := hfollow' g1 left hp1 hin hend (by omega)
        exact ⟨g2, (iterate_inl hrun).trans hrun', hp2, hst.trans hst' hg hg'⟩

theorem Follows.repeatFrom [DecidableEq K] (inv : σ → Outline → Prop) {init : σ}
    {body : σ → Grammar K (σ ⊕ β)} {o : Outline}
    (hbody : ∀ a o, inv a o →
      Follows k hole n o (body a).run (Sum.elim inv post) (Sum.elim anyEnd ends))
    (hinv : inv init o) :
    Follows k hole n o (Grammar.repeatFrom init body).run post ends := by
  rw [Grammar.run_repeatFrom]
  intro l b l' hl h
  obtain ⟨o', hb, hl', hg, hfollow⟩ := iterate_follows hbody _ init o hinv l b l' hl h
  refine ⟨o', hb, hl', hg, ?_⟩
  intro g hp hin hend
  exact hfollow g _ hp hin hend (by omega)

end Loop

end DecisionWalk
