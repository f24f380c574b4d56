import DecisionWalk.Proofs.Spelling
import DecisionWalk.Proofs.Tracking

/-!
# What the body of a production covers

Reads follow one another without a gap, and a patch goes back to a field that was
read before. So the body of a production without children touches one range, from
where the cursor stood to where it stands, and the chunk of the production has
that range.
-/

set_option autoImplicit false

namespace DecisionWalk

open Walker

variable {K α β : Type} {b s t u : State K} {k l m n : Nat} {bs : Bytes}

def Chunk.followed (c : Chunk K) : Chunk K := { c with appendable := true }

namespace Tracker

theorem touch_empty (t : Tracker K) (c : Nat) : t.touch ⟨c, c⟩ = t :=
  if_pos (decide_eq_true (Nat.le_refl c))

theorem touch_cons {t : Tracker K} {top : OpenProduction} {rest : List OpenProduction}
    (h : t.stack = top :: rest) (span : Span) (hspan : span.start < span.stop) : t.touch span =
      { t with stack := { top with touched := joinTouched top.touched span } :: rest } := by
  rw [touch, if_neg, h]
  simp [Span.isEmpty, hspan]

/-- A lookahead right behind a production that was closed makes it appendable. -/
theorem lookahead_found {t : Tracker K} {slot : Nat} {c : Chunk K} {decisions : Span}
    (hexit : t.lastExit = some slot) (hc : t.chunks[slot]? = some c)
    (hstop : c.decisions.stop = decisions.start) (happ : c.appendable = false) :
    t.lookahead decisions =
      { t with
        chunks := t.chunks.modify slot Chunk.followed
        points := ⟨decisions.start, c.file.stop, c.kind, c.name, .afterAppendable⟩ :: t.points
        lastExit := none
        gate := some decisions } := by
  have hfound : t.appendableAt decisions.start = some (slot, c) := by
    simp [appendableAt, hexit, hc, hstop, happ, Option.filter]
  rw [lookahead, hfound]
  rfl

theorem touch_nil {t : Tracker K} (h : t.stack = []) (span : Span) : t.touch span = t := by
  rw [touch, h]
  split <;> rfl

/-- Two ranges of which the second starts within the first or right behind it are one. -/
theorem touch_touch (t : Tracker K) {a c d e : Nat} (hac : a ≤ c) (had : a ≤ d) (hdc : d ≤ c)
    (hde : d ≤ e) : (t.touch ⟨a, c⟩).touch ⟨d, e⟩ = t.touch ⟨a, max c e⟩ := by
  cases hs : t.stack with
  | nil => rw [touch_nil hs, touch_nil hs, touch_nil hs]
  | cons top rest =>
    by_cases hlt : a < c
    · have hwide : a < max c e := by omega
      rw [touch_cons hs ⟨a, c⟩ hlt, touch_cons hs ⟨a, max c e⟩ hwide]
      by_cases hlt' : d < e
      · rw [touch_cons rfl ⟨d, e⟩ hlt']
        cases top.touched <;> simp [joinTouched, Span.hull] <;> omega
      · have hsame : e = d := by omega
        rw [hsame, touch_empty, Nat.max_eq_left hdc]
    · have hsame : c = a := by omega
      have hsame' : d = a := by omega
      rw [hsame, hsame', touch_empty, Nat.max_eq_right (by omega)]

end Tracker

/-- From `s` on, at least `m` decisions were taken, and the bytes from its cursor to that of `t`
were touched, at least `n` of them and nothing behind them. -/
structure Strides (m n : Nat) (s t : State K) : Prop where
  start : s.image.cursor ≤ s.image.size
  position : s.stream.position + m ≤ t.stream.position
  cursor : s.image.cursor + n ≤ t.image.cursor
  size : t.image.size = max s.image.size t.image.cursor
  tracker : t.tracker = s.tracker.touch ⟨s.image.cursor, t.image.cursor⟩

namespace Strides

theorem refl (h : s.image.cursor ≤ s.image.size) : Strides 0 0 s s where
  start := h
  position := Nat.le_refl _
  cursor := Nat.le_refl _
  size := (Nat.max_eq_left h).symm
  tracker := (Tracker.touch_empty _ _).symm

theorem weaken (h : Strides m n s t) (hk : k ≤ m) (hl : l ≤ n) : Strides k l s t := by
  have hposition := h.position
  have hcursor := h.cursor
  exact ⟨h.start, by omega, by omega, h.size, h.tracker⟩

theorem spelled (h : Strides k l b s) (hs : Spells m bs s t) :
    Strides (k + m) (l + bs.length) b t := by
  have hcursor := h.cursor
  have hcursor' := hs.cursor
  have hsize := h.size
  have hsize' := hs.size
  have hposition := h.position
  have hposition' := hs.position
  refine ⟨h.start, by omega, by omega, by omega, ?_⟩
  rw [hs.tracker, h.tracker, Tracker.touch_touch _ (by omega) (by omega) (by omega) (by omega),
    Nat.max_eq_right (by omega)]

theorem recorded (h : Strides k l b s) (e : Bytes) : Strides k l b (s.recorded e) := by
  have hposition := h.position
  refine ⟨h.start, ?_, h.cursor, h.size, h.tracker⟩
  rw [State.recorded_stream, Stream.recorded_position]
  omega

/-- A field that was read on the way may be patched. -/
theorem patched {field : Reserved} {v : Nat} {a : Unit} (h : Strides k l b s)
    (hfield : field.position = b.image.cursor) (hwidth : field.width ≤ l)
    (hx : patch field v s = .ok a t) : Strides k l b t := by
  have hstart := h.start
  have hsize := h.size
  have hcursor := h.cursor
  obtain ⟨bs, there, u, hlen, hthere, hemit, hback⟩ := patch_steps hx
  have hgo : there = s.movedTo b.image.cursor := by
    rcases seek_cases hthere with ⟨-, h⟩ | ⟨hlt, -⟩
    · rw [h, hfield]
    · omega
  subst hgo
  have husize : u.image.size = max s.image.size (b.image.cursor + bs.length) := hemit.writes.size
  have hreturn : t = u.movedTo s.image.cursor := by
    rcases seek_cases hback with ⟨-, h⟩ | ⟨hlt, -⟩
    · exact h
    · omega
  subst hreturn
  have hrest := hemit.rest
  refine ⟨hstart, ?_, hcursor, ?_, ?_⟩
  · rw [hrest]
    exact h.position
  · show u.image.size = max b.image.size s.image.cursor
    omega
  · rw [hrest]
    show s.tracker.touch ⟨b.image.cursor, b.image.cursor + bs.length⟩ = _
    rw [h.tracker, Tracker.touch_touch _ (by omega) (by omega) (by omega) (by omega),
      Nat.max_eq_left (by omega)]
    rfl

end Strides

def Striding (b : State K) (l m n : Nat) (x : Walker K α) : Prop :=
  ∀ k s a t, Strides k l b s → x s = .ok a t → Strides (k + m) (l + n) b t

namespace Striding

theorem looks {x : Walker K α} (h : ∀ s a t, x s = .ok a t → t = s) : Striding b l 0 0 x := by
  intro k s a t hs hx
  rw [h s a t hx]
  exact hs

theorem pure (a : α) : Striding b l 0 0 (pure a : Walker K α) :=
  looks fun _ _ _ h => by cases h; rfl

theorem failing {x : Walker K α} (h : ∀ s a t, x s ≠ .ok a t) : Striding b l m n x :=
  fun _ s a t _ hx => absurd hx (h s a t)

theorem bind {x : Walker K α} {f : α → Walker K β} {m' n' : Nat} (hx : Striding b l m n x)
    (hf : ∀ a, Striding b (l + n) m' n' (f a)) : Striding b l (m + m') (n + n') (x >>= f) := by
  intro k s c t hs h
  obtain ⟨a, u, h1, h2⟩ := bind_ok.1 h
  rw [← Nat.add_assoc, ← Nat.add_assoc]
  exact hf a _ u c t (hx k s a u hs h1) h2

theorem behind {x : Walker K α} {f : α → Walker K β} (hx : ∀ s a t, x s = .ok a t → t = s)
    (hf : ∀ a, Striding b l m n (f a)) : Striding b l m n (x >>= f) := by
  intro k s c t hs h
  obtain ⟨a, u, h1, h2⟩ := bind_ok.1 h
  rw [hx s a u h1] at h2
  exact hf a k s c t hs h2

theorem weaken {x : Walker K α} {m' n' : Nat} (h : Striding b l m n x) (hm : m' ≤ m)
    (hn : n' ≤ n) : Striding b l m' n' x :=
  fun k s a t hs hx => (h k s a t hs hx).weaken (by omega) (by omega)

theorem spells {x : Walker K α}
    (h : ∀ s a t, x s = .ok a t → ∃ bs, bs.length = n ∧ Spells m bs s t) :
    Striding b l m n x := by
  intro k s a t hs hx
  obtain ⟨bs, rfl, hspells⟩ := h s a t hx
  exact hs.spelled hspells

theorem reads {x : Walker K α} (h : ∀ s a t, x s = .ok a t → ∃ bs, Spells m bs s t) :
    Striding b l m 0 x := by
  intro k s a t hs hx
  obtain ⟨bs, hspells⟩ := h s a t hx
  exact (hs.spelled hspells).weaken (Nat.le_refl _) (Nat.le_add_right _ _)

theorem costs {x : Walker K α} (h : Costs m x) : Striding b l 0 0 x := by
  intro k s a t hs hx
  obtain ⟨e, -, rfl⟩ := h s a t hx
  exact hs.recorded e

theorem withEvil {x : Walker K α} (h : Striding b l m n x) (allowed : Bool) :
    Striding b l m n (Walker.withEvil allowed x) := by
  intro k s a t hs hx
  have hs' : Strides k l b { s with evil := ⟨allowed⟩ } :=
    ⟨hs.start, hs.position, hs.cursor, hs.size, hs.tracker⟩
  rw [Walker.withEvil] at hx
  cases hr : x { s with evil := ⟨allowed⟩ } with
  | error e u =>
    rw [hr] at hx
    cases hx
  | ok c u =>
    rw [hr] at hx
    cases hx
    have hu := h k _ _ u hs' hr
    exact ⟨hu.start, hu.position, hu.cursor, hu.size, hu.tracker⟩

theorem strides {x : Walker K α} {a : α} (h : Striding s 0 m n x)
    (hs : s.image.cursor ≤ s.image.size) (hx : x s = .ok a t) : Strides m n s t := by
  have hstrides := h 0 s a t (.refl hs) hx
  rwa [Nat.zero_add, Nat.zero_add] at hstrides

end Striding

structure Looked (offset n : Nat) (s t : State K) : Prop where
  position : s.stream.position + 1 ≤ t.stream.position
  cursor : t.image.cursor = s.image.cursor
  size : t.image.size = max s.image.size (s.image.cursor + offset + n)
  tracker : t.tracker = (s.tracker.touch
      ⟨s.image.cursor + offset, s.image.cursor + offset + n⟩).lookahead
    ⟨s.stream.position, t.stream.position⟩

theorem Looked.bytesKnown {offset : Nat} {known : List Bytes}
    (h : lookBytesKnown offset n known s = .ok bs t) : Looked offset n s t := by
  obtain ⟨u, hread, rfl⟩ := ahead_ok h
  obtain ⟨rfl, hspells⟩ := readBytesKnown_spells hread
  have hcursor : u.image.cursor = s.image.cursor + offset + bs.length := hspells.cursor
  have hsize := hspells.size
  have htracker := hspells.tracker
  rw [hcursor] at hsize htracker
  refine ⟨hspells.position, rfl, hsize, ?_⟩
  show u.tracker.lookahead _ = _
  rw [htracker]
  rfl

/-- Inside a production, right behind another one that was closed. -/
theorem Looked.behind {offset slot : Nat} {c : Chunk K} {o : OpenProduction}
    {outer : List OpenProduction} (h : Looked offset n s t) (hn : 0 < n)
    (hs : s.tracker.stack = o :: outer) (hexit : s.tracker.lastExit = some slot)
    (hc : s.tracker.chunks[slot]? = some c) (hstop : c.decisions.stop = s.stream.position)
    (happ : c.appendable = false) :
    t.tracker.stack =
        { o with
          touched := Tracker.joinTouched o.touched
            ⟨s.image.cursor + offset, s.image.cursor + offset + n⟩ } :: outer ∧
      t.tracker.chunks = s.tracker.chunks.modify slot Chunk.followed ∧
      t.tracker.gate = some ⟨s.stream.position, t.stream.position⟩ ∧
      t.tracker.points =
        ⟨s.stream.position, c.file.stop, c.kind, c.name, .afterAppendable⟩ :: s.tracker.points := by
  have htouch := Tracker.touch_cons hs ⟨s.image.cursor + offset, s.image.cursor + offset + n⟩
    (Nat.lt_add_of_pos_right hn)
  have htracker := h.tracker
  rw [htouch] at htracker
  rw [htracker.trans (Tracker.lookahead_found hexit hc hstop happ)]
  exact ⟨rfl, rfl, rfl, rfl⟩

section Grammars

variable [DecidableEq K]

theorem Striding.discard {g : Grammar K α} (h : Striding b l m n g.run) :
    Striding b l m n (discard g : Grammar K Unit).run := by
  rw [Grammar.run_discard]
  exact h.bind fun _ => .pure _

theorem Looked.underEvil {offset : Nat} {known : List Bytes} {allowed : Bool}
    (h : (Grammar.underEvil allowed (Grammar.request (.lookBytes offset n known) :
      Grammar K Bytes)).run s = .ok bs t) : Looked offset n s t := by
  rw [Grammar.run_underEvil, Grammar.run_request, Walker.withEvil] at h
  cases hr : (Request.lookBytes offset n known).answer { s with evil := ⟨allowed⟩ } with
  | error e u =>
    rw [hr] at h
    cases h
  | ok a u =>
    rw [hr] at h
    cases h
    have hlooked := Looked.bytesKnown hr
    exact ⟨hlooked.position, hlooked.cursor, hlooked.size, hlooked.tracker⟩

structure Produced (name : String) (kind : K) (m n : Nat) (s t : State K) : Prop where
  position : s.stream.position + m ≤ t.stream.position
  cursor : s.image.cursor + n ≤ t.image.cursor
  size : t.image.size = max s.image.size t.image.cursor
  tracker : t.tracker = ((s.tracker.opened name kind s.stream.position s.image.cursor).touch
    ⟨s.image.cursor, t.image.cursor⟩).closed t.stream.position t.image.cursor

/-- A production whose body strides where the production is opened. -/
theorem Strides.produced_here {name : String} {kind : K} {body : Grammar K α} {a : α}
    (hbody : ∀ u a v, u.image = s.image → body.run u = .ok a v → Strides m n u v)
    (h : (Grammar.inScope name kind body).run s = .ok a t) : Produced name kind m n s t := by
  rw [Grammar.run_inScope] at h
  obtain ⟨depth, s1, hopen, hrest⟩ := bind_ok.1 h
  obtain ⟨c, s2, hrun, hrest'⟩ := bind_ok.1 hrest
  obtain ⟨_, s3, hclose, hend⟩ := bind_ok.1 hrest'
  cases hend
  obtain ⟨watches, hopened⟩ := openScope_opened hopen
  obtain ⟨watches', stream, hpast, rfl⟩ := closeScope_closed hclose
  have hstrides := hbody s1 a s2 (by rw [hopened]) hrun
  rw [hopened] at hstrides
  have hposition : stream.position = s2.stream.position := congrArg Array.size hpast
  refine ⟨?_, hstrides.cursor, hstrides.size, ?_⟩
  · show s.stream.position + m ≤ stream.position
    rw [hposition]
    exact hstrides.position
  · show s2.tracker.closed s2.stream.position s2.image.cursor = _
    rw [hstrides.tracker, ← hposition]

theorem Strides.produced {name : String} {kind : K} {body : Grammar K α} {a : α}
    (hs : s.image.cursor ≤ s.image.size)
    (hbody : ∀ u a v, u.image.cursor ≤ u.image.size → body.run u = .ok a v → Strides m n u v)
    (h : (Grammar.inScope name kind body).run s = .ok a t) : Produced name kind m n s t :=
  Strides.produced_here (fun u a v hu => hbody u a v (hu ▸ hs)) h

end Grammars

def State.product (s t : State K) (name : String) (kind : K) : Chunk K :=
  { s.tracker.fresh name kind s.stream.position s.image.cursor with
    file := ⟨s.image.cursor, t.image.cursor⟩
    decisions := ⟨(s.tracker.entering s.stream.position).start, t.stream.position⟩ }

theorem Tracker.opened_modify (t : Tracker K) (name : String) (kind : K) (p c : Nat)
    (f : Chunk K → Chunk K) : (t.opened name kind p c).chunks.modify t.chunks.size f =
      t.chunks.push (f (t.fresh name kind p c)) := by
  rw [opened_chunks]
  apply Array.ext_getElem?
  intro i
  rw [Array.getElem?_modify, Array.getElem?_push, Array.getElem?_push]
  by_cases hi : i = t.chunks.size
  · rw [if_pos hi.symm, if_pos hi, if_pos hi]
    rfl
  · rw [if_neg (Ne.symm hi), if_neg hi, if_neg hi]

/-- Inside another production, a chunk is added and its range is handed outwards. -/
theorem Produced.within {name : String} {kind : K} {o : OpenProduction}
    {outer : List OpenProduction} (h : Produced name kind m n s t) (hn : 0 < n)
    (hs : s.tracker.stack = o :: outer) :
    t.tracker.stack =
        { o with
          children := o.children.bump name
          touched := Tracker.joinTouched o.touched ⟨s.image.cursor, t.image.cursor⟩ } :: outer ∧
      t.tracker.chunks = s.tracker.chunks.push (s.product t name kind) ∧
      t.tracker.lastExit = some s.tracker.chunks.size ∧
      t.tracker.gate = (s.tracker.opened name kind s.stream.position s.image.cursor).gate ∧
      t.tracker.points = (s.tracker.opened name kind s.stream.position s.image.cursor).points := by
  have hcursor := h.cursor
  have hspan : s.image.cursor < t.image.cursor := by omega
  have hstack := Tracker.opened_stack s.tracker name kind s.stream.position s.image.cursor
  rw [hs] at hstack
  rw [h.tracker, Tracker.touch_cons hstack ⟨_, _⟩ hspan, Tracker.closed_eq rfl]
  exact ⟨rfl, Tracker.opened_modify _ _ _ _ _ _, rfl, rfl, rfl⟩

end DecisionWalk
