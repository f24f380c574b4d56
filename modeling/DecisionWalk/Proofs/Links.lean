import DecisionWalk.Proofs.Fields
import DecisionWalk.Proofs.Trackers

/-!
# Two walks over one file

One walk leads and the other follows it. Either a parse leads and a generation
replays the decisions it recorded, or a generation leads and a parse reads the
file it made. The follower was given in advance what the leader will leave
behind; a link says what that is and how far two states agree.
-/

set_option autoImplicit false

namespace DecisionWalk

open Image Walker

variable {K α : Type}

def Span.Has (hole : Span) (i : Nat) : Prop := hole.start ≤ i ∧ i < hole.stop

def noHole : Span := ⟨0, 0⟩

theorem noHole_has (i : Nat) : ¬ noHole.Has i := by
  intro h
  exact absurd h.2 (Nat.not_lt_zero i)

inductive Link where
  | replay (decisions : Bytes)
  | reparse (input : Array UInt8)

/-- `t` comes after `s` in a walk: what `s` had fixed is still there, but for the hole. While there
is a hole the byte order stays. -/
structure Grows (hole : Span) (s t : State K) : Prop where
  mode : t.mode = s.mode
  limit : t.image.limit = s.image.limit
  input : s.mode = .parse → t.image.bytes = s.image.bytes
  stream : ∃ e, t.stream = s.stream.recorded e
  depth : t.tracker.depth = s.tracker.depth
  endian : hole.start < hole.stop → t.endian = s.endian
  size : s.image.size ≤ t.image.size
  keeps : ∀ i, s.image.fixedAt i = true → t.image.fixedAt i = true ∧
    (¬ hole.Has i → t.image.byteAt i = s.image.byteAt i)

theorem Grows.refl (hole : Span) (s : State K) : Grows hole s s :=
  ⟨rfl, rfl, fun _ => rfl, ⟨[], by simp⟩, rfl, fun _ => rfl, Nat.le_refl _,
    fun _ h => ⟨h, fun _ => rfl⟩⟩

theorem Grows.trans {hole : Span} {s t u : State K} (h : Grows hole s t) (h' : Grows hole t u) :
    Grows hole s u := by
  obtain ⟨e, he⟩ := h.stream
  obtain ⟨f, hf⟩ := h'.stream
  refine ⟨h'.mode.trans h.mode, h'.limit.trans h.limit,
    fun hm => (h'.input (h.mode.trans hm)).trans (h.input hm),
    ⟨e ++ f, by rw [hf, he, Stream.recorded_recorded]⟩, h'.depth.trans h.depth,
    fun hh => (h'.endian hh).trans (h.endian hh), Nat.le_trans h.size h'.size, ?_⟩
  intro i hi
  have h1 := h.keeps i hi
  have h2 := h'.keeps i h1.1
  exact ⟨h2.1, fun hh => (h2.2 hh).trans (h1.2 hh)⟩

structure Agree (hole : Span) (a b : Image) : Prop where
  cursor : a.cursor = b.cursor
  size : a.size = b.size
  fixedAt : ∀ i, a.fixedAt i = b.fixedAt i
  byteAt : ∀ i, a.fixedAt i = true → ¬ hole.Has i → a.byteAt i = b.byteAt i

namespace Link

def leader : Link → Mode
  | replay _ => .parse
  | reparse _ => .generate

def follower : Link → Mode
  | replay _ => .generate
  | reparse _ => .parse

def Tapes : Link → Stream → Stream → Prop
  | replay decisions, l, f =>
    f.past = l.past ∧ f.bytes = decisions ∧ decisions.length ≤ f.capacity
  | reparse _, l, f =>
    f.position ≤ l.position ∧ l.length ≤ l.capacity ∧ l.capacity ≤ f.capacity

def Books (n : Nat) (l f : Stream) (t u : Tracker K) : Link → Prop
  | replay _ => u = t.limited u.maxDepth ∧ u.depth + n ≤ u.maxDepth
  | reparse _ => Tracker.Alike l.position f.position t u

def Room : Link → Image → Image → Prop
  | replay _, l, f => l.limit ≤ f.limit
  | reparse input, _, f => f.bytes = input ∧ input.size ≤ 2 ^ 32

def Reaches : Link → Stream → Prop
  | replay decisions, l => l.consumed <+: decisions
  | reparse _, _ => True

def Covers (hole : Span) : Link → Image → Prop
  | replay _, _ => True
  | reparse input, im => im.size ≤ input.size ∧
    ∀ i, im.fixedAt i = true → ¬ hole.Has i → im.byteAt i = input[i]?.getD 0

def Within (k : Link) (hole : Span) (s : State K) : Prop :=
  k.Reaches s.stream ∧ k.Covers hole s.image

theorem Within.earlier {k : Link} {hole : Span} {s t : State K} (h : k.Within hole t)
    (hg : Grows hole s t) : k.Within hole s := by
  cases k with
  | replay decisions =>
    obtain ⟨e, he⟩ := hg.stream
    have hr : t.stream.consumed <+: decisions := h.1
    rw [he, Stream.recorded_consumed] at hr
    exact ⟨(List.prefix_append _ _).trans hr, trivial⟩
  | reparse input =>
    obtain ⟨hsize, hbytes⟩ := h.2
    refine ⟨trivial, Nat.le_trans hg.size hsize, ?_⟩
    intro i hi hh
    have hk := hg.keeps i hi
    rw [← hk.2 hh]
    exact hbytes i hk.1 hh

theorem Covers.moved {k : Link} {hole : Span} {im : Image} {p : Nat}
    (h : k.Covers hole (im.moveTo p)) : k.Covers hole im := by
  cases k <;> exact h

theorem Room.moved {k : Link} {a b : Image} (h : k.Room a b) (p : Nat) :
    k.Room (a.moveTo p) (b.moveTo p) := by
  cases k <;> exact h

end Link

theorem Agree.moved {hole : Span} {a b : Image} (h : Agree hole a b) (p : Nat) :
    Agree hole (a.moveTo p) (b.moveTo p) :=
  ⟨rfl, h.size, h.fixedAt, h.byteAt⟩

theorem Codec.ran {T : Prop} {x : Option α → Walker K α} {fits : Bool → α → Prop}
    {code : α → Bytes} (hc : Codec T x fits code) {s t : State K} {r : Option α} {v : α}
    (h : x r s = .ok v t) (hr : ∀ w, r = some w → fits s.evil.allowed w) :
    fits s.evil.allowed v ∧ (∀ w, r = some w → w = v) ∧ ∃ e, t = s.recorded e := by
  cases r with
  | none =>
    obtain ⟨hv, e, _, _, rfl, -⟩ := hc.drawn s v t h
    exact ⟨hv, fun w hw => (nomatch hw), e, rfl⟩
  | some w =>
    obtain ⟨rfl, rfl, -⟩ := hc.forced s w v t (hr w rfl) h
    exact ⟨hr v rfl, fun w hw => (Option.some.inj hw).symm, _, rfl⟩

theorem Stream.recorded_length (s : Stream) (e : Bytes) :
    (s.recorded e).length = max s.length (s.position + e.length) := by
  have hp := s.recorded_position e
  rw [position, position] at hp
  rw [length, length, hp, recorded_ahead, List.length_drop, position]
  omega

theorem Codec.took {x : Option α → Walker K α} {fits : Bool → α → Prop} {code : α → Bytes}
    (hc : Codec True x fits code) {l m : State K} {r : Option α} {v : α} (h : x r l = .ok v m)
    (hr : ∀ w, r = some w → fits l.evil.allowed w) (hlen : l.stream.length ≤ l.stream.capacity) :
    ∃ e, m = l.recorded e ∧ l.stream.position + e.length ≤ l.stream.capacity ∧
      (code v).length ≤ e.length ∧ (e = [] ↔ code v = []) := by
  obtain ⟨hv, hrv, -⟩ := hc.ran h hr
  rw [Stream.length] at hlen
  cases r with
  | none =>
    obtain ⟨-, e, tail, hahead, rfl, hnil, hle⟩ := hc.drawn l v m h
    refine ⟨e, rfl, ?_, hle trivial, hnil⟩
    rw [hahead, List.length_append] at hlen
    rw [Stream.position]
    omega
  | some w =>
    obtain rfl := hrv w rfl
    obtain ⟨-, rfl, hholds⟩ := hc.forced l w w m hv h
    refine ⟨code w, rfl, hholds ?_, Nat.le_refl _, Iff.rfl⟩
    rw [Stream.position]
    omega

namespace Link

section Draws

variable {x y : Option α → Walker K α} {fits fits' : Bool → α → Prop} {code : α → Bytes}
  {l f m : State K} {r q : Option α} {v : α}

/-- What a parse drew is ahead of the generation. -/
theorem draws_replay {decisions : Bytes} (hc : Codec True x fits code)
    (hd : Codec True y fits' code) (ht : (replay decisions).Tapes l.stream f.stream)
    (h : x (some v) l = .ok v m) (hv : fits l.evil.allowed v) (hvf : fits' f.evil.allowed v)
    (hq : q = some v ∨ q = none) (hreach : (replay decisions).Reaches m.stream) :
    ∃ e, y q f = .ok v (f.recorded e) ∧
      (replay decisions).Tapes m.stream (f.stream.recorded e) ∧
      (m.stream.position = l.stream.position ↔ e = []) := by
  obtain ⟨hpast, hbytes, hcap⟩ := ht
  obtain ⟨-, rfl, -⟩ := hc.forced l v v m hv h
  obtain ⟨tail, htail⟩ := hreach
  rw [State.recorded_stream, Stream.recorded_consumed, Stream.consumed, ← hpast,
    List.append_assoc] at htail
  have hahead : f.stream.ahead = code v ++ tail :=
    List.append_cancel_left (hbytes.trans htail.symm)
  have hrun : y q f = .ok v (f.recorded (code v)) := by
    rcases hq with rfl | rfl
    · apply hd.force f v hvf
      have hl := congrArg List.length hbytes
      simp only [Stream.bytes, hahead, List.length_append, Array.length_toList] at hl
      rw [Stream.position]
      omega
    · exact hd.replays f v tail hvf hahead
  refine ⟨code v, hrun, ⟨?_, ?_, hcap⟩, ?_⟩
  · simp [hpast]
  · rw [← hbytes]
    simp [Stream.bytes, hahead]
  · simp

theorem draws_reparse {input : Array UInt8} (hc : Codec True x fits code)
    (hd : Codec True y fits' code) (ht : (reparse input).Tapes l.stream f.stream)
    (h : x r l = .ok v m) (hr : ∀ w, r = some w → fits l.evil.allowed w)
    (hvf : fits' f.evil.allowed v) :
    ∃ e, y (some v) f = .ok v (f.recorded e) ∧
      (reparse input).Tapes m.stream (f.stream.recorded e) ∧
      (m.stream.position = l.stream.position ↔ e = []) := by
  obtain ⟨hpos, hlen, hcap⟩ := ht
  obtain ⟨e, rfl, hroom, hle, hnil⟩ := hc.took h hr hlen
  refine ⟨code v, hd.force f v hvf (by omega), ⟨?_, ?_, hcap⟩, ?_⟩
  · simp only [State.recorded_stream, Stream.recorded_position]
    omega
  · simp only [State.recorded_stream, Stream.recorded_length, Stream.recorded_capacity]
    omega
  · simp [← hnil]

/-- The follower draws the value that the leader drew, forced or from its stream. The two draws
may admit different values, but they share their codes. -/
theorem draws (k : Link) (hc : Codec True x fits code) (hd : Codec True y fits' code)
    (ht : k.Tapes l.stream f.stream) (h : x r l = .ok v m)
    (hr : ∀ w, r = some w → fits l.evil.allowed w) (hlead : k.leader = .parse → r ≠ none)
    (hvf : fits' f.evil.allowed v) (hq : q = some v ∨ q = none ∧ k.follower = .generate)
    (hreach : k.Reaches m.stream) :
    ∃ e, y q f = .ok v (f.recorded e) ∧ k.Tapes m.stream (f.stream.recorded e) ∧
      (m.stream.position = l.stream.position ↔ e = []) := by
  obtain ⟨hv, hrv, -⟩ := hc.ran h hr
  cases k with
  | replay decisions =>
    obtain ⟨w, rfl⟩ := Option.ne_none_iff_exists'.1 (hlead rfl)
    obtain rfl := hrv w rfl
    exact draws_replay hc hd ht h hv hvf (hq.imp_right And.left) hreach
  | reparse input =>
    rcases hq with rfl | ⟨-, hm⟩
    · exact draws_reparse hc hd ht h hr hvf
    · cases hm

end Draws

theorem Tapes.position_le {k : Link} {l f : Stream} (h : k.Tapes l f) :
    f.position ≤ f.capacity := by
  cases k with
  | replay decisions =>
    have hl := congrArg List.length h.2.1
    have hcap := h.2.2
    simp only [Stream.bytes, List.length_append, Array.length_toList] at hl
    rw [Stream.position]
    omega
  | reparse input =>
    obtain ⟨h1, h2, h3⟩ := h
    rw [Stream.length] at h2
    rw [Stream.position, Stream.position] at h1
    rw [Stream.position]
    omega

section Books

variable {k : Link} {n : Nat} {l f : Stream} {t u : Tracker K}

theorem Books.depth (h : k.Books n l f t u) : t.depth = u.depth := by
  cases k with
  | replay decisions =>
    rw [h.1]
    rfl
  | reparse input => exact Tracker.Alike.depth h

theorem Books.moved {e g : Bytes} (h : k.Books n l f t u) (heg : e = [] ↔ g = []) :
    k.Books n (l.recorded e) (f.recorded g) t u := by
  cases k with
  | replay decisions => exact h
  | reparse input =>
    have hm := Tracker.Alike.moved (a := e.length) (b := g.length) h (by simpa using heg)
    rw [← Stream.recorded_position, ← Stream.recorded_position] at hm
    exact hm

theorem Books.touch (h : k.Books n l f t u) (span : Span) :
    k.Books n l f (t.touch span) (u.touch span) := by
  cases k with
  | replay decisions =>
    obtain ⟨h1, h2⟩ := h
    refine ⟨?_, ?_⟩
    · rw [h1, Tracker.limited_touch]
      rfl
    · rw [Tracker.touch_depth, Tracker.touch_maxDepth]
      exact h2
  | reparse input => exact Tracker.Alike.touch h span

theorem Books.opened (h : k.Books (n + 1) l f t u) (ht : k.Tapes l f) (name : String) (kind : K)
    (cursor : Nat) :
    k.Books n l f (t.opened name kind l.position cursor)
      (u.opened name kind f.position cursor) := by
  cases k with
  | replay decisions =>
    obtain ⟨h1, h2⟩ := h
    have hp : f.position = l.position := congrArg Array.size ht.1
    refine ⟨?_, ?_⟩
    · rw [h1, Tracker.limited_opened, hp]
      rfl
    · rw [Tracker.opened_depth, Tracker.opened_maxDepth]
      omega
  | reparse input => exact Tracker.Alike.opened h name kind cursor

theorem Books.closed (h : k.Books n l f t u) (ht : k.Tapes l f) (hd : 0 < t.depth)
    (cursor : Nat) :
    k.Books (n + 1) l f (t.closed l.position cursor) (u.closed f.position cursor) := by
  have hdepth := h.depth
  cases k with
  | replay decisions =>
    obtain ⟨h1, h2⟩ := h
    have hp : f.position = l.position := congrArg Array.size ht.1
    refine ⟨?_, ?_⟩
    · rw [h1, Tracker.limited_closed, hp]
      rfl
    · rw [Tracker.closed_depth, Tracker.closed_maxDepth]
      omega
  | reparse input => exact Tracker.Alike.closed h cursor

theorem Books.lookahead {e g : Bytes} (h : k.Books n l f t u) (ht : k.Tapes l f)
    (ht' : k.Tapes (l.recorded e) (f.recorded g)) :
    k.Books n (l.recorded e) (f.recorded g)
      (t.lookahead ⟨l.position, (l.recorded e).position⟩)
      (u.lookahead ⟨f.position, (f.recorded g).position⟩) := by
  cases k with
  | replay decisions =>
    obtain ⟨h1, h2⟩ := h
    have hp : f.position = l.position := congrArg Array.size ht.1
    have hp' : (f.recorded g).position = (l.recorded e).position := congrArg Array.size ht'.1
    refine ⟨?_, ?_⟩
    · rw [h1, Tracker.limited_lookahead, hp, hp']
      rfl
    · rw [Tracker.lookahead_depth, Tracker.lookahead_maxDepth]
      exact h2
  | reparse input =>
    have hl := Tracker.Alike.lookahead (a := e.length) (b := g.length) h
    rw [← Stream.recorded_position, ← Stream.recorded_position] at hl
    exact hl

theorem Books.mayOpen (h : k.Books (n + 1) l f t u) (ht : t.depth < t.maxDepth) :
    u.depth < u.maxDepth := by
  cases k with
  | replay decisions =>
    have := h.2
    omega
  | reparse input =>
    have hd := Tracker.Alike.depth h
    have hm := Tracker.Alike.maxDepth h
    omega

end Books

end Link

structure Pairs (k : Link) (hole : Span) (n : Nat) (l f : State K) : Prop where
  sound : Sound k.follower f
  agree : Agree hole l.image f.image
  room : k.Room l.image f.image
  tapes : k.Tapes l.stream f.stream
  books : k.Books n l.stream f.stream l.tracker f.tracker
  endian : l.endian = f.endian
  evil : l.evil = f.evil
  log : l.log = f.log

/-- Both images are written at the cursor. The hole may change where they are written. -/
theorem Agree.written {hole hole' : Span} {a b a' b' : Image} {bs cs : Bytes}
    (h : Agree hole a b) (ha : Writes bs a a') (hb : Writes cs b b') (hlen : bs.length = cs.length)
    (hold : ∀ i, ¬ hole'.Has i → ¬ (a.cursor ≤ i ∧ i < a.cursor + bs.length) → ¬ hole.Has i)
    (hnew : ∀ j, j < bs.length → ¬ hole'.Has (a.cursor + j) → bs[j]?.getD 0 = cs[j]?.getD 0) :
    Agree hole' a' b' := by
  have hcur := h.cursor
  refine ⟨?_, ?_, ?_, ?_⟩
  · rw [ha.cursor, hb.cursor, hcur, hlen]
  · rw [ha.size, hb.size, h.size, hcur, hlen]
  · intro i
    rw [ha.fixedAt, hb.fixedAt, h.fixedAt, hcur, hlen]
  · intro i hi hh
    rw [ha.byteAt, hb.byteAt, ← hcur, ← hlen]
    by_cases hin : a.cursor ≤ i ∧ i < a.cursor + bs.length
    · rw [if_pos hin, if_pos hin]
      apply hnew (i - a.cursor) (by omega)
      rw [Nat.add_sub_cancel' hin.1]
      exact hh
    · rw [ha.fixedAt, decide_eq_false hin, Bool.or_false] at hi
      rw [if_neg hin, if_neg hin]
      exact h.byteAt i hi (hold i hh hin)

theorem Grows.emitted {hole : Span} {s t : State K} {e bs : Bytes}
    (h : Emits bs (s.recorded e) t)
    (hkeep : ∀ j (hj : j < bs.length), s.image.fixedAt (s.image.cursor + j) = true →
      ¬ hole.Has (s.image.cursor + j) → s.image.byteAt (s.image.cursor + j) = bs[j]) :
    Grows hole s t := by
  refine ⟨?_, h.writes.limit, h.input, ⟨e, ?_⟩, ?_, ?_, ?_, ?_⟩
  · rw [h.rest]
    rfl
  · rw [h.rest]
    rfl
  · rw [h.rest]
    exact Tracker.touch_depth _ _
  · intro _
    rw [h.rest]
    rfl
  · rw [h.writes.size]
    exact Nat.le_max_left _ _
  · intro i hi
    have hcur : (s.recorded e).image = s.image := rfl
    rw [h.writes.fixedAt, h.writes.byteAt, hcur, hi]
    refine ⟨rfl, ?_⟩
    intro hh
    split
    · have hj : i - s.image.cursor < bs.length := by omega
      have hk := hkeep (i - s.image.cursor) hj
      rw [Nat.add_sub_cancel' (by omega)] at hk
      rw [List.getElem?_eq_getElem hj, Option.getD_some, hk hi hh]
    · rfl

section Follow

variable {k : Link} {hole : Span} {n : Nat} {l l' g : State K}

theorem Pairs.recorded {e d : Bytes} (hp : Pairs k hole n l g)
    (ht : k.Tapes (l.recorded e).stream (g.recorded d).stream) (hed : e = [] ↔ d = []) :
    Pairs k hole n (l.recorded e) (g.recorded d) :=
  ⟨hp.sound.recorded d, hp.agree, hp.room, ht, hp.books.moved hed, hp.endian, hp.evil, hp.log⟩

theorem Pairs.setEvil (hp : Pairs k hole n l g) (e : EvilBit) :
    Pairs k hole n { l with evil := e } { g with evil := e } :=
  ⟨hp.sound.like rfl rfl rfl, hp.agree, hp.room, hp.tapes, hp.books, hp.endian, rfl, hp.log⟩

theorem Pairs.moved (hp : Pairs k hole n l g) (p : Nat) :
    Pairs k hole n { l with image := l.image.moveTo p } { g with image := g.image.moveTo p } :=
  ⟨hp.sound.moveTo p, hp.agree.moved p, hp.room.moved p, hp.tapes, hp.books, hp.endian, hp.evil,
    hp.log⟩

theorem Link.stands {input : Array UInt8} {hole : Span} {bs : Bytes} {im im' other : Image}
    (hin : other.bytes = input) (hcur : im.cursor = other.cursor) (hw : Writes bs im im')
    (hcov : (Link.reparse input).Covers hole im') (hhole : hole.stop ≤ im.cursor) :
    other.Stands bs := by
  obtain ⟨hsize, hbytes⟩ := hcov
  rw [hw.size] at hsize
  refine ⟨by rw [hin]; omega, ?_⟩
  intro j hj
  have hfix : im'.fixedAt (im.cursor + j) = true := by
    rw [hw.fixedAt]
    simp [hj]
  have hb := hbytes _ hfix fun hh => by
    have := hh.2
    omega
  rw [hw.byteAt, if_pos (by omega), Nat.add_sub_cancel_left, List.getElem?_eq_getElem hj,
    Option.getD_some] at hb
  rw [byteAt, hin, ← hcur, hb]

theorem Pairs.emitted {hole' : Span} {bs cs : Bytes} {g' : State K} (hp : Pairs k hole n l g)
    (hl : Emits bs l l') (hg : Emits cs g g') (hlen : bs.length = cs.length)
    (hold : ∀ i, ¬ hole'.Has i → ¬ (l.image.cursor ≤ i ∧ i < l.image.cursor + bs.length) →
      ¬ hole.Has i)
    (hnew : ∀ j, j < bs.length → ¬ hole'.Has (l.image.cursor + j) →
      bs[j]?.getD 0 = cs[j]?.getD 0)
    (hs : Sound k.follower g') (hroom : k.Room l'.image g'.image) : Pairs k hole' n l' g' := by
  refine ⟨hs, hp.agree.written hl.writes hg.writes hlen hold hnew, hroom, ?_, ?_, ?_, ?_, ?_⟩
  · rw [hl.rest, hg.rest]
    exact hp.tapes
  · rw [hl.rest, hg.rest]
    simp only [State.touching, hp.agree.cursor, hlen]
    exact hp.books.touch _
  · rw [hl.rest, hg.rest]
    exact hp.endian
  · rw [hl.rest, hg.rest]
    exact hp.evil
  · rw [hl.rest, hg.rest]
    exact hp.log

/-- The follower emits what the leader emitted, whatever the hole is afterwards. -/
theorem Pairs.emits {hole' : Span} {bs : Bytes} {u : Unit} (hs : Sound k.leader l)
    (hp : Pairs k hole n l g) (h : emit bs l = .ok u l') (hcov : k.Covers hole' l'.image)
    (hhole : hole'.stop ≤ l.image.cursor)
    (hold : ∀ i, ¬ hole'.Has i → ¬ (l.image.cursor ≤ i ∧ i < l.image.cursor + bs.length) →
      ¬ hole.Has i) :
    ∃ g', emit bs g = .ok () g' ∧ Emits bs g g' ∧ Pairs k hole' n l' g' := by
  obtain ⟨he, hs', hlim, -⟩ := emit_ok hs h
  have hrun : ∃ g', emit bs g = .ok () g' ∧ Emits bs g g' ∧ Sound k.follower g' ∧
      k.Room l'.image g'.image := by
    have hcur := hp.agree.cursor
    cases k with
    | replay decisions =>
      have hroom : l.image.limit ≤ g.image.limit := hp.room
      obtain ⟨g', h1, h2, h3⟩ := emit_generate bs hp.sound (by omega)
      refine ⟨g', h1, h2, h3, ?_⟩
      show l'.image.limit ≤ g'.image.limit
      rw [he.writes.limit, h2.writes.limit]
      exact hroom
    | reparse input =>
      obtain ⟨g', h1, h2, h3⟩ :=
        emit_parse hp.sound (Link.stands hp.room.1 hcur he.writes hcov hhole)
      exact ⟨g', h1, h2, h3, (h2.input hp.sound.mode).trans hp.room.1, hp.room.2⟩
  obtain ⟨g', h1, h2, h3, h4⟩ := hrun
  exact ⟨g', h1, h2, hp.emitted he h2 rfl hold (fun _ _ _ => rfl) h3 h4⟩

/-- The follower finds the value itself, or nothing while it generates. -/
theorem Pairs.finds {f : Field K α} {opens shut : Image → Prop} {fits : Bool → α → Prop}
    {code : α → Bytes} (hf : f.Lawful opens shut fits code) {v : α} {e : Bytes}
    (hp : Pairs k hole n l g) (hw : opens l.image ∨ shut l.image)
    (hhole : hole.stop ≤ l.image.cursor) (he : Emits (f.encode l.endian v) (l.recorded e) l')
    (hst : k.leader = .parse → l.image.Stands (f.encode l.endian v))
    (hv : fits g.evil.allowed v) (hcov : k.Covers hole l'.image) :
    ∃ q, f.find g = .ok q g ∧ (q = some v ∨ q = none ∧ k.follower = .generate) := by
  cases k with
  | replay decisions =>
    have hsame := hf.same _ _ hp.agree.cursor hp.agree.size hp.agree.fixedAt
    rcases hw with ho | hsh
    · exact ⟨none, hf.absent g hp.sound (hsame.1 ho), Or.inr ⟨rfl, rfl⟩⟩
    · refine ⟨some v, hf.found _ g _ v hp.sound (Or.inr (hsame.2 hsh)) hv ?_, Or.inl rfl⟩
      obtain ⟨hend, hfix⟩ := hf.fixed _ _ l.endian v hsh hv
      rw [← hp.endian]
      refine ⟨?_, ?_⟩
      · have h1 := hp.sound.size_le
        have h2 := hp.agree.size
        have h3 := hp.agree.cursor
        omega
      · intro j hj
        have hb := hp.agree.byteAt _ (hfix j hj) fun hh => by
          have := hh.2
          omega
        rw [← hp.agree.cursor, ← hb]
        exact (hst rfl).2 j hj
  | reparse input =>
    refine ⟨some v, hf.found _ g _ v hp.sound (Or.inl rfl) hv ?_, Or.inl rfl⟩
    rw [← hp.endian]
    exact Link.stands hp.room.1 hp.agree.cursor he.writes hcov hhole

/-- A field is read by the follower as it was by the leader. -/
theorem Pairs.reads {f : Field K α} {opens shut : Image → Prop} {fits : Bool → α → Prop}
    {code : α → Bytes} (hf : f.Lawful opens shut fits code) {v : α} (hs : Sound k.leader l)
    (hw : opens l.image ∨ shut l.image) (hhole : hole.stop ≤ l.image.cursor)
    (h : f.read l = .ok v l') :
    ∃ e, Emits (f.encode l.endian v) (l.recorded e) l' ∧ Sound k.leader l' ∧ Grows hole l l' ∧
      fits l.evil.allowed v ∧
      ∀ g n, Pairs k hole n l g → k.Within hole l' → ∃ d g', f.read g = .ok v g' ∧
        Emits (f.encode l.endian v) (g.recorded d) g' ∧ Pairs k hole n l' g' ∧
        (e = [] ↔ d = []) := by
  obtain ⟨r, u, hdraw, hemit, hr, hlead, hfound⟩ := hf.ran hs hw h
  obtain ⟨hv, hrv, e, rfl⟩ := hf.codec.ran hdraw hr
  obtain ⟨he, hs', hlim, hst⟩ := emit_ok (hs.recorded e) hemit
  have hgrows : Grows hole l l' := by
    apply Grows.emitted he
    intro j hj hfix _
    rcases hfound with ⟨-, ho⟩ | ⟨w, rfl, hthere⟩
    · have := hf.fresh _ _ l.endian v ho hv j hj
      rw [hfix] at this
      cases this
    · obtain rfl := hrv w rfl
      exact hthere.2 j hj
  refine ⟨e, he, hs', hgrows, hv, ?_⟩
  intro g n hp hin
  have hstream : l'.stream = (l.recorded e).stream := by
    rw [he.rest]
    rfl
  obtain ⟨q, hq, hqv⟩ := hp.finds hf hw hhole he hst (hp.evil ▸ hv) hin.2
  obtain ⟨d, hd, htapes, hed⟩ := k.draws hf.codec hf.codec hp.tapes hdraw hr hlead
    (hp.evil ▸ hv) hqv (hstream ▸ hin.1)
  have hed' : e = [] ↔ d = [] := by
    rw [← hed]
    simp
  obtain ⟨g', hg', heg, hp'⟩ := (hp.recorded htapes hed').emits (hs.recorded e) hemit hin.2 hhole
    fun _ hi _ => hi
  refine ⟨d, g', ?_, heg, hp', hed'⟩
  rw [Field.read, bind_run hq, bind_run hd, get_bind]
  have hend : (g.recorded d).endian = (l.recorded e).endian := hp.endian.symm
  rw [hend, bind_run hg', pure_run]

end Follow

end DecisionWalk
