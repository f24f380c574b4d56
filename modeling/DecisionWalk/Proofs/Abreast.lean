import DecisionWalk.Proofs.Lockstep
import DecisionWalk.Proofs.Reserving

/-!
# Sequential walks abreast

A walk that never moves its cursor back, nor looks ahead of it, has fixed
everything before the cursor and nothing behind. Two such walks of one file keep
abreast in either direction: a parse and a generation from what it recorded, or
a generation and the walks over the file that it made.
-/

set_option autoImplicit false

namespace DecisionWalk

open Image Walker

variable {K α : Type} {m : Mode} {input : Array UInt8}

structure Level (s : State K) : Prop where
  sound : Sound s.mode s
  size : s.image.size = s.image.cursor
  fixedAt : ∀ i, s.image.fixedAt i = true ↔ i < s.image.cursor

namespace Level

variable {s t : State K}

theorem like (h : Level s) (hm : t.mode = s.mode) (hw : t.watches = s.watches)
    (hi : t.image = s.image) : Level t :=
  ⟨hm ▸ h.sound.like hm hw hi, hi ▸ h.size, hi ▸ h.fixedAt⟩

theorem recorded (h : Level s) (e : Bytes) : Level (s.recorded e) := h.like rfl rfl rfl

theorem tracking (h : Level s) (tracker : Tracker K) : Level (s.tracking tracker) :=
  h.like rfl rfl rfl

theorem fresh (h : Level s) (k : Nat) : s.image.fixedAt (s.image.cursor + k) = false := by
  rw [Bool.eq_false_iff, Ne, h.fixedAt]
  omega

theorem emitted {bs : Bytes} (h : Level s) (he : Emits bs s t) (hs : Sound s.mode t) :
    Level t := by
  have hw := he.writes
  have hsize := h.size
  refine ⟨hs.mode.symm ▸ hs, ?_, ?_⟩
  · rw [hw.size, hw.cursor]
    omega
  · intro i
    rw [hw.fixedAt, Bool.or_eq_true, h.fixedAt, decide_eq_true_eq, hw.cursor]
    omega

/-- What is covered after an emission was covered before it. -/
theorem covers {bs : Bytes} (h : Level s) (he : Emits bs s t)
    (hc : (Link.reparse input).Covers noHole t.image) :
    (Link.reparse input).Covers noHole s.image := by
  have hw := he.writes
  obtain ⟨hsize, hbytes⟩ := hc
  rw [hw.size] at hsize
  refine ⟨by omega, ?_⟩
  intro i hi hh
  have hlt := (h.fixedAt i).1 hi
  have hb := hbytes i (by rw [hw.fixedAt, hi]; rfl) hh
  rw [hw.byteAt, if_neg (by omega)] at hb
  exact hb

end Level

def Ledger : Mode → State K → State K → Prop
  | .parse, l, f => f.stream.past = l.stream.past ∧ f.tracker = l.tracker
  | .generate, l, f => Tracker.Alike l.stream.position f.stream.position l.tracker f.tracker

namespace Ledger

variable {l f : State K}

theorem depth (h : Ledger m l f) : l.tracker.depth = f.tracker.depth := by
  cases m with
  | parse => rw [h.2]
  | generate => exact Tracker.Alike.depth h

theorem maxDepth (h : Ledger m l f) : l.tracker.maxDepth = f.tracker.maxDepth := by
  cases m with
  | parse => rw [h.2]
  | generate => exact Tracker.Alike.maxDepth h

theorem recorded {d e : Bytes} (h : Ledger m l f) (hnil : d = [] ↔ e = [])
    (hexact : m = .parse → d = e) : Ledger m (l.recorded d) (f.recorded e) := by
  cases m with
  | parse =>
    obtain rfl := hexact rfl
    exact ⟨by simp [h.1], h.2⟩
  | generate =>
    have hm := Tracker.Alike.moved (a := d.length) (b := e.length) h (by simpa using hnil)
    rw [← Stream.recorded_position, ← Stream.recorded_position] at hm
    exact hm

theorem touching (h : Ledger m l f) (hc : l.image.cursor = f.image.cursor) (n : Nat)
    (im im' : Image) : Ledger m (l.touching n im) (f.touching n im') := by
  cases m with
  | parse =>
    refine ⟨h.1, ?_⟩
    show f.tracker.touch _ = l.tracker.touch _
    rw [h.2, hc]
  | generate =>
    have ht := Tracker.Alike.touch h ⟨l.image.cursor, l.image.cursor + n⟩
    show Tracker.Alike _ _ _ (f.tracker.touch ⟨f.image.cursor, f.image.cursor + n⟩)
    rw [← hc]
    exact ht

theorem opened (h : Ledger m l f) (name : String) (kind : K) (cursor : Nat) :
    Ledger m (l.tracking (l.tracker.opened name kind l.stream.position cursor))
      (f.tracking (f.tracker.opened name kind f.stream.position cursor)) := by
  cases m with
  | parse =>
    have hp : f.stream.position = l.stream.position := congrArg Array.size h.1
    refine ⟨h.1, ?_⟩
    show f.tracker.opened name kind f.stream.position cursor = _
    rw [h.2, hp]
    rfl
  | generate => exact Tracker.Alike.opened h name kind cursor

theorem closed (h : Ledger m l f) (cursor : Nat) :
    Ledger m (l.tracking (l.tracker.closed l.stream.position cursor))
      (f.tracking (f.tracker.closed f.stream.position cursor)) := by
  cases m with
  | parse =>
    have hp : f.stream.position = l.stream.position := congrArg Array.size h.1
    refine ⟨h.1, ?_⟩
    show f.tracker.closed f.stream.position cursor = _
    rw [h.2, hp]
    rfl
  | generate => exact Tracker.Alike.closed h cursor

end Ledger

/-- Two states of sequential walks at the same place in the file. A parse only follows a
generation, and over the file that this one makes. -/
structure Abreast (m : Mode) (input : Array UInt8) (l f : State K) : Prop where
  level : Level f
  agree : Agree noHole l.image f.image
  room : f.mode = .generate → l.image.limit ≤ f.image.limit
  input : f.mode = .parse → m = .generate ∧ f.image.bytes = input
  ledger : Ledger m l f
  endian : l.endian = f.endian
  evil : l.evil = f.evil
  log : l.log = f.log

namespace Abreast

variable {l l' f : State K}

theorem recorded {d e : Bytes} (h : Abreast m input l f) (hnil : d = [] ↔ e = [])
    (hexact : m = .parse → d = e) : Abreast m input (l.recorded d) (f.recorded e) :=
  ⟨h.level.recorded e, h.agree, h.room, h.input, h.ledger.recorded hnil hexact, h.endian, h.evil,
    h.log⟩

theorem setEvil (h : Abreast m input l f) (bit : EvilBit) :
    Abreast m input { l with evil := bit } { f with evil := bit } :=
  ⟨h.level.like rfl rfl rfl, h.agree, h.room, h.input,
    by cases m <;> exact h.ledger, h.endian, rfl, h.log⟩

theorem setEndian (h : Abreast m input l f) (e : Endian) :
    Abreast m input { l with endian := e } { f with endian := e } :=
  ⟨h.level.like rfl rfl rfl, h.agree, h.room, h.input,
    by cases m <;> exact h.ledger, rfl, h.evil, h.log⟩

theorem noted (h : Abreast m input l f) (log : Array Observation) :
    Abreast m input { l with log := log } { f with log := log } :=
  ⟨h.level.like rfl rfl rfl, h.agree, h.room, h.input,
    by cases m <;> exact h.ledger, h.endian, h.evil, rfl⟩

theorem tracking (h : Abreast m input l f) {t u : Tracker K}
    (hl : Ledger m (l.tracking t) (f.tracking u)) :
    Abreast m input (l.tracking t) (f.tracking u) :=
  ⟨h.level.tracking u, h.agree, h.room, h.input, hl, h.endian, h.evil, h.log⟩

theorem stands {bs : Bytes} (h : Abreast m input l f) (hw : Writes bs l.image l'.image)
    (hin : m = .generate → (Link.reparse input).Covers noHole l'.image) (hf : f.mode = .parse) :
    f.image.Stands bs := by
  obtain ⟨hm, hbytes⟩ := h.input hf
  exact Link.stands hbytes h.agree.cursor hw (hin hm) (Nat.zero_le _)

/-- The follower emits what the leader emitted. -/
theorem emits {bs : Bytes} {u : Unit} (hl : Level l) (h : Abreast m input l f)
    (hx : emit bs l = .ok u l')
    (hin : m = .generate → (Link.reparse input).Covers noHole l'.image) :
    ∃ f', emit bs f = .ok () f' ∧ f'.stream = f.stream ∧ f'.mode = f.mode ∧
      Abreast m input l' f' := by
  obtain ⟨he, -, hlim, -⟩ := emit_ok hl.sound hx
  have hcur := h.agree.cursor
  have hrun : ∃ f', emit bs f = .ok () f' ∧ Emits bs f f' ∧ Sound f.mode f' := by
    have hs := h.level.sound
    cases hm : f.mode with
    | generate =>
      rw [hm] at hs
      have hroom := h.room hm
      exact emit_generate bs hs (by omega)
    | parse =>
      rw [hm] at hs
      exact emit_parse hs (h.stands he.writes hin hm)
  obtain ⟨f', hf, hef, hsf⟩ := hrun
  have hledger := h.ledger.touching hcur bs.length l'.image f'.image
  rw [← he.rest, ← hef.rest] at hledger
  have hmode : f'.mode = f.mode := by rw [hef.rest]; rfl
  refine ⟨f', hf, by rw [hef.rest]; rfl, hmode, h.level.emitted hef hsf, ?_, ?_, ?_, hledger,
    ?_, ?_, ?_⟩
  · exact h.agree.written he.writes hef.writes rfl (fun i hi _ => hi) fun _ _ _ => rfl
  · intro hm
    rw [he.writes.limit, hef.writes.limit]
    exact h.room (hmode ▸ hm)
  · intro hm
    obtain ⟨hg, hb⟩ := h.input (hmode ▸ hm)
    exact ⟨hg, (hef.input (hmode ▸ hm)).trans hb⟩
  · rw [he.rest, hef.rest]
    exact h.endian
  · rw [he.rest, hef.rest]
    exact h.evil
  · rw [he.rest, hef.rest]
    exact h.log

def bond (m : Mode) (input : Array UInt8) : Bond K where
  lead l := Level l ∧ l.mode = m ∧ (m = .parse → l.image.bytes = input ∧ input.size ≤ 2 ^ 64)
  given l := m = .generate → (Link.reparse input).Covers noHole l.image
  pair := Abreast m input
  exact := m = .parse

end Abreast

open Abreast

structure Field.Sequential (f : Field K α) (dom : α → Prop) (fits : Bool → α → Prop)
    (code : α → Bytes) : Prop where
  codec : Codec False f.draw fits code
  fresh : ∀ s, Level s → s.mode = .generate → f.find s = .ok none s ∨
    ∃ v, f.find s = .ok (some v) s ∧ f.encode s.endian v = [] ∧ ∀ w, dom w ↔ w = v
  stands : ∀ s v, Sound .parse s → dom v → s.image.Stands (f.encode s.endian v) →
    f.find s = .ok (some v) s
  finds : ∀ s r t, Sound .parse s → f.find s = .ok r t →
    t = s ∧ ∃ v, r = some v ∧ dom v ∧ s.image.Stands (f.encode s.endian v)
  admits : ∀ s v w t, dom v → (f.encode s.endian v).length ≤ 2 ^ 64 →
    f.draw (some v) s = .ok w t → fits s.evil.allowed v

namespace Field.Sequential

variable {f : Field K α} {dom : α → Prop} {fits : Bool → α → Prop} {code : α → Bytes}

/-- What the leader does: it draws a value in the domain, takes decisions for it, and emits it. -/
theorem ran (hf : f.Sequential dom fits code)
    (hdom : m = .generate → ∀ b v, fits b v → dom v) {l l' : State K} {v : α}
    (hl : (bond m input).lead l) (h : f.read l = .ok v l') :
    ∃ d, emit (f.encode l.endian v) (l.recorded d) = .ok () l' ∧ fits l.evil.allowed v ∧ dom v ∧
      (d = [] ↔ code v = []) ∧ (m = .parse → d = code v) := by
  obtain ⟨hlevel, hmode, hinput⟩ := hl
  obtain ⟨r, s, h1, h2⟩ := bind_ok.1 h
  obtain ⟨w, u, h3, h4⟩ := bind_ok.1 h2
  obtain ⟨_, t, h5, h6⟩ := bind_ok.1 ((get_bind _ u).symm.trans h4)
  cases h6
  have hforced : ∀ w, dom w → (f.encode l.endian w).length ≤ 2 ^ 64 →
      f.draw (some w) l = .ok v u → ∃ d, emit (f.encode l.endian v) (l.recorded d) = .ok () l' ∧
        fits l.evil.allowed v ∧ dom v ∧ (d = [] ↔ code v = []) ∧ (m = .parse → d = code v) := by
    intro w hw hlen hdraw
    have hfits := hf.admits l w v u hw hlen hdraw
    obtain ⟨rfl, rfl, -⟩ := hf.codec.forced l w v u hfits hdraw
    exact ⟨code v, h5, hfits, hw, Iff.rfl, fun _ => rfl⟩
  cases m with
  | parse =>
    have hs : Sound .parse l := hmode ▸ hlevel.sound
    obtain ⟨rfl, w, rfl, hw, hst⟩ := hf.finds l r s hs h1
    have hin := hst.1
    obtain ⟨hbytes, hsize⟩ := hinput rfl
    rw [hbytes] at hin
    exact hforced w hw (by omega) h3
  | generate =>
    rcases hf.fresh l hlevel hmode with hnone | ⟨w, hsome, hnil, hw⟩
    · rw [hnone] at h1
      cases h1
      obtain ⟨hfits, d, rest, -, rfl, hd, -⟩ := hf.codec.drawn _ _ _ h3
      exact ⟨d, h5, hfits, hdom rfl _ _ hfits, hd, fun hm => nomatch hm⟩
    · rw [hsome] at h1
      cases h1
      exact hforced w ((hw w).2 rfl) (by rw [hnil]; exact Nat.zero_le _) h3

/-- What the follower does: it finds the value or draws it from its code. -/
theorem draws (hf : f.Sequential dom fits code) {s : State K} {v : α} (hs : Level s)
    (hfits : fits s.evil.allowed v) (hdom : dom v) (hr : Ready (code v) s)
    (hst : s.mode = .parse → s.image.Stands (f.encode s.endian v)) :
    ∃ q, f.find s = .ok q s ∧ f.draw q s = .ok v (s.recorded (code v)) := by
  cases hm : s.mode with
  | parse =>
    exact ⟨some v, hf.stands s v (hm ▸ hs.sound) hdom (hst hm), hf.codec.force s v hfits hr.room⟩
  | generate =>
    rcases hf.fresh s hs hm with hnone | ⟨w, hsome, -, hw⟩
    · obtain ⟨rest, hahead⟩ := hr.ahead hm
      exact ⟨none, hnone, hf.codec.replays s v rest hfits hahead.symm⟩
    · obtain rfl := (hw v).1 hdom
      exact ⟨some v, hsome, hf.codec.force s v hfits hr.room⟩

theorem leads {x : Walker K α} (hf : f.Sequential dom fits code)
    (hdom : m = .generate → ∀ b v, fits b v → dom v) (hx : x = f.read) (hq : Quiet x)
    (l : State K) : (bond m input).Leads x l := by
  subst hx
  apply Bond.Leads.quietly hq
  intro v l' hl h
  obtain ⟨d, hemit, hfits, hv, hnil, hexact⟩ := hf.ran hdom hl h
  obtain ⟨hlevel, hmode, hinput⟩ := hl
  obtain ⟨he, hs', -, -⟩ := emit_ok (hlevel.recorded d).sound hemit
  have hlevel' : Level l' := (hlevel.recorded d).emitted he hs'
  have hstream : l'.stream = l.stream.recorded d := by rw [he.rest]; rfl
  refine ⟨⟨hlevel', hs'.mode.trans hmode, ?_⟩, ?_, code v, ⟨d, by rw [hstream]; rfl, hnil, hexact⟩,
    ?_⟩
  · intro hm
    rw [he.input (hmode.trans hm)]
    exact hinput hm
  · intro hin hm
    exact (hlevel.recorded d).covers he (hin hm)
  · intro g hp hr hin
    have hst : g.mode = .parse → g.image.Stands (f.encode g.endian v) := by
      intro hg
      rw [← hp.endian]
      exact hp.stands he.writes hin hg
    obtain ⟨q, hfind, hdraw⟩ := hf.draws hp.level (hp.evil ▸ hfits) hv hr hst
    obtain ⟨g', hg', hgs, hgm, hp'⟩ :=
      (hp.recorded hnil hexact).emits (hlevel.recorded d) hemit hin
    refine ⟨g', ?_, hp', ⟨hgs, hgm⟩⟩
    rw [Field.read, bind_run hfind, bind_run hdraw, get_bind]
    have hend : (g.recorded (code v)).endian = l.endian := hp.endian.symm
    rw [hend, bind_run hg', pure_run]

end Field.Sequential

end DecisionWalk
