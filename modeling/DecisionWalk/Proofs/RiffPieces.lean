import DecisionWalk.Proofs.Ranges
import DecisionWalk.Proofs.RiffLayout

/-!
# A RIFF file in pieces

Behind its header a RIFF file is a row of pieces, each of which goes with any
other one that may stand there: the format, perhaps a list, the samples, and junk.
An optional piece has the decisions of the look in front of it. Only the size in
the header tells anything about the whole. So pieces of several files, put
together in order, are a file again, with its own size, and the bytes can be cut
in one way only.
-/

set_option autoImplicit false

namespace DecisionWalk.Riff

open Walker Grammar

structure Piece where
  kind : Kind
  optional : Bool
  bytes : Bytes
  decisions : Bytes

namespace Piece

def label (p : Piece) : Kind × Bool := (p.kind, p.optional)

end Piece

inductive Stage where
  | opened
  | formatted
  | listed
  | filled
  deriving DecidableEq

def Stage.step : Stage → Kind × Bool → Option Stage
  | .opened, (.format, false) => some .formatted
  | .formatted, (.list, true) => some .listed
  | .formatted, (.data, true) => some .filled
  | .listed, (.data, false) => some .filled
  | .filled, (.junk, true) => some .filled
  | _, _ => none

def Stage.after (stage : Stage) (ps : List Piece) : Option Stage :=
  (ps.map Piece.label).foldlM Stage.step stage

def Kind.tag : Kind → Bytes
  | .list => listTag
  | .data => dataTag
  | _ => []

def Kind.gate : Kind → Bytes
  | .list => knownCode [listTag, dataTag] Alphabet.plain.stringCode listTag
  | .data => knownCode [listTag, dataTag] Alphabet.plain.stringCode dataTag
  | .junk => endCode false
  | _ => []

structure Piece.Fits (b : Bool) (p : Piece) : Prop where
  inner : p.kind ≠ .container
  reads : ∃ d, p.decisions = (if p.optional then p.kind.gate else []) ++ d ∧
    p.kind.Reads b p.bytes d
  told : (p.kind = .list ∨ p.kind = .data) → p.optional = true → p.bytes.take 4 = p.kind.tag

namespace Stage

variable {stage next : Stage} {p : Piece} {ps qs : List Piece}

theorem after_append :
    stage.after (ps ++ qs) = (stage.after ps).bind fun next => next.after qs := by
  rw [after, List.map_append, List.foldlM_append]
  rfl

theorem after_cons :
    stage.after (p :: ps) = (stage.step p.label).bind fun next => next.after ps := by
  rw [after, List.map_cons, List.foldlM_cons]
  rfl

theorem after_snoc (h : stage.after ps = some next) :
    stage.after (ps ++ [p]) = next.step p.label := by
  rw [after_append, h, Option.bind_some, after_cons]
  cases next.step p.label <;> rfl

theorem after_split {last : Stage} (h : stage.after (ps ++ qs) = some last) :
    ∃ mid, stage.after ps = some mid ∧ mid.after qs = some last := by
  rw [after_append] at h
  exact Option.bind_eq_some_iff.1 h

theorem after_step {last : Stage} (h : stage.after (p :: ps) = some last) :
    ∃ mid, stage.step p.label = some mid ∧ mid.after ps = some last := by
  rw [after_cons] at h
  exact Option.bind_eq_some_iff.1 h

theorem filled_of_label (h : stage.step p.label = some next)
    (hkind : p.kind = .data ∨ p.kind = .junk) : next = .filled := by
  obtain ⟨kind, optional, bytes, decisions⟩ := p
  cases stage <;> cases kind <;> cases optional <;> simp_all [step, Piece.label]

theorem kind_of_listed (h : stage.step p.label = some .listed) : p.kind = .list := by
  obtain ⟨kind, optional, bytes, decisions⟩ := p
  cases stage <;> cases kind <;> cases optional <;> simp_all [step, Piece.label]

theorem listed_of_label (h : stage.step p.label = some next) (hkind : p.kind = .list) :
    next = .listed := by
  obtain ⟨kind, optional, bytes, decisions⟩ := p
  cases stage <;> cases kind <;> cases optional <;> simp_all [step, Piece.label]

theorem step_inner {kind : Kind} {optional : Bool} (h : stage.step (kind, optional) = some next) :
    kind ≠ .container := by
  rintro rfl
  cases stage <;> cases h

theorem step_junk (h : stage.step p.label = some next) (hkind : p.kind = .junk) :
    stage = .filled ∧ next = .filled ∧ p.optional = true := by
  obtain ⟨kind, optional, bytes, decisions⟩ := p
  cases stage <;> cases kind <;> cases optional <;> simp_all [step, Piece.label]

theorem step_opened (h : Stage.opened.step p.label = some next) :
    p.label = (.format, false) ∧ next = .formatted := by
  obtain ⟨kind, optional, bytes, decisions⟩ := p
  cases kind <;> cases optional <;> cases h
  exact ⟨rfl, rfl⟩

theorem step_formatted (h : Stage.formatted.step p.label = some next) :
    p.label = (.list, true) ∧ next = .listed ∨ p.label = (.data, true) ∧ next = .filled := by
  obtain ⟨kind, optional, bytes, decisions⟩ := p
  cases kind <;> cases optional <;> cases h
  · exact Or.inl ⟨rfl, rfl⟩
  · exact Or.inr ⟨rfl, rfl⟩

theorem step_listed (h : Stage.listed.step p.label = some next) :
    p.label = (.data, false) ∧ next = .filled := by
  obtain ⟨kind, optional, bytes, decisions⟩ := p
  cases kind <;> cases optional <;> cases h
  exact ⟨rfl, rfl⟩

theorem step_filled (h : Stage.filled.step p.label = some next) :
    p.label = (.junk, true) ∧ next = .filled := by
  obtain ⟨kind, optional, bytes, decisions⟩ := p
  cases kind <;> cases optional <;> cases h
  exact ⟨rfl, rfl⟩

theorem after_replace {q : Piece} (h : p.label = q.label) :
    stage.after (ps ++ p :: qs) = stage.after (ps ++ q :: qs) := by
  rw [after, after, List.map_append, List.map_append, List.map_cons, List.map_cons, h]

/-- Behind the samples there may be one junk chunk more. -/
theorem after_junk {last : Stage} (hfilled : stage.after ps = some .filled)
    (hp : p.label = (.junk, true)) (h : stage.after (ps ++ qs) = some last) :
    stage.after (ps ++ [p] ++ qs) = some last := by
  have hstep : stage.after (ps ++ [p]) = some .filled := by
    rw [after_snoc hfilled, hp]
    rfl
  rw [after_append, hfilled, Option.bind_some] at h
  rw [after_append, hstep, Option.bind_some, h]

/-- Two different chunks that may stand at one stage are told by a look. -/
theorem told {kind kind' : Kind} {optional optional' : Bool} {next' : Stage}
    (h : stage.step (kind, optional) = some next)
    (h' : stage.step (kind', optional') = some next') :
    (kind = kind' ∧ optional = optional') ∨
      (optional = true ∧ optional' = true ∧
        ((kind = .list ∧ kind' = .data) ∨ (kind = .data ∧ kind' = .list))) := by
  cases stage <;> cases kind <;> cases kind' <;> cases optional <;> cases optional' <;>
    simp_all [step]

end Stage

section Unique

variable {b : Bool} {p q : Piece} {ps qs : List Piece} {stage : Stage}

theorem Piece.Fits.least (h : p.Fits b) : 4 ≤ p.bytes.length := by
  obtain ⟨d, -, hreads⟩ := h.reads
  exact hreads.least

/-- The decisions of a piece are those of its look and of its production. -/
theorem Piece.Fits.reading {kind : Kind} {optional : Bool} (h : p.Fits b)
    (hlabel : p.label = (kind, optional)) :
    ∃ d, p.decisions = (if optional then kind.gate else []) ++ d ∧ kind.Reads b p.bytes d := by
  cases hlabel
  exact h.reads

/-- At any stage the bytes ahead tell the next piece. -/
theorem Piece.Fits.unique {v v' : Bytes} {next next' : Stage} (h : p.Fits b) (h' : q.Fits b)
    (hstep : stage.step p.label = some next) (hstep' : stage.step q.label = some next')
    (hsame : p.bytes ++ v = q.bytes ++ v') : p = q := by
  have hleast := h.least
  have hleast' := h'.least
  have hfront : p.bytes.take 4 = q.bytes.take 4 := by
    have htake := congrArg (List.take 4) hsame
    rwa [List.take_append_of_le_length hleast, List.take_append_of_le_length hleast'] at htake
  obtain ⟨d, hd, hreads⟩ := h.reads
  obtain ⟨d', hd', hreads'⟩ := h'.reads
  have htold := h.told
  have htold' := h'.told
  obtain ⟨kind, optional, bytes, decisions⟩ := p
  obtain ⟨kind', optional', bytes', decisions'⟩ := q
  rcases Stage.told hstep hstep' with ⟨hkind, hoptional⟩ | ⟨hoptional, hoptional', hkinds⟩
  · dsimp only at *
    subst hkind hoptional
    obtain ⟨rfl, rfl, -⟩ := hreads.recited.unique hreads'.recited hsame
    rw [hd, hd']
  · -- A list and samples start with different tags.
    dsimp only at *
    rcases hkinds with ⟨rfl, rfl⟩ | ⟨rfl, rfl⟩
    · rw [htold (Or.inl rfl) hoptional, htold' (Or.inr rfl) hoptional'] at hfront
      exact absurd hfront (by decide)
    · rw [htold (Or.inr rfl) hoptional, htold' (Or.inl rfl) hoptional'] at hfront
      exact absurd hfront (by decide)

/-- What follows a stage can be cut into pieces in one way only. -/
theorem pieces_unique {last last' : Stage} (hps : ∀ p ∈ ps, p.Fits b) (hqs : ∀ q ∈ qs, q.Fits b)
    (horder : stage.after ps = some last) (horder' : stage.after qs = some last')
    (hsame : ps.flatMap Piece.bytes = qs.flatMap Piece.bytes) : ps = qs := by
  have hnonempty : ∀ {p : Piece} {ps : List Piece}, p.Fits b →
      [] ≠ (p :: ps).flatMap Piece.bytes := by
    intro p ps h hnil
    have hleast := h.least
    have hlength := congrArg List.length hnil
    rw [List.flatMap_cons, List.length_append, List.length_nil] at hlength
    omega
  induction ps generalizing stage qs with
  | nil =>
    cases qs with
    | nil => rfl
    | cons q qs => exact absurd hsame (hnonempty (hqs q List.mem_cons_self))
  | cons p ps ih =>
    cases qs with
    | nil => exact absurd hsame.symm (hnonempty (hps p List.mem_cons_self))
    | cons q qs =>
      obtain ⟨mid, hstep, hrest⟩ := Stage.after_step horder
      obtain ⟨mid', hstep', hrest'⟩ := Stage.after_step horder'
      rw [List.flatMap_cons, List.flatMap_cons] at hsame
      obtain rfl := (hps p List.mem_cons_self).unique (hqs q List.mem_cons_self) hstep hstep' hsame
      rw [hstep] at hstep'
      cases hstep'
      rw [ih (fun x hx => hps x (List.mem_cons_of_mem p hx))
        (fun x hx => hqs x (List.mem_cons_of_mem p hx)) hrest hrest'
        (List.append_cancel_left hsame)]

end Unique

structure Piece.Stands (q : Piece) (a p : Nat) (c : Chunk Kind) : Prop where
  kind : c.kind = q.kind
  optional : c.optional = q.optional
  depth : c.depth = 1
  file : c.file = ⟨a, a + q.bytes.length⟩
  decisions : c.decisions = ⟨p, p + q.decisions.length⟩

namespace Piece.Stands

variable {q : Piece} {a p : Nat} {c : Chunk Kind}

theorem start (h : q.Stands a p c) : c.file.start = a := by rw [h.file]

theorem stop (h : q.Stands a p c) : c.file.stop = a + q.bytes.length := by rw [h.file]

theorem length (h : q.Stands a p c) : c.file.length = q.bytes.length := by
  rw [h.file, Span.length, Nat.add_sub_cancel_left]

theorem decision_start (h : q.Stands a p c) : c.decisions.start = p := by rw [h.decisions]

theorem decision_stop (h : q.Stands a p c) : c.decisions.stop = p + q.decisions.length := by
  rw [h.decisions]

theorem decision_length (h : q.Stands a p c) : c.decisions.length = q.decisions.length := by
  rw [h.decisions, Span.length, Nat.add_sub_cancel_left]

end Piece.Stands

inductive Laid : Nat → Nat → List Piece → List (Chunk Kind) → Prop where
  | nil {a p : Nat} : Laid a p [] []
  | cons {a p : Nat} {q : Piece} {qs : List Piece} {c : Chunk Kind} {cs : List (Chunk Kind)}
      (h : q.Stands a p c) (rest : Laid (a + q.bytes.length) (p + q.decisions.length) qs cs) :
      Laid a p (q :: qs) (c :: cs)

namespace Laid

variable {a p : Nat} {q : Piece} {ps qs rs : List Piece} {c : Chunk Kind}
  {cs before behind : List (Chunk Kind)}

theorem append (h : Laid a p ps before)
    (h' : Laid (a + (ps.flatMap Piece.bytes).length) (p + (ps.flatMap Piece.decisions).length) qs
      behind) : Laid a p (ps ++ qs) (before ++ behind) := by
  induction h with
  | nil => exact h'
  | cons hq _ ih =>
    rw [List.flatMap_cons, List.flatMap_cons, List.length_append, List.length_append,
      ← Nat.add_assoc, ← Nat.add_assoc] at h'
    exact .cons hq (ih h')

theorem split (h : Laid a p qs (before ++ behind)) :
    ∃ ps rs, qs = ps ++ rs ∧ Laid a p ps before ∧
      Laid (a + (ps.flatMap Piece.bytes).length) (p + (ps.flatMap Piece.decisions).length) rs
        behind := by
  induction before generalizing a p qs with
  | nil => exact ⟨[], qs, rfl, .nil, h⟩
  | cons c before ih =>
    cases h with
    | @cons _ _ q qs _ _ hq hrest =>
      obtain ⟨ps, rs, rfl, hbefore, hbehind⟩ := ih hrest
      refine ⟨q :: ps, rs, rfl, .cons hq hbefore, ?_⟩
      rw [List.flatMap_cons, List.flatMap_cons, List.length_append, List.length_append,
        ← Nat.add_assoc, ← Nat.add_assoc]
      exact hbehind

theorem head (h : Laid a p qs (c :: cs)) : ∃ q rs, qs = q :: rs ∧ q.Stands a p c ∧
    Laid (a + q.bytes.length) (p + q.decisions.length) rs cs := by
  cases h with
  | cons hq hrest => exact ⟨_, _, rfl, hq, hrest⟩

theorem followed (h : Laid a p qs (cs ++ [c])) : Laid a p qs (cs ++ [c.followed]) := by
  obtain ⟨ps, rs, rfl, hbefore, hlast⟩ := h.split
  obtain ⟨q, rs, rfl, hq, hnil⟩ := hlast.head
  exact hbefore.append (.cons ⟨hq.kind, hq.optional, hq.depth, hq.file, hq.decisions⟩ hnil)

theorem snoc (h : Laid a p qs cs) (hq : q.Stands (a + (qs.flatMap Piece.bytes).length)
    (p + (qs.flatMap Piece.decisions).length) c) : Laid a p (qs ++ [q]) (cs ++ [c]) :=
  h.append (.cons hq .nil)

/-- The chunk that a piece is. -/
theorem at_piece (h : Laid a p (ps ++ q :: rs) cs) :
    ∃ before c behind, cs = before ++ c :: behind ∧ Laid a p ps before ∧
      q.Stands (a + (ps.flatMap Piece.bytes).length) (p + (ps.flatMap Piece.decisions).length)
        c := by
  induction ps generalizing a p cs with
  | nil =>
    cases h with
    | cons hq hrest => exact ⟨[], _, _, rfl, .nil, hq⟩
  | cons x ps ih =>
    cases h with
    | @cons _ _ _ _ c cs hx hrest =>
      obtain ⟨before, c', behind, rfl, hbefore, hq⟩ := ih hrest
      rw [List.flatMap_cons, List.flatMap_cons, List.length_append, List.length_append,
        ← Nat.add_assoc, ← Nat.add_assoc]
      exact ⟨c :: before, c', behind, rfl, .cons hx hbefore, hq⟩

/-- Where a chunk of the row starts. -/
theorem start_lt (h : Laid a p qs cs) (hqs : ∀ q ∈ qs, q.decisions ≠ []) (hc : c ∈ cs) :
    p ≤ c.decisions.start ∧ c.decisions.start < p + (qs.flatMap Piece.decisions).length := by
  induction h with
  | nil => cases hc
  | @cons a p q qs c' cs hq hrest ih =>
    have hlong := List.length_pos_iff.2 (hqs q List.mem_cons_self)
    rw [List.flatMap_cons, List.length_append]
    rcases List.mem_cons.1 hc with rfl | hc
    · rw [hq.decisions]
      dsimp only
      omega
    · obtain ⟨hle, hlt⟩ := ih (fun x hx => hqs x (List.mem_cons_of_mem q hx)) hc
      omega

end Laid

end DecisionWalk.Riff
