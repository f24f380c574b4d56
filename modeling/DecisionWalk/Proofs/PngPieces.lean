import DecisionWalk.Proofs.PngLayout
import DecisionWalk.Proofs.PngPortable
import DecisionWalk.Proofs.Ranges

/-!
# A PNG in pieces

The chunks of a PNG cut its bytes and its decisions into pieces, and every piece
goes with any other: pieces of several files, put together in the order that the
format asks for, are a file whose decisions are those of the pieces. Its chunks
are the pieces again, since the bytes can be cut in one way only.
-/

set_option autoImplicit false

namespace DecisionWalk

open Walker Grammar

namespace Tiles

variable {a b : Nat} {span : Span} {spans before behind : List Span}

theorem le (h : Tiles a spans b) : a ≤ b := by
  induction spans generalizing a with
  | nil => exact Nat.le_of_eq h
  | cons span rest ih =>
    obtain ⟨-, hlt, hrest⟩ := h
    exact Nat.le_trans (Nat.le_of_lt hlt) (ih hrest)

theorem append (h : Tiles a (before ++ behind) b) : ∃ m, Tiles a before m ∧ Tiles m behind b := by
  induction before generalizing a with
  | nil => exact ⟨a, rfl, h⟩
  | cons first rest ih =>
    obtain ⟨hstart, hlt, hrest⟩ := h
    obtain ⟨m, hbefore, hbehind⟩ := ih hrest
    exact ⟨m, ⟨hstart, hlt, hbefore⟩, hbehind⟩

theorem split (h : Tiles a (before ++ span :: behind) b) :
    Tiles a before span.start ∧ span.start < span.stop ∧ Tiles span.stop behind b := by
  obtain ⟨m, hbefore, rfl, hlt, hbehind⟩ := h.append
  exact ⟨hbefore, hlt, hbehind⟩

theorem le_start (h : Tiles a spans b) (hspan : span ∈ spans) : a ≤ span.start := by
  obtain ⟨before, behind, rfl⟩ := List.append_of_mem hspan
  exact h.split.1.le

theorem start_lt (h : Tiles a spans b) (hspan : span ∈ spans) : span.start < b := by
  obtain ⟨before, behind, rfl⟩ := List.append_of_mem hspan
  obtain ⟨-, hlt, hrest⟩ := h.split
  exact Nat.lt_of_lt_of_le hlt hrest.le

theorem fits {α : Type} {xs : List α} (h : Tiles a spans xs.length) (hspan : span ∈ spans) :
    span.Fits xs := by
  obtain ⟨before, behind, rfl⟩ := List.append_of_mem hspan
  obtain ⟨-, hlt, hrest⟩ := h.split
  exact ⟨Nat.le_of_lt hlt, hrest.le⟩

theorem flatten {α : Type} (h : Tiles a spans b) (xs : List α) :
    spans.flatMap (·.of xs) = Span.of ⟨a, b⟩ xs := by
  induction spans generalizing a with
  | nil =>
    cases h
    exact (List.drop_take_self).symm
  | cons span rest ih =>
    obtain ⟨rfl, hlt, hrest⟩ := h
    rw [List.flatMap_cons, ih hrest]
    exact Span.of_meet xs (Nat.le_of_lt hlt) hrest.le

end Tiles

namespace Png

structure Piece where
  kind : Kind
  bytes : Bytes
  decisions : Bytes

def pieceOf (file decisions : Bytes) (c : Chunk Kind) : Piece :=
  ⟨c.kind, c.file.of file, c.decisions.of decisions⟩

inductive Stage where
  | start
  | signed
  | headed
  | ended
  deriving DecidableEq

def Stage.step : Stage → Kind → Option Stage
  | .start, .signature => some .signed
  | .signed, .header => some .headed
  | .headed, .finish => some .ended
  | .headed, kind => if kind ∈ innerKinds then some .headed else none
  | _, _ => none

def Kind.type : Kind → Bytes
  | .data => idat
  | .text => Png.text
  | .physicalDims => phys
  | .time => Png.time
  | .finish => iend
  | _ => []

def Kind.rule : Kind → Rule
  | .file => fileRule
  | .signature => discard (underEvil false (request (.bytesKnown 8 [signatureBytes])))
  | .header => headerRule
  | .data => dataRule
  | .text => textRule
  | .physicalDims => physicalDimsRule
  | .time => timeRule
  | .finish => endRule

def Kind.production (kind : Kind) : Rule := inScope kind.name kind kind.rule

inductive Reads (b : Bool) : Stage → Piece → Stage → Prop where
  | signature {u d : Bytes} (h : Recited .big b 1 Kind.signature.production.run u d ()) :
      Reads b .start ⟨.signature, u, d⟩ .signed
  | header {u d : Bytes} (h : Recited .big b 1 Kind.header.production.run u d ()) :
      Reads b .signed ⟨.header, u, d⟩ .headed
  | inner {kind : Kind} {u d : Bytes} (hkind : kind ∈ innerKinds)
      (htype : (u.drop 4).take 4 = kind.type) (hd : d ≠ [])
      (h : Recited .big b 1 following.run u d (.inl ())) :
      Reads b .headed ⟨kind, u, d⟩ .headed
  | finish {u d : Bytes} (h : Recited .big b 1 following.run u d (.inr ())) :
      Reads b .headed ⟨.finish, u, d⟩ .ended

def Chain (b : Bool) : Stage → List Piece → Prop
  | stage, [] => stage = .ended
  | stage, p :: ps => ∃ next, Reads b stage p next ∧ Chain b next ps

def Piece.Fits (b : Bool) (p : Piece) : Prop := ∃ stage next, Reads b stage p next

section Pieces

variable {b : Bool} {stage next : Stage} {p q : Piece} {ps qs : List Piece}

theorem Stage.headed_step {kind : Kind} (hkind : kind ∈ innerKinds) :
    Stage.headed.step kind = some .headed := by
  revert hkind
  cases kind <;> decide

theorem Stage.headed_finish : Stage.headed.step .finish = some .ended := rfl

theorem Reads.step (h : Reads b stage p next) : stage.step p.kind = some next := by
  cases h with
  | signature | header | finish => rfl
  | inner hkind => exact Stage.headed_step hkind

theorem Stage.step_unique {stage' next' : Stage} {kind : Kind}
    (h : stage.step kind = some next) (h' : stage'.step kind = some next') :
    stage = stage' ∧ next = next' := by
  cases stage <;> cases stage' <;> cases kind <;> simp_all [Stage.step, innerKinds]

theorem Piece.Fits.reads (h : p.Fits b) (hstep : stage.step p.kind = some next) :
    Reads b stage p next := by
  obtain ⟨stage', next', hreads⟩ := h
  obtain ⟨rfl, rfl⟩ := Stage.step_unique hstep hreads.step
  exact hreads

def InOrder (kinds : List Kind) : Prop := kinds.foldlM Stage.step .start = some .ended

namespace InOrder

variable {kind kind' : Kind} {before behind : List Kind}

theorem split (h : InOrder (before ++ kind :: behind)) :
    ∃ stage next, before.foldlM Stage.step .start = some stage ∧ stage.step kind = some next ∧
      behind.foldlM Stage.step next = some .ended := by
  rw [InOrder, List.foldlM_append] at h
  obtain ⟨stage, hbefore, hrest⟩ := Option.bind_eq_some_iff.1 h
  rw [List.foldlM_cons] at hrest
  obtain ⟨next, hstep, hbehind⟩ := Option.bind_eq_some_iff.1 hrest
  exact ⟨stage, next, hbefore, hstep, hbehind⟩

theorem replace (h : InOrder (before ++ kind :: behind))
    (halike : kind' = kind ∨ kind' ∈ innerKinds ∧ kind ∈ innerKinds) :
    InOrder (before ++ kind' :: behind) := by
  obtain ⟨stage, next, hbefore, hstep, hbehind⟩ := h.split
  have hstep' : stage.step kind' = some next := by
    rcases halike with rfl | ⟨hkind', hkind⟩
    · exact hstep
    · obtain ⟨rfl, rfl⟩ := Stage.step_unique hstep (Stage.headed_step hkind)
      exact Stage.headed_step hkind'
  rw [InOrder, List.foldlM_append, hbefore]
  show (kind' :: behind).foldlM Stage.step stage = _
  rw [List.foldlM_cons, hstep']
  exact hbehind

/-- In front of any chunk that follows the header there is room for another one. -/
theorem insert (h : InOrder (before ++ kind :: behind)) (hinner : kind' ∈ innerKinds)
    (hkind : kind ∈ innerKinds ∨ kind = .finish) :
    InOrder (before ++ kind' :: kind :: behind) := by
  obtain ⟨stage, next, hbefore, hstep, hbehind⟩ := h.split
  have hheaded : stage = .headed := by
    rcases hkind with hkind | rfl
    · exact (Stage.step_unique hstep (Stage.headed_step hkind)).1
    · exact (Stage.step_unique hstep Stage.headed_finish).1
  rw [InOrder, List.foldlM_append, hbefore]
  show (kind' :: kind :: behind).foldlM Stage.step stage = _
  subst hheaded
  rw [List.foldlM_cons, Stage.headed_step hinner]
  show (kind :: behind).foldlM Stage.step .headed = _
  rw [List.foldlM_cons, hstep]
  exact hbehind

theorem delete (h : InOrder (before ++ kind :: behind)) (hinner : kind ∈ innerKinds) :
    InOrder (before ++ behind) := by
  obtain ⟨stage, next, hbefore, hstep, hbehind⟩ := h.split
  obtain ⟨rfl, rfl⟩ := Stage.step_unique hstep (Stage.headed_step hinner)
  rw [InOrder, List.foldlM_append, hbefore]
  exact hbehind

end InOrder

theorem chain_of_fits (hfits : ∀ p ∈ ps, p.Fits b)
    (hkinds : (ps.map Piece.kind).foldlM Stage.step stage = some .ended) : Chain b stage ps := by
  induction ps generalizing stage with
  | nil => exact Option.some.inj hkinds
  | cons p ps ih =>
    rw [List.map_cons, List.foldlM_cons] at hkinds
    obtain ⟨next, hstep, hrest⟩ := Option.bind_eq_some_iff.1 hkinds
    exact ⟨next, (hfits p List.mem_cons_self).reads hstep,
      ih (fun q hq => hfits q (List.mem_cons_of_mem p hq)) hrest⟩

theorem Kind.type_injective {kind kind' : Kind} (hkind : kind ∈ innerKinds)
    (hkind' : kind' ∈ innerKinds) (h : kind.type = kind'.type) : kind = kind' := by
  have hall : ∀ kind ∈ innerKinds, ∀ kind' ∈ innerKinds, kind.type = kind'.type → kind = kind' := by
    decide
  exact hall kind hkind kind' hkind' h

/-- At any stage the bytes ahead tell the next piece. -/
theorem Reads.unique {next' : Stage} {v v' : Bytes} (h : Reads b stage p next)
    (h' : Reads b stage q next') (hsame : p.bytes ++ v = q.bytes ++ v') : p = q ∧ next = next' := by
  cases h with
  | signature h =>
    cases h' with
    | signature h' =>
      obtain ⟨rfl, rfl, -⟩ := h.unique h' hsame
      exact ⟨rfl, rfl⟩
  | header h =>
    cases h' with
    | header h' =>
      obtain ⟨rfl, rfl, -⟩ := h.unique h' hsame
      exact ⟨rfl, rfl⟩
  | inner hkind htype hd h =>
    cases h' with
    | inner hkind' htype' hd' h' =>
      obtain ⟨rfl, rfl, -⟩ := h.unique h' hsame
      cases Kind.type_injective hkind hkind' (htype.symm.trans htype')
      exact ⟨rfl, rfl⟩
    | finish h' => cases (h.unique h' hsame).2.2
  | finish h =>
    cases h' with
    | inner hkind' htype' hd' h' => cases (h.unique h' hsame).2.2
    | finish h' =>
      obtain ⟨rfl, rfl, -⟩ := h.unique h' hsame
      exact ⟨rfl, rfl⟩

/-- A file can be cut into pieces in one way only, and its bytes tell where it ends. -/
theorem Chain.unique {u v : Bytes} (h : Chain b stage ps) (h' : Chain b stage qs)
    (hsame : ps.flatMap Piece.bytes ++ u = qs.flatMap Piece.bytes ++ v) : ps = qs := by
  have hended : ∀ {p : Piece} {next : Stage}, ¬ Reads b .ended p next := by
    intro p next h
    cases h
  induction ps generalizing stage qs with
  | nil =>
    cases h
    cases qs with
    | nil => rfl
    | cons q qs =>
      obtain ⟨_, hreads, -⟩ := h'
      exact absurd hreads hended
  | cons p ps ih =>
    obtain ⟨next, hreads, hrest⟩ := h
    cases qs with
    | nil =>
      cases h'
      exact absurd hreads hended
    | cons q qs =>
      obtain ⟨next', hreads', hrest'⟩ := h'
      rw [List.flatMap_cons, List.flatMap_cons, List.append_assoc, List.append_assoc] at hsame
      obtain ⟨rfl, rfl⟩ := hreads.unique hreads' hsame
      rw [ih hrest hrest' (List.append_cancel_left hsame)]

/-- Behind the header the pieces are rounds of the loop. -/
theorem Chain.verses (h : Chain b .headed ps) : Verses .big b 1 following.run
    (ps.flatMap Piece.bytes) (ps.flatMap Piece.decisions) () := by
  induction ps with
  | nil => cases h
  | cons p ps ih =>
    obtain ⟨next, hreads, hrest⟩ := h
    rw [List.flatMap_cons, List.flatMap_cons]
    cases hreads with
    | inner hkind htype hd h => exact .again h hd (ih hrest)
    | finish h =>
      cases ps with
      | nil =>
        rw [List.flatMap_nil, List.flatMap_nil, List.append_nil, List.append_nil]
        exact .last h
      | cons q qs =>
        obtain ⟨_, hreads', -⟩ := hrest
        cases hreads'

theorem Chain.recited (h : Chain b .start ps) : Recited .big b 2 (Kind.production .file).run
    (ps.flatMap Piece.bytes) (ps.flatMap Piece.decisions) () := by
  match ps, h with
  | p :: q :: ps, ⟨_, hsignature, _, hheader, hrest⟩ =>
    cases hsignature with
    | signature hsignature =>
      cases hheader with
      | header hheader =>
        have hloop : Recited .big b 1 (repeatFrom () fun _ => following : Rule).run _ _ () :=
          Recited.repeatFrom hrest.verses
        exact (hsignature.seq (f := fun _ => Kind.header.production >>= fun _ =>
          repeatFrom () fun _ => following) (hheader.seq hloop)).inScope "png" .file
  | [_], ⟨_, hreads, hrest⟩ =>
    cases hreads
    cases hrest

theorem Chain.parses {limits : Limits} (h : Chain limits.allowEvil .start ps)
    (hstream : (ps.flatMap Piece.decisions).length ≤ limits.streamCapacity)
    (hdepth : 2 ≤ limits.maxDepth) :
    ∃ w, png.grammar.parse limits (ps.flatMap Piece.bytes) = .ok w ∧
      w.decisions = ps.flatMap Piece.decisions :=
  h.recited.parses hstream hdepth

end Pieces

structure Pieced (b : Bool) (file decisions : Bytes) (cs : List (Chunk Kind)) : Prop where
  files : Tiles 0 (cs.map Chunk.file) file.length
  streams : Tiles 0 (cs.map Chunk.decisions) decisions.length
  fits : ∀ c ∈ cs, (pieceOf file decisions c).Fits b

namespace Pieced

variable {b : Bool} {file decisions u d : Bytes} {cs : List (Chunk Kind)} {c : Chunk Kind}

theorem nil : Pieced b [] [] [] := ⟨rfl, rfl, fun _ hc => (nomatch hc)⟩

theorem snoc (h : Pieced b file decisions cs) (hfits : Piece.Fits b ⟨c.kind, u, d⟩)
    (hu : u ≠ []) (hd : d ≠ []) (hfile : c.file = Span.after file u)
    (hdecisions : c.decisions = Span.after decisions d) :
    Pieced b (file ++ u) (decisions ++ d) (cs ++ [c]) := by
  refine ⟨?_, ?_, ?_⟩
  · rw [List.map_append, List.map_singleton, hfile, List.length_append]
    exact h.files.snoc (Nat.lt_add_of_pos_right (List.length_pos_iff.2 hu))
  · rw [List.map_append, List.map_singleton, hdecisions, List.length_append]
    exact h.streams.snoc (Nat.lt_add_of_pos_right (List.length_pos_iff.2 hd))
  · intro x hx
    rcases List.mem_append.1 hx with hx | hx
    · have hsame : pieceOf (file ++ u) (decisions ++ d) x = pieceOf file decisions x := by
        rw [pieceOf, pieceOf, Span.of_append (h.files.fits (List.mem_map_of_mem hx)),
          Span.of_append (h.streams.fits (List.mem_map_of_mem hx))]
      rw [hsame]
      exact h.fits x hx
    · rw [List.mem_singleton.1 hx, pieceOf, hfile, hdecisions, Span.after_of, Span.after_of]
      exact hfits

theorem followed (h : Pieced b file decisions (cs ++ [c])) :
    Pieced b file decisions (cs ++ [c.followed]) := by
  have hfiles := h.files
  have hstreams := h.streams
  rw [List.map_append] at hfiles hstreams
  refine ⟨?_, ?_, ?_⟩
  · rw [List.map_append]
    exact hfiles
  · rw [List.map_append]
    exact hstreams
  · intro x hx
    rcases List.mem_append.1 hx with hx | hx
    · exact h.fits x (List.mem_append_left _ hx)
    · rw [List.mem_singleton.1 hx]
      exact h.fits c (List.mem_append_right _ (List.mem_singleton.2 rfl))

end Pieced

theorem chunkOf_kind {type : Bytes} (htype : type ∈ followingTypes) :
    ∃ kind : Kind, kind.type = type ∧
      (kind ∈ innerKinds ∧ chunkOf type = (kind.production >>= fun _ => pure (.inl ())) ∨
        kind = .finish ∧ chunkOf type = (kind.production >>= fun _ => pure (.inr ()))) := by
  have hcases : type = idat ∨ type = text ∨ type = phys ∨ type = time ∨ type = iend := by
    simpa [followingTypes] using htype
  rcases hcases with rfl | rfl | rfl | rfl | rfl
  · exact ⟨.data, rfl, Or.inl ⟨by decide, if_pos rfl⟩⟩
  · exact ⟨.text, rfl, Or.inl ⟨by decide, rfl⟩⟩
  · exact ⟨.physicalDims, rfl, Or.inl ⟨by decide, rfl⟩⟩
  · exact ⟨.time, rfl, Or.inl ⟨by decide, rfl⟩⟩
  · exact ⟨.finish, rfl, Or.inr ⟨rfl, rfl⟩⟩

theorem Kind.rule_strides {kind : Kind} (hkind : kind ≠ .file) {s t : State Kind} {a : Unit}
    (hs : s.image.cursor ≤ s.image.size) (h : kind.rule.run s = .ok a t) : Strides 1 8 s t := by
  cases kind with
  | file => exact absurd rfl hkind
  | signature => exact (literal_strides 8 signatureBytes).strides hs h
  | header => exact headerRule_strides.strides hs h
  | data => exact dataRule_strides.strides hs h
  | text => exact textRule_strides hs h
  | physicalDims => exact physicalDimsRule_strides.strides hs h
  | time => exact timeRule_strides.strides hs h
  | finish => exact endRule_strides.strides hs h

theorem Kind.produced {kind : Kind} (hkind : kind ≠ .file) {s t : State Kind} {a : Unit}
    (hs : s.image.cursor ≤ s.image.size) (h : kind.production.run s = .ok a t) :
    Produced kind.name kind 1 8 s t :=
  Strides.produced hs (fun _ _ _ hu hx => kind.rule_strides hkind hu hx) h

section Cutting

variable {b : Bool} {past rest : Bytes} {cs : List (Chunk Kind)} {used : NameCounts}
  {last : Chunk Kind} {s t : State Kind}

structure Cut (b : Bool) (past rest : Bytes) (cs : List (Chunk Kind)) (used : NameCounts)
    (s : State Kind) : Prop where
  scanning : Scanning .big b 0 past rest s
  closed : Closed cs used s
  pieced : Pieced b past s.stream.consumed cs

/-- A chunk is read behind the row: one more piece. -/
theorem Row.cut {look : Option Nat} {kind : Kind} {start : State Kind} {u v d : Bytes}
    (hrow : Row cs used look s) (hproduced : Produced kind.name kind 1 8 s t)
    (hpieced : Pieced b past start.stream.consumed cs) (hcursor : s.image.cursor = past.length)
    (hlook : look.getD s.stream.position = start.stream.position)
    (ht : Scanning .big b 0 (past ++ u) v t) (hnoted : Noted d start t)
    (hfits : Piece.Fits b ⟨kind, u, d⟩) :
    Cut b (past ++ u) v (cs ++ [childOf kind.name kind used look s t]) (used.bump kind.name) t := by
  have hcursor' := ht.cursor
  have hfar := hproduced.cursor
  have hspent := hproduced.position
  have hposition := hnoted.position
  have hlook_le := hrow.look_le
  rw [List.length_append] at hcursor'
  refine ⟨ht, (hrow.child hproduced).1, ?_⟩
  rw [hnoted.consumed]
  apply hpieced.snoc hfits
  · exact List.length_pos_iff.1 (by omega)
  · exact List.length_pos_iff.1 (by omega)
  · rw [childOf, hcursor, hcursor', Span.after]
  · rw [childOf, hlook, hposition, ← Stream.length_consumed, Span.after]

theorem leading_portable {kind : Kind} (hkind : kind = .signature ∨ kind = .header) :
    Portable .big b 0 1 8 [] fun _ => kind.production.run := by
  rcases hkind with rfl | rfl
  · exact (literal_portable 8 signatureBytes (by decide) rfl).inScope "signature" Kind.signature
  · exact headerRule_portable.inScope "ihdr" Kind.header

/-- The signature, or the header behind it. -/
theorem Row.leading {kind : Kind} {a : Unit} (hkind : kind = .signature ∨ kind = .header)
    (hrow : Row cs used none s) (hs : Scanning .big b 0 past rest s)
    (hpieced : Pieced b past s.stream.consumed cs) (hrun : kind.production.run s = .ok a t) :
    ∃ u v, rest = u ++ v ∧
      Cut b (past ++ u) v (cs ++ [childOf kind.name kind used none s t]) (used.bump kind.name)
        t := by
  obtain ⟨u, v, d, hrest, -, ht, hnoted, hrecited⟩ := (leading_portable hkind).recited hs hrun
  have hfits : Piece.Fits b ⟨kind, u, d⟩ := by
    rcases hkind with rfl | rfl
    · exact ⟨_, _, .signature hrecited⟩
    · exact ⟨_, _, .header hrecited⟩
  have hproduced : Produced kind.name kind 1 8 s t :=
    kind.produced (by rcases hkind with rfl | rfl <;> decide) hrow.cursor_le hrun
  exact ⟨u, v, hrest, hrow.cut hproduced hpieced hs.cursor rfl ht hnoted hfits⟩

/-- A round of the loop cuts one piece more. -/
theorem Cut.round {r : Unit ⊕ Unit} (h : Cut b past rest (cs ++ [last]) used s)
    (hfresh : last.appendable = false) (hrun : following.run s = .ok r t) :
    ∃ u v c used', rest = u ++ v ∧ Cut b (past ++ u) v (cs ++ [last.followed] ++ [c]) used' t ∧
      c.appendable = false := by
  obtain ⟨u, v, d, rfl, hlong, ht, hnoted, hrecited⟩ := following_portable.recited h.scanning hrun
  rw [following, run_bind] at hrun
  obtain ⟨type, s', hlook, hchunk⟩ := bind_ok.1 hrun
  have hlooked := Looked.underEvil hlook
  obtain ⟨hrow, -⟩ := h.closed.looked hfresh hlooked
  have hahead : Scanning .big b (past.length + 8) past (u ++ v) s := h.scanning.weaken (by omega)
  obtain ⟨hmem, htype, -⟩ := hahead.looked (by decide) (by decide) (by decide) (by decide)
    (Nat.le_refl _) hlook
  have hinside : ((u ++ v).drop 4).take 4 = (u.drop 4).take 4 := by
    rw [List.drop_append_of_le_length (by omega), List.take_append_of_le_length]
    rw [List.length_drop]
    omega
  rw [hinside] at htype
  obtain ⟨kind, hkindtype, hkind⟩ := chunkOf_kind hmem
  rw [htype] at hkindtype
  have hproduction : ∀ {result : Unit ⊕ Unit}, chunkOf type =
      (kind.production >>= fun _ => pure result) →
        r = result ∧ kind.production.run s' = .ok () t := by
    intro result hresult
    rw [hresult, run_bind] at hchunk
    obtain ⟨_, t', hrule, hend⟩ := bind_ok.1 hchunk
    cases hend
    exact ⟨rfl, hrule⟩
  have hrule : kind.production.run s' = .ok () t := by
    rcases hkind with ⟨-, hresult⟩ | ⟨-, hresult⟩ <;> exact (hproduction hresult).2
  have hfile : kind ≠ .file := by
    rintro rfl
    rcases hkind with ⟨hinner, -⟩ | ⟨hfinish, -⟩
    · exact absurd hinner (by decide)
    · cases hfinish
  have hproduced := kind.produced hfile hrow.cursor_le hrule
  have hspent : d ≠ [] := by
    have hfirst := hlooked.position
    have hthen := hproduced.position
    have hall := hnoted.position
    exact List.length_pos_iff.1 (by omega)
  have hfits : Piece.Fits b ⟨kind, u, d⟩ := by
    rcases hkind with ⟨hinner, hresult⟩ | ⟨rfl, hresult⟩
    · obtain ⟨rfl, -⟩ := hproduction hresult
      exact ⟨_, _, .inner hinner hkindtype.symm hspent hrecited⟩
    · obtain ⟨rfl, -⟩ := hproduction hresult
      exact ⟨_, _, .finish hrecited⟩
  exact ⟨u, v, _, _, rfl, hrow.cut hproduced h.pieced.followed
    (hlooked.cursor.trans h.scanning.cursor) rfl ht hnoted hfits, rfl⟩

theorem Cut.rounds {a a' : Unit} (hr : Rounds (fun _ => following.run) a s a' t)
    (h : Cut b past rest (cs ++ [last]) used s) (hfresh : last.appendable = false) :
    ∃ u v cs' last' used', rest = u ++ v ∧ Cut b (past ++ u) v (cs' ++ [last']) used' t ∧
      last'.appendable = false := by
  induction hr generalizing past rest cs last used with
  | here a s => exact ⟨[], rest, cs, last, used, rfl, by rwa [List.append_nil], hfresh⟩
  | next hstep _ ih =>
    obtain ⟨u, v, c, used', rfl, hcut, hfresh'⟩ := h.round hfresh hstep
    obtain ⟨u', v', cs', last', used'', rfl, hcut', hlast⟩ := ih hcut hfresh'
    refine ⟨u ++ u', v', cs', last', used'', (List.append_assoc _ _ _).symm, ?_, hlast⟩
    rwa [← List.append_assoc]

/-- From the signature to the end, a file is cut into pieces. -/
theorem fileRule_cut {input : Bytes} {a : Unit} (hrow : Row [] [] none s)
    (hs : Scanning .big b 0 [] input s) (hfresh : s.stream.consumed = [])
    (hrun : fileRule.run s = .ok a t) :
    ∃ u v cs used, input = u ++ v ∧ Cut b u v cs used t := by
  have hrun' : (Kind.signature.production >>= fun _ => Kind.header.production >>= fun _ =>
      repeatFrom () fun _ => following).run s = .ok a t := hrun
  rw [run_bind] at hrun'
  obtain ⟨_, s1, hsignature, hrest⟩ := bind_ok.1 hrun'
  rw [run_bind] at hrest
  obtain ⟨_, s2, hheader, hloop⟩ := bind_ok.1 hrest
  obtain ⟨u, v, rfl, hcut⟩ := hrow.leading (Or.inl rfl) hs (by rw [hfresh]; exact .nil) hsignature
  obtain ⟨u', v', rfl, hcut'⟩ :=
    hcut.closed.toRow.leading (Or.inr rfl) hcut.scanning hcut.pieced hheader
  rw [run_repeatFrom, get_bind] at hloop
  obtain ⟨_, s3, hrounds, hlast⟩ := iterate_ends hloop
  obtain ⟨u2, v2, cs, last, used, rfl, hcut2, hfresh2⟩ := hcut'.rounds hrounds rfl
  obtain ⟨u3, v3, c, used', rfl, hcut3, -⟩ := hcut2.round hfresh2 hlast
  refine ⟨_, v3, _, used', ?_, hcut3⟩
  simp only [List.nil_append, List.append_assoc]

end Cutting

structure Dissected (limits : Limits) (input : Bytes) (w : Walk Kind) : Prop where
  file : w.file = input
  layout : ∃ signature header body finish, Layout w signature header body finish
  pieced : Pieced limits.allowEvil w.file w.decisions w.chunks.tail
  fits : w.decisions.length ≤ limits.streamCapacity
  maxDepth : 2 ≤ limits.maxDepth

/-- Where the file is closed, its chunks are those of the row, and all of its input is behind. -/
theorem file_cut {limits : Limits} {input : Bytes} {t : State Kind}
    (hrun : (inScope "png" .file fileRule).run
      { State.parsing limits input with endian := .big } = .ok () t) :
    2 ≤ limits.maxDepth ∧ ∃ u v, input = u ++ v ∧ Scanning .big limits.allowEvil 0 u v t ∧
      Pieced limits.allowEvil u t.stream.consumed t.tracker.chunks.toList.tail := by
  have hstart := Scanning.start (K := Kind) .big limits input
  rw [run_inScope] at hrun
  obtain ⟨depth, s1, hopen, hrun1⟩ := bind_ok.1 hrun
  obtain ⟨_, s2, hfile, hrun2⟩ := bind_ok.1 hrun1
  obtain ⟨_, s3, hclose, hend⟩ := bind_ok.1 hrun2
  cases hend
  obtain ⟨-, rfl⟩ := openScope_ok hstart.sound.watches hopen
  have hscan := hstart.tracking
    ((Tracker.empty limits.maxDepth : Tracker Kind).opened "png" .file 0 0)
  obtain ⟨hrow, -⟩ := Row.start (s := State.tracking { State.parsing limits input with
    endian := .big } ((Tracker.empty limits.maxDepth : Tracker Kind).opened "png" .file 0 0))
    rfl rfl rfl rfl
  obtain ⟨u, v, cs, used, hinput, hcut⟩ := fileRule_cut hrow hscan rfl hfile
  rw [closeScope_run depth hcut.scanning.sound.watches] at hclose
  cases hclose
  refine ⟨?_, u, v, hinput, hcut.scanning.tracking _, ?_⟩
  · rw [fileRule, run_bind] at hfile
    obtain ⟨_, _, hsignature, -⟩ := bind_ok.1 hfile
    exact inScope_room hscan.sound.watches hsignature
  · show Pieced _ _ _ (Tracker.closed _ _ _).chunks.toList.tail
    rw [hcut.closed.rooted.2.1]
    exact hcut.pieced

theorem parse_dissected {limits : Limits} {input : Bytes} {w : Walk Kind}
    (h : png.grammar.parse limits input = .ok w) : Dissected limits input w := by
  rw [parse_run] at h
  obtain ⟨t, ws, hrun, hfinish⟩ := conclude_ok (grammar_stops (by decide)) h
  have hscope : (inScope "png" .file fileRule).run
      { State.parsing limits input with endian := .big } = .ok () t := hrun
  obtain ⟨hdepth, hlayout⟩ := file_layout hscope rfl rfl rfl rfl
  obtain ⟨hmax, u, v, rfl, hscan, hpieced⟩ := file_cut hscope
  have hkept := run_kept hrun
  obtain ⟨hcovered, -⟩ := (State.finish_iff _ _).1 hfinish
  rw [State.finish_walked t hdepth, if_pos hcovered] at hfinish
  cases hfinish
  have hfile : t.walked.file = u ++ v := by
    show t.image.output = _
    rw [output_parse hscan.sound, hscan.bytes]
  have hwhole : v = [] := by
    rw [hscan.sound.input, if_pos rfl, hscan.bytes, hscan.forgets (Nat.zero_le _)] at hcovered
    simp only [List.size_toArray, List.length_append, Option.getD_some] at hcovered
    exact List.length_eq_zero_iff.1 (by omega)
  subst hwhole
  rw [List.append_nil] at hfile
  refine ⟨?_, hlayout ?_, ?_, ?_, hmax⟩
  · rw [hfile, List.append_nil]
  · show t.walked.file.length = _
    rw [hfile, hscan.forgets (Nat.zero_le _)]
  · rw [hfile]
    exact hpieced
  · have hwithin : t.stream.length ≤ t.stream.capacity := hkept.within (Nat.zero_le _)
    rw [hkept.streamCapacity] at hwithin
    show t.stream.consumed.length ≤ limits.streamCapacity
    rw [Stream.length_consumed]
    exact Nat.le_trans (Nat.le_add_right _ _) hwithin

section Assembling

variable {limits : Limits} {input : Bytes} {w : Walk Kind} {ps qs : List Piece}

def piece (w : Walk Kind) : Chunk Kind → Piece := pieceOf w.file w.decisions

def pieces (w : Walk Kind) : List Piece := w.chunks.tail.map (piece w)

theorem foldlM_inner {kinds : List Kind} (h : ∀ kind ∈ kinds, kind ∈ innerKinds) :
    kinds.foldlM Stage.step .headed = some .headed := by
  induction kinds with
  | nil => rfl
  | cons kind kinds ih =>
    rw [List.foldlM_cons, Stage.headed_step (h kind List.mem_cons_self)]
    exact ih fun k hk => h k (List.mem_cons_of_mem kind hk)

theorem Layout.inOrder {signature header finish : Chunk Kind} {body : List (Chunk Kind)}
    (h : Layout w signature header body finish) : InOrder (w.chunks.tail.map Chunk.kind) := by
  have hkinds := h.kinds
  simp only [List.cons.injEq, and_true] at hkinds
  obtain ⟨hsignature, hheader, hfinish⟩ := hkinds
  have hbody : (body.map Chunk.kind).foldlM Stage.step .headed = some .headed := by
    apply foldlM_inner
    intro kind hkind
    obtain ⟨c, hc, rfl⟩ := List.mem_map.1 hkind
    exact h.inner c hc
  rw [h.chunks, List.tail_cons, List.map_cons, List.map_cons, List.map_append, hsignature, hheader]
  show ((body.map Chunk.kind) ++ List.map Chunk.kind [finish]).foldlM Stage.step .headed = _
  rw [List.foldlM_append, hbody, List.map_singleton, hfinish]
  rfl

theorem bytes_of_tiles {m n : Nat} {cs : List (Chunk Kind)} (w : Walk Kind)
    (h : Tiles m (cs.map Chunk.file) n) :
    (cs.map (piece w)).flatMap Piece.bytes = Span.of ⟨m, n⟩ w.file := by
  rw [← h.flatten w.file, List.flatMap_map, List.flatMap_map]
  rfl

theorem decisions_of_tiles {m n : Nat} {cs : List (Chunk Kind)} (w : Walk Kind)
    (h : Tiles m (cs.map Chunk.decisions) n) :
    (cs.map (piece w)).flatMap Piece.decisions = Span.of ⟨m, n⟩ w.decisions := by
  rw [← h.flatten w.decisions, List.flatMap_map, List.flatMap_map]
  rfl

namespace Dissected

theorem inOrder (h : Dissected limits input w) : InOrder ((pieces w).map Piece.kind) := by
  obtain ⟨signature, header, body, finish, hlayout⟩ := h.layout
  rw [pieces, List.map_map]
  exact hlayout.inOrder

theorem piece_fits (h : Dissected limits input w) {c : Chunk Kind} (hc : c ∈ w.chunks.tail) :
    (piece w c).Fits limits.allowEvil :=
  h.pieced.fits c hc

theorem pieces_fit (h : Dissected limits input w) : ∀ p ∈ pieces w, p.Fits limits.allowEvil := by
  intro p hp
  obtain ⟨c, hc, rfl⟩ := List.mem_map.1 hp
  exact h.piece_fits hc

theorem bytes (h : Dissected limits input w) : (pieces w).flatMap Piece.bytes = w.file :=
  (bytes_of_tiles w h.pieced.files).trans (Span.of_all _)

theorem decisions (h : Dissected limits input w) :
    (pieces w).flatMap Piece.decisions = w.decisions :=
  (decisions_of_tiles w h.pieced.streams).trans (Span.of_all _)

end Dissected

structure Made (limits : Limits) (ps : List Piece) (w : Walk Kind) : Prop where
  dissected : Dissected limits (ps.flatMap Piece.bytes) w
  pieces : pieces w = ps
  generated : png.grammar.generate limits w.decisions = .ok w

theorem Made.decisions (h : Made limits ps w) : w.decisions = ps.flatMap Piece.decisions := by
  rw [← h.dissected.decisions, h.pieces]

/-- Any pieces of files, in order, make a file, if there is room for it. -/
theorem assembled (hfits : ∀ p ∈ ps, p.Fits limits.allowEvil)
    (hkinds : InOrder (ps.map Piece.kind)) (hdepth : 2 ≤ limits.maxDepth)
    (hstream : (ps.flatMap Piece.decisions).length ≤ limits.streamCapacity)
    (hfile : (ps.flatMap Piece.bytes).length ≤ limits.fileCapacity) : ∃ w, Made limits ps w := by
  have hchain := chain_of_fits hfits hkinds
  obtain ⟨p, hparse, hdecisions⟩ := hchain.parses hstream hdepth
  have hd := parse_dissected hparse
  have hpieces : pieces p = ps := by
    apply (chain_of_fits hd.pieces_fit hd.inOrder).unique (u := []) (v := []) hchain
    rw [hd.bytes, hd.file]
  have hgenerated :=
    png_faithful.generates hparse rfl hdepth hfile (by rw [hdecisions]; exact hstream)
  rw [← hd.file] at hgenerated
  obtain ⟨signature, header, body, finish, hlayout⟩ := hd.layout
  have hlayout' : Layout { p with mode := .generate } signature header body finish :=
    ⟨hlayout.toRoles, hlayout.chunks, hlayout.inside, hlayout.files, hlayout.decisions,
      hlayout.points⟩
  exact ⟨{ p with mode := .generate }, ⟨hd.file, ⟨signature, header, body, finish, hlayout'⟩,
    hd.pieced, hd.fits, hd.maxDepth⟩, hpieces, hgenerated⟩

end Assembling

end Png

end DecisionWalk
