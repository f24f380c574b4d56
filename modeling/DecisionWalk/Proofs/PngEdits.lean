import DecisionWalk.Proofs.PngPieces
import DecisionWalk.Proofs.Splices

/-!
# The pieces of a PNG, edited

What lies in front of a chunk and behind it are pieces too. So pieces can be put
in the place of a chunk or in front of it, a chunk can be left out, and two
chunks can change places. The result is a file again, with its chunks where the
edit put them, and a watch on such a place finds its chunk.
-/

set_option autoImplicit false

namespace DecisionWalk.Png

def Kind.flags : Kind → Bool × Bool
  | .file | .signature => (false, false)
  | .header => (false, true)
  | .data | .text | .physicalDims | .time => (true, true)
  | .finish => (true, false)

theorem Kind.inner_of_flags {kind : Kind} (hoptional : kind.flags.1 = true)
    (hfinish : kind ≠ .finish) : kind ∈ innerKinds := by
  cases kind <;> simp_all [Kind.flags, innerKinds]

theorem Kind.flags_inner {kind : Kind} (h : kind ∈ innerKinds) : kind.flags = (true, true) := by
  revert h
  cases kind <;> decide

theorem innerKinds_ne_file {kind : Kind} (h : kind ∈ innerKinds) : kind ≠ .file := by
  rintro rfl
  exact absurd h (by decide)

theorem Stage.kind_of_ended {stage : Stage} {kind : Kind} (h : stage.step kind = some .ended) :
    kind = .finish := by
  cases stage <;> cases kind <;> simp_all [Stage.step, innerKinds]

theorem Piece.Fits.kind_ne {b : Bool} {p : Piece} (h : p.Fits b) : p.kind ≠ .file := by
  obtain ⟨stage, next, hreads⟩ := h
  cases hreads with
  | signature | header | finish => exact fun h => nomatch h
  | inner hkind => exact innerKinds_ne_file hkind

def roleOf (c : Chunk Kind) : Kind × Bool × Bool := (c.kind, c.optional, c.appendable)

section Chunks

variable {limits : Limits} {input : Bytes} {w : Walk Kind} {c : Chunk Kind}
  {before behind : List (Chunk Kind)}

theorem Roles.flags {signature header finish : Chunk Kind} {body : List (Chunk Kind)}
    (h : Roles signature header body finish) (hc : c ∈ signature :: header :: (body ++ [finish])) :
    (c.optional, c.appendable) = c.kind.flags := by
  have hkinds := h.kinds
  have hoptional := h.optional
  have happendable := h.appendable
  simp only [List.cons.injEq, and_true] at hkinds
  simp only [List.map_cons, List.map_append, List.map_nil, List.cons_append, List.nil_append,
    List.cons.injEq] at hoptional happendable
  obtain ⟨hsignature, hheader, hfinish⟩ := hkinds
  obtain ⟨hsignature', hheader', hrest⟩ := hoptional
  obtain ⟨hsignature'', hheader'', hrest'⟩ := happendable
  have hends : ∀ {f : Chunk Kind → Bool} {x y : Bool},
      body.map f ++ [x] = body.map (fun _ => true) ++ [y] → (∀ d ∈ body, f d = true) ∧ x = y := by
    intro f x y hsame
    obtain ⟨hbody, hlast⟩ := List.append_inj hsame (by rw [List.length_map, List.length_map])
    exact ⟨List.map_inj_left.1 hbody, List.singleton_inj.1 hlast⟩
  obtain ⟨hbody', hfinish'⟩ := hends hrest
  obtain ⟨hbody'', hfinish''⟩ := hends hrest'
  rcases List.mem_cons.1 hc with rfl | hc
  · rw [hsignature, hsignature', hsignature'']
    rfl
  rcases List.mem_cons.1 hc with rfl | hc
  · rw [hheader, hheader', hheader'']
    rfl
  rcases List.mem_append.1 hc with hc | hc
  · rw [Kind.flags_inner (h.inner c hc), hbody' c hc, hbody'' c hc]
  · rw [List.mem_singleton.1 hc, hfinish, hfinish', hfinish'']
    rfl

theorem pieces_split (hc : w.chunks.tail = before ++ c :: behind) :
    pieces w = before.map (piece w) ++ piece w c :: behind.map (piece w) := by
  rw [pieces, hc, List.map_append, List.map_cons]

namespace Dissected

theorem chunks (h : Dissected limits input w) :
    w.chunks = root w.file.length w.decisions.length :: w.chunks.tail := by
  obtain ⟨signature, header, body, finish, hlayout⟩ := h.layout
  rw [hlayout.chunks]
  rfl

theorem flags (h : Dissected limits input w) (hc : c ∈ w.chunks) :
    (c.optional, c.appendable) = c.kind.flags := by
  obtain ⟨signature, header, body, finish, hlayout⟩ := h.layout
  rw [hlayout.chunks] at hc
  rcases List.mem_cons.1 hc with rfl | hc
  · rfl
  · exact hlayout.toRoles.flags hc

theorem depth (h : Dissected limits input w) (hc : c ∈ w.chunks.tail) : c.depth = 1 := by
  obtain ⟨signature, header, body, finish, hlayout⟩ := h.layout
  rw [hlayout.chunks] at hc
  exact (hlayout.inside c hc).1

theorem kind_ne (h : Dissected limits input w) (hc : c ∈ w.chunks.tail) : c.kind ≠ .file :=
  (h.piece_fits hc).kind_ne

theorem eq_root (h : Dissected limits input w) (hc : c ∈ w.chunks) (hkind : c.kind = .file) :
    c = root w.file.length w.decisions.length := by
  rw [h.chunks] at hc
  exact (List.mem_cons.1 hc).resolve_right fun hc => h.kind_ne hc hkind

theorem mem_tail (h : Dissected limits input w) (hc : c ∈ w.chunks) (hkind : c.kind ≠ .file) :
    c ∈ w.chunks.tail := by
  rw [h.chunks] at hc
  refine (List.mem_cons.1 hc).resolve_left ?_
  rintro rfl
  exact hkind rfl

theorem inner (h : Dissected limits input w) (hc : c ∈ w.chunks) (hoptional : c.optional = true)
    (hfinish : c.kind ≠ .finish) : c.kind ∈ innerKinds := by
  have hflags := congrArg Prod.fst (h.flags hc)
  exact Kind.inner_of_flags (hflags.symm.trans hoptional) hfinish

theorem roles (h : Dissected limits input w) {cs : List (Chunk Kind)}
    (hcs : ∀ c ∈ cs, c ∈ w.chunks) :
    cs.map roleOf = (cs.map (piece w)).map fun p => (p.kind, p.kind.flags) := by
  rw [List.map_map]
  apply List.map_congr_left
  intro c hc
  show (c.kind, c.optional, c.appendable) = (c.kind, c.kind.flags)
  rw [h.flags (hcs c hc)]

theorem mem_of_tail (hc : w.chunks.tail = before ++ c :: behind) : c ∈ w.chunks := by
  apply List.mem_of_mem_tail
  rw [hc]
  exact List.mem_append_right _ List.mem_cons_self

theorem files (h : Dissected limits input w) (hc : w.chunks.tail = before ++ c :: behind) :
    Tiles 0 (before.map Chunk.file) c.file.start ∧ c.file.start < c.file.stop ∧
      Tiles c.file.stop (behind.map Chunk.file) w.file.length := by
  have htiles := h.pieced.files
  rw [hc, List.map_append, List.map_cons] at htiles
  exact htiles.split

theorem streams (h : Dissected limits input w) (hc : w.chunks.tail = before ++ c :: behind) :
    Tiles 0 (before.map Chunk.decisions) c.decisions.start ∧
      c.decisions.start < c.decisions.stop ∧
      Tiles c.decisions.stop (behind.map Chunk.decisions) w.decisions.length := by
  have htiles := h.pieced.streams
  rw [hc, List.map_append, List.map_cons] at htiles
  exact htiles.split

theorem around (h : Dissected limits input w) (hc : w.chunks.tail = before ++ c :: behind) :
    (w.file.take c.file.start = (before.map (piece w)).flatMap Piece.bytes ∧
      w.file.drop c.file.stop = (behind.map (piece w)).flatMap Piece.bytes) ∧
    w.decisions.take c.decisions.start = (before.map (piece w)).flatMap Piece.decisions ∧
      w.decisions.drop c.decisions.stop = (behind.map (piece w)).flatMap Piece.decisions := by
  obtain ⟨hbefore, -, hbehind⟩ := h.files hc
  obtain ⟨hbefore', -, hbehind'⟩ := h.streams hc
  rw [bytes_of_tiles w hbefore, bytes_of_tiles w hbehind, decisions_of_tiles w hbefore',
    decisions_of_tiles w hbehind', Span.of_left, Span.of_right, Span.of_left, Span.of_right]
  exact ⟨⟨rfl, rfl⟩, rfl, rfl⟩

theorem onward (h : Dissected limits input w) (hc : w.chunks.tail = before ++ c :: behind) :
    w.file.drop c.file.start = ((c :: behind).map (piece w)).flatMap Piece.bytes ∧
      w.decisions.drop c.decisions.start =
        ((c :: behind).map (piece w)).flatMap Piece.decisions := by
  have hfiles : Tiles c.file.start ((c :: behind).map Chunk.file) _ := ⟨rfl, (h.files hc).2⟩
  have hstreams : Tiles c.decisions.start ((c :: behind).map Chunk.decisions) _ :=
    ⟨rfl, (h.streams hc).2⟩
  rw [bytes_of_tiles w hfiles, decisions_of_tiles w hstreams, Span.of_right, Span.of_right]
  exact ⟨rfl, rfl⟩

theorem within (h : Dissected limits input w) (hc : c ∈ w.chunks) :
    c.file.Fits w.file ∧ c.decisions.Fits w.decisions := by
  rw [h.chunks] at hc
  rcases List.mem_cons.1 hc with rfl | hc
  · exact ⟨⟨Nat.zero_le _, Nat.le_refl _⟩, Nat.zero_le _, Nat.le_refl _⟩
  · exact ⟨h.pieced.files.fits (List.mem_map_of_mem hc),
      h.pieced.streams.fits (List.mem_map_of_mem hc)⟩

theorem piece_lengths (h : Dissected limits input w) (hc : c ∈ w.chunks) :
    (piece w c).bytes.length = c.file.length ∧
      (piece w c).decisions.length = c.decisions.length :=
  ⟨Span.length_of (h.within hc).1, Span.length_of (h.within hc).2⟩

theorem decided (h : Dissected limits input w) (hc : w.chunks.tail = before ++ c :: behind) :
    c.decisions.start = ((before.map (piece w)).flatMap Piece.decisions).length ∧
      c.decisions.stop = c.decisions.start + (piece w c).decisions.length := by
  obtain ⟨-, hle, hin⟩ := h.within (mem_of_tail hc)
  constructor
  · rw [← (h.around hc).2.1, List.length_take, Nat.min_eq_left (Nat.le_trans hle hin)]
  · rw [(h.piece_lengths (mem_of_tail hc)).2, Span.length, Nat.add_sub_cancel' hle]

/-- All chunks are different, since no two of the row start at one place. -/
theorem others (h : Dissected limits input w) (hc : w.chunks.tail = before ++ c :: behind) :
    w.chunks.filter (· ≠ c) = root w.file.length w.decisions.length :: (before ++ behind) := by
  obtain ⟨hbefore, hlt, hbehind⟩ := h.streams hc
  have hmem : c ∈ w.chunks.tail := by
    rw [hc]
    exact List.mem_append_right _ List.mem_cons_self
  have hroot : root w.file.length w.decisions.length ≠ c := by
    rintro rfl
    exact h.kind_ne hmem rfl
  have hearlier : before.filter (· ≠ c) = before := by
    rw [List.filter_eq_self]
    intro x hx
    have hstart := hbefore.start_lt (List.mem_map_of_mem hx)
    exact decide_eq_true fun hsame => by rw [hsame] at hstart; omega
  have hlater : behind.filter (· ≠ c) = behind := by
    rw [List.filter_eq_self]
    intro x hx
    have hstart := hbehind.le_start (List.mem_map_of_mem hx)
    exact decide_eq_true fun hsame => by rw [hsame] at hstart; omega
  rw [h.chunks, hc, List.filter_cons, if_pos (decide_eq_true hroot), List.filter_append, hearlier,
    List.filter_cons, if_neg (by simp), hlater]

theorem behind_nil (h : Dissected limits input w) (hc : w.chunks.tail = before ++ c :: behind) :
    behind = [] ↔ c.kind = .finish := by
  have horder := h.inOrder
  rw [pieces_split hc, List.map_append, List.map_cons] at horder
  obtain ⟨stage, next, -, hstep, hbehind⟩ := horder.split
  constructor
  · rintro rfl
    cases hbehind
    exact Stage.kind_of_ended hstep
  · intro hkind
    have hfinish : stage.step .finish = some next := hkind ▸ hstep
    obtain ⟨-, rfl⟩ := Stage.step_unique hfinish Stage.headed_finish
    cases behind with
    | nil => rfl
    | cons x behind =>
      rw [List.map_cons, List.map_cons, List.foldlM_cons] at hbehind
      cases hbehind

end Dissected

/-- A watch that is set to a piece finds its chunk, which takes the decisions of the piece. -/
theorem Made.met {ps qs : List Piece} {p : Piece} {start : Nat}
    (h : Made limits (ps ++ p :: qs) w) (depth : Option Nat)
    (hstart : start = (ps.flatMap Piece.decisions).length)
    (hdepth : depth.all (· == 1) = true) :
    Watch.Met
      { start := start, kind := some p.kind, depth := depth,
        expectedStop := some (start + p.decisions.length) } w := by
  have hd := h.dissected
  obtain ⟨before, rest, htail, rfl, hrest⟩ := List.map_eq_append_iff.1 h.pieces
  obtain ⟨c, behind, rfl, rfl, rfl⟩ := List.map_eq_cons_iff.1 hrest
  obtain ⟨hcstart, hcstop⟩ := hd.decided htail
  have hc : c ∈ w.chunks.tail := by
    rw [htail]
    exact List.mem_append_right _ List.mem_cons_self
  have hkind := hd.kind_ne hc
  refine ⟨⟨rfl, rfl, rfl⟩, c, ?_, ?_⟩
  · rw [List.find?_eq_some_iff_append]
    refine ⟨?_, root w.file.length w.decisions.length :: before, behind, ?_, ?_⟩
    · simp [Watch.fits, hstart, hcstart, piece, pieceOf, hd.depth hc, hdepth]
    · rw [hd.chunks, htail, List.cons_append]
    · -- The root is a file, and all other chunks in front start earlier.
      intro x hx
      rcases List.mem_cons.1 hx with rfl | hx
      · simp [Watch.fits, root, piece, pieceOf, hkind]
      · have hlt := (hd.streams htail).1.start_lt (List.mem_map_of_mem hx)
        have hne : start ≠ x.decisions.start := by omega
        simp [Watch.fits, hne]
  · rw [hcstop, hcstart, hstart]

theorem Dissected.rearranged {ps : List Piece} (h : Dissected limits input w)
    (hfrom : ∀ q ∈ ps, q ∈ pieces w ∨ q.Fits limits.allowEvil)
    (horder : InOrder (ps.map Piece.kind))
    (hstream : (ps.flatMap Piece.decisions).length ≤ limits.streamCapacity)
    (hfile : (ps.flatMap Piece.bytes).length ≤ limits.fileCapacity) : ∃ w', Made limits ps w' := by
  refine assembled ?_ horder h.maxDepth hstream hfile
  intro q hq
  rcases hfrom q hq with hq | hq
  · exact h.pieces_fit q hq
  · exact hq

/-- In the place of a chunk stands a piece of some kind that may stand there. -/
theorem Dissected.replaced {p : Piece} (h : Dissected limits input w)
    (hc : w.chunks.tail = before ++ c :: behind) (hp : p.Fits limits.allowEvil)
    (hkinds : p.kind = c.kind ∨ p.kind ∈ innerKinds ∧ c.kind ∈ innerKinds)
    (hstream : w.decisions.length - c.decisions.length + p.decisions.length ≤
      limits.streamCapacity)
    (hfile : w.file.length - c.file.length + p.bytes.length ≤ limits.fileCapacity) :
    ∃ w', Made limits (before.map (piece w) ++ p :: behind.map (piece w)) w' := by
  obtain ⟨⟨hfront, hback⟩, hearlier, hlater⟩ := h.around hc
  obtain ⟨⟨hle, hin⟩, hle', hin'⟩ := h.within (Dissected.mem_of_tail hc)
  have hpieces := pieces_split hc
  apply h.rearranged
  · intro q hq
    rw [hpieces]
    simp only [List.mem_append, List.mem_cons] at hq ⊢
    rcases hq with hq | rfl | hq
    · exact Or.inl (Or.inl hq)
    · exact Or.inr hp
    · exact Or.inl (Or.inr (Or.inr hq))
  · have horder := h.inOrder
    rw [hpieces, List.map_append, List.map_cons] at horder
    rw [List.map_append, List.map_cons]
    exact horder.replace hkinds
  · rw [List.flatMap_append, List.flatMap_cons, ← hearlier, ← hlater]
    simp only [List.length_append, List.length_take, List.length_drop]
    rw [Span.length] at hstream
    omega
  · rw [List.flatMap_append, List.flatMap_cons, ← hfront, ← hback]
    simp only [List.length_append, List.length_take, List.length_drop]
    rw [Span.length] at hfile
    omega

/-- In front of a chunk that follows the header stands one piece more. -/
theorem Dissected.inserted {p : Piece} (h : Dissected limits input w)
    (hc : w.chunks.tail = before ++ c :: behind) (hp : p.Fits limits.allowEvil)
    (hinner : p.kind ∈ innerKinds) (hkind : c.kind ∈ innerKinds ∨ c.kind = .finish)
    (hstream : w.decisions.length + p.decisions.length ≤ limits.streamCapacity)
    (hfile : w.file.length + p.bytes.length ≤ limits.fileCapacity) :
    ∃ w', Made limits (before.map (piece w) ++ p :: (c :: behind).map (piece w)) w' := by
  obtain ⟨⟨hfront, -⟩, hearlier, -⟩ := h.around hc
  obtain ⟨hback, hlater⟩ := h.onward hc
  have hpieces := pieces_split hc
  apply h.rearranged
  · intro q hq
    rw [hpieces]
    rcases List.mem_append.1 hq with hq | hq
    · exact Or.inl (List.mem_append_left _ hq)
    rcases List.mem_cons.1 hq with rfl | hq
    · exact Or.inr hp
    · exact Or.inl (List.mem_append_right _ hq)
  · have horder := h.inOrder
    rw [hpieces, List.map_append, List.map_cons] at horder
    rw [List.map_append, List.map_cons, List.map_cons, List.map_cons]
    exact horder.insert hinner hkind
  · rw [List.flatMap_append, List.flatMap_cons, ← hearlier, ← hlater]
    simp only [List.length_append, List.length_take, List.length_drop]
    omega
  · rw [List.flatMap_append, List.flatMap_cons, ← hfront, ← hback]
    simp only [List.length_append, List.length_take, List.length_drop]
    omega

/-- A chunk between the header and the end may be left out. -/
theorem Dissected.deleted (h : Dissected limits input w)
    (hc : w.chunks.tail = before ++ c :: behind) (hinner : c.kind ∈ innerKinds)
    (hfile : w.file.length ≤ limits.fileCapacity) :
    ∃ w', Made limits (before.map (piece w) ++ behind.map (piece w)) w' := by
  obtain ⟨⟨hfront, hback⟩, hearlier, hlater⟩ := h.around hc
  obtain ⟨⟨hle, -⟩, hle', -⟩ := h.within (Dissected.mem_of_tail hc)
  have hfits := h.fits
  have hpieces := pieces_split hc
  apply h.rearranged
  · intro q hq
    rw [hpieces]
    rcases List.mem_append.1 hq with hq | hq
    · exact Or.inl (List.mem_append_left _ hq)
    · exact Or.inl (List.mem_append_right _ (List.mem_cons_of_mem _ hq))
  · have horder := h.inOrder
    rw [hpieces, List.map_append, List.map_cons] at horder
    rw [List.map_append]
    exact horder.delete hinner
  · rw [List.flatMap_append, ← hearlier, ← hlater]
    simp only [List.length_append, List.length_take, List.length_drop]
    omega
  · rw [List.flatMap_append, ← hfront, ← hback]
    simp only [List.length_append, List.length_take, List.length_drop]
    omega

/-- Two chunks between the header and the end may change places. -/
theorem Dissected.swapped {a b : Chunk Kind} {between : List (Chunk Kind)}
    (h : Dissected limits input w)
    (hrow : w.chunks.tail = before ++ a :: (between ++ b :: behind))
    (ha : a.kind ∈ innerKinds) (hb : b.kind ∈ innerKinds)
    (hfile : w.file.length ≤ limits.fileCapacity) :
    ∃ w', Made limits (before.map (piece w) ++ piece w b ::
      (between.map (piece w) ++ piece w a :: behind.map (piece w))) w' := by
  have hpieces := pieces_split hrow
  rw [List.map_append, List.map_cons] at hpieces
  have hbytes := congrArg List.length h.bytes
  have hdecisions := congrArg List.length h.decisions
  have hfits := h.fits
  rw [hpieces] at hbytes hdecisions
  simp only [List.flatMap_append, List.flatMap_cons, List.length_append] at hbytes hdecisions
  apply h.rearranged
  · intro q hq
    rw [hpieces]
    simp only [List.mem_append, List.mem_cons] at hq ⊢
    rcases hq with hq | hq | hq | hq | hq
    · exact Or.inl (Or.inl hq)
    · exact Or.inl (Or.inr (Or.inr (Or.inr (Or.inl hq))))
    · exact Or.inl (Or.inr (Or.inr (Or.inl hq)))
    · exact Or.inl (Or.inr (Or.inl hq))
    · exact Or.inl (Or.inr (Or.inr (Or.inr (Or.inr hq))))
  · have horder := h.inOrder
    rw [hpieces] at horder
    simp only [List.map_append, List.map_cons] at horder ⊢
    have hfirst := horder.replace (Or.inr ⟨hb, ha⟩)
    rw [← List.cons_append, ← List.append_assoc] at hfirst ⊢
    exact hfirst.replace (Or.inr ⟨ha, hb⟩)
  · simp only [List.flatMap_append, List.flatMap_cons, List.length_append]
    omega
  · simp only [List.flatMap_append, List.flatMap_cons, List.length_append]
    omega

end Chunks

section Neighbours

variable {limits : Limits} {input : Bytes} {w : Walk Kind} {c next : Chunk Kind}
  {before behind : List (Chunk Kind)} {p : InsertionPoint Kind}

theorem mem_boundaries {cs : List (Chunk Kind)} (h : p ∈ boundaries cs) :
    ∃ before a c behind, cs = before ++ a :: c :: behind ∧ p.decisionOffset = a.decisions.stop ∧
      p.fileOffset = a.file.stop := by
  induction cs with
  | nil => cases h
  | cons a rest ih =>
    cases rest with
    | nil => cases h
    | cons c rest =>
      rcases List.mem_append.1 h with h | h
      · refine ⟨[], a, c, rest, rfl, ?_⟩
        simp only [boundary, List.mem_cons, List.not_mem_nil, or_false] at h
        rcases h with rfl | rfl <;> exact ⟨rfl, rfl⟩
      · obtain ⟨before, a', c', behind, hrow, hoffsets⟩ := ih h
        exact ⟨a :: before, a', c', behind, by rw [hrow, List.cons_append], hoffsets⟩

/-- An insertion point lies in front of a chunk that follows the header. -/
theorem Dissected.point (h : Dissected limits input w) (hp : p ∈ w.points) :
    ∃ before c behind, w.chunks.tail = before ++ c :: behind ∧
      p.decisionOffset = c.decisions.start ∧ p.fileOffset = c.file.start ∧
      (c.kind ∈ innerKinds ∨ c.kind = .finish) := by
  obtain ⟨signature, header, body, finish, hlayout⟩ := h.layout
  rw [hlayout.points] at hp
  obtain ⟨before, a, c, behind, hrow, hdecision, hfile⟩ := mem_boundaries hp
  have htail : w.chunks.tail = (signature :: before ++ [a]) ++ c :: behind := by
    rw [hlayout.chunks, List.tail_cons, hrow]
    simp
  have hmeet := (h.files htail).1
  have hmeet' := (h.streams htail).1
  rw [List.map_append] at hmeet hmeet'
  refine ⟨_, c, behind, htail, hdecision.trans hmeet'.last, hfile.trans hmeet.last, ?_⟩
  have hmem : c ∈ body ++ [finish] := by
    cases before with
    | nil =>
      obtain ⟨-, hrest⟩ := List.cons.inj hrow
      rw [hrest]
      exact List.mem_cons_self
    | cons first before =>
      obtain ⟨-, hrest⟩ := List.cons.inj hrow
      rw [hrest]
      exact List.mem_append_right _ (List.mem_cons_of_mem _ List.mem_cons_self)
  rcases List.mem_append.1 hmem with hmem | hmem
  · exact Or.inl (hlayout.inner c hmem)
  · have hkinds := hlayout.kinds
    simp only [List.cons.injEq, and_true] at hkinds
    rw [List.mem_singleton.1 hmem]
    exact Or.inr hkinds.2.2

theorem Dissected.start_ne (h : Dissected limits input w)
    (hc : w.chunks.tail = before ++ c :: behind) :
    ∀ x ∈ root w.file.length w.decisions.length :: (before ++ [c]),
      x.decisions.start ≠ c.decisions.stop := by
  obtain ⟨hbefore, hlt, -⟩ := h.streams hc
  intro x hx
  simp only [List.mem_cons, List.mem_append, List.not_mem_nil, or_false] at hx
  rcases hx with rfl | hx | rfl
  · exact Nat.ne_of_lt (Nat.zero_lt_of_lt hlt)
  · have hstart := hbefore.start_lt (List.mem_map_of_mem hx)
    omega
  · omega

theorem Dissected.successor (h : Dissected limits input w)
    (hc : w.chunks.tail = before ++ c :: next :: behind) :
    Mutator.successor? w c = some next := by
  obtain ⟨-, -, hstart, hnext, -⟩ := h.streams hc
  rw [Mutator.successor?, List.find?_eq_some_iff_append]
  refine ⟨by simp [hstart, Span.isEmpty, hnext],
    root w.file.length w.decisions.length :: (before ++ [c]), behind, ?_, ?_⟩
  · rw [h.chunks, hc]
    simp
  · intro x hx
    simp [h.start_ne hc x hx]

theorem Dissected.no_successor (h : Dissected limits input w)
    (hc : w.chunks.tail = before ++ [c]) : Mutator.successor? w c = none := by
  rw [Mutator.successor?, List.find?_eq_none]
  intro x hx
  rw [h.chunks, hc] at hx
  simp [h.start_ne hc x hx]

end Neighbours

end DecisionWalk.Png
