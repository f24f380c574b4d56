import DecisionWalk.Proofs.PngLanguage
import DecisionWalk.Proofs.PngStrides
import DecisionWalk.Proofs.Points

/-!
# The chunk map of a PNG

Every chunk of a PNG takes its own bytes and its own decisions: those of the look
at its type count to the chunk behind it, and the four bytes that the look touches
lie inside that chunk, since a chunk has a length, a type and a CRC at least. So
the children of the root divide the file and the decisions among themselves, and
the insertion points are where they meet.
-/

set_option autoImplicit false

namespace DecisionWalk

open Walker Grammar

def Tiles : Nat → List Span → Nat → Prop
  | a, [], b => a = b
  | a, span :: rest, b => span.start = a ∧ a < span.stop ∧ Tiles span.stop rest b

namespace Tiles

variable {a b c : Nat} {spans : List Span} {span : Span}

theorem snoc (h : Tiles a spans b) (hlt : b < c) : Tiles a (spans ++ [⟨b, c⟩]) c := by
  induction spans generalizing a with
  | nil =>
    cases h
    exact ⟨rfl, hlt, rfl⟩
  | cons span rest ih =>
    obtain ⟨hstart, hne, hrest⟩ := h
    exact ⟨hstart, hne, ih hrest⟩

theorem last (h : Tiles a (spans ++ [span]) b) : span.stop = b := by
  induction spans generalizing a with
  | nil => exact h.2.2
  | cons first rest ih => exact ih h.2.2

end Tiles

section Boundaries

variable {K : Type}

def boundary (a b : Chunk K) : List (InsertionPoint K) :=
  [⟨a.decisions.stop, a.file.stop, a.kind, a.name, .afterAppendable⟩,
    ⟨a.decisions.stop, a.file.stop, b.kind, b.name, .beforeOptional⟩]

def boundaries : List (Chunk K) → List (InsertionPoint K)
  | a :: b :: rest => boundary a b ++ boundaries (b :: rest)
  | _ => []

theorem boundaries_snoc (cs : List (Chunk K)) (a b : Chunk K) :
    boundaries (cs ++ [a.followed, b]) = boundaries (cs ++ [a]) ++ boundary a b := by
  induction cs with
  | nil => rfl
  | cons c cs ih =>
    cases cs with
    | nil => rfl
    | cons c' cs =>
      show boundary c c' ++ boundaries (c' :: cs ++ [a.followed, b]) = _
      rw [ih, ← List.append_assoc]
      rfl

theorem boundaries_sorted {cs : List (Chunk K)} {p q : Nat}
    (h : Tiles p (cs.map Chunk.decisions) q) :
    (boundaries cs).Pairwise (fun x y => x.notAfter y) ∧
      ∀ x ∈ boundaries cs, p < x.decisionOffset := by
  induction cs generalizing p with
  | nil => exact ⟨.nil, fun _ hx => (nomatch hx)⟩
  | cons a rest ih =>
    cases rest with
    | nil => exact ⟨.nil, fun _ hx => (nomatch hx)⟩
    | cons b rest =>
      obtain ⟨-, hlt, hrest⟩ := h
      obtain ⟨hsorted, hbehind⟩ := ih hrest
      have hhere : ∀ x ∈ boundary a b, x.decisionOffset = a.decisions.stop := by
        simp [boundary]
      constructor
      · refine List.pairwise_append.2 ⟨?_, hsorted, ?_⟩
        · simp [boundary, InsertionPoint.notAfter]
        · intro x hx y hy
          rw [InsertionPoint.notAfter_iff, hhere x hx]
          exact Or.inl (hbehind y hy)
      · intro x hx
        rcases List.mem_append.1 hx with hx | hx
        · rw [hhere x hx]
          exact hlt
        · exact Nat.lt_trans hlt (hbehind x hx)

end Boundaries

namespace Png

def root (n m : Nat) : Chunk Kind where
  name := "png"
  kind := .file
  file := ⟨0, n⟩
  decisions := ⟨0, m⟩
  optional := false
  appendable := false
  depth := 0
  parent := none

def spanned (n : Nat) : Option Span := if n = 0 then none else some ⟨0, n⟩

theorem spanned_pos {n : Nat} (h : 0 < n) : spanned n = some ⟨0, n⟩ := if_neg (by omega)

theorem joinTouched_spanned {n a b : Nat} (h : n = 0 → a = 0) (hn : n ≤ b) (hb : 0 < b) :
    Tracker.joinTouched (spanned n) ⟨a, b⟩ = spanned b := by
  rw [spanned_pos hb]
  by_cases hzero : n = 0
  · rw [spanned, if_pos hzero, h hzero]
    rfl
  · rw [spanned, if_neg hzero]
    simp [Tracker.joinTouched, Span.hull, hn]

/-- Inside the file, behind the chunks `cs`, with the names `used` among them. A look may have
been taken at the next chunk, from the decision `look` on. -/
structure Row (cs : List (Chunk Kind)) (used : NameCounts) (look : Option Nat) (s : State Kind) :
    Prop where
  cursor_le : s.image.cursor ≤ s.image.size
  size_le : s.image.size ≤ s.image.cursor + 8
  stack : s.tracker.stack = [⟨"png", 0, 0, spanned s.image.size, used⟩]
  chunks : s.tracker.chunks.toList = root 0 0 :: cs
  gate : s.tracker.gate = look.map fun p => ⟨p, s.stream.position⟩
  look_le : look.getD s.stream.position ≤ s.stream.position
  files : Tiles 0 (cs.map Chunk.file) s.image.cursor
  decisions : Tiles 0 (cs.map Chunk.decisions) (look.getD s.stream.position)
  inside : ∀ c ∈ cs, c.depth = 1 ∧ c.parent = some 0

structure Closed (cs : List (Chunk Kind)) (used : NameCounts) (s : State Kind) : Prop
    extends Row cs used none s where
  size : s.image.size = s.image.cursor
  moved : 0 < s.image.cursor
  lastExit : s.tracker.lastExit = some cs.length

def childOf (name : String) (kind : Kind) (used : NameCounts) (look : Option Nat)
    (s t : State Kind) : Chunk Kind where
  name := "png" ++ "." ++ instanceName name (used.count name)
  kind := kind
  file := ⟨s.image.cursor, t.image.cursor⟩
  decisions := ⟨look.getD s.stream.position, t.stream.position⟩
  optional := look.isSome
  appendable := false
  depth := 1
  parent := some 0

section Rows

variable {cs : List (Chunk Kind)} {used : NameCounts} {look : Option Nat} {last : Chunk Kind}
  {name : String} {kind : Kind} {s t u : State Kind}

namespace Row

theorem entering (h : Row cs used look s) : s.tracker.entering s.stream.position =
    ⟨s.tracker.chunks.size, look.getD s.stream.position, look.isSome⟩ := by
  cases look <;> simp [Tracker.entering, Tracker.gateAt, h.gate, Option.filter]

theorem childPath (h : Row cs used look s) (name : String) :
    s.tracker.childPath name = "png" ++ "." ++ instanceName name (used.count name) := by
  simp [Tracker.childPath, Tracker.siblings, h.stack]

theorem product (h : Row cs used look s) (name : String) (kind : Kind) (t : State Kind) :
    s.product t name kind = childOf name kind used look s t := by
  simp [State.product, Tracker.fresh, childOf, h.entering, h.childPath, h.stack]

theorem opened_gate (h : Row cs used look s) (name : String) (kind : Kind) :
    (s.tracker.opened name kind s.stream.position s.image.cursor).gate = none := by
  apply Option.eq_none_iff_forall_ne_some.2
  intro g hg
  obtain ⟨hgate, hne⟩ := Tracker.opened_gate hg
  rw [h.gate] at hgate
  obtain ⟨p, -, rfl⟩ := Option.map_eq_some_iff.1 hgate
  exact hne rfl

/-- A production is one more chunk of the row. -/
theorem child (h : Row cs used look s) (hp : Produced name kind 1 8 s t) :
    Closed (cs ++ [childOf name kind used look s t]) (used.bump name) t ∧
      t.tracker.points = if look.isSome then
        ⟨look.getD s.stream.position, s.image.cursor, kind,
          (childOf name kind used look s t).name, .beforeOptional⟩ :: s.tracker.points
        else s.tracker.points := by
  have hcursor := hp.cursor
  have hposition := hp.position
  have hsize_le := h.size_le
  have hcursor_le := h.cursor_le
  have hlook := h.look_le
  have hsize : t.image.size = t.image.cursor := by
    rw [hp.size]
    omega
  have hlength : s.tracker.chunks.size = cs.length + 1 := by
    rw [← Array.length_toList, h.chunks, List.length_cons]
  obtain ⟨hstack, hchunks, hexit, hgate, hpoints⟩ := hp.within (by decide) h.stack
  rw [h.opened_gate] at hgate
  rw [h.product] at hchunks
  rw [joinTouched_spanned (by omega) (by omega) (by omega), ← hsize] at hstack
  refine ⟨⟨⟨?_, ?_, hstack, ?_, hgate, Nat.le_refl _, ?_, ?_, ?_⟩, hsize, by omega, ?_⟩, ?_⟩
  · omega
  · omega
  · rw [hchunks, Array.toList_push, h.chunks, List.cons_append]
  · rw [List.map_append]
    exact h.files.snoc (by omega)
  · rw [List.map_append]
    exact h.decisions.snoc (by omega)
  · intro c hc
    rcases List.mem_append.1 hc with hc | hc
    · exact h.inside c hc
    · rw [List.mem_singleton.1 hc]
      exact ⟨rfl, rfl⟩
  · rw [hexit, hlength, List.length_append, List.length_singleton]
  · rw [hpoints, Tracker.opened_points, h.entering, h.childPath]
    rfl

end Row

namespace Closed

theorem lastChunk (h : Closed (cs ++ [last]) used s) :
    s.tracker.chunks[(cs ++ [last]).length]? = some last := by
  rw [← Array.getElem?_toList, h.chunks]
  simp

theorem last_decisions (h : Closed (cs ++ [last]) used s) :
    last.decisions.stop = s.stream.position := by
  have htiles := h.decisions
  rw [List.map_append] at htiles
  exact htiles.last

theorem last_file (h : Closed (cs ++ [last]) used s) : last.file.stop = s.image.cursor := by
  have htiles := h.files
  rw [List.map_append] at htiles
  exact htiles.last

theorem looked (h : Closed (cs ++ [last]) used s) (hfresh : last.appendable = false)
    (hl : Looked 4 4 s t) :
    Row (cs ++ [last.followed]) used (some s.stream.position) t ∧ t.tracker.points =
      ⟨last.decisions.stop, last.file.stop, last.kind, last.name, .afterAppendable⟩ ::
        s.tracker.points := by
  have hmoved := h.moved
  have hsize := h.size
  have hcursor := hl.cursor
  have hgrown : t.image.size = s.image.cursor + 4 + 4 := by
    rw [hl.size]
    omega
  obtain ⟨hstack, hchunks, hgate, hpoints⟩ :=
    hl.behind (by decide) h.stack h.lastExit h.lastChunk h.last_decisions hfresh
  rw [joinTouched_spanned (by omega) (by omega) (by omega), ← hgrown] at hstack
  refine ⟨⟨by omega, by omega, hstack, ?_, hgate, ?_, ?_, ?_, ?_⟩, ?_⟩
  · rw [hchunks, Array.toList_modify, h.chunks, List.modify_eq_take_drop]
    simp
  · exact Nat.le_trans (Nat.le_add_right _ _) hl.position
  · have htiles := h.files
    rw [List.map_append] at htiles
    rw [hcursor, List.map_append]
    exact htiles
  · have htiles := h.decisions
    rw [List.map_append] at htiles
    rw [List.map_append]
    exact htiles
  · intro c hc
    rcases List.mem_append.1 hc with hc | hc
    · exact h.inside c (List.mem_append_left _ hc)
    · rw [List.mem_singleton.1 hc]
      exact h.inside last (List.mem_append_right _ (List.mem_singleton.2 rfl))
  · rw [hpoints, h.last_decisions]

theorem next (h : Closed (cs ++ [last]) used s) (hfresh : last.appendable = false)
    (hl : Looked 4 4 s u) (hp : Produced name kind 1 8 u t) :
    ∃ c, Closed (cs ++ [last.followed, c]) (used.bump name) t ∧ c.kind = kind ∧
      c.name = "png" ++ "." ++ instanceName name (used.count name) ∧ c.optional = true ∧
      c.appendable = false ∧
      t.tracker.points.reverse = s.tracker.points.reverse ++ boundary last c := by
  obtain ⟨hrow, hafter⟩ := h.looked hfresh hl
  obtain ⟨hclosed, hbefore⟩ := hrow.child hp
  rw [List.append_assoc] at hclosed
  refine ⟨_, hclosed, rfl, rfl, rfl, rfl, ?_⟩
  have hfile : last.file.stop = u.image.cursor := h.last_file.trans hl.cursor.symm
  rw [if_pos Option.isSome_some, hafter] at hbefore
  rw [hbefore, List.reverse_cons, List.reverse_cons, List.append_assoc, boundary,
    h.last_decisions, hfile]
  rfl

end Closed

def Headed : List (Chunk Kind) → Prop
  | [] => False
  | header :: body =>
    header.kind = .header ∧ header.name = "png.ihdr" ∧ header.optional = false ∧
      header.appendable = true ∧
      ∀ c ∈ body, c.kind ∈ innerKinds ∧ c.optional = true ∧ c.appendable = true

theorem Headed.snoc {c : Chunk Kind} (h : Headed cs) (hkind : c.kind ∈ innerKinds)
    (hoptional : c.optional = true) : Headed (cs ++ [c.followed]) := by
  cases cs with
  | nil => exact h.elim
  | cons header body =>
    obtain ⟨hheader, hname, hflag, hflag', hbody⟩ := h
    refine ⟨hheader, hname, hflag, hflag', ?_⟩
    intro d hd
    rcases List.mem_append.1 hd with hd | hd
    · exact hbody d hd
    · rw [List.mem_singleton.1 hd]
      exact ⟨hkind, hoptional, rfl⟩

/-- Where the loop stands: `last` is the chunk that was closed last, and `front` is what lies
between the signature and it. -/
structure Between (signature : Chunk Kind) (front : List (Chunk Kind)) (last : Chunk Kind)
    (used : NameCounts) (s : State Kind) : Prop where
  closed : Closed (signature :: (front ++ [last])) used s
  unended : used.count "iend" = 0
  fresh : last.appendable = false
  points : s.tracker.points.reverse = boundaries (front ++ [last])
  headed : Headed (front ++ [last.followed])

variable {signature : Chunk Kind} {front : List (Chunk Kind)}

theorem Between.start (h : Row [] [] none s) (hpoints : s.tracker.points = [])
    (hsignature : Produced "signature" .signature 1 8 s u)
    (hheader : Produced "ihdr" .header 1 8 u t) :
    Between (childOf "signature" .signature [] none s u) []
      (childOf "ihdr" .header [("signature", 1)] none u t) [("signature", 1), ("ihdr", 1)] t := by
  obtain ⟨hclosed, hpoints'⟩ := h.child hsignature
  obtain ⟨hclosed', hpoints''⟩ := hclosed.toRow.child hheader
  refine ⟨hclosed', rfl, rfl, ?_, rfl, rfl, rfl, rfl, fun _ hc => (nomatch hc)⟩
  rw [hpoints'', hpoints', hpoints]
  rfl

/-- One round of the loop adds a chunk: an inner one, or the end. -/
theorem Between.round {r : Unit ⊕ Unit} (h : Between signature front last used s)
    (hrun : following.run s = .ok r t) :
    (r = .inl () ∧ ∃ c used', Between signature (front ++ [last.followed]) c used' t) ∨
      (r = .inr () ∧ ∃ finish used',
        Closed (signature :: (front ++ [last.followed] ++ [finish])) used' t ∧
        finish.kind = .finish ∧ finish.name = "png.iend" ∧ finish.optional = true ∧
        finish.appendable = false ∧
        t.tracker.points.reverse = boundaries (front ++ [last.followed] ++ [finish])) := by
  rw [following, run_bind] at hrun
  obtain ⟨type, u, hlook, hchunk⟩ := bind_ok.1 hrun
  have hlooked := Looked.underEvil hlook
  -- The signature is never the last chunk, so it stays in front of all that the loop adds.
  have hclosed : Closed ((signature :: front) ++ [last]) used s := h.closed
  obtain ⟨hrow, -⟩ := hclosed.looked h.fresh hlooked
  rcases chunkOf_produced hrow.cursor_le hchunk with
    ⟨hr, name, kind, hname, hkind, hproduced⟩ | ⟨hr, hproduced⟩
  · obtain ⟨c, hnext, hkind', -, hoptional, hfresh, hpoints⟩ :=
      hclosed.next h.fresh hlooked hproduced
    rw [h.points, ← boundaries_snoc] at hpoints
    refine Or.inl ⟨hr, c, used.bump name, ⟨?_, ?_, hfresh, ?_, ?_⟩⟩
    · rw [List.append_assoc]
      exact hnext
    · rw [NameCounts.count_bump, if_neg (Ne.symm hname), h.unended]
    · rw [List.append_assoc]
      exact hpoints
    · exact h.headed.snoc (hkind' ▸ hkind) hoptional
  · obtain ⟨finish, hnext, hkind, hname, hoptional, hfresh, hpoints⟩ :=
      hclosed.next h.fresh hlooked hproduced
    rw [h.points, ← boundaries_snoc] at hpoints
    rw [h.unended] at hname
    refine Or.inr ⟨hr, ?_⟩
    simp only [List.append_assoc]
    exact ⟨finish, _, hnext, hkind, hname, hoptional, hfresh, hpoints⟩

theorem Between.rounds {a a' : Unit} (hr : Rounds (fun _ => following.run) a s a' t)
    (h : Between signature front last used s) :
    ∃ front last used, Between signature front last used t := by
  induction hr generalizing front last used with
  | here a s => exact ⟨_, _, _, h⟩
  | next hstep _ ih =>
    rcases h.round hstep with ⟨-, c, used', hnext⟩ | ⟨hr, -⟩
    · exact ih hnext
    · cases hr

end Rows

structure Roles (signature header : Chunk Kind) (body : List (Chunk Kind)) (finish : Chunk Kind) :
    Prop where
  kinds : [signature.kind, header.kind, finish.kind] = [.signature, .header, .finish]
  names : [signature.name, header.name, finish.name] = ["png.signature", "png.ihdr", "png.iend"]
  inner : ∀ c ∈ body, c.kind ∈ innerKinds
  optional : (signature :: header :: (body ++ [finish])).map Chunk.optional =
    [false, false] ++ body.map (fun _ => true) ++ [true]
  appendable : (signature :: header :: (body ++ [finish])).map Chunk.appendable =
    [false, true] ++ body.map (fun _ => true) ++ [false]

/-- The signature and the header are read first, then the loop adds chunks up to the end. -/
theorem fileRule_row {s t : State Kind} {a : Unit} (h : Row [] [] none s)
    (hpoints : s.tracker.points = []) (hrun : fileRule.run s = .ok a t) :
    ∃ signature header body finish used,
      Closed (signature :: header :: (body ++ [finish])) used t ∧
      Roles signature header body finish ∧
      t.tracker.points.reverse = boundaries (header :: (body ++ [finish])) := by
  rw [fileRule, run_bind] at hrun
  obtain ⟨_, s1, hsignature, hrun1⟩ := bind_ok.1 hrun
  rw [run_bind] at hrun1
  obtain ⟨_, s2, hheader, hrun2⟩ := bind_ok.1 hrun1
  have hproduced : Produced "signature" .signature 1 8 s s1 := by
    apply Strides.produced h.cursor_le _ hsignature
    intro u _ v hu
    exact (literal_strides 8 signatureBytes).strides hu
  obtain ⟨hclosed, -⟩ := h.child hproduced
  have hproduced' : Produced "ihdr" .header 1 8 s1 s2 := by
    apply Strides.produced hclosed.cursor_le _ hheader
    intro u _ v hu
    exact headerRule_strides.strides hu
  have hbetween := Between.start h hpoints hproduced hproduced'
  rw [run_repeatFrom, get_bind] at hrun2
  obtain ⟨_, s3, hrounds, hlast⟩ := iterate_ends hrun2
  obtain ⟨front, last, used, hend⟩ := hbetween.rounds hrounds
  have hheaded := hend.headed
  rcases hend.round hlast with ⟨hr, -⟩ | ⟨-, finish, used', hdone, hkind, hname, hopt, happ, hpts⟩
  · cases hr
  -- From here on only the row counts, not which of its chunks came last.
  generalize front ++ [last.followed] = row at hheaded hdone hpts
  cases row with
  | nil => exact hheaded.elim
  | cons header body =>
    obtain ⟨hkind', hname', hopt', happ', hbody⟩ := hheaded
    have hoptional : body.map Chunk.optional = body.map fun _ => true :=
      List.map_congr_left fun c hc => (hbody c hc).2.1
    have happendable : body.map Chunk.appendable = body.map fun _ => true :=
      List.map_congr_left fun c hc => (hbody c hc).2.2
    refine ⟨_, header, body, finish, used', hdone, ⟨?_, ?_, ?_, ?_, ?_⟩, hpts⟩
    · rw [hkind', hkind]
      rfl
    · rw [hname', hname]
      rfl
    · exact fun c hc => (hbody c hc).1
    · simp [hopt', hopt, hoptional, childOf]
    · simp [happ', happ, happendable, childOf]

structure Layout (w : Walk Kind) (signature header : Chunk Kind) (body : List (Chunk Kind))
    (finish : Chunk Kind) : Prop extends Roles signature header body finish where
  chunks : w.chunks =
    root w.file.length w.decisions.length :: signature :: header :: (body ++ [finish])
  inside : ∀ c ∈ signature :: header :: (body ++ [finish]), c.depth = 1 ∧ c.parent = some 0
  files : Tiles 0 ((signature :: header :: (body ++ [finish])).map Chunk.file) w.file.length
  decisions : Tiles 0 ((signature :: header :: (body ++ [finish])).map Chunk.decisions)
    w.decisions.length
  points : w.points = boundaries (header :: (body ++ [finish]))

theorem Row.start {s : State Kind} {maxDepth : Nat}
    (htracker : s.tracker = (Tracker.empty maxDepth).opened "png" .file 0 0)
    (hposition : s.stream.position = 0) (hcursor : s.image.cursor = 0) (hsize : s.image.size = 0) :
    Row [] [] none s ∧ s.tracker.points = [] := by
  refine ⟨⟨?_, ?_, ?_, ?_, ?_, Nat.le_refl _, hcursor.symm, hposition.symm, ?_⟩, ?_⟩
  · omega
  · omega
  · rw [htracker, hsize]
    rfl
  · rw [htracker]
    rfl
  · rw [htracker]
    rfl
  · exact fun _ hc => (nomatch hc)
  · rw [htracker]
    rfl

theorem Closed.rooted {cs : List (Chunk Kind)} {used : NameCounts} {s : State Kind}
    (h : Closed cs used s) : (s.tracker.closed s.stream.position s.image.cursor).stack = [] ∧
      (s.tracker.closed s.stream.position s.image.cursor).chunks.toList =
        root s.image.size s.stream.position :: cs ∧
      (s.tracker.closed s.stream.position s.image.cursor).points = s.tracker.points := by
  have hmoved := h.moved
  have hsize := h.size
  rw [Tracker.closed_eq h.stack, spanned_pos (by omega)]
  refine ⟨rfl, ?_, rfl⟩
  rw [Array.toList_modify, h.chunks]
  rfl

/-- From a fresh state on, the file leaves nothing open and the chunk map complete. -/
theorem file_layout {s t : State Kind} {maxDepth : Nat}
    (hrun : (inScope "png" .file fileRule).run s = .ok () t)
    (htracker : s.tracker = .empty maxDepth) (hposition : s.stream.position = 0)
    (hcursor : s.image.cursor = 0) (hsize : s.image.size = 0) : t.tracker.depth = 0 ∧
      (t.image.output.length = t.image.size →
        ∃ signature header body finish, Layout t.walked signature header body finish) := by
  rw [run_inScope] at hrun
  obtain ⟨depth, s1, hopen, hrun1⟩ := bind_ok.1 hrun
  obtain ⟨_, s2, hfile, hrun2⟩ := bind_ok.1 hrun1
  obtain ⟨_, s3, hclose, hend⟩ := bind_ok.1 hrun2
  cases hend
  obtain ⟨opening, hs1⟩ := openScope_opened hopen
  obtain ⟨closing, stream, hpast, rfl⟩ := closeScope_closed hclose
  have hopened : s1.tracker = (Tracker.empty maxDepth).opened "png" .file 0 0 := by
    rw [hs1, ← htracker]
    show s.tracker.opened "png" .file s.stream.position s.image.cursor = _
    rw [hposition, hcursor]
  obtain ⟨hrow, hpoints⟩ := Row.start hopened (hs1 ▸ hposition) (hs1 ▸ hcursor) (hs1 ▸ hsize)
  obtain ⟨signature, header, body, finish, used, hclosed, hroles, hboundaries⟩ :=
    fileRule_row hrow hpoints hfile
  obtain ⟨hstack, hchunks, hpoints'⟩ := hclosed.rooted
  refine ⟨congrArg List.length hstack, fun hlength => ⟨signature, header, body, finish, ?_⟩⟩
  have hdecisions : stream.consumed.length = s2.stream.position := by
    rw [Stream.consumed, hpast]
    exact Array.length_toList
  have hfiles : s2.image.output.length = s2.image.cursor := hlength.trans hclosed.size
  refine ⟨hroles, ?_, hclosed.inside, ?_, ?_, ?_⟩
  · show _ = root s2.image.output.length stream.consumed.length :: _
    rw [hlength, hdecisions]
    exact hchunks
  · show Tiles 0 _ s2.image.output.length
    rw [hfiles]
    exact hclosed.files
  · show Tiles 0 _ stream.consumed.length
    rw [hdecisions]
    exact hclosed.decisions
  · have htiles := hclosed.decisions.2.2
    show List.mergeSort (Tracker.closed _ _ _).points.reverse _ = _
    rw [hpoints', hboundaries]
    exact List.mergeSort_of_pairwise (boundaries_sorted htiles).1

/-- Every PNG walk that succeeds, from decisions or from a file, finds this chunk map. -/
theorem png_layout {limits : Limits} {origin : Origin} {watches ws : List (Watch Kind)}
    {w : Walk Kind} (h : (png.grammar.runFrom limits origin watches).outcome = .ok (w, ws)) :
    ∃ signature header body finish, Layout w signature header body finish := by
  rw [runFrom] at h
  cases hseed : seed origin (State.empty limits : State Kind) with
  | error e s =>
    rw [hseed] at h
    cases h
  | ok _ seeded =>
    rw [hseed] at h
    have hwalk : (conclude (png.grammar.run { seeded with watches := watches })).outcome.map
        Prod.fst = .ok w := by
      rw [h]
      rfl
    obtain ⟨t, ws', hrun, hfinish⟩ := conclude_ok (grammar_stops (by decide)) hwalk
    obtain ⟨htracker, hposition, hcursor, hsize⟩ := seed_start hseed
    have hscope : (inScope "png" .file fileRule).run
        { seeded with watches := watches, endian := .big } = .ok () t := hrun
    obtain ⟨hdepth, hlayout⟩ := file_layout hscope htracker hposition hcursor hsize
    have hkept := run_kept hrun
    have hcoherent := hkept.coherent (seed_seeded hseed).coherent
    obtain ⟨hcovered, -⟩ := (State.finish_iff _ _).1 hfinish
    rw [State.finish_walked t hdepth, if_pos hcovered] at hfinish
    cases hfinish
    exact hlayout (hcoherent.output_length hcovered)

theorem png_layout_labelled :
    ∃ w ws signature header body finish,
      (png.grammar.runFrom {} (.input labelled) []).outcome = .ok (w, ws) ∧
      w.chunks.map Chunk.kind = [.file, .signature, .header, .text, .finish] ∧
      Layout w signature header body finish := by
  have hrun : (png.grammar.runFrom {} (.input labelled) []).outcome.toOption.any
      (fun v => v.1.chunks.map Chunk.kind == [.file, .signature, .header, .text, .finish]) =
        true := by
    decide +kernel
  obtain ⟨⟨w, ws⟩, h, hkinds⟩ := ok_of_any hrun
  obtain ⟨signature, header, body, finish, hlayout⟩ := png_layout h
  exact ⟨w, ws, signature, header, body, finish, h, eq_of_beq hkinds, hlayout⟩

end Png

end DecisionWalk
