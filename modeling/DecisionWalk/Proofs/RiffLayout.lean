import DecisionWalk.Proofs.Points
import DecisionWalk.Proofs.RiffChunks

/-!
# The chunk map of a RIFF file

The container touches its header itself, and each chunk inside it the bytes that
it covers. What a look in front of a chunk touches lies inside that chunk, and the
look's decisions count to it. So the chunks of the container lie behind the header
without a gap, and what the container touches reaches as far as the cursor does.
-/

set_option autoImplicit false

namespace DecisionWalk.Riff

open Walker Grammar

def root (n m : Nat) : Chunk Kind where
  name := "riff"
  kind := .container
  file := ⟨0, n⟩
  decisions := ⟨0, m⟩
  optional := false
  appendable := false
  depth := 0
  parent := none

/-- Inside the container, behind the chunks `cs`, with the names `used` among them. A look may have
been taken at the next chunk, from the decision `look` on. -/
structure Row (cs : List (Chunk Kind)) (used : NameCounts) (look : Option Nat) (s : State Kind) :
    Prop where
  cursor_le : s.image.cursor ≤ s.image.size
  size_le : s.image.size ≤ s.image.cursor + 4
  stack : s.tracker.stack = [⟨"riff", 0, 0, some ⟨0, s.image.size⟩, used⟩]
  chunks : s.tracker.chunks.toList = root 0 0 :: cs
  gate : s.tracker.gate = look.map fun p => ⟨p, s.stream.position⟩

structure Closed (cs : List (Chunk Kind)) (used : NameCounts) (s : State Kind) : Prop
    extends Row cs used none s where
  size : s.image.size = s.image.cursor
  lastExit : s.tracker.lastExit = some cs.length

def childOf (name : String) (kind : Kind) (used : NameCounts) (look : Option Nat)
    (s t : State Kind) : Chunk Kind where
  name := "riff" ++ "." ++ instanceName name (used.count name)
  kind := kind
  file := ⟨s.image.cursor, t.image.cursor⟩
  decisions := ⟨look.getD s.stream.position, t.stream.position⟩
  optional := look.isSome
  appendable := false
  depth := 1
  parent := some 0

structure Peeked (n : Nat) (s t : State Kind) : Prop where
  cursor : t.image.cursor = s.image.cursor
  size : t.image.size = s.image.cursor + n
  tracker : t.tracker = (s.tracker.touch ⟨s.image.cursor, s.image.cursor + n⟩).lookahead
    ⟨s.stream.position, t.stream.position⟩

section Rows

variable {cs : List (Chunk Kind)} {used : NameCounts} {look : Option Nat} {last : Chunk Kind}
  {name : String} {kind : Kind} {s t : State Kind} {n : Nat}

namespace Row

theorem entering (h : Row cs used look s) : s.tracker.entering s.stream.position =
    ⟨s.tracker.chunks.size, look.getD s.stream.position, look.isSome⟩ := by
  cases look <;> simp [Tracker.entering, Tracker.gateAt, h.gate, Option.filter]

theorem childPath (h : Row cs used look s) (name : String) :
    s.tracker.childPath name = "riff" ++ "." ++ instanceName name (used.count name) := by
  simp [Tracker.childPath, Tracker.siblings, h.stack]

theorem product (h : Row cs used look s) (name : String) (kind : Kind) (t : State Kind) :
    s.product t name kind = childOf name kind used look s t := by
  simp [State.product, Tracker.fresh, childOf, h.entering, h.childPath, h.stack]

theorem opened_gate (h : Row cs used look s) (name : String) (kind : Kind) :
    (s.tracker.opened name kind s.stream.position s.image.cursor).gate = none := by
  apply Option.eq_none_iff_forall_ne_some.2
  intro g hg
  obtain ⟨hgate, hne⟩ := Tracker.opened_gate hg
  rw [h.gate] at hgate
  obtain ⟨p, -, rfl⟩ := Option.map_eq_some_iff.1 hgate
  exact hne rfl

theorem joined (h : Row cs used look s) {c : Nat} (hc : s.image.size ≤ c) :
    Tracker.joinTouched (some ⟨0, s.image.size⟩) ⟨s.image.cursor, c⟩ = some ⟨0, c⟩ := by
  have hcursor := h.cursor_le
  simp [Tracker.joinTouched, Span.hull, hc]

/-- A production is one more chunk of the row. -/
theorem child (h : Row cs used look s) (hp : Produced name kind 1 4 s t) :
    Closed (cs ++ [childOf name kind used look s t]) (used.bump name) t ∧
      t.tracker.points = if look.isSome then
        ⟨look.getD s.stream.position, s.image.cursor, kind,
          (childOf name kind used look s t).name, .beforeOptional⟩ :: s.tracker.points
        else s.tracker.points := by
  have hcursor := hp.cursor
  have hsize_le := h.size_le
  have hsize : t.image.size = t.image.cursor := by
    rw [hp.size]
    omega
  have hlength : s.tracker.chunks.size = cs.length + 1 := by
    rw [← Array.length_toList, h.chunks, List.length_cons]
  obtain ⟨hstack, hchunks, hexit, hgate, hpoints⟩ := hp.within (by decide) h.stack
  rw [h.opened_gate] at hgate
  rw [h.product] at hchunks
  rw [h.joined (by omega), ← hsize] at hstack
  refine ⟨⟨⟨Nat.le_of_eq hsize.symm, by omega, hstack, ?_, hgate⟩, hsize, ?_⟩, ?_⟩
  · rw [hchunks, Array.toList_push, h.chunks, List.cons_append]
  · rw [hexit, hlength, List.length_append, List.length_singleton]
  · rw [hpoints, Tracker.opened_points, h.entering, h.childPath]
    rfl

end Row

theorem Closed.lastChunk (h : Closed (cs ++ [last]) used s) :
    s.tracker.chunks[(cs ++ [last]).length]? = some last := by
  rw [← Array.getElem?_toList, h.chunks]
  simp

/-- A look behind the last chunk makes it appendable. -/
theorem Closed.peeked (h : Closed (cs ++ [last]) used s) (hfresh : last.appendable = false)
    (hstop : last.decisions.stop = s.stream.position) (hn : n ≤ 4) (hp : Peeked n s t) :
    Row (cs ++ [last.followed]) used (some s.stream.position) t ∧ t.tracker.points =
      ⟨s.stream.position, last.file.stop, last.kind, last.name, .afterAppendable⟩ ::
        s.tracker.points := by
  have hsize := h.size
  have hcursor := hp.cursor
  have hgrown := hp.size
  have htouch : (s.tracker.touch ⟨s.image.cursor, s.image.cursor + n⟩) =
      { s.tracker with stack := [⟨"riff", 0, 0, some ⟨0, t.image.size⟩, used⟩] } := by
    have hstack := h.stack
    by_cases hzero : n = 0
    · subst hzero
      have hsame : t.image.size = s.image.size := by omega
      rw [Nat.add_zero, Tracker.touch_empty, hsame, ← hstack]
    · have hspan : s.image.cursor < s.image.cursor + n := by omega
      rw [Tracker.touch_cons hstack ⟨_, _⟩ hspan, h.joined (by omega), ← hgrown]
  have htracker := hp.tracker
  rw [htouch] at htracker
  have hmade := htracker.trans (Tracker.lookahead_found h.lastExit h.lastChunk hstop hfresh)
  refine ⟨⟨by omega, by omega, by rw [hmade], ?_, by rw [hmade]; rfl⟩, by rw [hmade]⟩
  rw [hmade]
  show (s.tracker.chunks.modify _ _).toList = _
  rw [Array.toList_modify, h.chunks, List.modify_eq_take_drop]
  simp

theorem Row.rooted (h : Row cs used look s) :
    (s.tracker.closed s.stream.position s.image.cursor).stack = [] ∧
      (s.tracker.closed s.stream.position s.image.cursor).chunks.toList =
        root s.image.size s.stream.position :: cs ∧
      (s.tracker.closed s.stream.position s.image.cursor).points = s.tracker.points := by
  rw [Tracker.closed_eq h.stack]
  refine ⟨rfl, ?_, rfl⟩
  rw [Array.toList_modify, h.chunks]
  rfl

theorem Row.start {maxDepth : Nat} (hs : s.tracker = (Tracker.empty maxDepth).opened "riff"
    .container 0 0) (hcursor : s.image.cursor = 0) (hsize : s.image.size = 0)
    (hstrides : Strides 0 12 s t) (hend : t.image.cursor = 12) :
    Row [] [] none t ∧ t.tracker.points = [] := by
  have hgrown := hstrides.size
  have htracker := hstrides.tracker
  have hopened : s.tracker.stack = [⟨"riff", 0, 0, none, []⟩] := by
    rw [hs]
    rfl
  rw [hcursor, hend, Tracker.touch_cons hopened ⟨0, 12⟩ (by decide)] at htracker
  have htwelve : t.image.size = 12 := by omega
  refine ⟨⟨by omega, by omega, ?_, ?_, ?_⟩, ?_⟩
  · rw [htracker, htwelve]
    rfl
  · rw [htracker, hs]
    rfl
  · rw [htracker, hs]
    rfl
  · rw [htracker, hs]
    rfl

end Rows

end DecisionWalk.Riff
