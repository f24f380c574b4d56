import DecisionWalk.Tracker

/-!
# Trackers of two walks over one file

A replayed walk keeps its tracker but for the depth that it is allowed. A walk
that records other decisions for the same file keeps the shape of its tracker:
all that is not a place in the decisions.
-/

set_option autoImplicit false

namespace DecisionWalk

variable {K : Type}

def Chunk.shape (c : Chunk K) : Chunk K := { c with decisions := ⟨0, 0⟩ }

def OpenProduction.shape (o : OpenProduction) : OpenProduction := { o with start := 0 }

theorem shape_option {x y : Option (Chunk K)} (h : x.map Chunk.shape = y.map Chunk.shape) :
    x = none ∧ y = none ∨ ∃ c d, x = some c ∧ y = some d ∧ c.shape = d.shape := by
  cases x with
  | none => exact Or.inl ⟨rfl, Option.map_eq_none_iff.1 h.symm⟩
  | some c =>
    obtain ⟨d, hd, hs⟩ := Option.map_eq_some_iff.1 h.symm
    exact Or.inr ⟨c, d, rfl, hd, hs.symm⟩

theorem shape_update {x y : Option (Chunk K)} {f g : Chunk K → Chunk K}
    (h : x.map Chunk.shape = y.map Chunk.shape)
    (hfg : ∀ c d : Chunk K, c.shape = d.shape → (f c).shape = (g d).shape) :
    (x.map f).map Chunk.shape = (y.map g).map Chunk.shape := by
  rcases shape_option h with ⟨rfl, rfl⟩ | ⟨c, d, rfl, rfl, hs⟩
  · rfl
  · exact congrArg some (hfg c d hs)

theorem NameCounts.count_cons (n : String) (k : Nat) (counts : NameCounts) (name : String) :
    NameCounts.count ((n, k) :: counts) name = if name = n then k else counts.count name := by
  rw [count, List.lookup_cons]
  split
  · rename_i h
    rw [if_pos (eq_of_beq h)]
    rfl
  · rename_i h
    rw [if_neg (ne_of_beq_false h)]
    rfl

theorem NameCounts.count_bump (counts : NameCounts) (name other : String) :
    (counts.bump name).count other = counts.count other + if other = name then 1 else 0 := by
  induction counts with
  | nil =>
    rw [bump, count_cons]
    exact (Nat.zero_add _).symm
  | cons entry rest ih =>
    obtain ⟨n, k⟩ := entry
    rw [bump]
    by_cases hn : n = name
    · rw [if_pos hn, count_cons, count_cons, hn]
      split <;> rfl
    · rw [if_neg hn, count_cons, count_cons, ih]
      by_cases ho : other = n
      · rw [if_pos ho, if_pos ho, if_neg (ho ▸ hn), Nat.add_zero]
      · rw [if_neg ho, if_neg ho]

namespace Tracker

theorem absorb_length (touched : Option Span) (rest : List OpenProduction) :
    (absorb touched rest).length = rest.length := by
  cases rest with
  | nil => rfl
  | cons parent rest => cases touched <;> rfl

section Depth

variable (t : Tracker K)

@[simp] theorem touch_depth (span : Span) : (t.touch span).depth = t.depth := by
  rw [touch]
  split
  · rfl
  · cases h : t.stack <;> simp [depth, h]

@[simp] theorem opened_depth (name : String) (kind : K) (position cursor : Nat) :
    (t.opened name kind position cursor).depth = t.depth + 1 := by
  cases h : t.stack <;> simp [opened, countChild, depth, h]

@[simp] theorem closed_depth (position cursor : Nat) :
    (t.closed position cursor).depth = t.depth - 1 := by
  rw [closed]
  cases h : t.stack with
  | nil => simp [depth, h]
  | cons top rest => simp [depth, h, absorb_length]

@[simp] theorem lookahead_depth (decisions : Span) :
    (t.lookahead decisions).depth = t.depth := by
  rw [lookahead]
  split <;> rfl

@[simp] theorem touch_maxDepth (span : Span) : (t.touch span).maxDepth = t.maxDepth := by
  rw [touch]
  split
  · rfl
  · cases h : t.stack <;> rfl

@[simp] theorem opened_maxDepth (name : String) (kind : K) (position cursor : Nat) :
    (t.opened name kind position cursor).maxDepth = t.maxDepth := by
  cases h : t.stack <;> simp [opened, countChild, h]

@[simp] theorem closed_maxDepth (position cursor : Nat) :
    (t.closed position cursor).maxDepth = t.maxDepth := by
  rw [closed]
  cases h : t.stack <;> rfl

@[simp] theorem lookahead_maxDepth (decisions : Span) :
    (t.lookahead decisions).maxDepth = t.maxDepth := by
  rw [lookahead]
  split <;> rfl

end Depth

def limited (t : Tracker K) (n : Nat) : Tracker K := { t with maxDepth := n }

section Limited

variable (t : Tracker K) (n : Nat)

theorem limited_touch (span : Span) : (t.limited n).touch span = (t.touch span).limited n := by
  rw [touch, touch]
  split
  · rfl
  · cases h : t.stack <;> simp [limited, h]

theorem limited_opened (name : String) (kind : K) (position cursor : Nat) :
    (t.limited n).opened name kind position cursor =
      (t.opened name kind position cursor).limited n := by
  cases t with
  | mk stack chunks lastExit points gate roots maxDepth => cases stack <;> rfl

theorem limited_closed (position cursor : Nat) :
    (t.limited n).closed position cursor = (t.closed position cursor).limited n := by
  cases t with
  | mk stack chunks lastExit points gate roots maxDepth => cases stack <;> rfl

theorem limited_lookahead (decisions : Span) :
    (t.limited n).lookahead decisions = (t.lookahead decisions).limited n := by
  have h : (t.limited n).appendableAt decisions.start = t.appendableAt decisions.start := rfl
  rw [lookahead, lookahead, h]
  split <;> rfl

end Limited

structure Alike (p q : Nat) (t u : Tracker K) : Prop where
  stack : t.stack.map OpenProduction.shape = u.stack.map OpenProduction.shape
  chunks : ∀ i : Nat, t.chunks[i]?.map Chunk.shape = u.chunks[i]?.map Chunk.shape
  chunks_size : t.chunks.size = u.chunks.size
  lastExit : t.lastExit = u.lastExit
  roots : t.roots = u.roots
  maxDepth : t.maxDepth = u.maxDepth
  gate : (t.gateAt p).isSome = (u.gateAt q).isSome
  gate_le : (∀ g, t.gate = some g → g.stop ≤ p) ∧ ∀ g, u.gate = some g → g.stop ≤ q
  exit : ∀ slot c d, t.lastExit = some slot → t.chunks[slot]? = some c →
    u.chunks[slot]? = some d →
    c.decisions.stop ≤ p ∧ d.decisions.stop ≤ q ∧
      (c.decisions.stop = p ↔ d.decisions.stop = q)

theorem Alike.depth {p q : Nat} {t u : Tracker K} (h : Alike p q t u) : t.depth = u.depth := by
  have := congrArg List.length h.stack
  simpa [Tracker.depth] using this

theorem gateAt_later (t : Tracker K) (p n : Nat) (h : ∀ g, t.gate = some g → g.stop ≤ p)
    (hn : n ≠ 0) : t.gateAt (p + n) = none := by
  rw [gateAt, Option.filter_eq_none_iff]
  intro g hg
  have := h g hg
  simp
  omega

/-- Both streams move, or neither does. -/
theorem Alike.moved {p q a b : Nat} {t u : Tracker K} (h : Alike p q t u)
    (hab : a = 0 ↔ b = 0) : Alike (p + a) (q + b) t u := by
  refine { h with gate := ?_, gate_le := ?_, exit := ?_ }
  · by_cases ha : a = 0
    · rw [ha, hab.1 ha]
      exact h.gate
    · rw [gateAt_later t p a h.gate_le.1 ha,
        gateAt_later u q b h.gate_le.2 fun hb => ha (hab.2 hb)]
  · constructor
    · intro g hg
      have := h.gate_le.1 g hg
      omega
    · intro g hg
      have := h.gate_le.2 g hg
      omega
  · intro slot c d hs hc hd
    obtain ⟨h1, h2, h3⟩ := h.exit slot c d hs hc hd
    refine ⟨by omega, by omega, ?_⟩
    by_cases ha : a = 0
    · rw [ha, hab.1 ha]
      exact h3
    · have hb : b ≠ 0 := fun hb => ha (hab.2 hb)
      constructor
      · intro hp
        omega
      · intro hq
        omega

theorem shape_cons {top : OpenProduction} {rest : List OpenProduction} {other : List OpenProduction}
    (h : (top :: rest).map OpenProduction.shape = other.map OpenProduction.shape) :
    ∃ top' rest', other = top' :: rest' ∧ top.path = top'.path ∧ top.slot = top'.slot ∧
      top.touched = top'.touched ∧ top.children = top'.children ∧
      rest.map OpenProduction.shape = rest'.map OpenProduction.shape := by
  cases other with
  | nil => cases h
  | cons top' rest' =>
    rw [List.map_cons, List.map_cons, List.cons.injEq] at h
    obtain ⟨ht, hr⟩ := h
    simp only [OpenProduction.shape, OpenProduction.mk.injEq] at ht
    exact ⟨top', rest', rfl, ht.1, ht.2.1, ht.2.2.2.1, ht.2.2.2.2, hr⟩

theorem Alike.touch {p q : Nat} {t u : Tracker K} (h : Alike p q t u) (span : Span) :
    Alike p q (t.touch span) (u.touch span) := by
  rw [Tracker.touch, Tracker.touch]
  split
  · exact h
  · have hst := h.stack
    cases ht : t.stack with
    | nil =>
      have hu : u.stack = [] := by simpa [ht] using hst
      simp only [hu]
      exact h
    | cons top rest =>
      rw [ht] at hst
      obtain ⟨top', rest', hu, h1, h2, h3, h4, h5⟩ := shape_cons hst
      simp only [hu]
      refine { h with stack := ?_ }
      simp only [List.map_cons, OpenProduction.shape, h1, h2, h3, h4]
      congr 1

theorem Alike.siblings {p q : Nat} {t u : Tracker K} (h : Alike p q t u) :
    t.siblings = u.siblings := by
  have hst := h.stack
  cases ht : t.stack with
  | nil =>
    have hu : u.stack = [] := by simpa [ht] using hst
    simp [Tracker.siblings, ht, hu, h.roots]
  | cons top rest =>
    rw [ht] at hst
    obtain ⟨top', rest', hu, h1, h2, h3, h4, h5⟩ := shape_cons hst
    simp [Tracker.siblings, ht, hu, h4]

theorem Alike.childPath {p q : Nat} {t u : Tracker K} (h : Alike p q t u) (name : String) :
    t.childPath name = u.childPath name := by
  have hst := h.stack
  cases ht : t.stack with
  | nil =>
    have hu : u.stack = [] := by simpa [ht] using hst
    simp [Tracker.childPath, ht, hu, h.siblings]
  | cons top rest =>
    rw [ht] at hst
    obtain ⟨top', rest', hu, h1, h2, h3, h4, h5⟩ := shape_cons hst
    simp [Tracker.childPath, ht, hu, h.siblings, h1]

theorem Alike.parent {p q : Nat} {t u : Tracker K} (h : Alike p q t u) :
    t.stack.head?.map OpenProduction.slot = u.stack.head?.map OpenProduction.slot := by
  have hst := h.stack
  cases ht : t.stack with
  | nil =>
    have hu : u.stack = [] := by simpa [ht] using hst
    simp [hu]
  | cons top rest =>
    rw [ht] at hst
    obtain ⟨top', rest', hu, h1, h2, h3, h4, h5⟩ := shape_cons hst
    simp [hu, h2]

theorem Alike.countChild {p q : Nat} {t u : Tracker K} (h : Alike p q t u) (name : String) :
    Alike p q (t.countChild name) (u.countChild name) := by
  have hst := h.stack
  rw [Tracker.countChild, Tracker.countChild]
  cases ht : t.stack with
  | nil =>
    have hu : u.stack = [] := by simpa [ht] using hst
    simp only [hu]
    exact { h with stack := rfl, roots := congrArg (·.bump name) h.roots }
  | cons top rest =>
    rw [ht] at hst
    obtain ⟨top', rest', hu, h1, h2, h3, h4, h5⟩ := shape_cons hst
    simp only [hu]
    refine { h with stack := ?_ }
    simp only [List.map_cons, OpenProduction.shape, h1, h2, h3, h4]
    congr 1

theorem countChild_chunks (t : Tracker K) (name : String) :
    (t.countChild name).chunks = t.chunks := by
  rw [countChild]
  split <;> rfl

theorem opened_gate {t : Tracker K} {name : String} {kind : K} {position cursor : Nat} {g : Span}
    (h : (t.opened name kind position cursor).gate = some g) :
    t.gate = some g ∧ g.stop ≠ position := by
  have hg : (if (t.entering position).optional then none else t.gate) = some g := h
  cases ho : (t.entering position).optional with
  | true => simp [ho] at hg
  | false =>
    rw [ho, if_neg (by decide)] at hg
    refine ⟨hg, ?_⟩
    intro hp
    simp [entering, gateAt, hg, hp] at ho

theorem opened_gateAt (t : Tracker K) (name : String) (kind : K) (position cursor : Nat) :
    (t.opened name kind position cursor).gateAt position = none := by
  rw [gateAt, Option.filter_eq_none_iff]
  intro g hg
  simpa using (opened_gate hg).2

theorem Alike.opened {p q : Nat} {t u : Tracker K} (h : Alike p q t u) (name : String) (kind : K)
    (cursor : Nat) : Alike p q (t.opened name kind p cursor) (u.opened name kind q cursor) := by
  have hc := h.countChild name
  have hopt : (t.entering p).optional = (u.entering q).optional := h.gate
  have hslot : (t.entering p).slot = (u.entering q).slot := h.chunks_size
  constructor
  · simp only [Tracker.opened, List.map_cons, hc.stack, OpenProduction.shape, h.childPath, hslot]
  · intro i
    simp only [Tracker.opened, countChild_chunks, Array.getElem?_push, h.chunks_size]
    split
    · have hlen := h.depth
      rw [Tracker.depth, Tracker.depth] at hlen
      simp [Chunk.shape, h.childPath, hopt, hlen, h.parent]
    · exact h.chunks i
  · simp [Tracker.opened, countChild_chunks, h.chunks_size]
  · rfl
  · exact hc.roots
  · exact hc.maxDepth
  · rw [opened_gateAt, opened_gateAt]
  · constructor
    · intro g hg
      exact h.gate_le.1 g (opened_gate hg).1
    · intro g hg
      exact h.gate_le.2 g (opened_gate hg).1
  · intro slot c d hs
    cases hs

theorem absorb_shape (touched : Option Span) {rest rest' : List OpenProduction}
    (h : rest.map OpenProduction.shape = rest'.map OpenProduction.shape) :
    (absorb touched rest).map OpenProduction.shape =
      (absorb touched rest').map OpenProduction.shape := by
  cases rest with
  | nil =>
    have hr : rest' = [] := by simpa using h
    rw [hr]
  | cons parent rest =>
    obtain ⟨parent', rest', rfl, h1, h2, h3, h4, h5⟩ := shape_cons h
    cases touched with
    | none => exact h
    | some span =>
      simp only [absorb, List.map_cons, OpenProduction.shape, h1, h2, h3, h4]
      congr 1

theorem Alike.closed {p q : Nat} {t u : Tracker K} (h : Alike p q t u) (cursor : Nat) :
    Alike p q (t.closed p cursor) (u.closed q cursor) := by
  have hst := h.stack
  rw [Tracker.closed, Tracker.closed]
  cases ht : t.stack with
  | nil =>
    have hu : u.stack = [] := by simpa [ht] using hst
    simp only [hu]
    exact h
  | cons top rest =>
    rw [ht] at hst
    obtain ⟨top', rest', hu, h1, h2, h3, h4, h5⟩ := shape_cons hst
    simp only [hu]
    constructor
    · rw [h3]
      exact absorb_shape _ h5
    · intro i
      have hi := h.chunks i
      simp only [Array.getElem?_modify, h2, h3]
      split
      · apply shape_update hi
        intro c d hs
        simp only [Chunk.shape, Chunk.mk.injEq] at hs ⊢
        simp [hs]
      · exact hi
    · simp [h.chunks_size]
    · simp [h2]
    · exact h.roots
    · exact h.maxDepth
    · exact h.gate
    · exact h.gate_le
    · intro slot c d hs hc hd
      cases hs
      simp only [Array.getElem?_modify, if_true, h2, Option.map_eq_some_iff] at hc hd
      obtain ⟨_, _, rfl⟩ := hc
      obtain ⟨_, _, rfl⟩ := hd
      exact ⟨Nat.le_refl p, Nat.le_refl q, iff_of_true rfl rfl⟩

/-- The same production is found appendable by both trackers. -/
theorem Alike.closeAll {p q : Nat} {t u : Tracker K} (h : Alike p q t u) (cursor : Nat) :
    Alike p q (t.closeAll p cursor) (u.closeAll q cursor) := by
  have hrepeat : ∀ n, Alike p q (Nat.repeat (·.closed p cursor) n t)
      (Nat.repeat (·.closed q cursor) n u) := by
    intro n
    induction n with
    | zero => exact h
    | succ n ih => exact ih.closed cursor
  rw [Tracker.closeAll, Tracker.closeAll, h.depth]
  exact hrepeat u.depth

theorem Alike.shapes {p q : Nat} {t u : Tracker K} (h : Alike p q t u) :
    u.chunks.toList.map Chunk.shape = t.chunks.toList.map Chunk.shape := by
  apply List.ext_getElem?
  intro i
  rw [List.getElem?_map, List.getElem?_map, Array.getElem?_toList, Array.getElem?_toList]
  exact (h.chunks i).symm

theorem Alike.appendable {p q : Nat} {t u : Tracker K} (h : Alike p q t u) :
    (t.appendableAt p).map Prod.fst = (u.appendableAt q).map Prod.fst := by
  rw [appendableAt, appendableAt, ← h.lastExit]
  cases hs : t.lastExit with
  | none => rfl
  | some slot =>
    rcases shape_option (h.chunks slot) with ⟨hc, hd⟩ | ⟨c, d, hc, hd, hshape⟩
    · simp [hc, hd]
    · have hstop := (h.exit slot c d hs hc hd).2.2
      have happ : c.appendable = d.appendable := by
        simp only [Chunk.shape, Chunk.mk.injEq] at hshape
        exact hshape.2.2.2.2.2.2.1
      have hbeq : (c.decisions.stop == p) = (d.decisions.stop == q) := by
        rw [Bool.eq_iff_iff, beq_iff_eq, beq_iff_eq]
        exact hstop
      simp only [hc, hd, Option.bind_some, Option.filter_some, hbeq, happ]
      split <;> rfl

theorem lookahead_chunks (t : Tracker K) (d : Span) (i : Nat) :
    (t.lookahead d).chunks[i]? =
      if (t.appendableAt d.start).map Prod.fst = some i then
        t.chunks[i]?.map fun c => { c with appendable := true }
      else t.chunks[i]? := by
  rw [lookahead]
  cases h : t.appendableAt d.start with
  | none => simp
  | some found => simp [Array.getElem?_modify]

theorem lookahead_stack (t : Tracker K) (d : Span) : (t.lookahead d).stack = t.stack := by
  rw [lookahead]
  split <;> rfl

theorem lookahead_chunks_size (t : Tracker K) (d : Span) :
    (t.lookahead d).chunks.size = t.chunks.size := by
  rw [lookahead]
  split <;> simp

theorem lookahead_lastExit (t : Tracker K) (d : Span) : (t.lookahead d).lastExit = none := by
  rw [lookahead]
  split <;> rfl

theorem lookahead_gate (t : Tracker K) (d : Span) : (t.lookahead d).gate = some d := by
  rw [lookahead]
  split <;> rfl

theorem lookahead_roots (t : Tracker K) (d : Span) : (t.lookahead d).roots = t.roots := by
  rw [lookahead]
  split <;> rfl

theorem Alike.lookahead {p q a b : Nat} {t u : Tracker K} (h : Alike p q t u) :
    Alike (p + a) (q + b) (t.lookahead ⟨p, p + a⟩) (u.lookahead ⟨q, q + b⟩) := by
  constructor
  · rw [lookahead_stack, lookahead_stack]
    exact h.stack
  · intro i
    have hi := h.chunks i
    rw [lookahead_chunks, lookahead_chunks, h.appendable]
    split
    · apply shape_update hi
      intro c d hs
      simp only [Chunk.shape, Chunk.mk.injEq] at hs ⊢
      simp [hs]
    · exact hi
  · rw [lookahead_chunks_size, lookahead_chunks_size, h.chunks_size]
  · rw [lookahead_lastExit, lookahead_lastExit]
  · rw [lookahead_roots, lookahead_roots, h.roots]
  · rw [lookahead_maxDepth, lookahead_maxDepth, h.maxDepth]
  · simp [gateAt, lookahead_gate]
  · constructor
    · intro g hg
      rw [lookahead_gate] at hg
      cases hg
      exact Nat.le_refl _
    · intro g hg
      rw [lookahead_gate] at hg
      cases hg
      exact Nat.le_refl _
  · intro slot c d hs
    rw [lookahead_lastExit] at hs
    cases hs

end Tracker

end DecisionWalk
