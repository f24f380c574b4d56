import DecisionWalk.Proofs.Nesting

/-!
# Insertion points and the flags of chunks

An insertion point is found when an optional production is opened, and when a
lookahead follows a production that has just been closed. The flag of the chunk
is set in the same step, while the range of the chunk may be settled before it or
long after. The labels of the points are a permutation of those that the flagged
chunks call for.
-/

set_option autoImplicit false

namespace DecisionWalk

variable {K : Type}

namespace InsertionPoint

def before? (p : InsertionPoint K) : Option (Nat × K × String) :=
  if p.placement = .beforeOptional then some (p.decisionOffset, p.kind, p.name) else none

def after? (p : InsertionPoint K) : Option (Nat × Nat × K × String) :=
  if p.placement = .afterAppendable then
    some (p.decisionOffset, p.fileOffset, p.kind, p.name)
  else none

theorem notAfter_iff {p q : InsertionPoint K} : p.notAfter q = true ↔
    p.decisionOffset < q.decisionOffset ∨ p.decisionOffset = q.decisionOffset ∧
      (p.placement = .afterAppendable ∨ q.placement = .beforeOptional) := by
  simp [notAfter]

theorem notAfter_trans (p q r : InsertionPoint K) (h : p.notAfter q = true)
    (h' : q.notAfter r = true) : p.notAfter r = true := by
  rw [notAfter_iff] at h h' ⊢
  rcases h with h | ⟨heq, h⟩
  · left
    rcases h' with h' | ⟨heq', -⟩ <;> omega
  · rcases h' with h' | ⟨heq', h'⟩
    · exact Or.inl (by omega)
    · refine Or.inr ⟨heq.trans heq', ?_⟩
      rcases h with h | h
      · exact Or.inl h
      · rcases h' with h' | h'
        · rw [h] at h'
          cases h'
        · exact Or.inr h'

theorem notAfter_total (p q : InsertionPoint K) : (p.notAfter q || q.notAfter p) = true := by
  rw [Bool.or_eq_true, notAfter_iff, notAfter_iff]
  rcases Nat.lt_trichotomy p.decisionOffset q.decisionOffset with h | h | h
  · exact Or.inl (Or.inl h)
  · cases hp : p.placement with
    | afterAppendable => exact Or.inl (Or.inr ⟨h, Or.inl rfl⟩)
    | beforeOptional => exact Or.inr (Or.inr ⟨h.symm, Or.inr rfl⟩)
  · exact Or.inr (Or.inl h)

end InsertionPoint

namespace Chunk

def before? (c : Chunk K) : Option (Nat × K × String) :=
  if c.optional then some (c.decisions.start, c.kind, c.name) else none

def after? (c : Chunk K) : Option (Nat × Nat × K × String) :=
  if c.appendable then some (c.decisions.stop, c.file.stop, c.kind, c.name) else none

end Chunk

section Lists

variable {α β : Type} {f : α → α} {g : α → Option β} {xs : List α} {i : Nat}

theorem filterMap_modify_same (h : ∀ a, xs[i]? = some a → g (f a) = g a) :
    (xs.modify i f).filterMap g = xs.filterMap g := by
  induction xs generalizing i with
  | nil => rw [List.modify_nil]
  | cons x xs ih =>
    cases i with
    | zero => rw [List.modify_zero_cons, List.filterMap_cons, List.filterMap_cons, h x rfl]
    | succ i => rw [List.modify_succ_cons, List.filterMap_cons, List.filterMap_cons, ih h]

theorem filterMap_modify_new {a : α} {b : β} (ha : xs[i]? = some a) (hold : g a = none)
    (hnew : g (f a) = some b) : ((xs.modify i f).filterMap g).Perm (b :: xs.filterMap g) := by
  induction xs generalizing i with
  | nil => cases ha
  | cons x xs ih =>
    cases i with
    | zero =>
      cases ha
      rw [List.modify_zero_cons, List.filterMap_cons_some hnew, List.filterMap_cons_none hold]
    | succ i =>
      rw [List.modify_succ_cons]
      cases hx : g x with
      | none =>
        rw [List.filterMap_cons_none hx, List.filterMap_cons_none hx]
        exact ih ha
      | some y =>
        rw [List.filterMap_cons_some hx, List.filterMap_cons_some hx]
        exact ((ih ha).cons y).trans (.swap b y _)

end Lists

namespace Tracker

variable {t : Tracker K} {p n : Nat}

structure Marked (t : Tracker K) (p : Nat) : Prop where
  before : (t.points.filterMap InsertionPoint.before?).Perm
    (t.chunks.toList.filterMap Chunk.before?)
  after : (t.points.filterMap InsertionPoint.after?).Perm (t.chunks.toList.filterMap Chunk.after?)
  within : ∀ pt ∈ t.points, pt.decisionOffset ≤ p

theorem touch_points (t : Tracker K) (span : Span) : (t.touch span).points = t.points := by
  rw [touch]
  split
  · rfl
  · cases h : t.stack <;> rfl

theorem opened_points (t : Tracker K) (name : String) (kind : K) (p cursor : Nat) :
    (t.opened name kind p cursor).points =
      if (t.entering p).optional then
        ⟨(t.entering p).start, cursor, kind, t.childPath name, .beforeOptional⟩ :: t.points
      else t.points := by
  cases h : t.stack <;> simp [opened, countChild, h]

theorem appendableAt_some {start slot : Nat} {c : Chunk K}
    (h : t.appendableAt start = some (slot, c)) :
    t.chunks[slot]? = some c ∧ c.decisions.stop = start ∧ c.appendable = false := by
  obtain ⟨last, -, hmap⟩ := Option.bind_eq_some_iff.1 h
  obtain ⟨c', hfilter, heq⟩ := Option.map_eq_some_iff.1 hmap
  cases heq
  obtain ⟨hc, hflags⟩ := Option.filter_eq_some_iff.1 hfilter
  obtain ⟨hstop, happ⟩ := Bool.and_eq_true_iff.1 hflags
  exact ⟨hc, eq_of_beq hstop, Bool.not_eq_true' _ ▸ happ⟩

namespace Marked

theorem empty (maxDepth : Nat) : (Tracker.empty maxDepth : Tracker K).Marked 0 :=
  ⟨.nil, .nil, fun _ h => (nomatch h)⟩

theorem later {q : Nat} (h : t.Marked p) (hp : p ≤ q) : t.Marked q :=
  ⟨h.before, h.after, fun pt hpt => Nat.le_trans (h.within pt hpt) hp⟩

theorem touch (h : t.Marked p) (span : Span) : (t.touch span).Marked p := by
  obtain ⟨hbefore, hafter, hwithin⟩ := h
  constructor
  · rwa [touch_points, touch_chunks]
  · rwa [touch_points, touch_chunks]
  · rwa [touch_points]

theorem lookahead (h : t.Marked p) {start : Nat} (hp : start ≤ p) :
    (t.lookahead ⟨start, p⟩).Marked p := by
  rw [Tracker.lookahead]
  cases hfound : t.appendableAt start with
  | none => exact ⟨h.before, h.after, h.within⟩
  | some found =>
    obtain ⟨slot, c⟩ := found
    obtain ⟨hc, hstop, happ⟩ := appendableAt_some hfound
    have hget : t.chunks.toList[slot]? = some c := by rw [Array.getElem?_toList, hc]
    refine ⟨?_, ?_, ?_⟩
    · rw [Array.toList_modify, filterMap_modify_same]
      · exact h.before
      · intro c' _
        rfl
    · rw [Array.toList_modify]
      refine (h.after.cons (start, c.file.stop, c.kind, c.name)).trans ?_
      refine (filterMap_modify_new hget ?_ ?_).symm
      · rw [Chunk.after?, happ]
        rfl
      · rw [Chunk.after?, if_pos rfl, hstop]
    · intro pt hpt
      rcases List.mem_cons.1 hpt with rfl | hpt
      · exact hp
      · exact h.within pt hpt

theorem opened (h : t.Marked p) (ho : t.Ordered p n) (name : String) (kind : K) (cursor : Nat) :
    (t.opened name kind p cursor).Marked p := by
  have hafter : (t.fresh name kind p cursor).after? = none := rfl
  constructor
  · rw [opened_points, opened_chunks, Array.toList_push, List.filterMap_append]
    cases hopt : (t.entering p).optional with
    | false =>
      have hbefore : (t.fresh name kind p cursor).before? = none := if_neg (by simp [fresh, hopt])
      rw [if_neg Bool.false_ne_true, List.filterMap_cons_none hbefore, List.filterMap_nil,
        List.append_nil]
      exact h.before
    | true =>
      have hbefore : (t.fresh name kind p cursor).before? =
          some ((t.entering p).start, kind, t.childPath name) := if_pos hopt
      rw [if_pos rfl, List.filterMap_cons_some hbefore, List.filterMap_nil]
      exact (h.before.cons _).trans (List.perm_append_singleton _ _).symm
  · rw [opened_points, opened_chunks, Array.toList_push, List.filterMap_append,
      List.filterMap_cons_none hafter, List.filterMap_nil, List.append_nil]
    split
    · exact h.after
    · exact h.after
  · intro pt hpt
    rw [opened_points] at hpt
    split at hpt
    · rcases List.mem_cons.1 hpt with rfl | hpt
      · exact ho.entering_start_le
      · exact h.within pt hpt
    · exact h.within pt hpt

/-- Closing settles a chunk whose start is known already and that is not appendable yet. -/
theorem closed (h : t.Marked p) (ho : t.Ordered p n) (cursor : Nat) :
    (t.closed p cursor).Marked p := by
  cases hs : t.stack with
  | nil =>
    rw [closed_nil hs]
    exact h
  | cons top rest =>
    have hstack := ho.stack
    rw [hs] at hstack
    obtain ⟨c, hc, -, -, hstart, happ⟩ := hstack.1.chunk
    have hget : ∀ c', t.chunks.toList[top.slot]? = some c' → c' = c := by
      intro c' hc'
      rw [Array.getElem?_toList, hc] at hc'
      exact (Option.some.inj hc').symm
    rw [closed_eq hs]
    refine ⟨?_, ?_, h.within⟩
    · rw [Array.toList_modify, filterMap_modify_same]
      · exact h.before
      · intro c' hc'
        rw [hget c' hc', Chunk.before?, Chunk.before?, hstart]
        rfl
    · rw [Array.toList_modify, filterMap_modify_same]
      · exact h.after
      · intro c' hc'
        rw [hget c' hc', Chunk.after?, Chunk.after?, OpenProduction.sealed, happ]
        rfl

end Marked

end Tracker

theorem Tracked.marked {t : Tracker K} {p n : Nat} (h : Tracked t p n) : t.Marked p := by
  induction h with
  | empty maxDepth => exact .empty maxDepth
  | later h hp hn ih => exact ih.later hp
  | touch h span hn ih => exact ih.touch span
  | lookahead h start hp hopen ih => exact ih.lookahead hp
  | opened h name kind cursor hn ih => exact ih.opened h.ordered name kind cursor
  | closed h cursor hn ih => exact ih.closed h.ordered cursor

/-- Behind a chunk that is appendable there is a point. -/
theorem Grammar.point_behind [DecidableEq K] {g : Grammar K Unit} {limits : Limits}
    {input : Bytes} {w : Walk K} (h : g.parse limits input = .ok w) {c : Chunk K}
    (hc : c ∈ w.chunks) (happendable : c.appendable = true) :
    ∃ p ∈ w.points, p.placement = .afterAppendable ∧ p.kind = c.kind ∧
      p.fileOffset = c.file.stop := by
  rw [parse] at h
  cases hrun : (g.runFrom limits (.input input) []).outcome with
  | error e =>
    rw [hrun] at h
    cases h
  | ok v =>
    rw [hrun] at h
    obtain rfl : v.1 = w := Except.ok.inj h
    obtain ⟨t, ht, -, hchunks, hpoints⟩ := runFrom_tracked hrun
    have hlabel : (c.decisions.stop, c.file.stop, c.kind, c.name) ∈
        t.chunks.toList.filterMap Chunk.after? :=
      List.mem_filterMap.2 ⟨c, hchunks ▸ hc, by rw [Chunk.after?, if_pos happendable]⟩
    obtain ⟨p, hp, hafter⟩ := List.mem_filterMap.1 (ht.marked.after.mem_iff.2 hlabel)
    refine ⟨p, ?_, ?_⟩
    · rw [hpoints]
      exact List.mem_mergeSort.2 (List.mem_reverse.2 hp)
    · rw [InsertionPoint.after?] at hafter
      split at hafter
      · obtain ⟨-, hfile, hkind, -⟩ : p.decisionOffset = _ ∧ p.fileOffset = _ ∧ p.kind = _ ∧
            p.name = _ := by simpa using hafter
        exact ⟨‹_›, hkind, hfile⟩
      · cases hafter

/-- The insertion points of a walk are in bijection with the flags of its chunks, and in order. -/
structure Walk.Signposted (w : Walk K) : Prop where
  before : (w.points.filterMap InsertionPoint.before?).Perm (w.chunks.filterMap Chunk.before?)
  after : (w.points.filterMap InsertionPoint.after?).Perm (w.chunks.filterMap Chunk.after?)
  sorted : w.points.Pairwise fun p q => p.decisionOffset < q.decisionOffset ∨
    p.decisionOffset = q.decisionOffset ∧
      (p.placement = .afterAppendable ∨ q.placement = .beforeOptional)
  within : ∀ p ∈ w.points, p.decisionOffset ≤ w.decisions.length

/-- The points before optional chunks are labelled as the optional chunks of the walk are, those
after appendable chunks as the appendable ones, one for each; they are listed by decision offset,
and none lies behind the decisions. -/
theorem Grammar.points_signposted [DecidableEq K] {g : Grammar K Unit} {limits : Limits}
    {origin : Origin} {watches ws : List (Watch K)} {w : Walk K}
    (h : (g.runFrom limits origin watches).outcome = .ok (w, ws)) : w.Signposted := by
  obtain ⟨t, ht, -, hchunks, hpoints⟩ := runFrom_tracked h
  obtain ⟨hbefore, hafter, hwithin⟩ := ht.marked
  have hperm : w.points.Perm t.points := by
    rw [hpoints]
    exact (List.mergeSort_perm _ _).trans (List.reverse_perm _)
  refine ⟨?_, ?_, ?_, ?_⟩
  · rw [hchunks]
    exact (hperm.filterMap _).trans hbefore
  · rw [hchunks]
    exact (hperm.filterMap _).trans hafter
  · rw [hpoints]
    have hsorted := List.pairwise_mergeSort InsertionPoint.notAfter_trans
      InsertionPoint.notAfter_total t.points.reverse
    exact hsorted.imp fun hpq => InsertionPoint.notAfter_iff.1 hpq
  · intro p hp
    exact hwithin p (hperm.mem_iff.1 hp)

/-- One point is after the head and one is before the tail. -/
theorem Grammar.points_signposted_gated :
    ∃ w ws, (gatedRecord.runFrom {} (.input [4, 7, 9, 5]) []).outcome = .ok (w, ws) ∧
      w.chunks.map (fun c => (c.appendable, c.optional)) =
        [(false, false), (true, false), (false, true)] ∧ w.Signposted := by
  have hrun : (gatedRecord.runFrom {} (.input [4, 7, 9, 5]) []).outcome.toOption.any
      (fun v => v.1.chunks.map (fun c => (c.appendable, c.optional)) ==
        [(false, false), (true, false), (false, true)]) = true := by
    decide +kernel
  obtain ⟨⟨w, ws⟩, h, hw⟩ := ok_of_any hrun
  exact ⟨w, ws, h, eq_of_beq hw, points_signposted h⟩

end DecisionWalk
