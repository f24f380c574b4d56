import DecisionWalk.Proofs.Tracking

/-!
# The tree of chunks

The chunks of a walk form a tree: a chunk comes after the one around it, lies one
level deeper, and stays within its decisions and within the bytes it touched. A
chunk is settled when it is closed, while those around it may still extend
further, so the invariant compares it with what they extend over so far.
-/

set_option autoImplicit false

namespace DecisionWalk

variable {K : Type}

namespace Span

theorem within_iff {s t : Span} : s.within t = true ↔ t.start ≤ s.start ∧ s.stop ≤ t.stop := by
  simp [within]

theorem within_refl (s : Span) : s.within s = true := by
  simp [within]

theorem within_trans {s t u : Span} (h : s.within t = true) (h' : t.within u = true) :
    s.within u = true := by
  rw [within_iff] at h h' ⊢
  omega

theorem within_hull_left (s t : Span) : s.within (s.hull t) = true :=
  within_iff.2 ⟨Nat.min_le_left _ _, Nat.le_max_left _ _⟩

theorem within_hull_right (s t : Span) : t.within (s.hull t) = true :=
  within_iff.2 ⟨Nat.min_le_right _ _, Nat.le_max_right _ _⟩

end Span

def Wider (touched touched' : Option Span) : Prop :=
  ∀ span, touched = some span → ∃ span', touched' = some span' ∧ span.within span' = true

namespace Wider

theorem refl (touched : Option Span) : Wider touched touched :=
  fun span h => ⟨span, h, span.within_refl⟩

theorem joined (touched : Option Span) (span : Span) :
    Wider touched (Tracker.joinTouched touched span) := by
  intro old h
  subst h
  exact ⟨old.hull span, rfl, old.within_hull_left span⟩

theorem join (touched : Option Span) (span : Span) :
    Wider (some span) (Tracker.joinTouched touched span) := by
  intro new h
  cases h
  cases touched with
  | none => exact ⟨span, rfl, span.within_refl⟩
  | some old => exact ⟨old.hull span, rfl, old.within_hull_right span⟩

end Wider

structure Restacked (stack stack' : List OpenProduction) : Prop where
  kept : ∀ o ∈ stack, ∃ o' ∈ stack',
    o'.slot = o.slot ∧ o'.start = o.start ∧ Wider o.touched o'.touched
  old : ∀ o' ∈ stack', ∃ o ∈ stack, o'.slot = o.slot

namespace Restacked

theorem refl (stack : List OpenProduction) : Restacked stack stack :=
  ⟨fun o ho => ⟨o, ho, rfl, rfl, .refl _⟩, fun o ho => ⟨o, ho, rfl⟩⟩

theorem top {o o' : OpenProduction} {outer : List OpenProduction} (hslot : o'.slot = o.slot)
    (hstart : o'.start = o.start) (ht : Wider o.touched o'.touched) :
    Restacked (o :: outer) (o' :: outer) := by
  constructor
  · intro q hq
    rcases List.mem_cons.1 hq with rfl | hq
    · exact ⟨o', List.mem_cons_self, hslot, hstart, ht⟩
    · exact ⟨q, List.mem_cons_of_mem _ hq, rfl, rfl, .refl _⟩
  · intro q hq
    rcases List.mem_cons.1 hq with rfl | hq
    · exact ⟨o, List.mem_cons_self, hslot⟩
    · exact ⟨q, List.mem_cons_of_mem _ hq, rfl⟩

theorem touch (t : Tracker K) (span : Span) : Restacked t.stack (t.touch span).stack := by
  rw [Tracker.touch]
  split
  · exact .refl _
  · cases h : t.stack with
    | nil =>
      rw [h]
      exact .refl _
    | cons top rest => exact .top rfl rfl (.joined _ _)

theorem absorb (touched : Option Span) (rest : List OpenProduction) :
    Restacked rest (Tracker.absorb touched rest) := by
  cases rest with
  | nil => exact .refl _
  | cons parent rest =>
    cases touched with
    | none => exact .refl _
    | some span => exact .top rfl rfl (.joined _ _)

end Restacked

namespace Tracker

variable {t u : Tracker K} {p q n m i j : Nat} {c c' : Chunk K}

theorem touch_chunks (t : Tracker K) (span : Span) : (t.touch span).chunks = t.chunks := by
  rw [touch]
  split
  · rfl
  · cases h : t.stack <;> rfl

theorem opened_restacked (t : Tracker K) (name : String) (kind : K) (p cursor : Nat) :
    ∃ stack, (t.opened name kind p cursor).stack =
        ⟨t.childPath name, t.chunks.size, (t.entering p).start, none, []⟩ :: stack ∧
      Restacked t.stack stack := by
  refine ⟨_, opened_stack t name kind p cursor, ?_⟩
  cases t.stack with
  | nil => exact .refl _
  | cons top rest => exact .top rfl rfl (.refl _)

inductive Extent (t : Tracker K) (p : Nat) : Nat → Span → Option Span → Prop where
  | opened {o : OpenProduction} (h : o ∈ t.stack) : Extent t p o.slot ⟨o.start, p⟩ o.touched
  | closed {i : Nat} {c : Chunk K} (hc : t.chunks[i]? = some c) (h : ∀ o ∈ t.stack, o.slot ≠ i) :
      Extent t p i c.decisions (some c.file)

theorem Extent.kept {o o' : OpenProduction} (h : o' ∈ t.stack) (hslot : o'.slot = o.slot)
    (hstart : o'.start = o.start) : Extent t p o.slot ⟨o.start, p⟩ o'.touched := by
  rw [← hslot, ← hstart]
  exact .opened h

structure Widens (t : Tracker K) (p : Nat) (u : Tracker K) (q : Nat) : Prop where
  extent : ∀ i decisions touched, Extent t p i decisions touched →
    ∃ decisions' touched', Extent u q i decisions' touched' ∧
      decisions.within decisions' = true ∧ Wider touched touched'
  depth : ∀ (i : Nat) (c : Chunk K), t.chunks[i]? = some c →
    ∃ c', u.chunks[i]? = some c' ∧ c'.depth = c.depth

def Holds (t : Tracker K) (p j : Nat) (c : Chunk K) : Prop :=
  ∃ decisions touched, Extent t p j decisions touched ∧ c.decisions.within decisions = true ∧
    (c.file.isEmpty = false → ∃ span, touched = some span ∧ c.file.within span = true)

theorem Holds.widened (h : t.Holds p j c) (hw : Widens t p u q) (hd : c'.decisions = c.decisions)
    (hf : c'.file = c.file) : u.Holds q j c' := by
  obtain ⟨decisions, touched, hext, hin, hfile⟩ := h
  obtain ⟨decisions', touched', hext', hin', hwider⟩ := hw.extent j decisions touched hext
  refine ⟨decisions', touched', hext', hd ▸ Span.within_trans hin hin', ?_⟩
  rw [hf]
  intro hne
  obtain ⟨span, hspan, hin⟩ := hfile hne
  obtain ⟨span', hspan', hin'⟩ := hwider span hspan
  exact ⟨span', hspan', Span.within_trans hin hin'⟩

structure Settled (t : Tracker K) (p n i : Nat) (c : Chunk K) : Prop where
  decisions : c.decisions.start ≤ c.decisions.stop ∧ c.decisions.stop ≤ p
  file : c.file.start ≤ c.file.stop ∧ c.file.stop ≤ n
  root : c.parent = none ↔ c.depth = 0
  parent : ∀ j, c.parent = some j → j < i ∧
    (∃ outer, t.chunks[j]? = some outer ∧ c.depth = outer.depth + 1) ∧ t.Holds p j c

/-- What a later step makes of a closed chunk, which may still become appendable. -/
theorem Settled.widened (h : t.Settled p n i c) (hw : Widens t p u q) (hp : p ≤ q) (hn : n ≤ m)
    (hc : c' = { c with appendable := c'.appendable }) : u.Settled q m i c' := by
  have hd : c'.decisions = c.decisions := by rw [hc]
  have hf : c'.file = c.file := by rw [hc]
  have hparent : c'.parent = c.parent := by rw [hc]
  have hdepth : c'.depth = c.depth := by rw [hc]
  refine ⟨?_, ?_, ?_, ?_⟩
  · rw [hd]
    exact ⟨h.decisions.1, Nat.le_trans h.decisions.2 hp⟩
  · rw [hf]
    exact ⟨h.file.1, Nat.le_trans h.file.2 hn⟩
  · rw [hparent, hdepth]
    exact h.root
  · intro j hj
    obtain ⟨hlt, ⟨outer, houter, hlevel⟩, hholds⟩ := h.parent j (hparent ▸ hj)
    obtain ⟨outer', houter', hsame⟩ := hw.depth j outer houter
    exact ⟨hlt, ⟨outer', houter', by rw [hdepth, hsame, hlevel]⟩, hholds.widened hw hd hf⟩

def Nested (t : Tracker K) (p n : Nat) : Prop :=
  ∀ i c, t.chunks[i]? = some c → (∀ o ∈ t.stack, o.slot ≠ i) → t.Settled p n i c

namespace Widens

theorem later (t : Tracker K) (hp : p ≤ q) : Widens t p t q := by
  refine ⟨?_, fun i c hc => ⟨c, hc, rfl⟩⟩
  intro i decisions touched h
  cases h with
  | opened ho => exact ⟨_, _, .opened ho, by simp [Span.within, hp], .refl _⟩
  | closed hc hs => exact ⟨_, _, .closed hc hs, Span.within_refl _, .refl _⟩

/-- The stack is the same but for what was touched, and closed chunks keep their ranges. -/
theorem restacked (hs : Restacked t.stack u.stack)
    (hc : ∀ (i : Nat) (c : Chunk K), t.chunks[i]? = some c →
      ∃ c', u.chunks[i]? = some c' ∧ c' = { c with appendable := c'.appendable }) :
    Widens t p u p := by
  constructor
  · intro i decisions touched h
    cases h with
    | @opened o ho =>
      obtain ⟨o', ho', hslot, hstart, hwider⟩ := hs.kept o ho
      exact ⟨_, _, .kept ho' hslot hstart, Span.within_refl _, hwider⟩
    | closed hget hout =>
      obtain ⟨c', hget', hsame⟩ := hc _ _ hget
      refine ⟨_, _, .closed hget' ?_, ?_, ?_⟩
      · intro o' ho'
        obtain ⟨o, ho, hslot⟩ := hs.old o' ho'
        rw [hslot]
        exact hout o ho
      · rw [hsame]
        exact Span.within_refl _
      · rw [hsame]
        exact .refl _
  · intro i c hget
    obtain ⟨c', hget', hsame⟩ := hc i c hget
    exact ⟨c', hget', by rw [hsame]⟩

theorem touch (t : Tracker K) (span : Span) (p : Nat) : Widens t p (t.touch span) p :=
  restacked (.touch t span) fun _ c hc => ⟨c, by rw [touch_chunks, hc], rfl⟩

theorem lookahead (t : Tracker K) (d : Span) (p : Nat) : Widens t p (t.lookahead d) p := by
  refine restacked (lookahead_stack t d ▸ .refl _) ?_
  intro i c hc
  rw [lookahead_chunks, hc]
  split
  · exact ⟨_, rfl, rfl⟩
  · exact ⟨c, rfl, rfl⟩

theorem opened (t : Tracker K) (name : String) (kind : K) (p cursor : Nat) :
    Widens t p (t.opened name kind p cursor) p := by
  obtain ⟨stack, hstack, hre⟩ := opened_restacked t name kind p cursor
  have hget : ∀ (i : Nat) (c : Chunk K), t.chunks[i]? = some c →
      i < t.chunks.size ∧ (t.opened name kind p cursor).chunks[i]? = some c := by
    intro i c hc
    obtain ⟨hlt, rfl⟩ := Array.getElem?_eq_some_iff.1 hc
    refine ⟨hlt, ?_⟩
    rw [opened_chunks, Array.getElem?_push_lt hlt]
  refine ⟨?_, fun i c hc => ⟨c, (hget i c hc).2, rfl⟩⟩
  intro i decisions touched hext
  cases hext with
  | @opened o ho =>
    obtain ⟨o', ho', hslot, hstart, hwider⟩ := hre.kept o ho
    have hmem : o' ∈ (t.opened name kind p cursor).stack := hstack ▸ List.mem_cons_of_mem _ ho'
    exact ⟨_, _, .kept hmem hslot hstart, Span.within_refl _, hwider⟩
  | @closed i c hc hout =>
    obtain ⟨hlt, hc'⟩ := hget i c hc
    refine ⟨_, _, .closed hc' ?_, Span.within_refl _, .refl _⟩
    rw [hstack]
    intro o' ho'
    rcases List.mem_cons.1 ho' with rfl | ho'
    · exact Nat.ne_of_gt hlt
    · obtain ⟨o, ho, hslot⟩ := hre.old o' ho'
      rw [hslot]
      exact hout o ho

/-- A production that closes keeps its extent and hands it to the one around it. -/
theorem closed (h : t.Ordered p n) (cursor : Nat) : Widens t p (t.closed p cursor) p := by
  cases hs : t.stack with
  | nil =>
    rw [closed_nil hs]
    exact .later t (Nat.le_refl p)
  | cons top rest =>
    have hstack := h.stack
    rw [hs] at hstack
    rw [closed_eq hs]
    have hre := Restacked.absorb top.touched rest
    constructor
    · intro i decisions touched hext
      cases hext with
      | @opened o ho =>
        rw [hs] at ho
        rcases List.mem_cons.1 ho with rfl | ho
        · obtain ⟨c, hc, -⟩ := hstack.1.chunk
          refine ⟨_, _, .closed (c := o.sealed p cursor c) ?_ ?_, Span.within_refl _, ?_⟩
          · rw [Array.getElem?_modify, if_pos rfl, hc]
            rfl
          · intro o' ho'
            obtain ⟨q, hq, hslot⟩ := hre.old o' ho'
            have hlt := (hstack.1.around q hq).1
            omega
          · intro span ht
            exact ⟨span, by simp [OpenProduction.sealed, ht], span.within_refl⟩
        · obtain ⟨o', ho', hslot, hstart, hwider⟩ := hre.kept o ho
          exact ⟨_, _, .kept ho' hslot hstart, Span.within_refl _, hwider⟩
      | @closed i c hc hout =>
        rw [hs] at hout
        refine ⟨_, _, .closed (c := c) ?_ ?_, Span.within_refl _, .refl _⟩
        · rw [Array.getElem?_modify, if_neg (hout top List.mem_cons_self), hc]
        · intro o' ho'
          obtain ⟨o, ho, hslot⟩ := hre.old o' ho'
          rw [hslot]
          exact hout o (List.mem_cons_of_mem _ ho)
    · intro i c hc
      rw [Array.getElem?_modify, hc]
      split
      · exact ⟨_, rfl, rfl⟩
      · exact ⟨c, rfl, rfl⟩

end Widens

namespace Nested

theorem empty (maxDepth : Nat) : (Tracker.empty maxDepth : Tracker K).Nested 0 0 := by
  intro i c hc
  simp [Tracker.empty] at hc

theorem later (h : t.Nested p n) (hp : p ≤ q) (hn : n ≤ m) : t.Nested q m :=
  fun i c hc hout => (h i c hc hout).widened (.later t hp) hp hn rfl

theorem touch (h : t.Nested p n) (span : Span) : (t.touch span).Nested p n := by
  intro i c hc hout
  rw [touch_chunks] at hc
  refine (h i c hc ?_).widened (.touch t span p) (Nat.le_refl p) (Nat.le_refl n) rfl
  intro o ho
  obtain ⟨o', ho', hslot, -⟩ := (Restacked.touch t span).kept o ho
  exact hslot ▸ hout o' ho'

theorem lookahead (h : t.Nested p n) (d : Span) : (t.lookahead d).Nested p n := by
  intro i c hc hout
  rw [lookahead_stack] at hout
  rw [lookahead_chunks] at hc
  split at hc
  · obtain ⟨old, hold, rfl⟩ := Option.map_eq_some_iff.1 hc
    exact (h i old hold hout).widened (.lookahead t d p) (Nat.le_refl p) (Nat.le_refl n) rfl
  · exact (h i c hc hout).widened (.lookahead t d p) (Nat.le_refl p) (Nat.le_refl n) rfl

theorem opened (h : t.Nested p n) (name : String) (kind : K) (cursor : Nat) :
    (t.opened name kind p cursor).Nested p n := by
  obtain ⟨stack, hstack, hre⟩ := opened_restacked t name kind p cursor
  intro i c hc hout
  rw [hstack] at hout
  have hne : i ≠ t.chunks.size := (hout _ List.mem_cons_self).symm
  rw [opened_chunks, Array.getElem?_push, if_neg hne] at hc
  refine (h i c hc ?_).widened (.opened t name kind p cursor) (Nat.le_refl p) (Nat.le_refl n) rfl
  intro o ho
  obtain ⟨o', ho', hslot, -⟩ := hre.kept o ho
  exact hslot ▸ hout o' (List.mem_cons_of_mem _ ho')

/-- What is around a production that closes holds its chunk. -/
theorem closed_parent {top : OpenProduction} {rest : List OpenProduction} {cursor : Nat}
    (hs : t.stack = top :: rest) (ho : t.Ordered p n) (hdepth : c.depth = rest.length)
    (hj : rest.head?.map OpenProduction.slot = some j) :
    j < top.slot ∧
      (∃ outer, (t.closed p cursor).chunks[j]? = some outer ∧ c.depth = outer.depth + 1) ∧
      (t.closed p cursor).Holds p j (top.sealed p cursor c) := by
  have hstack := ho.stack
  rw [hs] at hstack
  cases rest with
  | nil => cases hj
  | cons parent rest =>
    cases hj
    obtain ⟨hlt, hstart⟩ := hstack.1.around parent List.mem_cons_self
    obtain ⟨outer, houter, -, hlevel, -⟩ := hstack.2.1.chunk
    rw [closed_eq hs]
    refine ⟨hlt, ⟨outer, ?_, by rw [hdepth, hlevel, List.length_cons]⟩, ?_⟩
    · rw [Array.getElem?_modify, if_neg (Nat.ne_of_gt hlt), houter]
    · have hdecisions : (top.sealed p cursor c).decisions.within ⟨parent.start, p⟩ = true :=
        Span.within_iff.2 ⟨hstart, Nat.le_refl p⟩
      cases ht : top.touched with
      | none =>
        refine ⟨_, _, .opened (o := parent) List.mem_cons_self, hdecisions, ?_⟩
        intro hne
        simp [OpenProduction.sealed, ht, Span.isEmpty] at hne
      | some span =>
        refine ⟨_, _, .opened (o := { parent with touched := joinTouched parent.touched span })
          List.mem_cons_self, hdecisions, ?_⟩
        intro _
        have hfile : (top.sealed p cursor c).file = span := by simp [OpenProduction.sealed, ht]
        rw [hfile]
        exact Wider.join parent.touched span span rfl

theorem closed (h : t.Nested p n) (ho : t.Ordered p n) {cursor : Nat} (hn : cursor ≤ n) :
    (t.closed p cursor).Nested p n := by
  cases hs : t.stack with
  | nil =>
    rw [closed_nil hs]
    exact h
  | cons top rest =>
    have hstack := ho.stack
    rw [hs] at hstack
    intro i c hc hout
    rw [closed_eq hs] at hc hout
    rw [Array.getElem?_modify] at hc
    by_cases hi : top.slot = i
    · obtain ⟨old, hold, hparent, hdepth, -⟩ := hstack.1.chunk
      rw [if_pos hi, ← hi, hold] at hc
      cases hc
      rw [← hi]
      refine ⟨⟨hstack.1.start_le, Nat.le_refl p⟩, ?_, ?_, ?_⟩
      · rw [OpenProduction.sealed]
        cases ht : top.touched with
        | none => exact ⟨Nat.le_refl cursor, hn⟩
        | some span => exact hstack.1.touched span ht
      · show old.parent = none ↔ old.depth = 0
        rw [hparent, hdepth]
        cases rest <;> simp
      · intro j hj
        exact closed_parent hs ho hdepth (hparent.symm.trans hj)
    · rw [if_neg hi] at hc
      refine (h i c hc ?_).widened (.closed ho cursor) (Nat.le_refl p) (Nat.le_refl n) rfl
      rw [hs]
      intro o hmem
      rcases List.mem_cons.1 hmem with rfl | hmem
      · exact hi
      · obtain ⟨o', ho', hslot, -⟩ := (Restacked.absorb top.touched rest).kept o hmem
        exact hslot ▸ hout o' ho'

end Nested

end Tracker

theorem Tracked.nested {t : Tracker K} {p n : Nat} (h : Tracked t p n) : t.Nested p n := by
  induction h with
  | empty maxDepth => exact .empty maxDepth
  | later h hp hn ih => exact ih.later hp hn
  | touch h span hn ih => exact ih.touch span
  | lookahead h start hp hopen ih => exact ih.lookahead _
  | opened h name kind cursor hn ih => exact ih.opened name kind cursor
  | closed h cursor hn ih => exact ih.closed h.ordered hn

structure Walk.Places (w : Walk K) (i : Nat) (c : Chunk K) : Prop where
  decisions : c.decisions.start ≤ c.decisions.stop ∧ c.decisions.stop ≤ w.decisions.length
  file : c.file.start ≤ c.file.stop ∧ c.file.stop ≤ w.file.length
  root : c.parent = none ↔ c.depth = 0
  parent : ∀ j, c.parent = some j → j < i ∧ ∃ outer, w.chunks[j]? = some outer ∧
    c.depth = outer.depth + 1 ∧ outer.containsDecisionsOf c = true ∧
    (c.file.isEmpty = false → c.file.within outer.file = true)

/-- The chunks of every walk that succeeds, in either mode and also if it stopped early, form a
tree: each lies within the file and the decisions, and inside the chunk around it. -/
theorem Grammar.chunks_nested [DecidableEq K] {g : Grammar K Unit} {limits : Limits}
    {origin : Origin} {watches ws : List (Watch K)} {w : Walk K}
    (h : (g.runFrom limits origin watches).outcome = .ok (w, ws)) {i : Nat} {c : Chunk K}
    (hc : w.chunks[i]? = some c) : w.Places i c := by
  obtain ⟨t, ht, hstack, hchunks, -⟩ := runFrom_tracked h
  have hget : ∀ j : Nat, w.chunks[j]? = t.chunks[j]? := by
    intro j
    rw [hchunks, Array.getElem?_toList]
  have hclosed : ∀ (j : Nat), ∀ o ∈ t.stack, o.slot ≠ j := by
    intro j o ho
    rw [hstack] at ho
    cases ho
  obtain ⟨hdecisions, hfile, hroot, hparent⟩ := ht.nested i c (hget i ▸ hc) (hclosed i)
  refine ⟨hdecisions, hfile, hroot, ?_⟩
  intro j hj
  obtain ⟨hlt, ⟨outer, houter, hdepth⟩, decisions, touched, hext, hin, hin'⟩ := hparent j hj
  refine ⟨hlt, outer, (hget j).trans houter, hdepth, ?_⟩
  cases hext with
  | opened ho => exact absurd rfl (hclosed _ _ ho)
  | closed hget' _ =>
    rw [houter] at hget'
    cases hget'
    refine ⟨hin, ?_⟩
    intro hne
    obtain ⟨span, hspan, hwithin⟩ := hin' hne
    cases hspan
    exact hwithin

def gatedRecord : Grammar Unit Unit :=
  .scope "record" () (.scope "head" () (.ask (.bytes 1) .done) fun _ =>
    .ask (.lookBytes 0 2 [[7, 9], [8, 9]]) fun _ =>
      .scope "tail" () (.ask (.bytes 3) fun _ => .stop 0 "enough") .done) .done

/-- The tail starts with the decisions of the lookahead and lies inside the record. -/
theorem Grammar.chunks_nested_gated :
    ∃ w ws c, (gatedRecord.runFrom {} (.input [4, 7, 9, 5]) []).outcome = .ok (w, ws) ∧
      w.chunks[2]? = some c ∧ c.optional = true ∧ c.parent = some 0 ∧ w.Places 2 c := by
  have hrun : (gatedRecord.runFrom {} (.input [4, 7, 9, 5]) []).outcome.toOption.any
      (fun v => v.1.chunks[2]?.any fun c => c.optional && c.parent == some 0) = true := by
    decide +kernel
  obtain ⟨⟨w, ws⟩, h, hw⟩ := ok_of_any hrun
  obtain ⟨c, hc, hfields⟩ := (Option.any_eq_true _ _).1 hw
  obtain ⟨hoptional, hparent⟩ := Bool.and_eq_true_iff.1 hfields
  exact ⟨w, ws, c, h, hc, hoptional, eq_of_beq hparent, chunks_nested h hc⟩

end DecisionWalk
