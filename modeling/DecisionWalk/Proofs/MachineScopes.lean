import DecisionWalk.Proofs.MachineFields
import DecisionWalk.Proofs.Nesting

/-!
# Productions on a machine

A state fits when a machine can go on from it. What a machine counts must stay
small: no name is counted more often than there are chunks, and there are only a
few more chunks than decisions. Requests keep a state fit, and so do productions
that open and close.
-/

set_option autoImplicit false

namespace DecisionWalk

open Walker

variable {K β : Type}

section Trackers

theorem NameCounts.count_bump_le (counts : NameCounts) (name other : String) :
    (counts.bump name).count other ≤ counts.count other + 1 := by
  rw [count_bump]
  split <;> omega

namespace Tracker

variable {t : Tracker K} {p n : Nat}

/-- What touching bytes leaves alone. -/
theorem touch_map (f : OpenProduction → β) (hf : ∀ o touched, f { o with touched := touched } = f o)
    (t : Tracker K) (span : Span) : (t.touch span).stack.map f = t.stack.map f := by
  rw [touch]
  split
  · rfl
  · cases h : t.stack with
    | nil => rw [h]
    | cons top rest => rw [List.map_cons, List.map_cons, hf]

theorem absorb_map (f : OpenProduction → β)
    (hf : ∀ o touched, f { o with touched := touched } = f o) (touched : Option Span)
    (rest : List OpenProduction) : (absorb touched rest).map f = rest.map f := by
  cases rest with
  | nil => rfl
  | cons parent rest =>
    cases touched with
    | none => rfl
    | some span => rw [absorb, List.map_cons, List.map_cons, hf]

theorem opened_chunks_size (t : Tracker K) (name : String) (kind : K) (p cursor : Nat) :
    (t.opened name kind p cursor).chunks.size = t.chunks.size + 1 := by
  rw [opened_chunks, Array.size_push]

theorem closed_chunks_size (t : Tracker K) (p cursor : Nat) :
    (t.closed p cursor).chunks.size = t.chunks.size := by
  cases h : t.stack with
  | nil => rw [closed_nil h]
  | cons top rest => rw [closed_eq h, Array.size_modify]

structure Counted (t : Tracker K) : Prop where
  roots : ∀ name, t.roots.count name ≤ t.chunks.size
  children : ∀ counts ∈ t.stack.map OpenProduction.children, ∀ name,
    counts.count name ≤ t.chunks.size

theorem Counted.siblings (h : t.Counted) (name : String) :
    t.siblings.count name ≤ t.chunks.size := by
  have hchildren := h.children
  rw [Tracker.siblings]
  split
  · exact h.roots name
  · rename_i top rest hs
    rw [hs] at hchildren
    exact hchildren _ List.mem_cons_self name

theorem Counted.opened (h : t.Counted) (name : String) (kind : K) (p cursor : Nat) :
    (t.opened name kind p cursor).Counted := by
  have hroots := h.roots
  have hchildren := h.children
  have hbump : ∀ {counts : NameCounts}, (∀ other, counts.count other ≤ t.chunks.size) →
      ∀ other, (counts.bump name).count other ≤ t.chunks.size + 1 :=
    fun hc other => Nat.le_trans (NameCounts.count_bump_le _ _ _) (Nat.succ_le_succ (hc other))
  constructor
  · intro other
    rw [opened_chunks_size]
    cases hs : t.stack with
    | nil =>
      have hr : (t.opened name kind p cursor).roots = t.roots.bump name := by
        simp [Tracker.opened, countChild, hs]
      rw [hr]
      exact hbump hroots other
    | cons top rest =>
      have hr : (t.opened name kind p cursor).roots = t.roots := by
        simp [Tracker.opened, countChild, hs]
      rw [hr]
      exact Nat.le_succ_of_le (hroots other)
  · intro counts hc other
    rw [opened_chunks_size]
    rw [opened_stack, List.map_cons] at hc
    rcases List.mem_cons.1 hc with rfl | hc
    · exact Nat.zero_le _
    · cases hs : t.stack with
      | nil =>
        rw [hs] at hc
        cases hc
      | cons top rest =>
        rw [hs] at hc hchildren
        rcases List.mem_cons.1 hc with rfl | hc
        · exact hbump (hchildren _ List.mem_cons_self) other
        · exact Nat.le_succ_of_le (hchildren _ (List.mem_cons_of_mem _ hc) other)

theorem Counted.closed (h : t.Counted) (p cursor : Nat) : (t.closed p cursor).Counted := by
  cases hs : t.stack with
  | nil =>
    rw [closed_nil hs]
    exact h
  | cons top rest =>
    have hsize := closed_chunks_size t p cursor
    have hchildren := h.children
    rw [hs] at hchildren
    rw [closed_eq hs] at hsize ⊢
    refine ⟨fun name => hsize ▸ h.roots name, fun counts hc name => hsize ▸ ?_⟩
    rw [absorb_map OpenProduction.children fun _ _ => rfl] at hc
    exact hchildren counts (List.mem_cons_of_mem _ hc) name

end Tracker

open Tracker

theorem Tracked.counted {t : Tracker K} {p n : Nat} (h : Tracked t p n) : t.Counted := by
  induction h with
  | empty maxDepth => exact ⟨fun _ => Nat.zero_le _, fun _ hc => (nomatch hc)⟩
  | later h hp hn ih => exact ih
  | touch h span hn ih =>
    have hroots : ∀ t : Tracker K, (t.touch span).roots = t.roots := by
      intro t
      rw [Tracker.touch]
      split
      · rfl
      · cases t.stack <;> rfl
    constructor
    · rw [touch_chunks, hroots]
      exact ih.roots
    · rw [touch_chunks, touch_map _ fun _ _ => rfl]
      exact ih.children
  | lookahead h start hp hopen ih =>
    constructor
    · rw [lookahead_chunks_size, lookahead_roots]
      exact ih.roots
    · rw [lookahead_chunks_size, lookahead_stack]
      exact ih.children
  | opened h name kind cursor hn ih => exact ih.opened name kind _ cursor
  | closed h cursor hn ih => exact ih.closed _ cursor

theorem Tracked.exits {t : Tracker K} {p n : Nat} (h : Tracked t p n) : t.Exits := by
  induction h with
  | empty maxDepth => exact fun _ hslot => (nomatch hslot)
  | later h hp hn ih => exact ih
  | touch h span hn ih => exact ih.touch span
  | lookahead h start hp hopen ih => exact .lookahead _ _
  | opened h name kind cursor hn ih => exact fun _ hslot => (nomatch hslot)
  | @closed t p n h cursor hn ih =>
    have hsize := closed_chunks_size t p cursor
    intro slot hslot
    rw [hsize]
    cases hs : t.stack with
    | nil =>
      rw [closed_nil hs] at hslot
      exact ih slot hslot
    | cons top rest =>
      rw [closed_eq hs] at hslot
      cases hslot
      exact h.ordered.stack.slot_lt (hs ▸ List.mem_cons_self)

end Trackers

section States

variable {s t u : State K}

structure Extends (s t : State K) : Prop where
  position : s.stream.position ≤ t.stream.position
  capacity : t.stream.capacity = s.stream.capacity
  slots : t.tracker.stack.map OpenProduction.slot = s.tracker.stack.map OpenProduction.slot
  chunks : ∀ (i : Nat) (c : Chunk K), s.tracker.chunks[i]? = some c →
    ∃ c', t.tracker.chunks[i]? = some c' ∧ c'.kind = c.kind ∧ c'.optional = c.optional

namespace Extends

theorem refl (s : State K) : Extends s s :=
  ⟨Nat.le_refl _, rfl, rfl, fun _ c hc => ⟨c, hc, rfl, rfl⟩⟩

theorem trans (h : Extends s t) (h' : Extends t u) : Extends s u where
  position := Nat.le_trans h.position h'.position
  capacity := h'.capacity.trans h.capacity
  slots := h'.slots.trans h.slots
  chunks := by
    intro i c hc
    obtain ⟨d, hd, hkind, hoptional⟩ := h.chunks i c hc
    obtain ⟨e, he, hkind', hoptional'⟩ := h'.chunks i d hd
    exact ⟨e, he, hkind'.trans hkind, hoptional'.trans hoptional⟩

theorem aside (hs : t.stream = s.stream) (hc : t.tracker.chunks = s.tracker.chunks)
    (hslots : t.tracker.stack.map OpenProduction.slot = s.tracker.stack.map OpenProduction.slot) :
    Extends s t :=
  ⟨hs ▸ Nat.le_refl _, hs ▸ rfl, hslots, fun _ c h => ⟨c, hc ▸ h, rfl, rfl⟩⟩

theorem recorded (s : State K) (e : Bytes) : Extends s (s.recorded e) := by
  refine ⟨?_, rfl, rfl, fun _ c hc => ⟨c, hc, rfl, rfl⟩⟩
  rw [show (s.recorded e).stream = s.stream.recorded e from rfl, Stream.recorded_position]
  exact Nat.le_add_right _ _

theorem moved (s : State K) (p : Nat) : Extends s (s.movedTo p) := aside rfl rfl rfl

theorem touching (s : State K) (n : Nat) (im : Image) : Extends s (s.touching n im) :=
  aside rfl (Tracker.touch_chunks _ _) (Tracker.touch_map _ (fun _ _ => rfl) _ _)

/-- A lookahead may only make a chunk appendable. -/
theorem looked (h : Extends s t) (p cursor : Nat) : Extends s { t.movedTo cursor with
    tracker := t.tracker.lookahead ⟨p, t.stream.position⟩ } := by
  refine h.trans ⟨Nat.le_refl _, rfl, congrArg _ (Tracker.lookahead_stack _ _), ?_⟩
  intro i c hc
  show ∃ c', (t.tracker.lookahead _).chunks[i]? = some c' ∧ _
  rw [Tracker.lookahead_chunks, hc]
  split
  · exact ⟨_, rfl, rfl, rfl⟩
  · exact ⟨c, rfl, rfl, rfl⟩

end Extends

theorem Passes.extends (h : Passes s t) : Extends s t := by
  induction h with
  | still s => exact .refl s
  | trans h1 h2 ih1 ih2 => exact ih1.trans ih2
  | records s e h => exact .recorded s e
  | writes s bs hm h => exact .touching s _ _
  | marks s bs hm h => exact .touching s _ _
  | tosses s e h => exact (Extends.recorded s e).looked _ s.image.cursor
  | looks offset h ih => exact ((Extends.moved _ _).trans ih).looked _ _
  | returns offset h ih => exact ((Extends.moved _ _).trans ih).trans (.moved _ _)
  | _ => exact .aside rfl rfl rfl

theorem Passes.watches (h : Passes s t) : t.watches = s.watches := by
  induction h with
  | trans h1 h2 ih1 ih2 => exact ih2.trans ih1
  | looks offset h ih => exact ih
  | returns offset h ih => exact ih
  | _ => rfl

theorem Passes.chunks_size (h : Passes s t) : t.tracker.chunks.size = s.tracker.chunks.size := by
  induction h with
  | trans h1 h2 ih1 ih2 => exact ih2.trans ih1
  | writes s bs hm h => exact congrArg Array.size (Tracker.touch_chunks _ _)
  | marks s bs hm h => exact congrArg Array.size (Tracker.touch_chunks _ _)
  | tosses s e h => exact Tracker.lookahead_chunks_size _ _
  | looks offset h ih => exact (Tracker.lookahead_chunks_size _ _).trans ih
  | returns offset h ih => exact ih
  | _ => rfl

/-- A machine can go on from here. The walk has opened at most `k` productions more than it has
taken decisions. -/
structure Fit (k : Nat) (s : State K) : Prop extends Steady s where
  coherent : s.image.Coherent s.mode
  cursor_le : s.image.cursor ≤ s.image.size
  limit : s.image.limit < smallValues
  tracks : s.Tracks
  depths : ∀ d, some d ∈ s.watches.map Watch.depth → d + 1 < wordValues
  chunks : s.tracker.chunks.size ≤ s.stream.position + k

namespace Fit

variable {k j : Nat}

theorem cursor_le_limit (h : Fit k s) : s.image.cursor ≤ s.image.limit := by
  have hcursor := h.cursor_le
  have hsize := h.coherent.size_le
  have hinput := h.coherent.input
  rw [Image.limit, hinput]
  cases hm : s.mode with
  | parse =>
    rw [if_pos rfl, Option.getD_some]
    omega
  | generate =>
    have hwithin := h.coherent.within hm
    rw [if_neg (by decide), Option.getD_none]
    omega

theorem cursor_lt (h : Fit k s) : s.image.cursor < smallValues :=
  Nat.lt_of_le_of_lt h.cursor_le_limit h.limit

theorem placed (h : Fit k s) : Placed s :=
  ⟨h.toSteady, Machine.lt_allocationBound h.cursor_lt, h.limit⟩

theorem weaken (h : Fit k s) (hk : k ≤ j) : Fit j s :=
  { h with chunks := Nat.le_trans h.chunks (Nat.add_le_add_left hk _) }

theorem tempted (h : Fit k s) (evil : EvilBit) : Fit k { s with evil := evil } :=
  ⟨⟨h.within, h.capacity⟩, h.coherent, h.cursor_le, h.limit, h.tracks, h.depths, h.chunks⟩

/-- A request that takes `j` decisions makes up for as many chunks. -/
theorem passes (h : Fit (k + j) s) (hp : Passes s t)
    (hj : s.stream.position + j ≤ t.stream.position) : Fit k t where
  toSteady := hp.steady h.toSteady
  coherent := hp.onward.coherent h.coherent
  cursor_le := hp.cursor_le h.cursor_le
  limit := hp.limit ▸ h.limit
  tracks := hp.tracks h.tracks
  depths := hp.watches ▸ h.depths
  chunks := by
    have hchunks := h.chunks
    rw [hp.chunks_size]
    omega

end Fit

/-- What a watch has seen does not change what it was set to. -/
theorem closeWatches_keeps {γ : Type} (f : Watch K → γ)
    (hf : ∀ w stop, f { w with armed := none, observedStop := stop, restore := none } = f w)
    (depth : Nat) (ws : List (Watch K)) (stream : Stream) :
    (closeWatches depth ws stream).1.map f = ws.map f := by
  induction ws generalizing stream with
  | nil => rfl
  | cons w rest ih =>
    rw [closeWatches]
    split
    · exact congrArg₂ List.cons (hf w _) (ih _)
    · exact congrArg (f w :: ·) (ih _)

/-- What was counted for a production stays counted when it closes. -/
theorem Fit.closed {k depth : Nat} {a : Unit} (hs : Fit k s) (h : closeScope depth s = .ok a t) :
    Fit k t := by
  obtain ⟨hpast, hcapacity, hlength⟩ := closeWatches_stream depth s.watches s.stream
  have hposition : (closeWatches depth s.watches s.stream).2.position = s.stream.position :=
    congrArg Array.size hpast
  cases h
  refine ⟨⟨?_, ?_⟩, hs.coherent, hs.cursor_le, hs.limit, ?_, ?_, ?_⟩
  · show _ ≤ (closeWatches depth s.watches s.stream).2.capacity
    rw [hcapacity]
    exact hlength hs.within
  · show (closeWatches depth s.watches s.stream).2.capacity < _
    rw [hcapacity]
    exact hs.capacity
  · show Tracked _ (closeWatches depth s.watches s.stream).2.position _
    rw [hposition]
    exact Tracked.closed hs.tracks _ hs.cursor_le
  · show ∀ d, some d ∈ (closeWatches depth s.watches s.stream).1.map Watch.depth → _
    rw [closeWatches_keeps Watch.depth fun _ _ => rfl]
    exact hs.depths
  · show (s.tracker.closed _ _).chunks.size ≤ (closeWatches depth s.watches s.stream).2.position + k
    rw [Tracker.closed_chunks_size, hposition]
    exact hs.chunks

section Productions

variable [DecidableEq K] {name : String} {kind : K} {k depth : Nat}

theorem Watch.arm_depth (w : Watch K) (start : Nat) (kind : K) (depth : Nat) :
    (w.arm start kind depth).depth = w.depth := by
  rw [Watch.arm]
  split <;> rfl

theorem Walker.openScope_cases (h : openScope name kind s = .ok depth t) : t =
    { s with
      tracker := s.tracker.opened name kind s.stream.position s.image.cursor
      watches := s.watches.map
        (·.arm (s.tracker.entering s.stream.position).start kind (s.tracker.depth + 1)) } := by
  rw [openScope] at h
  split at h
  · cases h
    rfl
  · cases h

theorem Fit.opened (hs : Fit k s) (h : openScope name kind s = .ok depth t) : Fit (k + 1) t := by
  obtain rfl := openScope_cases h
  refine ⟨⟨hs.within, hs.capacity⟩, hs.coherent, hs.cursor_le, hs.limit,
    Tracked.opened hs.tracks name kind _ hs.cursor_le, ?_, ?_⟩
  · intro d hd
    obtain ⟨armed, harmed, hd⟩ := List.mem_map.1 hd
    obtain ⟨w, hw, rfl⟩ := List.mem_map.1 harmed
    exact hs.depths d (List.mem_map.2 ⟨w, hw, (Watch.arm_depth w _ _ _).symm.trans hd⟩)
  · have hchunks := hs.chunks
    show (s.tracker.opened _ _ _ _).chunks.size ≤ s.stream.position + (k + 1)
    rw [Tracker.opened_chunks_size]
    omega

/-- The production that was opened is the innermost one again behind its body, and its chunk has
the kind and the flag that it was opened with. -/
theorem Extends.innermost (hopen : openScope name kind s = .ok depth t) (h : Extends t u) :
    ∃ top rest c, u.tracker.stack = top :: rest ∧
      rest.map OpenProduction.slot = s.tracker.stack.map OpenProduction.slot ∧
      u.tracker.chunks[top.slot]? = some c ∧ c.kind = kind ∧
      c.optional = (s.tracker.entering s.stream.position).optional := by
  obtain rfl := openScope_cases hopen
  have hslots := h.slots
  rw [Tracker.opened_stack, List.map_cons] at hslots
  cases hs : u.tracker.stack with
  | nil =>
    rw [hs] at hslots
    cases hslots
  | cons top rest =>
    rw [hs, List.map_cons, List.cons.injEq] at hslots
    obtain ⟨htop, hrest⟩ := hslots
    have hnew : (s.tracker.opened name kind s.stream.position s.image.cursor).chunks[
        s.tracker.chunks.size]? = some (s.tracker.fresh name kind s.stream.position
          s.image.cursor) := by
      rw [Tracker.opened_chunks]
      exact Array.getElem?_push_size
    obtain ⟨c, hc, hkind, hoptional⟩ := h.chunks _ _ hnew
    refine ⟨top, rest, c, rfl, ?_, ?_, hkind, hoptional⟩
    · rw [hrest]
      cases s.tracker.stack <;> rfl
    · rw [htop]
      exact hc

/-- What lies around a production sees its body as one step. -/
theorem Extends.around {v : State K} {a : Unit} (hopen : openScope name kind s = .ok depth t)
    (h : Extends t u) (hclose : closeScope depth u = .ok a v) : Extends s v := by
  obtain ⟨top, rest, -, hstack, hslots, -⟩ := h.innermost hopen
  obtain rfl := openScope_cases hopen
  obtain ⟨hpast, hcapacity, -⟩ := closeWatches_stream depth u.watches u.stream
  have hposition : (closeWatches depth u.watches u.stream).2.position = u.stream.position :=
    congrArg Array.size hpast
  cases hclose
  refine ⟨?_, hcapacity.trans h.capacity, ?_, ?_⟩
  · show _ ≤ (closeWatches depth u.watches u.stream).2.position
    rw [hposition]
    exact h.position
  · show (u.tracker.closed _ _).stack.map _ = _
    rw [Tracker.closed_eq hstack, Tracker.absorb_map _ fun _ _ => rfl]
    exact hslots
  · intro i c hc
    have hlt := (Array.getElem?_eq_some_iff.1 hc).1
    have hopened : (s.tracker.opened name kind s.stream.position s.image.cursor).chunks[i]? =
        some c := by
      rw [Tracker.opened_chunks, Array.getElem?_push_lt hlt, ← Array.getElem?_eq_getElem hlt, hc]
    obtain ⟨c', hc', hkind, hoptional⟩ := h.chunks i c hopened
    show ∃ d, (u.tracker.closed _ _).chunks[i]? = some d ∧ _
    rw [Tracker.closed_eq hstack, Array.getElem?_modify, hc']
    split
    · exact ⟨_, rfl, hkind, hoptional⟩
    · exact ⟨c', rfl, hkind, hoptional⟩

namespace Machine

theorem openScope_matches (hs : Fit k s) (hk : k < smallValues) :
    Matches (openScope name kind) (Walker.openScope name kind) s := by
  have hcount := hs.tracks.counted.siblings name
  have hchunks := hs.chunks
  have hposition := hs.position_le
  have hcapacity := hs.capacity
  refine .get (.addable ?_ (.demand ?_ (.plain ?_)))
  · simp only [smallValues, wordValues] at *
    omega
  · intro w hw
    rw [Option.all_eq_true]
    intro d hd
    exact decide_eq_true (hs.depths d (List.mem_map.2 ⟨w, hw, hd⟩))
  · intro d t h
    rw [Walker.openScope] at h
    split at h <;> cases h

theorem closeScope_matches {top : OpenProduction} {rest : List OpenProduction} {c : Chunk K}
    (depth : Nat) (hs : s.tracker.stack = top :: rest)
    (hc : s.tracker.chunks[top.slot]? = some c) :
    Matches (closeScope depth c.kind c.optional) (Walker.closeScope depth) s := by
  have hitem : (item s.tracker.chunks.toList top.slot : Machine K (Chunk K)) = pure c := by
    rw [item, Array.getElem?_toList, hc]
  refine .get ?_
  dsimp only
  rw [hs]
  dsimp only
  rw [hitem, pure_bind]
  refine .demand ⟨rfl, rfl⟩ (.plain ?_)
  intro d t h
  cases h

end Machine

end Productions

end States

end DecisionWalk
