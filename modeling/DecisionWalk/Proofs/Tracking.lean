import DecisionWalk.Proofs.Trackers
import DecisionWalk.Proofs.Visiting

/-!
# The history of a tracker

A tracker goes through a few small steps only: productions are opened and closed,
the innermost one touches bytes, a lookahead is noted, and the walk moves on
meanwhile. `Tracked` lists the steps; what all of them keep, the tracker of every
walk keeps.
-/

set_option autoImplicit false

namespace DecisionWalk

open Walker

variable {K : Type}

inductive Tracked : Tracker K → Nat → Nat → Prop where
  | empty (maxDepth : Nat) : Tracked (.empty maxDepth) 0 0
  | later {t : Tracker K} {p q n m : Nat} (h : Tracked t p n) (hp : p ≤ q) (hn : n ≤ m) :
      Tracked t q m
  | touch {t : Tracker K} {p n : Nat} (h : Tracked t p n) (span : Span) (hn : span.stop ≤ n) :
      Tracked (t.touch span) p n
  | lookahead {t : Tracker K} {p n : Nat} (h : Tracked t p n) (start : Nat) (hp : start ≤ p)
      (hopen : ∀ o ∈ t.stack, o.start ≤ start) : Tracked (t.lookahead ⟨start, p⟩) p n
  | opened {t : Tracker K} {p n : Nat} (h : Tracked t p n) (name : String) (kind : K)
      (cursor : Nat) (hn : cursor ≤ n) : Tracked (t.opened name kind p cursor) p n
  | closed {t : Tracker K} {p n : Nat} (h : Tracked t p n) (cursor : Nat) (hn : cursor ≤ n) :
      Tracked (t.closed p cursor) p n

def OpenProduction.sealed (o : OpenProduction) (p cursor : Nat) (c : Chunk K) : Chunk K :=
  { c with file := o.touched.getD ⟨cursor, cursor⟩, decisions := ⟨o.start, p⟩ }

structure OpenProduction.Stands (chunks : Array (Chunk K)) (p n : Nat) (o : OpenProduction)
    (outer : List OpenProduction) : Prop where
  start_le : o.start ≤ p
  touched : ∀ span, o.touched = some span → span.start ≤ span.stop ∧ span.stop ≤ n
  around : ∀ q ∈ outer, q.slot < o.slot ∧ q.start ≤ o.start
  chunk : ∃ c, chunks[o.slot]? = some c ∧ c.parent = outer.head?.map OpenProduction.slot ∧
    c.depth = outer.length ∧ c.decisions.start = o.start ∧ c.appendable = false

def Stacked (chunks : Array (Chunk K)) (p n : Nat) : List OpenProduction → Prop
  | [] => True
  | o :: outer => o.Stands chunks p n outer ∧ Stacked chunks p n outer

namespace Stacked

variable {chunks chunks' : Array (Chunk K)} {p q n m : Nat} {stack outer : List OpenProduction}
  {o o' : OpenProduction}

theorem stands (h : Stacked chunks p n stack) (ho : o ∈ stack) :
    ∃ outer, o.Stands chunks p n outer := by
  induction stack with
  | nil => cases ho
  | cons top rest ih =>
    rcases List.mem_cons.1 ho with rfl | hr
    · exact ⟨rest, h.1⟩
    · exact ih h.2 hr

theorem slot_lt (h : Stacked chunks p n stack) (ho : o ∈ stack) : o.slot < chunks.size := by
  obtain ⟨outer, hs⟩ := h.stands ho
  obtain ⟨c, hc, -⟩ := hs.chunk
  exact (Array.getElem?_eq_some_iff.1 hc).1

theorem elsewhere (h : Stacked chunks p n stack)
    (hc : ∀ o ∈ stack, chunks'[o.slot]? = chunks[o.slot]?) : Stacked chunks' p n stack := by
  induction stack with
  | nil => trivial
  | cons top rest ih =>
    obtain ⟨c, hget, hrest⟩ := h.1.chunk
    refine ⟨⟨h.1.start_le, h.1.touched, h.1.around, c, ?_, hrest⟩,
      ih h.2 fun o ho => hc o (List.mem_cons_of_mem _ ho)⟩
    rw [hc top List.mem_cons_self, hget]

theorem later (h : Stacked chunks p n stack) (hp : p ≤ q) (hn : n ≤ m) :
    Stacked chunks q m stack := by
  induction stack with
  | nil => trivial
  | cons top rest ih =>
    refine ⟨⟨Nat.le_trans h.1.start_le hp, ?_, h.1.around, h.1.chunk⟩, ih h.2⟩
    intro span hs
    obtain ⟨hle, hin⟩ := h.1.touched span hs
    exact ⟨hle, Nat.le_trans hin hn⟩

/-- The innermost production may touch more of the file. -/
theorem top (h : Stacked chunks p n (o :: outer)) (hslot : o'.slot = o.slot)
    (hstart : o'.start = o.start)
    (ht : ∀ span, o'.touched = some span → span.start ≤ span.stop ∧ span.stop ≤ n) :
    Stacked chunks p n (o' :: outer) := by
  obtain ⟨hs, hrest⟩ := h
  refine ⟨⟨hstart ▸ hs.start_le, ht, ?_, ?_⟩, hrest⟩
  · rw [hslot, hstart]
    exact hs.around
  · rw [hslot, hstart]
    exact hs.chunk

end Stacked

namespace Tracker

variable {t : Tracker K} {p n : Nat}

structure Ordered (t : Tracker K) (p n : Nat) : Prop where
  stack : Stacked t.chunks p n t.stack
  exit : ∀ slot, t.lastExit = some slot → ∀ o ∈ t.stack, o.slot ≠ slot
  gate : ∀ g, t.gate = some g → g.start ≤ g.stop ∧ g.stop ≤ p ∧
    (g.stop = p → ∀ o ∈ t.stack, o.start ≤ g.start)

/-- A range joined to what was touched, where both lie within the file. -/
theorem joinTouched_within {touched : Option Span} {span other : Span}
    (h : ∀ span, touched = some span → span.start ≤ span.stop ∧ span.stop ≤ n)
    (hs : other.start ≤ other.stop ∧ other.stop ≤ n) (hj : joinTouched touched other = some span) :
    span.start ≤ span.stop ∧ span.stop ≤ n := by
  obtain ⟨hle, hin⟩ := hs
  cases touched with
  | none =>
    cases hj
    exact ⟨hle, hin⟩
  | some old =>
    obtain ⟨hle', hin'⟩ := h old rfl
    have hspan : old.hull other = span := Option.some.inj hj
    simp only [← hspan, Span.hull]
    omega

/-- A production starts at the lookahead that gates it, or where the stream stands. -/
theorem entering_cases (t : Tracker K) (p : Nat) :
    (∃ g, t.gate = some g ∧ g.stop = p ∧ t.entering p = ⟨t.chunks.size, g.start, true⟩) ∨
      ((∀ g, t.gate = some g → g.stop ≠ p) ∧ t.entering p = ⟨t.chunks.size, p, false⟩) := by
  cases hg : t.gate with
  | none => exact Or.inr ⟨fun _ h => (nomatch h), by simp [entering, gateAt, hg]⟩
  | some g =>
    by_cases hp : g.stop = p
    · exact Or.inl ⟨g, rfl, hp, by simp [entering, gateAt, hg, Option.filter, hp]⟩
    · refine Or.inr ⟨?_, by simp [entering, gateAt, hg, Option.filter, hp]⟩
      intro g' h
      cases h
      exact hp

def fresh (t : Tracker K) (name : String) (kind : K) (p cursor : Nat) : Chunk K where
  name := t.childPath name
  kind := kind
  file := ⟨cursor, cursor⟩
  decisions := ⟨(t.entering p).start, (t.entering p).start⟩
  optional := (t.entering p).optional
  appendable := false
  depth := t.stack.length
  parent := t.stack.head?.map OpenProduction.slot

theorem opened_chunks (t : Tracker K) (name : String) (kind : K) (p cursor : Nat) :
    (t.opened name kind p cursor).chunks = t.chunks.push (t.fresh name kind p cursor) := by
  rw [opened]
  simp only [countChild_chunks]
  rfl

/-- A production that is opened is counted among the children of the one around it. -/
theorem opened_stack (t : Tracker K) (name : String) (kind : K) (p cursor : Nat) :
    (t.opened name kind p cursor).stack =
      ⟨t.childPath name, (t.entering p).slot, (t.entering p).start, none, []⟩ ::
        match t.stack with
        | [] => []
        | top :: rest => { top with children := top.children.bump name } :: rest := by
  cases h : t.stack <;> simp [opened, countChild, h]

theorem closed_eq {top : OpenProduction} {rest : List OpenProduction} (h : t.stack = top :: rest)
    (p cursor : Nat) : t.closed p cursor =
      { t with
        stack := absorb top.touched rest
        chunks := t.chunks.modify top.slot (top.sealed p cursor)
        lastExit := some top.slot } := by
  rw [closed, h]
  rfl

theorem closed_nil (h : t.stack = []) (p cursor : Nat) : t.closed p cursor = t := by
  rw [closed, h]

theorem mem_absorb {touched : Option Span} {rest : List OpenProduction} {o : OpenProduction}
    (h : o ∈ absorb touched rest) : ∃ q ∈ rest, o.slot = q.slot ∧ o.start = q.start := by
  cases rest with
  | nil => cases h
  | cons parent rest =>
    cases touched with
    | none => exact ⟨o, h, rfl, rfl⟩
    | some span =>
      rcases List.mem_cons.1 h with rfl | h
      · exact ⟨parent, List.mem_cons_self, rfl, rfl⟩
      · exact ⟨o, List.mem_cons_of_mem _ h, rfl, rfl⟩

namespace Ordered

theorem empty (maxDepth : Nat) : (Tracker.empty maxDepth : Tracker K).Ordered 0 0 :=
  ⟨trivial, fun _ h => (nomatch h), fun _ h => (nomatch h)⟩

theorem later {q m : Nat} (h : t.Ordered p n) (hp : p ≤ q) (hn : n ≤ m) : t.Ordered q m := by
  refine ⟨h.stack.later hp hn, h.exit, ?_⟩
  intro g hg
  obtain ⟨hle, hstop, hopen⟩ := h.gate g hg
  exact ⟨hle, Nat.le_trans hstop hp, fun hq => hopen (by omega)⟩

theorem touch (h : t.Ordered p n) {span : Span} (hn : span.stop ≤ n) :
    (t.touch span).Ordered p n := by
  rw [Tracker.touch]
  split
  · exact h
  · rename_i hempty
    have hspan : span.start ≤ span.stop := by
      simp only [Span.isEmpty, decide_eq_true_eq] at hempty
      omega
    cases hs : t.stack with
    | nil => exact h
    | cons top rest =>
      have hstack := h.stack
      have hexit := h.exit
      have hgate := h.gate
      rw [hs] at hstack hexit hgate
      refine ⟨hstack.top rfl rfl ?_, ?_, ?_⟩
      · intro joined hj
        exact joinTouched_within hstack.1.touched ⟨hspan, hn⟩ hj
      · simpa using hexit
      · simpa using hgate

theorem lookahead (h : t.Ordered p n) {start : Nat} (hp : start ≤ p)
    (hopen : ∀ o ∈ t.stack, o.start ≤ start) : (t.lookahead ⟨start, p⟩).Ordered p n := by
  refine ⟨?_, ?_, ?_⟩
  · rw [lookahead_stack]
    apply h.stack.elsewhere
    intro o ho
    -- What becomes appendable was closed last, and so is not open.
    rw [lookahead_chunks, if_neg]
    intro happ
    obtain ⟨found, hfound, hslot⟩ := Option.map_eq_some_iff.1 happ
    obtain ⟨slot, hexit, hmap⟩ := Option.bind_eq_some_iff.1 hfound
    obtain ⟨c, -, rfl⟩ := Option.map_eq_some_iff.1 hmap
    exact h.exit slot hexit o ho hslot.symm
  · intro slot hs
    rw [lookahead_lastExit] at hs
    cases hs
  · intro g hg
    rw [lookahead_gate] at hg
    cases hg
    rw [lookahead_stack]
    exact ⟨hp, Nat.le_refl p, fun _ => hopen⟩

theorem start_le_entering (h : t.Ordered p n) {o : OpenProduction} (ho : o ∈ t.stack) :
    o.start ≤ (t.entering p).start := by
  rcases entering_cases t p with ⟨g, hg, hp, he⟩ | ⟨-, he⟩
  · rw [he]
    exact (h.gate g hg).2.2 hp o ho
  · obtain ⟨outer, hs⟩ := h.stack.stands ho
    rw [he]
    exact hs.start_le

theorem entering_start_le (h : t.Ordered p n) : (t.entering p).start ≤ p := by
  rcases entering_cases t p with ⟨g, hg, hp, he⟩ | ⟨-, he⟩
  · rw [he]
    exact hp ▸ (h.gate g hg).1
  · exact Nat.le_of_eq (congrArg Entered.start he)

theorem opened (h : t.Ordered p n) (name : String) (kind : K) (cursor : Nat) :
    (t.opened name kind p cursor).Ordered p n := by
  have hlt := fun o ho => h.stack.slot_lt (o := o) ho
  have hstart := fun o ho => h.start_le_entering (o := o) ho
  have hstack : Stacked (t.opened name kind p cursor).chunks p n t.stack := by
    apply h.stack.elsewhere
    intro o ho
    rw [opened_chunks, Array.getElem?_push_lt (hlt o ho), Array.getElem?_eq_getElem (hlt o ho)]
  have hnew : (t.opened name kind p cursor).chunks[(t.entering p).slot]? =
      some (t.fresh name kind p cursor) := by
    rw [opened_chunks]
    exact Array.getElem?_push_size
  refine ⟨?_, fun _ hs => (nomatch hs), ?_⟩
  · rw [opened_stack]
    cases hs : t.stack with
    | nil =>
      refine ⟨⟨h.entering_start_le, fun _ ht => (nomatch ht), fun _ hq => (nomatch hq), _, hnew,
        ?_⟩, trivial⟩
      simp [fresh, hs]
    | cons top rest =>
      rw [hs] at hstack hstart hlt
      refine ⟨⟨h.entering_start_le, fun _ ht => (nomatch ht), ?_, _, hnew, ?_⟩,
        hstack.top rfl rfl hstack.1.touched⟩
      · intro q hq
        rcases List.mem_cons.1 hq with rfl | hq
        · exact ⟨hlt top List.mem_cons_self, hstart top List.mem_cons_self⟩
        · exact ⟨hlt q (List.mem_cons_of_mem _ hq), hstart q (List.mem_cons_of_mem _ hq)⟩
      · simp [fresh, hs]
  · intro g hg
    obtain ⟨hg, hne⟩ := opened_gate hg
    obtain ⟨hle, hstop, -⟩ := h.gate g hg
    exact ⟨hle, hstop, fun hp => absurd hp hne⟩

theorem closed (h : t.Ordered p n) (cursor : Nat) : (t.closed p cursor).Ordered p n := by
  cases hs : t.stack with
  | nil =>
    rw [closed_nil hs]
    exact h
  | cons top rest =>
    have hstack := h.stack
    have hgate := h.gate
    rw [hs] at hstack hgate
    rw [closed_eq hs]
    have hbelow : ∀ o ∈ absorb top.touched rest, o.slot < top.slot := by
      intro o ho
      obtain ⟨q, hq, hslot, -⟩ := mem_absorb ho
      exact hslot ▸ (hstack.1.around q hq).1
    refine ⟨?_, ?_, ?_⟩
    · have hrest : Stacked t.chunks p n (absorb top.touched rest) := by
        cases rest with
        | nil => trivial
        | cons parent rest =>
          cases ht : top.touched with
          | none => exact hstack.2
          | some span =>
            refine hstack.2.top rfl rfl ?_
            intro joined hj
            exact joinTouched_within hstack.2.1.touched (hstack.1.touched span ht) hj
      apply hrest.elsewhere
      intro o ho
      rw [Array.getElem?_modify, if_neg (Nat.ne_of_gt (hbelow o ho))]
    · intro slot hslot o ho
      cases hslot
      exact Nat.ne_of_lt (hbelow o ho)
    · intro g hg
      obtain ⟨hle, hstop, hopen⟩ := hgate g hg
      refine ⟨hle, hstop, ?_⟩
      intro hp o ho
      obtain ⟨q, hq, -, hstart⟩ := mem_absorb ho
      rw [hstart]
      exact hopen hp q (List.mem_cons_of_mem _ hq)

end Ordered

end Tracker

theorem Tracked.ordered {t : Tracker K} {p n : Nat} (h : Tracked t p n) : t.Ordered p n := by
  induction h with
  | empty maxDepth => exact .empty maxDepth
  | later h hp hn ih => exact ih.later hp hn
  | touch h span hn ih => exact ih.touch hn
  | lookahead h start hp hopen ih => exact ih.lookahead hp hopen
  | opened h name kind cursor hn ih => exact ih.opened name kind cursor
  | closed h cursor hn ih => exact ih.closed cursor

theorem Tracked.start_le {t : Tracker K} {p n : Nat} (h : Tracked t p n) {o : OpenProduction}
    (ho : o ∈ t.stack) : o.start ≤ p := by
  obtain ⟨outer, hs⟩ := h.ordered.stack.stands ho
  exact hs.start_le

namespace Tracker

theorem touch_starts (t : Tracker K) (span : Span) :
    (t.touch span).stack.map OpenProduction.start = t.stack.map OpenProduction.start := by
  rw [touch]
  split
  · rfl
  · cases h : t.stack with
    | nil => rw [h]
    | cons top rest => rfl

theorem closeAll_stack (t : Tracker K) (p cursor : Nat) : (t.closeAll p cursor).stack = [] := by
  have hrepeat : ∀ k, (Nat.repeat (·.closed p cursor) k t).depth = t.depth - k := by
    intro k
    induction k with
    | zero => rfl
    | succ k ih =>
      rw [Nat.repeat, closed_depth, ih]
      omega
  have hdepth : (t.closeAll p cursor).depth = 0 := by
    rw [closeAll, hrepeat]
    omega
  exact List.length_eq_zero_iff.1 hdepth

end Tracker

theorem Tracked.closeAll {t : Tracker K} {p n cursor : Nat} (h : Tracked t p n) (hn : cursor ≤ n) :
    Tracked (t.closeAll p cursor) p n := by
  have hrepeat : ∀ k, Tracked (Nat.repeat (·.closed p cursor) k t) p n := by
    intro k
    induction k with
    | zero => exact h
    | succ k ih => exact ih.closed cursor hn
  exact hrepeat t.depth

section States

variable {s t : State K}

def State.Tracks (s : State K) : Prop := Tracked s.tracker s.stream.position s.image.size

theorem Passes.starts (h : Passes s t) :
    t.tracker.stack.map OpenProduction.start = s.tracker.stack.map OpenProduction.start := by
  induction h with
  | trans h1 h2 ih1 ih2 => exact ih2.trans ih1
  | writes s bs hm h => exact Tracker.touch_starts _ _
  | marks s bs hm h => exact Tracker.touch_starts _ _
  | tosses s e h => exact congrArg (List.map _) (Tracker.lookahead_stack _ _)
  | looks offset h ih => exact (congrArg (List.map _) (Tracker.lookahead_stack _ _)).trans ih
  | returns offset h ih => exact ih
  | _ => rfl

theorem State.Tracks.touching (h : s.Tracks) (bs : Bytes) {im : Image}
    (him : im.size = max s.image.size (s.image.cursor + bs.length)) :
    (s.touching bs.length im).Tracks := by
  have hlater : Tracked s.tracker s.stream.position im.size :=
    Tracked.later h (Nat.le_refl _) (him ▸ Nat.le_max_left _ _)
  exact hlater.touch _ (him ▸ Nat.le_max_right _ _)

theorem Passes.position_le (h : Passes s t) : s.stream.position ≤ t.stream.position := by
  have hprefix := h.onward.consumed.length_le
  rwa [Stream.consumed, Stream.consumed, Array.length_toList, Array.length_toList] at hprefix

theorem Passes.tracks (h : Passes s t) (hs : s.Tracks) : t.Tracks := by
  induction h with
  | trans h1 h2 ih1 ih2 => exact ih2 (ih1 hs)
  | records s e h => exact Tracked.later hs (by simp) (Nat.le_refl _)
  | writes s bs hm h => exact hs.touching bs rfl
  | marks s bs hm h => exact hs.touching bs rfl
  | tosses s e h =>
    have hlater : (s.recorded e).Tracks := Tracked.later hs (by simp) (Nat.le_refl _)
    exact hlater.lookahead _ (by simp) fun o ho => Tracked.start_le hs ho
  | @looks s t offset h ih =>
    refine (ih hs).lookahead _ h.position_le ?_
    intro o ho
    have hmem := List.mem_map_of_mem (f := OpenProduction.start) ho
    rw [h.starts] at hmem
    obtain ⟨q, hq, hstart⟩ := List.mem_map.1 hmem
    rw [← hstart]
    exact Tracked.start_le hs hq
  | returns offset h ih => exact ih hs
  | _ => exact hs

/-- A walk starts with nothing read, nothing written and nothing open. -/
theorem Grammar.seed_start {origin : Origin} {limits : Limits} {seeded : State K}
    (h : seed origin (State.empty limits) = .ok () seeded) :
    seeded.tracker = .empty limits.maxDepth ∧ seeded.stream.position = 0 ∧
      seeded.image.cursor = 0 ∧ seeded.image.size = 0 := by
  cases origin with
  | decisions bytes =>
    rw [seed, seedGenerate] at h
    split at h
    · rename_i stream hseed
      cases h
      rw [Stream.seed] at hseed
      split at hseed
      · cases hseed
        exact ⟨rfl, rfl, rfl, rfl⟩
      · cases hseed
    · cases h
  | input bytes =>
    cases h
    exact ⟨rfl, rfl, rfl, rfl⟩

/-- A walk that covers its input gives a file of the size that it came to. -/
theorem Image.Coherent.output_length {im : Image} {m : Mode} (h : im.Coherent m)
    (hcovered : im.inputLength?.getD 0 ≤ im.size) : im.output.length = im.size := by
  have hle := h.size_le
  have hinput := h.input
  rw [Image.output]
  split
  · rw [List.length_take, Array.length_toList]
    omega
  · rename_i n hsome
    rw [hsome] at hinput hcovered
    have hsize : n = im.bytes.size := by
      split at hinput
      · exact Option.some.inj hinput
      · cases hinput
    rw [Array.length_toList]
    rw [Option.getD_some] at hcovered
    omega

variable [DecidableEq K]

theorem Act.tracks (act : Act K) (hs : s.Tracks) (hcursor : s.image.cursor ≤ s.image.size) :
    (act.perform.after s).Tracks := by
  rcases act.perform_cases s with h | ⟨name, kind, watches, h⟩ | ⟨watches, stream, hpast, h⟩
  · exact h.tracks hs
  · rw [h]
    exact Tracked.opened hs name kind _ hcursor
  · rw [h]
    have hposition : stream.position = s.stream.position := congrArg Array.size hpast
    show Tracked _ stream.position _
    rw [hposition]
    exact Tracked.closed hs _ hcursor

theorem visit_tracks (acts : List (Act K)) (hs : s.Tracks)
    (hcursor : s.image.cursor ≤ s.image.size) : (visit acts s).Tracks := by
  induction acts generalizing s with
  | nil => exact hs
  | cons act acts ih => exact ih (act.tracks hs hcursor) ((act.kept s).cursor hcursor)

/-- The chunks and points of a walk that succeeds are those of a tracker that has nothing open. -/
theorem Grammar.runFrom_tracked {g : Grammar K Unit} {limits : Limits} {origin : Origin}
    {watches ws : List (Watch K)} {w : Walk K}
    (h : (g.runFrom limits origin watches).outcome = .ok (w, ws)) :
    ∃ t : Tracker K, Tracked t w.decisions.length w.file.length ∧ t.stack = [] ∧
      w.chunks = t.chunks.toList ∧
      w.points = t.points.reverse.mergeSort InsertionPoint.notAfter := by
  obtain ⟨seeded, acts, hseed, hfinish⟩ := runFrom_visits h
  obtain ⟨hcovered, hw⟩ := (State.finish_iff _ _).1 hfinish
  cases hw
  have hstart := seed_seeded hseed
  have hkept := visit_kept acts { seeded with watches := watches }
  have hseeded : Tracked seeded.tracker seeded.stream.position seeded.image.size := by
    obtain ⟨htracker, hposition, -, hsize⟩ := seed_start hseed
    rw [htracker, hposition, hsize]
    exact .empty _
  have htracks : (visit acts { seeded with watches := watches }).Tracks :=
    visit_tracks acts hseeded hstart.cursor
  have hclosed := Tracked.closeAll htracks (hkept.cursor hstart.cursor)
  have hlength := (hkept.coherent hstart.coherent).output_length hcovered
  have hconsumed : (visit acts { seeded with watches := watches }).stream.consumed.length =
      (visit acts { seeded with watches := watches }).stream.position := Array.length_toList
  refine ⟨_, ?_, Tracker.closeAll_stack _ _ _, rfl, rfl⟩
  exact hclosed.later (Nat.le_of_eq hconsumed.symm) (Nat.le_of_eq hlength.symm)

end States

end DecisionWalk
