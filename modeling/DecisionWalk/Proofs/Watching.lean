import DecisionWalk.Proofs.Lockstep
import DecisionWalk.Proofs.MachineScopes
import DecisionWalk.Proofs.RoundTrip
import DecisionWalk.Proofs.Unwatched

/-!
# What watches see

A walk goes the same way whether it is watched or not, as long as no watch has
anything to restore. Of all the productions that fit it, a watch sees the first
one that opens: it is armed until that one closes, and then holds the place where
it stopped.
-/

set_option autoImplicit false

namespace DecisionWalk

open Walker Ending

variable {K α β σ : Type}

section Watches

structure Watch.Fresh (w : Watch K) : Prop where
  armed : w.armed = none
  observedStop : w.observedStop = none
  restore : w.restore = none

def Watch.shut (w : Watch K) (depth position : Nat) : Watch K :=
  if w.armed = some depth then
    { w with armed := none, observedStop := some position, restore := none }
  else w

theorem closeWatches_map {ws : List (Watch K)} (h : ∀ w ∈ ws, w.restore = none) (depth : Nat)
    (s : Stream) : closeWatches depth ws s = (ws.map (·.shut depth s.position), s) := by
  induction ws with
  | nil => rfl
  | cons w rest ih =>
    have hrest := ih fun v hv => h v (List.mem_cons_of_mem _ hv)
    rw [closeWatches, h w List.mem_cons_self, List.map_cons, Watch.shut]
    split
    · simp only [hrest]
    · simp only [hrest]

def Chunk.key (c : Chunk K) : Nat × K × Nat := (c.decisions.start, c.kind, c.depth)

/-- A request does not change what watches can tell of a chunk, nor where it stops. -/
theorem Passes.keys {s t : State K} (h : Passes s t) (i : Nat) :
    t.tracker.chunks[i]?.map (fun c => (c.key, c.decisions.stop)) =
      s.tracker.chunks[i]?.map fun c => (c.key, c.decisions.stop) := by
  have htouched : ∀ (tracker : Tracker K) (span : Span),
      (tracker.touch span).chunks[i]?.map (fun c => (c.key, c.decisions.stop)) =
        tracker.chunks[i]?.map fun c => (c.key, c.decisions.stop) := by
    intro tracker span
    rw [Tracker.touch_chunks]
  have hlooked : ∀ (tracker : Tracker K) (d : Span),
      (tracker.lookahead d).chunks[i]?.map (fun c => (c.key, c.decisions.stop)) =
        tracker.chunks[i]?.map fun c => (c.key, c.decisions.stop) := by
    intro tracker d
    rw [Tracker.lookahead_chunks]
    split
    · rw [Option.map_map]
      rfl
    · rfl
  induction h with
  | trans h1 h2 ih1 ih2 => exact ih2.trans ih1
  | writes s bs hm h => exact htouched _ _
  | marks s bs hm h => exact htouched _ _
  | tosses s e h => exact hlooked _ _
  | looks offset h ih => exact (hlooked _ _).trans ih
  | returns offset h ih => exact ih
  | _ => rfl

theorem Stacked.depth_lt {chunks : Array (Chunk K)} {p n : Nat} {stack : List OpenProduction}
    {o : OpenProduction} {c : Chunk K} (h : Stacked chunks p n stack) (ho : o ∈ stack)
    (hc : chunks[o.slot]? = some c) : c.depth < stack.length := by
  induction stack with
  | nil => cases ho
  | cons top rest ih =>
    rcases List.mem_cons.1 ho with rfl | ho
    · obtain ⟨d, hd, -, hdepth, -⟩ := h.1.chunk
      obtain rfl : d = c := Option.some.inj (hd.symm.trans hc)
      rw [hdepth]
      exact Nat.lt_succ_self _
    · exact Nat.lt_succ_of_lt (ih h.2 ho)

namespace Tracker

def slots (t : Tracker K) : List Nat := t.stack.map OpenProduction.slot

theorem slots_opened (t : Tracker K) (name : String) (kind : K) (p cursor : Nat) :
    (t.opened name kind p cursor).slots = t.chunks.size :: t.slots := by
  rw [slots, opened_stack, slots]
  cases t.stack <;> rfl

def Rekeyed (t u : Tracker K) : Prop :=
  ∀ i : Nat, u.chunks[i]?.map Chunk.key = t.chunks[i]?.map Chunk.key

variable {t u : Tracker K} {i : Nat} {c : Chunk K}

theorem Rekeyed.back (h : Rekeyed t u) (hc : u.chunks[i]? = some c) :
    ∃ d, t.chunks[i]? = some d ∧ d.key = c.key := by
  have hi := h i
  rw [hc] at hi
  exact Option.map_eq_some_iff.1 hi.symm

theorem Rekeyed.symm (h : Rekeyed t u) : Rekeyed u t := fun i => (h i).symm

theorem Rekeyed.trans {v : Tracker K} (h : Rekeyed t u) (h' : Rekeyed u v) : Rekeyed t v :=
  fun i => (h' i).trans (h i)

theorem closed_slots {top : OpenProduction} {rest : List OpenProduction}
    (hs : t.stack = top :: rest) (p cursor : Nat) :
    (t.closed p cursor).slots = rest.map OpenProduction.slot ∧
      t.slots = top.slot :: (t.closed p cursor).slots := by
  have hleft : (t.closed p cursor).slots = rest.map OpenProduction.slot := by
    rw [slots, closed_eq hs]
    exact absorb_map _ (fun _ _ => rfl) _ _
  refine ⟨hleft, ?_⟩
  rw [hleft, slots, hs, List.map_cons]

theorem closed_chunk {top : OpenProduction} {rest : List OpenProduction}
    (hs : t.stack = top :: rest) (p cursor i : Nat) : (t.closed p cursor).chunks[i]? =
      if top.slot = i then t.chunks[i]?.map (top.sealed p cursor) else t.chunks[i]? := by
  rw [closed_eq hs, Array.getElem?_modify]

theorem Ordered.closed_rekeyed {p n : Nat} (h : t.Ordered p n) (cursor : Nat) :
    Rekeyed t (t.closed p cursor) := by
  cases hs : t.stack with
  | nil =>
    rw [closed_nil hs]
    exact fun _ => rfl
  | cons top rest =>
    have hstack := h.stack
    rw [hs] at hstack
    obtain ⟨c, hc, -, -, hstart, -⟩ := hstack.1.chunk
    intro i
    rw [closed_chunk hs]
    split
    · rename_i hi
      rw [← hi, hc]
      simp [OpenProduction.sealed, Chunk.key, hstart]
    · rfl

/-- Closing all that is open changes the chunks of what is open, but not their places. -/
theorem Ordered.closeAll_chunks {p n : Nat} (h : t.Ordered p n) (cursor : Nat) :
    Rekeyed t (t.closeAll p cursor) ∧
      ∀ i ∉ t.slots, (t.closeAll p cursor).chunks[i]? = t.chunks[i]? := by
  have hrepeat : ∀ k, (Nat.repeat (·.closed p cursor) k t).Ordered p n ∧
      Rekeyed t (Nat.repeat (·.closed p cursor) k t) ∧
      ∀ i ∉ t.slots, i ∉ (Nat.repeat (·.closed p cursor) k t).slots ∧
        (Nat.repeat (·.closed p cursor) k t).chunks[i]? = t.chunks[i]? := by
    intro k
    induction k with
    | zero => exact ⟨h, fun _ => rfl, fun i hi => ⟨hi, rfl⟩⟩
    | succ k ih =>
      obtain ⟨ho, hr, hout⟩ := ih
      refine ⟨ho.closed cursor, hr.trans (ho.closed_rekeyed cursor), ?_⟩
      intro i hi
      obtain ⟨hopen, hsame⟩ := hout i hi
      rw [Nat.repeat]
      cases hs : (Nat.repeat (·.closed p cursor) k t).stack with
      | nil =>
        rw [closed_nil hs]
        exact ⟨hopen, hsame⟩
      | cons top rest =>
        obtain ⟨-, hslots⟩ := closed_slots hs p cursor
        rw [hslots, List.mem_cons, not_or] at hopen
        exact ⟨hopen.2, by rw [closed_chunk hs, if_neg (Ne.symm hopen.1), hsame]⟩
  obtain ⟨-, hr, hout⟩ := hrepeat t.depth
  exact ⟨hr, fun i hi => (hout i hi).2⟩

end Tracker

end Watches

section Sightings

variable [DecidableEq K]

def Watch.fits (w : Watch K) (c : Chunk K) : Bool :=
  w.start == c.decisions.start && w.kind.all (· == c.kind) && w.depth.all (· == c.depth)

theorem Watch.fits_key (w : Watch K) {c d : Chunk K} (h : c.key = d.key) : w.fits c = w.fits d := by
  simp only [Chunk.key, Prod.mk.injEq] at h
  obtain ⟨hstart, hkind, hdepth⟩ := h
  rw [fits, fits, hstart, hkind, hdepth]

theorem Watch.Fresh.awaits {w : Watch K} (h : w.Fresh) (t : Tracker K) (name : String) (kind : K)
    (p cursor : Nat) :
    w.awaits (t.entering p).start kind (t.depth + 1) = w.fits (t.fresh name kind p cursor) := by
  rw [Watch.awaits, h.armed, h.observedStop, Watch.fits]
  simp [Tracker.fresh, Tracker.depth]

namespace Tracker

structure First (t : Tracker K) (w : Watch K) (i : Nat) (c : Chunk K) : Prop where
  here : t.chunks[i]? = some c
  fits : w.fits c = true
  before : ∀ (j : Nat) (d : Chunk K), j < i → t.chunks[j]? = some d → w.fits d = false

variable {t u : Tracker K} {w : Watch K} {i : Nat} {c : Chunk K}

theorem First.lt (h : t.First w i c) : i < t.chunks.size :=
  (Array.getElem?_eq_some_iff.1 h.here).1

theorem First.rekeyed (h : t.First w i c) (hr : Rekeyed t u) :
    ∃ d, u.First w i d ∧ d.key = c.key := by
  obtain ⟨d, hd, hkey⟩ := hr.symm.back h.here
  refine ⟨d, ⟨hd, (w.fits_key hkey).trans h.fits, ?_⟩, hkey⟩
  intro j e hj he
  obtain ⟨f, hf, hkey'⟩ := hr.back he
  exact (w.fits_key hkey').symm.trans (h.before j f hj hf)

theorem First.opened (h : t.First w i c) (name : String) (kind : K) (p cursor : Nat) :
    (t.opened name kind p cursor).First w i c := by
  have hold : ∀ j, j < t.chunks.size → (t.opened name kind p cursor).chunks[j]? = t.chunks[j]? := by
    intro j hj
    rw [opened_chunks, Array.getElem?_push_lt hj, Array.getElem?_eq_getElem hj]
  refine ⟨(hold i h.lt).trans h.here, h.fits, ?_⟩
  intro j d hj hd
  rw [hold j (Nat.lt_trans hj h.lt)] at hd
  exact h.before j d hj hd

end Tracker

open Tracker

inductive Sees (t : Tracker K) (w : Watch K) : Watch K → Prop where
  | unseen (h : ∀ (i : Nat) (c : Chunk K), t.chunks[i]? = some c → w.fits c = false) : Sees t w w
  | inside {i : Nat} {c : Chunk K} (h : t.First w i c) (hi : i ∈ t.slots) :
      Sees t w { w with armed := some (c.depth + 1) }
  | behind {i : Nat} {c : Chunk K} (h : t.First w i c) (hi : i ∉ t.slots) :
      Sees t w { w with observedStop := some c.decisions.stop }

namespace Sees

variable {t u : Tracker K} {w w' : Watch K} {p n : Nat}

theorem restore (h : Sees t w w') : w'.restore = w.restore := by
  cases h <;> rfl

/-- A request leaves every watch as it is. -/
theorem passed {s s' : State K} (h : Sees s.tracker w w') (hp : Passes s s') :
    Sees s'.tracker w w' := by
  have hslots : s'.tracker.slots = s.tracker.slots := hp.extends.slots
  have hr : Rekeyed s.tracker s'.tracker := by
    intro i
    have hi := congrArg (Option.map fun x : (Nat × K × Nat) × Nat => x.1) (hp.keys i)
    rwa [Option.map_map, Option.map_map] at hi
  cases h with
  | unseen h =>
    apply unseen
    intro i d hd
    obtain ⟨c, hc, hkey⟩ := hr.back hd
    rw [← w.fits_key hkey]
    exact h i c hc
  | @inside i c h hi =>
    obtain ⟨d, hd, hkey⟩ := h.rekeyed hr
    have hdepth : d.depth = c.depth := congrArg (·.2.2) hkey
    rw [← hdepth]
    exact .inside hd (hslots ▸ hi)
  | @behind i c h hi =>
    obtain ⟨d, hd, -⟩ := h.rekeyed hr
    have hstop : d.decisions.stop = c.decisions.stop := by
      have hkeys := hp.keys i
      rw [h.here, hd.here] at hkeys
      exact congrArg Prod.snd (Option.some.inj hkeys)
    rw [← hstop]
    exact .behind hd (hslots ▸ hi)

/-- A production that opens arms the watch, if it is the first to fit it. -/
theorem opened (h : Sees t w w') (hw : w.Fresh) (name : String) (kind : K) (p cursor : Nat) :
    Sees (t.opened name kind p cursor) w (w'.arm (t.entering p).start kind (t.depth + 1)) := by
  have hpush := opened_chunks t name kind p cursor
  have hslots := slots_opened t name kind p cursor
  cases h with
  | unseen h =>
    rw [Watch.arm, hw.awaits t name kind p cursor]
    by_cases hfits : w.fits (t.fresh name kind p cursor) = true
    · rw [if_pos hfits]
      refine .inside (i := t.chunks.size) (c := t.fresh name kind p cursor) ⟨?_, hfits, ?_⟩ ?_
      · rw [hpush, Array.getElem?_push_size]
      · intro j d hj hd
        rw [hpush, Array.getElem?_push_lt hj] at hd
        exact h j d ((Array.getElem?_eq_getElem hj).trans hd)
      · rw [hslots]
        exact List.mem_cons_self
    · rw [if_neg hfits]
      apply unseen
      intro i d hd
      rw [hpush, Array.getElem?_push] at hd
      split at hd
      · cases hd
        exact Bool.eq_false_iff.2 hfits
      · exact h i d hd
  | @inside i c h hi =>
    have harm : ∀ start depth, Watch.arm { w with armed := some (c.depth + 1) } start kind depth =
        { w with armed := some (c.depth + 1) } := fun _ _ => rfl
    rw [harm]
    exact .inside (h.opened name kind p cursor) (hslots ▸ List.mem_cons_of_mem _ hi)
  | @behind i c h hi =>
    have harm : ∀ start depth,
        Watch.arm { w with observedStop := some c.decisions.stop } start kind depth =
          { w with observedStop := some c.decisions.stop } := by
      intro start depth
      rw [Watch.arm, Watch.awaits]
      simp
    rw [harm]
    refine .behind (h.opened name kind p cursor) ?_
    rw [hslots, List.mem_cons, not_or]
    exact ⟨Nat.ne_of_lt h.lt, hi⟩

section Closing

variable {top : OpenProduction} {rest : List OpenProduction} {i : Nat} {d : Chunk K}
  (ho : t.Ordered p n) (hw : w.Fresh) (hs : t.stack = top :: rest) (cursor : Nat)
include ho hw hs

theorem closed_top (h : t.First w top.slot d) :
    Sees (t.closed p cursor) w (Watch.shut { w with armed := some (d.depth + 1) } t.depth p) := by
  have hstack := ho.stack
  rw [hs] at hstack
  obtain ⟨c, hc, -, hdepth, -⟩ := hstack.1.chunk
  obtain rfl : c = d := Option.some.inj (hc.symm.trans h.here)
  have hlength : t.depth = rest.length + 1 := congrArg List.length hs
  obtain ⟨hleft, -⟩ := closed_slots hs p cursor
  obtain ⟨e, he, -⟩ := h.rekeyed (ho.closed_rekeyed cursor)
  have hsealed : e = top.sealed p cursor c := by
    have hat := closed_chunk hs p cursor top.slot
    rw [if_pos rfl, hc, he.here] at hat
    exact Option.some.inj hat
  have hshut : Watch.shut { w with armed := some (c.depth + 1) } t.depth p =
      { w with observedStop := some e.decisions.stop } := by
    rw [Watch.shut, if_pos (by rw [hdepth, hlength]), hsealed, ← hw.armed, ← hw.restore]
    rfl
  rw [hshut]
  apply Sees.behind he
  rw [hleft]
  intro hmem
  obtain ⟨q, hq, hsame⟩ := List.mem_map.1 hmem
  exact Nat.ne_of_lt (hstack.1.around q hq).1 hsame

omit hw in
theorem closed_within (h : t.First w i d) (hi : i ∈ t.slots) (hne : top.slot ≠ i) :
    Sees (t.closed p cursor) w (Watch.shut { w with armed := some (d.depth + 1) } t.depth p) := by
  have hstack := ho.stack
  rw [hs] at hstack
  have hlength : t.depth = rest.length + 1 := congrArg List.length hs
  obtain ⟨hleft, hslots⟩ := closed_slots hs p cursor
  obtain ⟨e, he, hkey⟩ := h.rekeyed (ho.closed_rekeyed cursor)
  have hmem : i ∈ (t.closed p cursor).slots := by
    rw [hslots] at hi
    exact (List.mem_cons.1 hi).resolve_left (Ne.symm hne)
  have hlt : d.depth < rest.length := by
    rw [hleft] at hmem
    obtain ⟨q, hq, rfl⟩ := List.mem_map.1 hmem
    exact hstack.2.depth_lt hq h.here
  have hsame : e.depth = d.depth := congrArg (·.2.2) hkey
  rw [Watch.shut, if_neg (by simp; omega), ← hsame]
  exact .inside he hmem

theorem closed_behind (h : t.First w i d) (hi : i ∉ t.slots) : Sees (t.closed p cursor) w
    (Watch.shut { w with observedStop := some d.decisions.stop } t.depth p) := by
  obtain ⟨-, hslots⟩ := closed_slots hs p cursor
  obtain ⟨e, he, -⟩ := h.rekeyed (ho.closed_rekeyed cursor)
  have hne : top.slot ≠ i := by
    rintro rfl
    exact hi (hslots ▸ List.mem_cons_self)
  have hsame : e = d := by
    have hat := closed_chunk hs p cursor i
    rw [if_neg hne, h.here, he.here] at hat
    exact Option.some.inj hat
  rw [Watch.shut, if_neg (by simp [hw.armed]), ← hsame]
  exact .behind he fun hmem => hi (hslots ▸ List.mem_cons_of_mem _ hmem)

end Closing

theorem closed (h : Sees t w w') (ho : t.Ordered p n) (hw : w.Fresh) {top : OpenProduction}
    {rest : List OpenProduction} (hs : t.stack = top :: rest) (cursor : Nat) :
    Sees (t.closed p cursor) w (w'.shut t.depth p) := by
  cases h with
  | unseen h =>
    rw [Watch.shut, hw.armed, if_neg (by simp)]
    apply unseen
    intro i d hd
    obtain ⟨e, he, hkey⟩ := (ho.closed_rekeyed cursor).back hd
    rw [← w.fits_key hkey]
    exact h i e he
  | @inside i d h hi =>
    by_cases hslot : top.slot = i
    · subst hslot
      exact closed_top ho hw hs cursor h
    · exact closed_within ho hs cursor h hi hslot
  | behind h hi => exact closed_behind ho hw hs cursor h hi

end Sees

def SeesAll (t : Tracker K) (ws ws' : List (Watch K)) : Prop :=
  ∃ f, ws' = ws.map f ∧ ∀ w ∈ ws, w.Fresh ∧ Sees t w (f w)

namespace SeesAll

variable {t u : Tracker K} {ws ws' : List (Watch K)} {p n : Nat}

theorem each (h : SeesAll t ws ws') (g : Watch K → Watch K)
    (hg : ∀ w w', w.Fresh → Sees t w w' → Sees u w (g w')) : SeesAll u ws (ws'.map g) := by
  obtain ⟨f, rfl, hf⟩ := h
  exact ⟨g ∘ f, List.map_map, fun w hw => ⟨(hf w hw).1, hg w (f w) (hf w hw).1 (hf w hw).2⟩⟩

theorem passed {s s' : State K} (h : SeesAll s.tracker ws ws') (hp : Passes s s') :
    SeesAll s'.tracker ws ws' := by
  have heach := h.each id fun _ _ _ hw => hw.passed hp
  rwa [List.map_id] at heach

theorem restore (h : SeesAll t ws ws') : ∀ w ∈ ws', w.restore = none := by
  obtain ⟨f, rfl, hf⟩ := h
  intro w hw
  obtain ⟨v, hv, rfl⟩ := List.mem_map.1 hw
  exact (hf v hv).2.restore.trans (hf v hv).1.restore

end SeesAll

structure Calm (s : State K) : Prop where
  unwatched : s.watches = []
  tracks : s.Tracks
  cursor : s.image.cursor ≤ s.image.size

/-- However the action ends unwatched, unless it fails, it ends so under watches, and they see what
it does. Where it has a result it leaves open what was open. -/
def Observed (ws : List (Watch K)) (x : Walker K α) : Prop :=
  ∀ s (o : Ending α) t, Calm s → x s = o.inState t →
    Calm t ∧ (∀ a, o = .ok a → t.tracker.depth = s.tracker.depth) ∧
      ∀ ws', SeesAll s.tracker ws ws' →
        ∃ ws'', SeesAll t.tracker ws ws'' ∧ x (s.watching ws') = o.inState (t.watching ws'')

namespace Observed

variable {ws : List (Watch K)}

theorem quietly {x : Walker K α} (hq : Quiet x)
    (h : ∀ s a t, Calm s → x s = .ok a t → Calm t ∧ t.tracker.depth = s.tracker.depth ∧
      ∀ ws', SeesAll s.tracker ws ws' →
        ∃ ws'', SeesAll t.tracker ws ws'' ∧ x (s.watching ws') = .ok a (t.watching ws'')) :
    Observed ws x := by
  intro s o t hs hx
  obtain ⟨a, rfl, hx⟩ := of_quiet hq hx
  obtain ⟨ht, hdepth, hwatched⟩ := h s a t hs hx
  exact ⟨ht, fun _ _ => hdepth, hwatched⟩

theorem pure (a : α) : Observed ws (pure a : Walker K α) := by
  apply quietly (Quiet.pure a)
  intro s b t hs h
  cases h
  exact ⟨hs, rfl, fun ws' hw => ⟨ws', hw, rfl⟩⟩

theorem bind {x : Walker K α} {f : α → Walker K β} (hx : Observed ws x)
    (hf : ∀ a, Observed ws (f a)) : Observed ws (x >>= f) := by
  intro s o u hs h
  rcases of_bind h with ⟨a, t, h1, h2⟩ | ⟨c, rfl, h1⟩
  · obtain ⟨ht, hdepth, hwatched⟩ := hx s (.ok a) t hs h1
    obtain ⟨hu, hdepth', hwatched'⟩ := hf a t o u ht h2
    refine ⟨hu, fun b hb => (hdepth' b hb).trans (hdepth a rfl), ?_⟩
    intro ws1 hw1
    obtain ⟨ws2, hw2, hrun⟩ := hwatched ws1 hw1
    obtain ⟨ws3, hw3, hrun'⟩ := hwatched' ws2 hw2
    exact ⟨ws3, hw3, (bind_run hrun).trans hrun'⟩
  · obtain ⟨hu, -, hwatched⟩ := hx s (.error c) u hs h1
    refine ⟨hu, fun _ hb => (nomatch hb), ?_⟩
    intro ws1 hw1
    obtain ⟨ws2, hw2, hrun⟩ := hwatched ws1 hw1
    exact ⟨ws2, hw2, bind_stopped hrun⟩

theorem answer {α : Type} (r : Request α) : Observed ws (r.answer : Walker K α) := by
  apply quietly (Quiet.answer r)
  intro s a t hs h
  have hp : Passes s t := after_ok h ▸ (Orderly.answer r s).passes
  have hdepth : t.tracker.depth = s.tracker.depth := by
    have hslots := congrArg List.length hp.extends.slots
    rwa [List.length_map, List.length_map] at hslots
  refine ⟨⟨hp.watches.trans hs.unwatched, hp.tracks hs.tracks, hp.cursor_le hs.cursor⟩, hdepth, ?_⟩
  intro ws' hw
  exact ⟨ws', hw.passed hp, Blind.answer r s a t h ws'⟩

theorem withEvil {x : Walker K α} (hx : Observed ws x) (allowed : Bool) :
    Observed ws (Walker.withEvil allowed x) := by
  intro s o t hs h
  obtain ⟨u, hr, rfl⟩ := of_withEvil h
  obtain ⟨hu, hdepth, hwatched⟩ :=
    hx { s with evil := ⟨allowed⟩ } o u ⟨hs.unwatched, hs.tracks, hs.cursor⟩ hr
  refine ⟨⟨hu.unwatched, hu.tracks, hu.cursor⟩, hdepth, ?_⟩
  intro ws' hw
  obtain ⟨ws'', hw', hrun⟩ := hwatched ws' hw
  exact ⟨ws'', hw', withEvil_ends (s := s.watching ws') hrun⟩

variable (ws) in
theorem opens {s t : State K} {name : String} {kind : K} {depth : Nat} (hs : Calm s)
    (h : Walker.openScope name kind s = .ok depth t) :
    Calm t ∧ depth = s.tracker.depth + 1 ∧ t.tracker.depth = depth ∧
      ∀ ws', SeesAll s.tracker ws ws' → ∃ ws'', SeesAll t.tracker ws ws'' ∧
        Walker.openScope name kind (s.watching ws') = .ok depth (t.watching ws'') := by
  obtain ⟨hroom, rfl⟩ := openScope_ok hs.unwatched h
  rw [openScope_run name kind hs.unwatched hroom] at h
  cases h
  refine ⟨⟨hs.unwatched, Tracked.opened hs.tracks name kind _ hs.cursor, hs.cursor⟩, rfl,
    Tracker.opened_depth _ _ _ _ _, ?_⟩
  intro ws' hw
  exact ⟨_, hw.each _ fun _ _ hfresh hsees =>
    hsees.opened hfresh name kind s.stream.position s.image.cursor, if_pos hroom⟩

variable (ws) in
/-- A production that closes shuts the watches that it armed. -/
theorem closes {s t : State K} {a : Unit} {depth : Nat} (hs : Calm s)
    (hdepth : s.tracker.depth = depth + 1) (h : Walker.closeScope (depth + 1) s = .ok a t) :
    Calm t ∧ t.tracker.depth = depth ∧
      ∀ ws', SeesAll s.tracker ws ws' → ∃ ws'', SeesAll t.tracker ws ws'' ∧
        Walker.closeScope (depth + 1) (s.watching ws') = .ok a (t.watching ws'') := by
  rw [closeScope_run _ hs.unwatched] at h
  cases h
  obtain ⟨top, rest, hstack⟩ : ∃ top rest, s.tracker.stack = top :: rest := by
    cases hs2 : s.tracker.stack with
    | nil =>
      rw [Tracker.depth, hs2] at hdepth
      cases hdepth
    | cons top rest => exact ⟨top, rest, rfl⟩
  refine ⟨⟨hs.unwatched, Tracked.closed hs.tracks _ hs.cursor, hs.cursor⟩, ?_, ?_⟩
  · have hclosed : (s.tracker.closed s.stream.position s.image.cursor).depth =
        s.tracker.depth - 1 := Tracker.closed_depth _ _ _
    show (s.tracker.closed s.stream.position s.image.cursor).depth = _
    omega
  · intro ws' hw
    refine ⟨_, hw.each (·.shut s.tracker.depth s.stream.position) fun _ _ hfresh hsees =>
      hsees.closed hs.tracks.ordered hfresh hstack s.image.cursor, ?_⟩
    rw [Walker.closeScope]
    simp only [State.watching, closeWatches_map hw.restore, hdepth]
    rfl

/-- A production around a body. -/
theorem scope {x : Walker K α} (hx : Observed ws x) (name : String) (kind : K) :
    Observed ws (do
      let depth ← Walker.openScope name kind
      let a ← x
      Walker.closeScope depth
      Pure.pure a) := by
  intro s o t hs h
  rcases of_bind h with ⟨depth, s1, hopen, h⟩ | ⟨c, -, hstop⟩
  · obtain ⟨h1, rfl, hdepth, hopened⟩ := opens ws hs hopen
    rcases of_bind h with ⟨b, s2, hbody, h⟩ | ⟨c, rfl, hstop⟩
    · obtain ⟨h2, hinner, hwatched⟩ := hx s1 (.ok b) s2 h1 hbody
      rcases of_bind h with ⟨_, s3, hclose, h⟩ | ⟨c, -, hstop⟩
      · obtain ⟨rfl, rfl⟩ := ok_eq h
        obtain ⟨h3, hback, hclosed⟩ := closes ws h2 ((hinner b rfl).trans hdepth) hclose
        refine ⟨h3, fun _ _ => hback, ?_⟩
        intro ws1 hw1
        obtain ⟨ws2, hw2, hrun⟩ := hopened ws1 hw1
        obtain ⟨ws3, hw3, hrun'⟩ := hwatched ws2 hw2
        obtain ⟨ws4, hw4, hrun''⟩ := hclosed ws3 hw3
        refine ⟨ws4, hw4, ?_⟩
        rw [bind_run hrun, bind_run hrun', bind_run hrun'']
        rfl
      · exact absurd hstop (Quiet.closeScope _ _ _ _ _)
    · -- The body stops the walk, and the production is left open.
      obtain ⟨ht, -, hwatched⟩ := hx s1 (.error c) t h1 hstop
      refine ⟨ht, fun _ hb => (nomatch hb), ?_⟩
      intro ws1 hw1
      obtain ⟨ws2, hw2, hrun⟩ := hopened ws1 hw1
      obtain ⟨ws3, hw3, hrun'⟩ := hwatched ws2 hw2
      exact ⟨ws3, hw3, (bind_run hrun).trans (bind_stopped hrun')⟩
  · exact absurd hstop (Quiet.openScope _ _ _ _ _ _)

variable (ws) in
theorem composes : Composes fun _ x => Observed ws x where
  pure _ a := .pure a
  stalled _ := quietly (Quiet.defect _) fun s r t _ h => absurd h (throw_not_ok _ s t r)
  bind _ _ _ _ hx hf := hx.bind hf
  reads _ _ hf s := hf s.stream s

end Observed

theorem Grammar.run_observed (ws : List (Watch K)) (g : Grammar K α) : Observed ws g.run := by
  induction g with
  | done a => exact .pure a
  | ask request next ih => exact (Observed.answer request).bind ih
  | scope name kind body next ihb ih =>
    have hscope := (ihb.scope name kind).bind ih
    simp only [bind_assoc, pure_bind] at hscope
    exact hscope
  | withEvil allowed body next ihb ih => exact (ihb.withEvil allowed).bind ih
  | loop body init next ihb ih =>
    intro s o t hs h
    exact (((Observed.composes ws).iterate ihb (s.stream.capacity + 1) init).bind ih) s o t hs h
  | stop code reason =>
    intro s o t hs h
    obtain ⟨_, _, rfl, hcode, rfl⟩ := error_eq h
    cases hcode
    exact ⟨hs, fun _ hb => (nomatch hb), fun ws1 hw1 => ⟨ws1, hw1, rfl⟩⟩

omit [DecidableEq K] in
theorem Calm.generating (limits : Limits) (decisions : Bytes) :
    Calm (State.generating limits decisions : State K) :=
  ⟨rfl, Tracked.empty _, Nat.le_refl _⟩

theorem SeesAll.start {limits : Limits} {decisions : Bytes} {ws : List (Watch K)}
    (h : ∀ w ∈ ws, w.Fresh) :
    SeesAll (State.generating limits decisions : State K).tracker ws ws :=
  ⟨id, (List.map_id _).symm, fun w hw => ⟨h w hw, .unseen fun i c hc => by cases hc⟩⟩

def Walk.shows (w : Walk K) (watch : Watch K) : Watch K :=
  match w.chunks.find? watch.fits with
  | none => watch
  | some c => { watch with observedStop := some c.decisions.stop }

/-- Where nothing is open any more, the watch holds what the walk shows. -/
theorem Sees.finished {s : State K} {w w' : Watch K} (h : Sees s.tracker w w')
    (hs : s.tracker.depth = 0) : w' = s.walked.shows w := by
  have hslots : s.tracker.slots = [] := by
    rw [Tracker.slots, List.length_eq_zero_iff.1 hs]
    rfl
  cases h with
  | unseen h =>
    have hnone : s.tracker.chunks.toList.find? w.fits = none := by
      rw [List.find?_eq_none]
      intro c hc
      obtain ⟨i, hi⟩ := List.mem_iff_getElem?.1 hc
      rw [Array.getElem?_toList] at hi
      rw [h i c hi]
      exact Bool.false_ne_true
    rw [Walk.shows, show s.walked.chunks = s.tracker.chunks.toList from rfl, hnone]
  | inside h hi =>
    rw [hslots] at hi
    cases hi
  | @behind i c h hi =>
    have hsome : s.tracker.chunks.toList.find? w.fits = some c := by
      rw [List.find?_eq_some_iff_getElem]
      refine ⟨h.fits, i, by rw [Array.length_toList]; exact h.lt, ?_, ?_⟩
      · rw [Array.getElem_toList]
        exact (Array.getElem?_eq_some_iff.1 h.here).2
      · intro j hj
        rw [h.before j _ hj (by rw [← Array.getElem?_toList]; exact List.getElem?_eq_getElem _)]
        rfl
    rw [Walk.shows, show s.walked.chunks = s.tracker.chunks.toList from rfl, hsome]

/-- What generates a walk generates it under fresh watches, and each of them sees the first chunk
that fits it. -/
theorem Grammar.replay_shows {g : Grammar K Unit} (hg : g.StopsIn (· ≠ 0)) {limits : Limits}
    {decisions : Bytes} {w : Walk K} (h : g.generate limits decisions = .ok w)
    {watches : List (Watch K)} (hfresh : ∀ v ∈ watches, v.Fresh) :
    g.replay limits decisions watches = .ok (w, watches.map w.shows) := by
  have hfits := generate_fits h
  rw [generate_run g hfits] at h
  obtain ⟨t, ws, hrun, hfinish⟩ := conclude_ok hg h
  obtain ⟨-, hdepth, hwatched⟩ :=
    run_observed watches g _ (.ok ()) t (.generating limits decisions) hrun
  replace hdepth : t.tracker.depth = 0 := hdepth () rfl
  obtain ⟨_, ⟨f, rfl, hsees⟩, hrun'⟩ := hwatched watches (.start hfresh)
  obtain ⟨hcovered, -⟩ := (State.finish_iff _ _).1 hfinish
  rw [State.finish_walked t hdepth, if_pos hcovered] at hfinish
  cases hfinish
  have hshown : watches.map f = watches.map t.walked.shows :=
    List.map_congr_left fun v hv => (hsees v hv).2.finished hdepth
  have hwalked : (t.watching (watches.map f)).finish = .ok (t.walked, watches.map f) :=
    (State.finish_walked (t.watching (watches.map f)) hdepth).trans (if_pos hcovered)
  rw [replay, runFrom_decisions g hfits]
  show (conclude (g.run ((State.generating limits decisions).watching watches))).outcome = _
  rw [hrun', ← hshown]
  exact hwalked

end Sightings

section Expectations

variable [DecidableEq K]

/-- A call leaves the watches set to what they are set to. -/
theorem Act.expects (act : Act K) (s : State K) :
    (act.perform.after s).watches.map Watch.expectedStop =
      s.watches.map Watch.expectedStop := by
  cases act with
  | ask request => rw [(Act.ask_orderly request s).passes.watches]
  | opens name kind =>
    by_cases hd : s.tracker.depth < s.tracker.maxDepth
    · have harm : ∀ (w : Watch K) (start depth : Nat),
          (w.arm start kind depth).expectedStop = w.expectedStop := by
        intro w start depth
        rw [Watch.arm]
        split <;> rfl
      have hopened : (Act.perform (.opens name kind)).after s = _ :=
        after_ok (bind_run (if_pos hd))
      rw [hopened]
      show (s.watches.map _).map Watch.expectedStop = _
      rw [List.map_map]
      exact List.map_congr_left fun w _ => harm w _ _
    · have hstill : (Act.perform (.opens name kind)).after s = s :=
        after_error (bind_error (if_neg hd))
      rw [hstill]
  | closes depth => exact closeWatches_keeps Watch.expectedStop (fun _ _ => rfl) depth _ _

theorem visit_expects (acts : List (Act K)) (s : State K) :
    (visit acts s).watches.map Watch.expectedStop = s.watches.map Watch.expectedStop := by
  induction acts generalizing s with
  | nil => rfl
  | cons act acts ih => exact (ih _).trans (act.expects s)

theorem Grammar.replay_expects {g : Grammar K Unit} {limits : Limits} {decisions : Bytes}
    {watches ws : List (Watch K)} {w : Walk K}
    (h : g.replay limits decisions watches = .ok (w, ws)) :
    ws.map Watch.expectedStop = watches.map Watch.expectedStop := by
  obtain ⟨seeded, acts, -, hfinish⟩ := runFrom_visits h
  obtain ⟨-, hends⟩ := (State.finish_iff _ _).1 hfinish
  cases hends
  exact visit_expects acts _

end Expectations

end DecisionWalk
