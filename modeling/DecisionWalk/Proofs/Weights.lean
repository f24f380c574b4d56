import DecisionWalk.Proofs.MachineFormats
import DecisionWalk.Proofs.Scanning
import DecisionWalk.Proofs.Watching

/-!
# No chunk without a decision

What a production has taken is known when it is closed. If the body of every
production takes a decision, no chunk of a walk is empty of decisions. So it is in
both formats, whose productions all have a tag, a length or a look inside, and
whose walks have a chunk at least, that of the whole file.
-/

set_option autoImplicit false

namespace DecisionWalk

open Walker

variable {K α β σ : Type} {s t u : State K}

namespace Tracker

variable {t : Tracker K}

def Laden (t : Tracker K) : Prop :=
  ∀ (i : Nat) (c : Chunk K), t.chunks[i]? = some c → i ∉ t.slots →
    c.decisions.start < c.decisions.stop

theorem Laden.opened (h : t.Laden) (name : String) (kind : K) (p cursor : Nat) :
    (t.opened name kind p cursor).Laden := by
  intro i c hc hi
  rw [slots_opened, List.mem_cons, not_or] at hi
  rw [opened_chunks, Array.getElem?_push, if_neg hi.1] at hc
  exact h i c hc hi.2

theorem Laden.closed {top : OpenProduction} {rest : List OpenProduction} {p : Nat} (h : t.Laden)
    (hs : t.stack = top :: rest) (hstart : top.start < p) (cursor : Nat) :
    (t.closed p cursor).Laden := by
  obtain ⟨-, hslots⟩ := closed_slots hs p cursor
  intro i c hc hi
  rw [closed_chunk hs] at hc
  split at hc
  case isTrue =>
    obtain ⟨d, -, rfl⟩ := Option.map_eq_some_iff.1 hc
    exact hstart
  case isFalse hne =>
    refine h i c hc ?_
    rw [hslots, List.mem_cons, not_or]
    exact ⟨Ne.symm hne, hi⟩

end Tracker

theorem Passes.laden (h : Passes s t) (hs : s.tracker.Laden) : t.tracker.Laden := by
  intro i c hc hi
  have hslots : t.tracker.slots = s.tracker.slots := h.extends.slots
  have hkeys := h.keys i
  rw [hc] at hkeys
  obtain ⟨d, hd, hsame⟩ := Option.map_eq_some_iff.1 hkeys.symm
  have hstart : d.decisions.start = c.decisions.start := congrArg (·.1.1) hsame
  have hstop : d.decisions.stop = c.decisions.stop := congrArg (·.2) hsame
  rw [← hstart, ← hstop]
  exact hs i d hd (hslots ▸ hi)

structure Loaded (s : State K) : Prop where
  tracks : s.Tracks
  cursor : s.image.cursor ≤ s.image.size
  laden : s.tracker.Laden

theorem Loaded.opened [DecidableEq K] {name : String} {kind : K} {depth : Nat} (hs : Loaded s)
    (h : openScope name kind s = .ok depth t) : Loaded t := by
  obtain rfl := openScope_cases h
  exact ⟨Tracked.opened hs.tracks name kind _ hs.cursor, hs.cursor, hs.laden.opened name kind _ _⟩

structure Balanced (s t : State K) : Prop extends Extends s t where
  starts : t.tracker.stack.map OpenProduction.start = s.tracker.stack.map OpenProduction.start

theorem Balanced.refl (s : State K) : Balanced s s := ⟨.refl s, rfl⟩

theorem Balanced.trans (h : Balanced s t) (h' : Balanced t u) : Balanced s u :=
  ⟨h.toExtends.trans h'.toExtends, h'.starts.trans h.starts⟩

def Loads (x : Walker K α) : Prop :=
  ∀ s a t, Loaded s → x s = .ok a t → Loaded t ∧ Balanced s t

def Moves (x : Walker K α) : Prop :=
  ∀ s a t, x s = .ok a t → s.stream.position < t.stream.position

namespace Loads

theorem pure (a : α) : Loads (pure a : Walker K α) := by
  intro s b t hs h
  cases h
  exact ⟨hs, .refl s⟩

theorem failing {x : Walker K α} (h : ∀ s a t, x s ≠ .ok a t) : Loads x :=
  fun s a t _ hx => absurd hx (h s a t)

theorem bind {x : Walker K α} {f : α → Walker K β} (hx : Loads x) (hf : ∀ a, Loads (f a)) :
    Loads (x >>= f) := by
  intro s b u hs h
  obtain ⟨a, t, h1, h2⟩ := bind_ok.1 h
  obtain ⟨ht, hst⟩ := hx s a t hs h1
  obtain ⟨hu, htu⟩ := hf a t b u ht h2
  exact ⟨hu, hst.trans htu⟩

theorem answer (r : Request α) : Loads (r.answer : Walker K α) := by
  intro s a t hs h
  have hp : Passes s t := after_ok h ▸ (Orderly.answer r s).passes
  exact ⟨⟨hp.tracks hs.tracks, hp.cursor_le hs.cursor, hp.laden hs.laden⟩, hp.extends, hp.starts⟩

theorem withEvil {x : Walker K α} (hx : Loads x) (allowed : Bool) :
    Loads (Walker.withEvil allowed x) := by
  intro s a t hs h
  obtain ⟨u, hr, rfl⟩ := Ending.of_withEvil (o := .ok a) h
  obtain ⟨hu, hbalanced⟩ :=
    hx { s with evil := ⟨allowed⟩ } a u ⟨hs.tracks, hs.cursor, hs.laden⟩ hr
  exact ⟨⟨hu.tracks, hu.cursor, hu.laden⟩, ⟨⟨hbalanced.position, hbalanced.capacity,
    hbalanced.slots, hbalanced.chunks⟩, hbalanced.starts⟩⟩

theorem composes : Composes (K := K) fun _ x => Loads x where
  pure _ a := .pure a
  stalled _ := failing fun s a t => throw_not_ok _ s t a
  bind _ _ _ _ hx hf := hx.bind hf
  reads _ _ hf s := hf s.stream s

variable [DecidableEq K]

/-- A production whose body takes a decision. -/
theorem scope {x : Walker K α} (hx : Loads x) (hmoves : Moves x) (name : String) (kind : K) :
    Loads (do
      let depth ← Walker.openScope name kind
      let a ← x
      Walker.closeScope depth
      Pure.pure a) := by
  intro s a t hs h
  obtain ⟨depth, s1, hopen, h⟩ := bind_ok.1 h
  obtain ⟨b, s2, hbody, h⟩ := bind_ok.1 h
  obtain ⟨_, s3, hclose, h⟩ := bind_ok.1 h
  cases h
  have hs1 := openScope_cases hopen
  obtain ⟨hs2, hinside⟩ := hx s1 _ s2 (hs.opened hopen) hbody
  have hmoved : s.stream.position < s2.stream.position := by
    have hlt := hmoves s1 _ s2 hbody
    rwa [hs1] at hlt
  obtain ⟨top, rest, -, hstack, -⟩ := hinside.innermost hopen
  have hstarts := hinside.starts
  rw [hstack, hs1, Tracker.opened_stack, List.map_cons, List.map_cons, List.cons.injEq] at hstarts
  have hstart : top.start < s2.stream.position := by
    rw [hstarts.1]
    exact Nat.lt_of_le_of_lt (Tracked.ordered hs.tracks).entering_start_le hmoved
  have haround := hinside.around hopen hclose
  obtain ⟨watches, stream, hpast, rfl⟩ := closeScope_closed hclose
  have hposition : stream.position = s2.stream.position := congrArg Array.size hpast
  refine ⟨⟨?_, hs2.cursor, hs2.laden.closed hstack hstart _⟩, haround, ?_⟩
  · show Tracked _ stream.position _
    rw [hposition]
    exact Tracked.closed hs2.tracks _ hs2.cursor
  · show (s2.tracker.closed _ _).stack.map _ = _
    rw [Tracker.closed_eq hstack, Tracker.absorb_map _ fun _ _ => rfl, hstarts.2]
    cases s.tracker.stack <;> rfl

end Loads

namespace Grammar

variable [DecidableEq K]

def Costly : {α : Type} → Grammar K α → Prop
  | _, .done _ => True
  | _, .ask _ next => ∀ b, (next b).Costly
  | _, .scope _ _ body next => Moves body.run ∧ body.Costly ∧ ∀ b, (next b).Costly
  | _, .withEvil _ body next => body.Costly ∧ ∀ b, (next b).Costly
  | _, .loop body _ next => (∀ a, (body a).Costly) ∧ ∀ b, (next b).Costly
  | _, .stop _ _ => True

/-- Each construct of a costly grammar loads what it opens. -/
theorem run_loads {g : Grammar K α} (hg : g.Costly) : Loads g.run := by
  induction g with
  | done a => exact .pure a
  | ask request next ih => exact (Loads.answer request).bind fun b => ih b (hg b)
  | scope name kind body next ihb ih =>
    have hscope := ((ihb hg.2.1).scope hg.1 name kind).bind fun b => ih b (hg.2.2 b)
    simp only [bind_assoc, pure_bind] at hscope
    exact hscope
  | withEvil allowed body next ihb ih =>
    exact ((ihb hg.1).withEvil allowed).bind fun b => ih b (hg.2 b)
  | loop body init next ihb ih =>
    intro s a t hs h
    exact ((Loads.composes.iterate (fun a => ihb a (hg.1 a)) (s.stream.capacity + 1) init).bind
      fun b => ih b (hg.2 b)) s a t hs h
  | stop code reason => exact .failing fun _ _ _ => throw_not_ok _ _ _ _

theorem costly_bind {g : Grammar K α} {f : α → Grammar K β} (hg : g.Costly)
    (hf : ∀ a, (f a).Costly) : (g >>= f).Costly := by
  show (g.bind f).Costly
  induction g with
  | done a => exact hf a
  | ask request next ih => exact fun b => ih b (hg b) hf
  | scope name kind body next ihb ih => exact ⟨hg.1, hg.2.1, fun b => ih b (hg.2.2 b) hf⟩
  | withEvil allowed body next ihb ih => exact ⟨hg.1, fun b => ih b (hg.2 b) hf⟩
  | loop body init next ihb ih => exact ⟨hg.1, fun b => ih b (hg.2 b) hf⟩
  | stop code reason => trivial

theorem costly_request (r : Request α) : (request r : Grammar K α).Costly := fun _ => trivial

theorem costly_literal (n : Nat) (bytes : Bytes) :
    (discard (underEvil false (request (.bytesKnown n [bytes]))) : Grammar K Unit).Costly :=
  ⟨fun _ => trivial, fun _ => trivial⟩

section Moving

variable {g : Grammar K α} {f : α → Grammar K β}

theorem moves_bind (hg : Moves g.run) : Moves (g >>= f).run := by
  intro s b u h
  rw [run_bind] at h
  obtain ⟨a, t, h1, h2⟩ := bind_ok.1 h
  exact Nat.lt_of_lt_of_le (hg s a t h1) (run_position_le h2)

theorem moves_behind (hf : ∀ a, Moves (f a).run) : Moves (g >>= f).run := by
  intro s b u h
  rw [run_bind] at h
  obtain ⟨a, t, h1, h2⟩ := bind_ok.1 h
  exact Nat.lt_of_le_of_lt (run_position_le h1) (hf a t b u h2)

theorem moves_stop (code : Int) (reason : String) : Moves (stop code reason : Grammar K α).run :=
  fun _ _ _ h => absurd h (throw_not_ok _ _ _ _)

theorem moves_literal (n : Nat) (bytes : Bytes) :
    Moves (discard (underEvil false (request (.bytesKnown n [bytes]))) : Grammar K Unit).run := by
  intro s a t h
  rw [run_discard, run_underEvil, run_request] at h
  obtain ⟨bs, u, h, hend⟩ := bind_ok.1 h
  cases hend
  obtain ⟨v, hr, rfl⟩ := Ending.of_withEvil (o := .ok bs) h
  exact (readBytesKnown_spells hr).2.position

theorem moves_oneOf (width : Nat) (known : List Nat) :
    Moves (discard (request (.uintKnown width known)) : Grammar K Unit).run := by
  intro s a t h
  rw [run_discard, run_request] at h
  obtain ⟨v, u, h, hend⟩ := bind_ok.1 h
  cases hend
  obtain ⟨bs, -, hspells⟩ := readUIntKnown_spells h
  exact hspells.position

theorem moves_inScope (hg : Moves g.run) (name : String) (kind : K) :
    Moves (inScope name kind g).run := by
  intro s a t h
  rw [run_inScope] at h
  obtain ⟨depth, s1, hopen, h⟩ := bind_ok.1 h
  obtain ⟨b, s2, hbody, h⟩ := bind_ok.1 h
  obtain ⟨_, s3, hclose, h⟩ := bind_ok.1 h
  cases h
  have hlt := hg s1 _ s2 hbody
  obtain rfl := openScope_cases hopen
  obtain ⟨watches, stream, hpast, rfl⟩ := closeScope_closed hclose
  have hposition : stream.position = s2.stream.position := congrArg Array.size hpast
  show s.stream.position < stream.position
  rw [hposition]
  exact hlt

end Moving

/-- A costly production has a chunk. -/
theorem inScope_chunks {name : String} {kind : K} {body : Grammar K α} {a : α}
    (hbody : body.Costly) (hs : Loaded s) (h : (inScope name kind body).run s = .ok a t) :
    0 < t.tracker.chunks.size := by
  rw [run_inScope] at h
  obtain ⟨depth, s1, hopen, h⟩ := bind_ok.1 h
  obtain ⟨b, s2, hrun, h⟩ := bind_ok.1 h
  obtain ⟨_, s3, hclose, h⟩ := bind_ok.1 h
  cases h
  obtain ⟨-, hinside⟩ := run_loads hbody s1 _ s2 (hs.opened hopen) hrun
  obtain ⟨top, rest, c, -, -, hc, -⟩ := hinside.innermost hopen
  obtain ⟨watches, stream, hpast, rfl⟩ := closeScope_closed hclose
  show 0 < (s2.tracker.closed _ _).chunks.size
  rw [Tracker.closed_chunks_size]
  exact Nat.zero_lt_of_lt (Array.getElem?_eq_some_iff.1 hc).1

omit [DecidableEq K] in
theorem seed_loaded {limits : Limits} {origin : Origin} {a : Unit} {seeded : State K}
    (h : seed origin (State.empty limits) = .ok a seeded) (watches : List (Watch K))
    (order : Endian) : Loaded { seeded with watches := watches, endian := order } := by
  obtain ⟨htracker, hposition, hcursor, hsize⟩ := seed_start h
  refine ⟨?_, ?_, ?_⟩
  · show Tracked seeded.tracker seeded.stream.position seeded.image.size
    rw [htracker, hposition, hsize]
    exact .empty _
  · show seeded.image.cursor ≤ seeded.image.size
    omega
  · show seeded.tracker.Laden
    rw [htracker]
    exact fun i c hc => by cases hc

/-- Where a whole file is one production, and every production takes a decision, a walk has chunks
and none of them is empty of decisions. -/
theorem rooted_laden {order : Endian} {name : String} {kind : K} {body : Grammar K Unit}
    {limits : Limits} {origin : Origin} {watches ws : List (Watch K)} {w : Walk K}
    (hstops : body.StopsIn (· ≠ 0)) (hmoves : Moves body.run) (hbody : body.Costly)
    (h : ((request (.setEndian order) >>= fun _ => inScope name kind body : Grammar K Unit).runFrom
      limits origin watches).outcome = .ok (w, ws)) :
    w.chunks ≠ [] ∧ ∀ c ∈ w.chunks, c.decisions.start < c.decisions.stop := by
  rw [runFrom] at h
  cases hseed : seed origin (State.empty limits : State K) with
  | error e s =>
    rw [hseed] at h
    cases h
  | ok _ seeded =>
    rw [hseed] at h
    have hwalk : (conclude ((request (.setEndian order) >>= fun _ => inScope name kind body :
        Grammar K Unit).run { seeded with watches := watches })).outcome.map Prod.fst = .ok w := by
      rw [h]
      rfl
    have hstop : (request (.setEndian order) >>= fun _ =>
        inScope name kind body : Grammar K Unit).StopsIn (· ≠ 0) :=
      fun _ => ⟨hstops, fun _ => trivial⟩
    obtain ⟨t, ws', hrun, hfinish⟩ := conclude_ok hstop hwalk
    obtain ⟨htracker, -⟩ := seed_start hseed
    have hstart := seed_loaded hseed watches order
    have hscope : (inScope name kind body).run
        { seeded with watches := watches, endian := order } = .ok () t := hrun
    have hcostly : (inScope name kind body).Costly := ⟨hmoves, hbody, fun _ => trivial⟩
    obtain ⟨ht, hbalanced⟩ := run_loads hcostly _ _ t hstart hscope
    have hslots : t.tracker.slots = [] := by
      rw [Tracker.slots, hbalanced.slots]
      show seeded.tracker.stack.map _ = _
      rw [htracker]
      rfl
    have hdepth : t.tracker.depth = 0 := by
      have hlength := congrArg List.length hslots
      rwa [Tracker.slots, List.length_map] at hlength
    obtain ⟨hcovered, -⟩ := (State.finish_iff _ _).1 hfinish
    rw [State.finish_walked t hdepth, if_pos hcovered] at hfinish
    cases hfinish
    refine ⟨?_, ?_⟩
    · have hsize := inScope_chunks hbody hstart hscope
      rw [← Array.length_toList] at hsize
      exact List.length_pos_iff.1 hsize
    · intro c hc
      obtain ⟨i, hi⟩ := List.getElem?_of_mem hc
      refine ht.laden i c (Array.getElem?_toList ▸ hi) ?_
      rw [hslots]
      exact List.not_mem_nil

end Grammar

namespace Png

open Grammar

theorem framed_moves (type : Bytes) (body : Rule) : Moves (framed type body).run :=
  moves_behind fun _ => moves_bind (moves_literal 4 type)

theorem sized_moves (length : Nat) (type : Bytes) (body : Rule) :
    Moves (sized length type body).run :=
  moves_bind (moves_oneOf 4 [length])

theorem dataRule_moves : Moves dataRule.run := by
  refine moves_behind fun length => moves_behind fun room => ?_
  by_cases hroom : room < length + 8
  · rw [if_pos hroom]
    exact moves_stop _ _
  · rw [if_neg hroom]
    exact framed_moves _ _

theorem textRule_moves : Moves textRule.run := moves_behind fun _ => framed_moves _ _

theorem fileRule_moves : Moves fileRule.run :=
  moves_bind (moves_inScope (moves_literal 8 signatureBytes) "signature" Kind.signature)

theorem framed_costly {type : Bytes} {body : Rule} (hb : body.Costly) :
    (framed type body).Costly := by
  refine costly_bind (costly_request _) fun start => ?_
  refine costly_bind (costly_literal 4 type) fun _ => ?_
  exact costly_bind hb fun _ _ _ _ => trivial

theorem sized_costly {length : Nat} {type : Bytes} {body : Rule} (hb : body.Costly) :
    (sized length type body).Costly :=
  fun _ => framed_costly hb

theorem dataRule_costly : dataRule.Costly := by
  intro length room
  show Grammar.Costly (if room < length + 8 then _ else _)
  split
  · trivial
  · exact framed_costly fun _ => trivial

theorem following_costly : following.Costly := by
  have hlook : (underEvil false (request (.lookBytes 4 4 followingTypes)) :
      Grammar Kind Bytes).Costly := ⟨fun _ => trivial, fun _ => trivial⟩
  refine costly_bind hlook fun type => ?_
  rcases chunkOf_cases type with h | h | h | h | h <;> rw [h]
  · exact ⟨dataRule_moves, dataRule_costly, fun _ => trivial⟩
  · exact ⟨textRule_moves, fun _ => framed_costly fun _ _ _ _ _ => trivial, fun _ => trivial⟩
  · exact ⟨sized_moves _ _ _, sized_costly fun _ _ _ => trivial, fun _ => trivial⟩
  · exact ⟨sized_moves _ _ _, sized_costly fun _ _ _ _ _ _ => trivial, fun _ => trivial⟩
  · exact ⟨sized_moves _ _ _, sized_costly trivial, fun _ => trivial⟩

theorem fileRule_costly : fileRule.Costly := by
  have hheader : headerRule.Costly := sized_costly fun _ _ _ _ _ _ _ => trivial
  exact ⟨moves_literal 8 _, costly_literal 8 _, fun _ => ⟨sized_moves _ _ _, hheader, fun _ =>
    ⟨fun _ => following_costly, fun _ => trivial⟩⟩⟩

/-- No chunk of a PNG is empty of decisions, and there is one at least. -/
theorem chunks_laden {limits : Limits} {origin : Origin} {watches ws : List (Watch Kind)}
    {w : Walk Kind} (h : (png.grammar.runFrom limits origin watches).outcome = .ok (w, ws)) :
    w.chunks ≠ [] ∧ ∀ c ∈ w.chunks, c.decisions.start < c.decisions.stop :=
  rooted_laden (grammar_stops (by decide) ()).1 fileRule_moves fileRule_costly h

end Png

namespace Riff

open Grammar

/-- The tag is what comes first. -/
theorem tag_moves (expected : Bytes) (rest : Rule) : Moves (tag expected >>= fun _ => rest).run :=
  moves_bind (moves_literal 4 expected)

theorem containerRule_moves : Moves containerRule.run := tag_moves riffTag _

theorem payload_costly {what : String} {body : Nat → Rule} (hb : ∀ size, (body size).Costly) :
    (payloadSize what >>= body).Costly := by
  refine costly_bind ?_ hb
  intro size room
  show Grammar.Costly (if room < size then _ else _)
  split <;> trivial

theorem pad_costly (size : Nat) : (pad size).Costly := by
  rw [pad]
  split
  · exact fun _ => trivial
  · trivial

theorem listRule_costly : listRule.Costly := by
  refine costly_bind (costly_literal 4 listTag) fun _ => payload_costly fun size => ?_
  split
  · trivial
  · exact fun _ _ => pad_costly size

theorem dataRule_costly : dataRule.Costly :=
  costly_bind (costly_literal 4 dataTag) fun _ => payload_costly fun size _ _ _ _ _ =>
    pad_costly size

theorem junkRule_costly : junkRule.Costly :=
  costly_bind (costly_literal 4 junkTag) fun _ => payload_costly fun size _ => pad_costly size

theorem trailing_costly : trailing.Costly := by
  intro ends
  cases ends with
  | true => trivial
  | false => exact ⟨tag_moves _ _, junkRule_costly, fun _ => trivial⟩

/-- The samples, and the junk behind them. -/
theorem samples_costly (total : Reserved) : (do
    inScope "data" Kind.data dataRule
    repeatFrom () fun _ => trailing
    let size ← request .fileSize
    request (.patch total (size - 8)) : Rule).Costly :=
  ⟨tag_moves _ _, dataRule_costly, fun _ => ⟨fun _ => trailing_costly, fun _ _ _ => trivial⟩⟩

theorem containerRule_costly : containerRule.Costly := by
  have hformat : (inScope "fmt" Kind.format formatRule).Costly :=
    ⟨tag_moves _ _, ⟨fun _ => trivial, fun _ _ _ _ _ _ _ _ => trivial⟩, fun _ => trivial⟩
  have hlook : (underEvil false (request (.lookBytes 0 4 [listTag, dataTag])) :
      Grammar Kind Bytes).Costly := ⟨fun _ => trivial, fun _ => trivial⟩
  refine costly_bind (costly_literal 4 riffTag) fun _ => ?_
  refine costly_bind (costly_request _) fun total => ?_
  have hform : Grammar.Costly (discard (request (.bytesKnown 4 formTypes)) : Rule) :=
    fun _ => trivial
  refine costly_bind hform fun _ => ?_
  refine costly_bind hformat fun _ => costly_bind hlook fun next => ?_
  split
  · exact ⟨tag_moves _ _, listRule_costly, fun _ => samples_costly total⟩
  · exact samples_costly total

/-- No chunk of a RIFF file is empty of decisions, and there is one at least. -/
theorem chunks_laden {limits : Limits} {origin : Origin} {watches ws : List (Watch Kind)}
    {w : Walk Kind} (h : (riff.grammar.runFrom limits origin watches).outcome = .ok (w, ws)) :
    w.chunks ≠ [] ∧ ∀ c ∈ w.chunks, c.decisions.start < c.decisions.stop :=
  rooted_laden (grammar_stops (by decide) ()).1 containerRule_moves containerRule_costly h

end Riff

end DecisionWalk
