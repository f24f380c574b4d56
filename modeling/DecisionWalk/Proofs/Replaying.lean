import DecisionWalk.Proofs.Lockstep
import DecisionWalk.Proofs.RoundTrip

/-!
# Replaying recorded decisions

Whatever a walk did to its stream, what it recorded tells the whole walk again:
each step takes back the decisions that it recorded, and none looks at what lies
behind them. This also holds of a walk whose stream was exchanged under way by a
watch, since a watch exchanges only what is still ahead.
-/

set_option autoImplicit false

namespace DecisionWalk

open Walker

variable {K α β σ : Type}

def State.retold (s : State K) (ahead : Bytes) : State K :=
  { s with stream := { s.stream with ahead := ahead }, watches := [] }

structure Took (e : Bytes) (s t : State K) : Prop where
  mode : t.mode = s.mode
  capacity : t.stream.capacity = s.stream.capacity
  past : t.stream.past = s.stream.past ++ e
  within : s.stream.length ≤ s.stream.capacity → t.stream.length ≤ t.stream.capacity

theorem Took.still {s t : State K} (hm : t.mode = s.mode) (hs : t.stream = s.stream) :
    Took [] s t :=
  ⟨hm, by rw [hs], by rw [hs]; simp, by rw [hs]; exact fun h => h⟩

theorem Took.trans {e d : Bytes} {s t u : State K} (h : Took e s t) (h' : Took d t u) :
    Took (e ++ d) s u := by
  refine ⟨h'.mode.trans h.mode, h'.capacity.trans h.capacity, ?_, fun hw => h'.within (h.within hw)⟩
  rw [h'.past, h.past]
  exact Array.ext' (by simp)

theorem Took.recorded {e : Bytes} {s : State K}
    (h : s.stream.length ≤ s.stream.capacity →
      s.stream.position + e.length ≤ s.stream.capacity) : Took e s (s.recorded e) := by
  refine ⟨rfl, rfl, rfl, ?_⟩
  intro hw
  have := h hw
  rw [State.recorded_stream, Stream.recorded_length, Stream.recorded_capacity]
  omega

def Retells (x : Walker K α) : Prop :=
  ∀ s a t, x s = .ok a t →
    ∃ e, Took e s t ∧ ∀ rest, x (s.retold (e ++ rest)) = .ok a (t.retold rest)

namespace Retells

/-- An action that leaves the stream alone. -/
theorem blind {x : Walker K α}
    (h : ∀ s a t, x s = .ok a t → t.mode = s.mode ∧ t.stream = s.stream ∧
      ∀ rest, x (s.retold rest) = .ok a (t.retold rest)) : Retells x := by
  intro s a t hx
  obtain ⟨hm, hs, hrun⟩ := h s a t hx
  exact ⟨[], .still hm hs, hrun⟩

/-- An action that only looks at what walks have in common. -/
theorem looks {x : Walker K α}
    (h : ∀ s a t, x s = .ok a t → t = s ∧ ∀ rest, x (s.retold rest) = .ok a (s.retold rest)) :
    Retells x := by
  apply blind
  intro s a t hx
  obtain ⟨rfl, hrun⟩ := h s a t hx
  exact ⟨rfl, rfl, hrun⟩

theorem failing {x : Walker K α} (h : ∀ s a t, x s ≠ .ok a t) : Retells x :=
  fun s a t hx => absurd hx (h s a t)

theorem pure (a : α) : Retells (pure a : Walker K α) := by
  apply looks
  intro s b t h
  cases h
  exact ⟨rfl, fun _ => rfl⟩

theorem violation (v : Violation) : Retells (Walker.violation v : Walker K α) :=
  failing fun s a t => violation_not_ok v s t a

theorem throw (e : WalkError) : Retells (throw e : Walker K α) :=
  failing fun s a t => throw_not_ok e s t a

theorem modify {f : State K → State K} (hm : ∀ s, (f s).mode = s.mode)
    (hs : ∀ s, (f s).stream = s.stream) (hr : ∀ s rest, f (s.retold rest) = (f s).retold rest) :
    Retells (modify f : Walker K PUnit) := by
  apply blind
  intro s a t h
  cases h
  exact ⟨hm s, hs s, fun rest => congrArg (EStateM.Result.ok _) (hr s rest)⟩

theorem bind {x : Walker K α} {f : α → Walker K β} (hx : Retells x) (hf : ∀ a, Retells (f a)) :
    Retells (x >>= f) := by
  intro s b u h
  obtain ⟨a, t, h1, h2⟩ := bind_ok.1 h
  obtain ⟨e, he, hx'⟩ := hx s a t h1
  obtain ⟨d, hd, hf'⟩ := hf a t b u h2
  refine ⟨e ++ d, he.trans hd, ?_⟩
  intro rest
  rw [List.append_assoc, bind_run (hx' (d ++ rest))]
  exact hf' rest

/-- What a walk has at hand does not depend on what is ahead of it. -/
theorem get {f : State K → Walker K β} (hf : ∀ s, Retells (f s))
    (hsame : ∀ s rest, f (s.retold rest) = f s) : Retells (get >>= f) := by
  intro s b t h
  obtain ⟨e, he, hrun⟩ := hf s s b t h
  refine ⟨e, he, ?_⟩
  intro rest
  rw [get_bind, hsame]
  exact hrun rest

theorem ite {p : Prop} [Decidable p] {x y : Walker K α} (hx : Retells x) (hy : Retells y) :
    Retells (if p then x else y) := by
  split
  · exact hx
  · exact hy

theorem mapM {f : α → Walker K β} (hf : ∀ a, Retells (f a)) (xs : List α) :
    Retells (xs.mapM f) := by
  induction xs with
  | nil => exact pure _
  | cons x xs ih =>
    rw [List.mapM_cons]
    exact (hf x).bind fun _ => ih.bind fun _ => pure _

theorem takeDecision (n : Nat) : Retells (Walker.takeDecision n : Walker K Nat) := by
  intro s v t h
  obtain ⟨e, r, hahead, hlen, rfl, rfl⟩ := take_ok h
  refine ⟨e, .recorded ?_, ?_⟩
  · intro hw
    rw [Stream.length, hahead, List.length_append] at hw
    rw [Stream.position]
    omega
  · intro rest
    have hrun := take_run (s := s.retold (e ++ rest)) e rest rfl
    rw [hlen] at hrun
    rw [hrun]
    simp [State.retold, State.recorded, Stream.recorded]

theorem putDecision (v n : Nat) : Retells (Walker.putDecision v n : Walker K Unit) := by
  intro s u t h
  obtain ⟨hroom, rfl⟩ := put_ok h
  refine ⟨leBytes n v, .recorded ?_, ?_⟩
  · intro _
    rw [length_leBytes]
    exact hroom
  · intro rest
    rw [put_run v n (s := s.retold (leBytes n v ++ rest)) hroom]
    simp [State.retold, State.recorded, Stream.recorded]

theorem decideBelow (bound : Nat) (forced : Option Nat) :
    Retells (Walker.decideBelow bound forced : Walker K Nat) := by
  apply ite (pure 0)
  cases forced with
  | none => exact (takeDecision _).bind fun _ => pure _
  | some v => exact ite ((putDecision _ _).bind fun _ => pure _) (throw _)

theorem decideRaw (width : Nat) (forced : Option Nat) :
    Retells (Walker.decideRaw width forced : Walker K Nat) := by
  apply ite (pure 0)
  cases forced with
  | none => exact takeDecision _
  | some v => exact (putDecision _ _).bind fun _ => pure _

theorem sampleSmall (width : Nat) (forced : Option Nat) :
    Retells (Walker.sampleSmall width forced : Walker K Nat) := by
  rw [Walker.sampleSmall_eq]
  apply (decideBelow _ _).bind
  intro selector
  apply bind
  · cases Tier.ofSelector selector with
    | tiny => exact decideBelow Sampler.tinyValues _
    | byte => exact (decideRaw 1 _).bind fun _ => pure _
    | wide => exact (decideRaw (min width 2) _).bind fun _ => pure _
    | full => exact (decideRaw width _).bind fun _ => pure _
  · intro raw
    exact pure _

theorem chooseKnown [DecidableEq α] (found : Option α) (known : List α)
    {draw : Option α → Walker K α} (hd : ∀ r, Retells (draw r)) :
    Retells (Walker.chooseKnown found known draw) := by
  have hcoin : ∀ coin : Nat, Retells (K := K) (do
      let s ← MonadState.get
      if s.evil.isEvil coin then draw found
      else
        let choice ← Walker.decideBelow known.length
          (found.map fun value => known.findIdx? (· == value)).join
        Walker.pick known choice) := by
    intro coin
    refine get (fun s => ite (hd _) ((decideBelow _ _).bind fun choice => ?_)) fun _ _ => rfl
    rw [Walker.pick]
    cases known[choice]? with
    | none => exact throw _
    | some v => exact pure v
  have htoss := fun forced => (decideBelow 256 forced).bind hcoin
  unfold Walker.chooseKnown
  refine ite ((violation _).bind fun _ => get (fun s => ?_) fun _ _ => rfl)
    (get (fun s => ?_) fun _ _ => rfl)
  · exact ite ((violation _).bind fun _ => htoss _) (htoss _)
  · exact ite ((violation _).bind fun _ => htoss _) (htoss _)

theorem drawSymbol (a : Alphabet) (b : Option UInt8) :
    Retells (Walker.drawSymbol a b : Walker K UInt8) := by
  cases b with
  | none => exact (decideBelow _ _).bind fun _ => pure _
  | some b =>
    rw [Walker.drawSymbol]
    split
    · exact (decideBelow _ _).bind fun _ => pure _
    · exact throw _

theorem drawFresh (a : Alphabet) (n : Nat) (drawn : Bytes) :
    Retells (Walker.drawFresh a n drawn : Walker K Bytes) := by
  induction n generalizing drawn with
  | zero => exact pure _
  | succ n ih => exact (drawSymbol a none).bind fun b => ih _

theorem drawSymbols (a : Alphabet) (n : Nat) (found : Option Bytes) :
    Retells (Walker.drawSymbols a n found : Walker K Bytes) := by
  cases found with
  | none => exact drawFresh a n []
  | some bs => exact mapM (fun b => drawSymbol a (some b)) bs

theorem stringCoin (found : Option Bytes) : Retells (Walker.stringCoin found : Walker K Bool) :=
  (decideBelow _ _).bind fun _ => pure _

theorem tell : Retells (Walker.tell : Walker K Nat) := by
  apply looks
  intro s a t h
  cases h
  exact ⟨rfl, fun _ => rfl⟩

theorem found (position length : Nat) :
    Retells (Walker.found position length : Walker K (Option Bytes)) := by
  apply looks
  intro s a t h
  rw [Walker.found] at h
  split at h
  case h_1 hm =>
    split at h
    case h_1 bs hs =>
      split at h
      case isTrue hin =>
        cases h
        exact ⟨rfl, fun rest => by simp [Walker.found, State.retold, hm, hs, hin]⟩
      case isFalse => exact absurd h (violation_not_ok _ _ _ _)
    case h_2 => exact absurd h (violation_not_ok _ _ _ _)
  case h_2 hm =>
    split at h
    case h_1 hr =>
      cases h
      exact ⟨rfl, fun rest => by simp [Walker.found, State.retold, hm, hr]⟩
    case h_2 hr =>
      cases h
      exact ⟨rfl, fun rest => by simp [Walker.found, State.retold, hm, hr]⟩
    case h_3 => exact absurd h (violation_not_ok _ _ _ _)

theorem foundCString (most : Nat) :
    Retells (Walker.foundCString most : Walker K (Option Bytes)) := by
  apply looks
  intro s a t h
  rw [Walker.foundCString] at h
  simp only at h
  split at h
  case isTrue hf =>
    cases h
    exact ⟨rfl, fun rest => if_pos hf⟩
  case isFalse hf =>
    split at h
    case h_1 length hi =>
      split at h
      case isTrue => exact absurd h (violation_not_ok _ _ _ _)
      case isFalse hr =>
        cases h
        refine ⟨rfl, fun rest => ?_⟩
        rw [Walker.foundCString]
        simp only [State.retold, hf, if_false, hi, hr]
    case h_2 => exact absurd h (violation_not_ok _ _ _ _)

theorem emit (bs : Bytes) : Retells (Walker.emit bs : Walker K Unit) := by
  apply blind
  intro s a t h
  rw [Walker.emit] at h
  cases hm : s.mode with
  | generate =>
    simp only [hm] at h
    split at h
    case isTrue hroom =>
      cases h
      exact ⟨rfl, rfl, fun rest => by simp [Walker.emit, State.retold, hm, hroom]⟩
    case isFalse => cases h
  | parse =>
    simp only [hm] at h
    split at h
    case isTrue => exact absurd h (violation_not_ok _ _ _ _)
    case isFalse hroom =>
      split at h
      case isTrue hs =>
        cases h
        exact ⟨rfl, rfl, fun rest => by simp [Walker.emit, State.retold, hm, hroom, hs]⟩
      case isFalse => exact absurd h (violation_not_ok _ _ _ _)

theorem checkWidth (width : Nat) : Retells (Walker.checkWidth width : Walker K Unit) :=
  ite (pure _) (violation _)

theorem emitInteger (width value : Nat) :
    Retells (Walker.emitInteger width value : Walker K Unit) :=
  get (fun _ => emit _) fun _ _ => rfl

/-- The reads of integers differ in their draw only. -/
theorem readInteger (width : Nat) {draw : Option Nat → Walker K Nat}
    (hd : ∀ r, Retells (draw r)) :
    Retells (do
      Walker.checkWidth width
      let there ← Walker.foundInteger width
      let value ← draw there
      Walker.emitInteger width value
      Pure.pure value) := by
  have hfound : Retells (Walker.foundInteger width : Walker K (Option Nat)) :=
    get (fun _ => (found _ _).bind fun _ => pure _) fun _ _ => rfl
  exact (checkWidth _).bind fun _ => hfound.bind fun _ => (hd _).bind fun _ =>
    (emitInteger _ _).bind fun _ => pure _

theorem readPlain (length : Nat) {draw : Option Bytes → Walker K Bytes}
    (hd : ∀ r, Retells (draw r)) :
    Retells (do
      let there ← Walker.found (← Walker.tell) length
      let bytes ← draw there
      Walker.emit bytes
      Pure.pure bytes) :=
  tell.bind fun _ => (found _ _).bind fun _ => (hd _).bind fun _ => (emit _).bind fun _ => pure _

theorem readUIntKnown (width : Nat) (known : List Nat) :
    Retells (Walker.readUIntKnown width known : Walker K Nat) :=
  readInteger width fun _ => chooseKnown _ _ fun _ => sampleSmall _ _

theorem readBytesKnown (length : Nat) (known : List Bytes) :
    Retells (Walker.readBytesKnown length known : Walker K Bytes) := by
  have hdraw : ∀ r, Retells (K := K) (Walker.chooseKnown r known
      (Walker.drawSymbols .plain length)) := fun r =>
    chooseKnown r known fun _ => drawSymbols _ _ _
  have hrest := readPlain length hdraw
  rw [Walker.readBytesKnown]
  split
  · exact (violation _).bind fun _ => hrest
  · exact hrest

theorem decideCount (most : Nat) (derived : Option Nat) :
    Retells (Walker.decideCount most derived : Walker K Nat) := by
  have hrest : Retells (K := K) (do
      let value ← Walker.sampleSmall 8 derived
      Pure.pure (value % (most + 1))) := (sampleSmall _ _).bind fun _ => pure _
  cases derived with
  | none => exact get (fun _ => ite ((violation _).bind fun _ => hrest) hrest) fun _ _ => rfl
  | some v => exact ite ((violation _).bind fun _ => hrest) hrest

theorem moveTo (position : Nat) : Retells (Walker.moveTo position : Walker K Unit) :=
  modify (fun _ => rfl) (fun _ => rfl) fun _ _ => rfl

theorem fillGap (n : Nat) : Retells (Walker.fillGap n : Walker K Unit) := by
  induction n with
  | zero => exact pure _
  | succ n ih => exact (readInteger 1 fun _ => decideRaw _ _).bind fun _ => ih

theorem seek (position : Nat) : Retells (Walker.seek position : Walker K Unit) := by
  have hrest : ∀ s : State K, Retells (K := K) (do
      if s.image.size < position then
        Walker.moveTo s.image.size
        Walker.fillGap (position - s.image.size)
      Walker.moveTo position) := fun s =>
    ite ((moveTo _).bind fun _ => (fillGap _).bind fun _ => moveTo _) (moveTo _)
  refine get (fun s => ite ?_ (hrest s)) fun _ _ => rfl
  split
  · exact (violation _).bind fun _ => hrest s
  · exact (throw _).bind fun _ => hrest s

theorem reserve (width : Nat) : Retells (Walker.reserve width : Walker K Reserved) :=
  (checkWidth _).bind fun _ => tell.bind fun _ => (found _ _).bind fun _ =>
    get (fun _ => (emit _).bind fun _ => pure _) fun _ _ => rfl

theorem patch (field : Reserved) (value : Nat) :
    Retells (Walker.patch field value : Walker K Unit) := by
  have hrest : Retells (K := K) (do
      let back ← Walker.tell
      Walker.seek field.position
      Walker.emitInteger field.width value
      Walker.seek back) :=
    tell.bind fun _ => (seek _).bind fun _ => (emitInteger _ _).bind fun _ => seek _
  exact get (fun _ => ite ((violation _).bind fun _ => hrest) hrest) fun _ _ => rfl

theorem ahead (offset : Nat) {read : Walker K α} (hr : Retells read) :
    Retells (Walker.ahead offset read) := by
  intro s a t h
  obtain ⟨u, hu, rfl⟩ := ahead_ok h
  obtain ⟨e, he, hrun⟩ := hr _ a u hu
  refine ⟨e, ⟨he.mode, he.capacity, he.past, he.within⟩, ?_⟩
  intro rest
  exact ahead_run (l := s.retold (e ++ rest)) (hrun rest)

theorem knownEnd : Retells (Walker.knownEnd : Walker K (Option Bool)) := by
  apply looks
  intro s a t h
  rw [Walker.knownEnd] at h
  split at h
  case h_1 hm =>
    cases h
    exact ⟨rfl, fun rest => by simp [Walker.knownEnd, State.retold, hm]⟩
  case h_2 hm =>
    cases h
    exact ⟨rfl, fun rest => by simp [Walker.knownEnd, State.retold, hm]⟩

theorem endOfFile (threshold : Nat) : Retells (Walker.endOfFile threshold : Walker K Bool) := by
  have hposition : Retells (Walker.position : Walker K Nat) := by
    apply looks
    intro s a t h
    cases h
    exact ⟨rfl, fun _ => rfl⟩
  have hmark : ∀ start, Retells (Walker.markLookahead start : Walker K Unit) := fun start =>
    modify (fun _ => rfl) (fun _ => rfl) fun _ _ => rfl
  exact hposition.bind fun _ => knownEnd.bind fun _ => (decideBelow _ _).bind fun _ =>
    (hmark _).bind fun _ => pure _

theorem fixedSlice (start stop : Nat) :
    Retells (Walker.fixedSlice start stop : Walker K Bytes) := by
  apply looks
  intro s a t h
  rw [Walker.fixedSlice] at h
  split at h
  case isTrue => exact absurd h (violation_not_ok _ _ _ _)
  case isFalse hr =>
    split at h
    case h_1 bs hs =>
      cases h
      exact ⟨rfl, fun rest => by simp [Walker.fixedSlice, State.retold, hr, hs]⟩
    case h_2 => exact absurd h (violation_not_ok _ _ _ _)

theorem answer {α : Type} (r : Request α) : Retells (r.answer : Walker K α) := by
  cases r with
  | uint width => exact readInteger width fun _ => sampleSmall _ _
  | uintFull width => exact readInteger width fun _ => decideRaw _ _
  | uintKnown width known => exact readUIntKnown width known
  | bytes length => exact readPlain length fun _ => drawSymbols _ _ _
  | bytesKnown length known => exact readBytesKnown length known
  | string length =>
    exact tell.bind fun _ => (found _ _).bind fun _ => (stringCoin _).bind fun _ =>
      (drawSymbols _ _ _).bind fun _ => (emit _).bind fun _ => pure _
  | cstring most =>
    exact (foundCString _).bind fun _ => (sampleSmall _ _).bind fun _ =>
      (stringCoin _).bind fun _ => (drawSymbols _ _ _).bind fun _ => (emit _).bind fun _ => pure _
  | count most derived => exact decideCount most derived
  | seek position => exact seek position
  | skip n => exact tell.bind fun _ => seek _
  | reserve width => exact reserve width
  | patch field value => exact patch field value
  | endOfFile threshold => exact endOfFile threshold
  | lookUInt offset width known => exact ahead offset (readUIntKnown width known)
  | lookBytes offset length known => exact ahead offset (readBytesKnown length known)
  | checksum32 start stop => exact (fixedSlice _ _).bind fun _ => pure _
  | checksum16 start stop => exact (fixedSlice _ _).bind fun _ => pure _
  | emit data => exact emit data
  | setEvil allowed =>
    apply blind
    intro s a t h
    cases h
    exact ⟨rfl, rfl, fun _ => rfl⟩
  | setEndian order => exact modify (fun _ => rfl) (fun _ => rfl) fun _ _ => rfl
  | tell => exact tell
  | fileSize =>
    apply looks
    intro s a t h
    cases h
    exact ⟨rfl, fun _ => rfl⟩
  | remaining =>
    apply looks
    intro s a t h
    cases h
    exact ⟨rfl, fun _ => rfl⟩
  | note label value => exact modify (fun _ => rfl) (fun _ => rfl) fun _ _ => rfl

end Retells

/-- What is restored at the position of a stream only replaces what is ahead. -/
theorem Stream.replaceTail_position (s : Stream) (tail : Bytes) :
    s.replaceTail s.position tail = { s with ahead := tail.take (s.capacity - s.position) } := by
  have hp : s.position = s.past.toList.length := by
    rw [position, Array.length_toList]
  have htake : s.bytes.take s.position = s.past.toList := by
    rw [bytes, hp, List.take_left]
  simp only [replaceTail, htake]
  rw [hp, List.take_left, List.drop_left]

/-- Watches leave what was recorded, and restore no more than the stream can hold. -/
theorem closeWatches_stream (depth : Nat) (ws : List (Watch K)) (s : Stream) :
    (closeWatches depth ws s).2.past = s.past ∧
      (closeWatches depth ws s).2.capacity = s.capacity ∧
      (s.length ≤ s.capacity → (closeWatches depth ws s).2.length ≤ s.capacity) := by
  induction ws generalizing s with
  | nil => exact ⟨rfl, rfl, fun h => h⟩
  | cons w ws ih =>
    rw [closeWatches]
    by_cases ha : w.armed = some depth
    · rw [if_pos ha]
      cases w.restore with
      | none => exact ih s
      | some tail =>
        dsimp only
        rw [Stream.replaceTail_position]
        obtain ⟨h1, h2, h3⟩ := ih { s with ahead := tail.take (s.capacity - s.position) }
        refine ⟨h1, h2, fun hw => h3 ?_⟩
        simp only [Stream.length, Stream.position, List.length_take] at hw ⊢
        omega
    · rw [if_neg ha]
      exact ih s

namespace Retells

theorem closeScope (depth : Nat) : Retells (Walker.closeScope depth : Walker K Unit) := by
  intro s a t h
  have hclose := closeWatches_stream depth s.watches s.stream
  rw [Walker.closeScope] at h
  generalize closeWatches depth s.watches s.stream = closed at h hclose
  obtain ⟨ws, past, rest, capacity⟩ := closed
  obtain ⟨rfl, rfl, hwithin⟩ := hclose
  cases h
  exact ⟨[], ⟨rfl, rfl, by simp, hwithin⟩, fun _ => rfl⟩

variable [DecidableEq K]

theorem openScope (name : String) (kind : K) : Retells (Walker.openScope name kind) := by
  apply blind
  intro s a t h
  rw [Walker.openScope] at h
  split at h
  case isTrue hd =>
    cases h
    refine ⟨rfl, rfl, fun rest => ?_⟩
    rw [openScope_run name kind (s := s.retold rest) rfl hd]
    rfl
  case isFalse => cases h

def bond (capacity : Nat) : Bond K where
  lead l := l.stream.capacity = capacity ∧ l.stream.length ≤ capacity
  given _ := True
  pair l f := l.mode = .generate ∧ ∃ ahead, f = l.retold ahead
  exact := True

omit [DecidableEq K] in
theorem leads {x : Walker K α} (hx : Retells x) (hq : Quiet x) (capacity : Nat) (l : State K) :
    (bond capacity).Leads x l := by
  apply Bond.Leads.quietly hq
  rintro a l' ⟨hcap, hlen⟩ h
  obtain ⟨e, he, hrun⟩ := hx l a l' h
  have hcap' : l'.stream.capacity = capacity := he.capacity.trans hcap
  refine ⟨⟨hcap', hcap' ▸ he.within (hcap.symm ▸ hlen)⟩, fun _ => trivial, e,
    ⟨e, he.past, Iff.rfl, fun _ => rfl⟩, ?_⟩
  rintro _ ⟨hmode, ahead, rfl⟩ hr _
  obtain ⟨rest, rfl⟩ := hr.ahead hmode
  refine ⟨l'.retold rest, hrun rest, ⟨he.mode.trans hmode, rest, rfl⟩, ?_, he.mode⟩
  simp [State.retold, Stream.recorded, he.past, he.capacity]

def lockstep (capacity : Nat) : Lockstep K where
  toBond := bond capacity
  admits _ _ := True
  asks r l _ := (answer r).leads (Quiet.answer r) capacity l
  opens name kind l := (openScope name kind).leads (Quiet.openScope name kind) capacity l
  closes depth l := (closeScope depth).leads (Quiet.closeScope depth) capacity l
  evil := by
    rintro l _ ⟨-, ahead, rfl⟩
    rfl
  setEvil := by
    rintro bit l _ ⟨hm, ahead, rfl⟩
    exact ⟨hm, ahead, rfl⟩
  lead_setEvil _ _ h := h
  given_setEvil _ _ := Iff.rfl

end Retells

namespace Grammar

variable [DecidableEq K]

theorem always_true (g : Grammar K α) (s : State K) : g.Always (fun _ _ => True) s := by
  induction g generalizing s with
  | done a => trivial
  | ask request next ih => exact ⟨trivial, fun b t _ => ih b t⟩
  | scope name kind body next ihb ih => exact fun depth t _ => ⟨ihb t, fun b u v _ _ => ih b v⟩
  | withEvil allowed body next ihb ih => exact ⟨ihb _, fun b t _ => ih b t⟩
  | loop body init next ihb ih => exact ⟨fun a t _ => ihb a t, fun b t _ => ih b t⟩
  | stop code reason => trivial

theorem replay_fits {g : Grammar K Unit} {limits : Limits} {decisions : Bytes}
    {watches : List (Watch K)} {v : Walk K × List (Watch K)}
    (h : g.replay limits decisions watches = .ok v) :
    decisions.length ≤ limits.streamCapacity ∧
      (conclude (g.run { State.generating limits decisions with watches := watches })).outcome =
        .ok v := by
  have hfits := runFrom_fits h
  refine ⟨hfits, ?_⟩
  rw [← runFrom_decisions g hfits]
  exact h

omit [DecidableEq K] in
theorem finish_retold {s : State K} {w : Walk K} {ws : List (Watch K)}
    (h : s.finish = .ok (w, ws)) (rest : Bytes) : (s.retold rest).finish = .ok (w, []) := by
  obtain ⟨hcovered, hw⟩ := (s.finish_iff _).1 h
  cases hw
  exact ((s.retold rest).finish_iff _).2 ⟨hcovered, rfl⟩

omit [DecidableEq K] in
theorem finish_decisions {s : State K} {w : Walk K} {ws : List (Watch K)}
    (h : s.finish = .ok (w, ws)) : w.decisions = s.stream.consumed := by
  obtain ⟨-, hw⟩ := (s.finish_iff _).1 h
  cases hw
  rfl

/-- What a walk records fits its stream, and the walks that replay it come to the same end. -/
theorem ended_retold {g : Grammar K α} {s t : State K} {o : Ending α} (h : g.run s = o.inState t)
    (hpast : s.stream.past = #[]) (hs : s.stream.length ≤ s.stream.capacity) :
    t.stream.consumed.length ≤ s.stream.capacity ∧
      (s.mode = .generate → ∀ tail,
        g.run (s.retold (t.stream.consumed ++ tail)) = o.inState (t.retold tail)) := by
  obtain ⟨⟨-, hlen⟩, -, e, ⟨d, hd, -, hde⟩, hfollow⟩ :=
    (Retells.lockstep s.stream.capacity).run_leads g s (always_true g s) o t ⟨rfl, hs⟩ h
  obtain rfl : d = e := hde trivial
  have htold : t.stream.consumed = d := by
    rw [Stream.consumed, hd, hpast]
    simp
  have hposition := Stream.length_consumed t.stream
  rw [Stream.length, ← Stream.position, ← hposition, htold] at hlen
  rw [htold]
  refine ⟨by omega, ?_⟩
  intro hmode tail
  have hready : Ready d (s.retold (d ++ tail)) := by
    refine ⟨fun _ => List.prefix_append _ tail, ?_⟩
    show s.stream.past.size + d.length ≤ s.stream.capacity
    rw [hpast, Array.size_empty]
    omega
  obtain ⟨_, hrun, ⟨-, rest, rfl⟩, htakes⟩ := hfollow _ ⟨hmode, _, rfl⟩ hready trivial
  have hrest : rest = tail := by
    have hahead := congrArg Stream.ahead htakes.stream
    rw [Stream.recorded_ahead] at hahead
    exact hahead.trans List.drop_left
  rw [hrun, hrest]

theorem concluded_retold {g : Grammar K Unit} {s : State K} {w : Walk K} {ws : List (Watch K)}
    (h : (conclude (g.run s)).outcome = .ok (w, ws)) (hpast : s.stream.past = #[])
    (hs : s.stream.length ≤ s.stream.capacity) :
    w.decisions.length ≤ s.stream.capacity ∧
      (s.mode = .generate → ∀ tail,
        (conclude (g.run (s.retold (w.decisions ++ tail)))).outcome = .ok (w, [])) := by
  obtain ⟨o, t, hrun, ho, hfin⟩ := concluded h
  obtain ⟨hlen, hretold⟩ := ended_retold hrun hpast hs
  rw [finish_decisions hfin]
  refine ⟨hlen, ?_⟩
  intro hmode tail
  rw [hretold hmode tail, conclude_inState ho, finish_retold hfin tail]

/-- The decisions that a watched walk recorded fit the stream and generate the same walk. -/
theorem replay_retold {g : Grammar K Unit} {limits : Limits} {decisions : Bytes}
    {watches watches' : List (Watch K)} {w : Walk K}
    (h : g.replay limits decisions watches = .ok (w, watches')) :
    w.decisions.length ≤ limits.streamCapacity ∧
      ∀ tail : Bytes, w.decisions.length + tail.length ≤ limits.streamCapacity →
        g.generate limits (w.decisions ++ tail) = .ok w := by
  obtain ⟨hfits, hrun⟩ := replay_fits h
  have hstart : (State.generating limits decisions : State K).stream.length ≤
      limits.streamCapacity := by
    show 0 + decisions.length ≤ limits.streamCapacity
    omega
  obtain ⟨hlen, hretold⟩ := concluded_retold hrun rfl hstart
  refine ⟨hlen, ?_⟩
  intro tail htail
  have hrun' : (conclude (g.run (State.generating limits (w.decisions ++ tail)))).outcome =
      .ok (w, []) := hretold rfl tail
  rw [generate_run g (by rw [List.length_append]; exact htail), hrun']
  rfl

/-- Recorded decisions replay: whatever grammar was walked, from whatever stream and under
whatever watches, what the walk recorded generates the same walk, with anything behind it. -/
theorem replay_generate {g : Grammar K Unit} {limits : Limits} {decisions tail : Bytes}
    {watches watches' : List (Watch K)} {w : Walk K}
    (h : g.replay limits decisions watches = .ok (w, watches'))
    (htail : w.decisions.length + tail.length ≤ limits.streamCapacity) :
    g.generate limits (w.decisions ++ tail) = .ok w :=
  (replay_retold h).2 tail htail

def records : Grammar Unit Unit :=
  .repeatFrom () fun _ => do
    let b ← inScope "record" () (request (.uintFull 1))
    pure (if b = 0 then .inr () else .inl ())

/-- The watch exchanges the stream behind the first record. -/
theorem replay_generate_exchanged :
    ∃ w ws, records.replay { streamCapacity := 4 } [7, 9, 9]
        [{ start := 0, restore := some [5, 0, 3] }] = .ok (w, ws) ∧ w.file = [7, 5, 0] ∧
      records.generate { streamCapacity := 4 } (w.decisions ++ [1]) = .ok w := by
  have hrun : (records.replay { streamCapacity := 4 } [7, 9, 9]
      [{ start := 0, restore := some [5, 0, 3] }]).toOption.any
        (fun v => v.1.decisions.length + 1 ≤ 4 && v.1.file = [7, 5, 0]) = true := by
    decide +kernel
  obtain ⟨⟨w, ws⟩, h, hw⟩ := ok_of_any hrun
  obtain ⟨hlen, hfile⟩ := Bool.and_eq_true_iff.1 hw
  exact ⟨w, ws, h, of_decide_eq_true hfile, replay_generate h (of_decide_eq_true hlen)⟩

end Grammar

end DecisionWalk
