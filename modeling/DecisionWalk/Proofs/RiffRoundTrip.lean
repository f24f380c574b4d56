import DecisionWalk.Format.Riff
import DecisionWalk.Proofs.RoundTrip

/-!
# Round trips of the RIFF/WAVE subset

The size of the container stays a hole until the walk is over. Inside it, every
payload is checked against what is left of the file before it is read, and the
coin after a chunk agrees with where the file ends. The coin that ends the file
is the last decision.
-/

set_option autoImplicit false

namespace DecisionWalk.Riff

open Walker Outline Grammar

variable {β : Type} {k : Link} {hole : Span} {n : Nat} {o o' : Outline}

/-- A payload size that is followed by at least as many bytes. -/
theorem payloadSize_follows {what : String} {f : Nat → Grammar Kind β}
    {post : β → Outline → Prop} {ends : β → State Kind → Prop} (hr : Reads o 4 o')
    (hf : ∀ size, Follows k hole n o' (f size).run
      (fun b o'' => post b o'' ∧ o'.cursor + size ≤ o''.cursor) ends) :
    Follows k hole n o (payloadSize what >>= f).run post ends := by
  rw [run_bind, payloadSize, run_bind, bind_assoc]
  apply (Follows.uint 4 (by decide) (by decide) hr).bind
  rintro size _ rfl
  rw [run_bind, run_request, bind_assoc]
  apply (Follows.guarded size ?_ ?_ (hf size) ?_).weaken
  · exact fun _ _ h => h.1
  · intro room hroom s t b
    rw [if_pos hroom]
    exact throw_not_ok _ _ _ _
  · intro room hroom
    rw [if_neg (by omega)]
    rfl
  · exact fun _ _ h => h.2

theorem pad_follows (c size : Nat) :
    Follows k hole n (edge c) (pad size).run (fun _ => Past c) anyEnd := by
  by_cases hodd : size % 2 = 1
  · rw [pad, if_pos hodd, run_request]
    apply (Follows.skip c 1).weaken
    rintro _ _ rfl
    exact ⟨c + 1, by omega, rfl⟩
  · rw [pad, if_neg hodd]
    exact Follows.done ⟨c, Nat.le_refl c, rfl⟩

theorem tag_follows (expected : Bytes) (htag : expected.length = 4) (hr : Reads o 4 o') :
    Follows k hole n o (tag expected).run (fun _ o'' => o'' = o') anyEnd :=
  (Follows.literal 4 expected (by decide) htag hr).discard

theorem formatRule_follows (c : Nat) :
    Follows k hole n (edge c) formatRule.run (fun _ o'' => o'' = edge (c + 24)) anyEnd := by
  apply (tag_follows fmtTag rfl (Reads.fresh c 4)).andThen
  intro _
  apply (Follows.exactly 4 16 (by decide) (by decide) (by decide) (Reads.fresh _ 4)).discard.andThen
  intro _
  apply (Follows.uintKnown 2 [1, 3] (by decide) (by decide) (by decide) (by decide) (by decide)
    (Reads.fresh _ 2)).discard.andThen
  intro _
  apply (Follows.uint 2 (by decide) (by decide) (Reads.fresh _ 2)).discard.andThen
  intro _
  apply (Follows.uintKnown 4 sampleRates (by decide) (by decide) (by decide) (by decide)
    (by decide) (Reads.fresh _ 4)).discard.andThen
  intro _
  apply (Follows.uint 4 (by decide) (by decide) (Reads.fresh _ 4)).discard.andThen
  intro _
  apply (Follows.uint 2 (by decide) (by decide) (Reads.fresh _ 2)).discard.andThen
  intro _
  exact (Follows.uintKnown 2 [8, 16, 24, 32] (by decide) (by decide) (by decide) (by decide)
    (by decide) (Reads.fresh _ 2)).discard

theorem listRule_follows (c : Nat) :
    Follows k hole n ⟨c, 0, 4⟩ listRule.run (fun _ => Past (c + 8)) anyEnd := by
  apply (tag_follows listTag rfl (Reads.run c 4)).andThen
  intro _
  apply payloadSize_follows (Reads.fresh _ 4)
  intro size
  by_cases hsize : size < 4
  · rw [if_pos hsize]
    exact Follows.failing fun _ _ _ => throw_not_ok _ _ _ _
  · rw [if_neg hsize]
    apply (Follows.bytesKnown 4 [infoTag] (by decide) (by decide) (by decide) (by decide)
      (Reads.fresh _ 4)).discard.andThen
    intro _
    apply (Follows.string (size - 4) (Reads.fresh _ _)).discard.andThen
    intro _
    apply (pad_follows _ size).weaken
    rintro _ _ ⟨d, hd, rfl⟩
    refine ⟨⟨d, by omega, rfl⟩, ?_⟩
    show c + 4 + 4 + size ≤ d
    omega

theorem dataRule_follows (c : Nat) (hr : Reads o 4 (edge c)) (hc : hole.stop ≤ c) :
    Follows k hole n o dataRule.run (fun _ => Past c) anyEnd := by
  apply (tag_follows dataTag rfl hr).andThen
  intro _
  apply payloadSize_follows (Reads.fresh c 4)
  intro size
  apply Follows.tell.seq
  rintro start _ ⟨hstart, rfl⟩
  apply (Follows.bytes size (Reads.fresh _ size)).discard.andThen
  intro _
  apply Follows.tell.seq
  rintro stop _ ⟨hstop, rfl⟩
  have hbehind : hole.stop ≤ start := by
    rw [hstart]
    exact Nat.le_add_right_of_le hc
  apply (Follows.checksum16 start stop hbehind (Nat.le_of_eq hstop)).seq
  rintro crc _ ⟨hcrc, rfl⟩
  apply (Follows.exactly 2 crc (by decide) (by decide) hcrc (Reads.fresh _ 2)).discard.andThen
  intro _
  apply (pad_follows _ size).weaken
  rintro _ _ ⟨d, hd, rfl⟩
  refine ⟨⟨d, by omega, rfl⟩, ?_⟩
  show c + 4 + size ≤ d
  omega

theorem junkRule_follows (c : Nat) :
    Follows k hole n (edge c) junkRule.run (fun _ => Past (c + 8)) anyEnd := by
  apply (tag_follows junkTag rfl (Reads.fresh c 4)).andThen
  intro _
  apply payloadSize_follows (Reads.fresh _ 4)
  intro size
  apply (Follows.bytes size (Reads.fresh _ size)).discard.andThen
  intro _
  apply (pad_follows _ size).weaken
  rintro _ _ ⟨d, hd, rfl⟩
  refine ⟨⟨d, by omega, rfl⟩, ?_⟩
  show c + 4 + 4 + size ≤ d
  omega

theorem trailing_follows (c : Nat) :
    Follows k hole (n + 1) (edge c) trailing.run
      (Sum.elim (fun _ => Past 0) fun _ => Past 0) (Sum.elim anyEnd fun _ s => k.Whole s) := by
  have hjunk : Follows k hole (n + 1) (edge c)
      (inScope "junk" Kind.junk junkRule >>= fun _ => pure (.inl ()) :
        Grammar Kind (Unit ⊕ Unit)).run
      (fun r o'' => r = .inl () ∧ Past (c + 8) o'') anyEnd := by
    apply ((junkRule_follows c).inScope "junk" Kind.junk fun _ _ _ h => h).seq
    intro _ o'' hpast
    exact Follows.done ⟨rfl, hpast⟩
  rw [trailing, run_bind, run_request]
  apply (Follows.endOfFile c endThreshold (by decide) (by decide)).bindEnds
  · rintro ends _ rfl
    cases ends with
    | true => exact Follows.done ⟨c, Nat.zero_le c, rfl⟩
    | false =>
      apply hjunk.ending.weaken
      rintro _ _ ⟨rfl, d, -, rfl⟩
      exact ⟨d, Nat.zero_le d, rfl⟩
  · rintro ends _ l' r _ l'' rfl hl' h - - hin hend
    have hsize : l'.image.size = c := hl'.shows.size
    cases k with
    | replay decisions => trivial
    | reparse input =>
      cases ends with
      | true =>
        cases h
        have hwhole : input.size ≤ l'.image.size := hend
        exact iff_of_true rfl (by omega)
      | false =>
        -- A junk chunk stands behind the coin, so the input does not end at it.
        obtain ⟨_, ⟨-, d, hd, rfl⟩, hl'', -⟩ := hjunk l' r l'' hl' h
        have hsize' : l''.image.size = d := hl''.shows.size
        have hle : l''.image.size ≤ input.size := hin.2.1
        exact iff_of_false Bool.false_ne_true (by omega)

theorem trailings_follows (c : Nat) :
    Follows k hole (n + 1) (edge c) (repeatFrom () fun _ => trailing : Rule).run
      (fun _ => Past 0) fun _ s => k.Whole s := by
  apply Follows.repeatFrom fun _ => Past 0
  · rintro _ _ ⟨d, -, rfl⟩
    exact trailing_follows d
  · exact ⟨c, Nat.zero_le c, rfl⟩

def inside : Grammar Kind Nat := do
  discard (request (.bytesKnown 4 formTypes))
  inScope "fmt" .format formatRule
  let next ← underEvil false (request (.lookBytes 0 4 [listTag, dataTag]))
  if next = listTag then
    inScope "list" .list listRule
  inScope "data" .data dataRule
  repeatFrom () fun _ => trailing
  request .fileSize

theorem run_containerRule :
    containerRule.run = ((tag riffTag).run >>= fun _ => do
      let total ← reserve 4
      let a ← (do
        let size ← inside.run
        pure ((), size - 8))
      patch total a.2
      pure a.1) := by
  simp only [containerRule, inside, run_bind, run_request, Request.answer, bind_assoc, pure_bind,
    bind_pure_unit]
  apply bind_congr
  intro _
  apply bind_congr
  intro total
  apply bind_congr
  intro _
  apply bind_congr
  intro _
  apply bind_congr
  intro next
  by_cases hnext : next = listTag
  · simp only [if_pos hnext, run_bind, run_request, Request.answer, bind_assoc]
  · simp only [if_neg hnext, run_bind, run_request, Request.answer, bind_assoc]

/-- The samples and all that follows them. -/
theorem samples_follows (c : Nat) (hr : Reads o 4 (edge c)) (hc : hole.stop ≤ c) :
    Follows k hole (n + 1) o (do
      inScope "data" Kind.data dataRule
      repeatFrom () fun _ => trailing
      request .fileSize : Grammar Kind Nat).run (fun size o'' => o'' = edge size)
      fun _ s => k.Whole s := by
  apply ((dataRule_follows c hr hc).inScope "data" Kind.data fun _ _ _ h => h).seq
  rintro _ _ ⟨d, -, rfl⟩
  rw [run_bind]
  apply (trailings_follows d).bindEnds
  · rintro _ _ ⟨e, -, rfl⟩
    apply (Follows.fileSize e).ending.weaken
    rintro _ _ ⟨rfl, rfl⟩
    rfl
  · rintro _ _ l' size _ l'' - - h - - - hend
    rw [run_request] at h
    cases h
    exact hend

theorem inside_follows (hhole : hole.stop ≤ 8) :
    Follows k hole (n + 1) (edge 8) inside.run (fun size o'' => o'' = edge size)
      fun _ s => k.Whole s := by
  rw [inside]
  apply (Follows.bytesKnown 4 formTypes (by decide) (by decide) (by decide) (by decide)
    (Reads.fresh 8 4)).discard.andThen
  intro _
  apply ((formatRule_follows 12).inScope "fmt" Kind.format fun _ _ _ h => h).andThen
  intro _
  apply ((Follows.lookBytes 36 0 4 [listTag, dataTag] (by decide) (by decide) (by decide)
    (by decide)).underEvil false).andThen
  intro next
  by_cases hnext : next = listTag
  · rw [if_pos hnext]
    apply ((listRule_follows 36).inScope "list" Kind.list fun _ _ _ h => h).seq
    rintro _ _ ⟨d, hd, rfl⟩
    exact samples_follows (d + 4) (Reads.fresh d 4) (by omega)
  · rw [if_neg hnext]
    exact samples_follows 40 (Reads.run 36 4) (by omega)

/-- The size field counts what follows it. -/
theorem sized_follows (hhole : hole.stop ≤ 8) :
    Follows k hole (n + 1) (edge 8)
      (inside.run >>= fun size => pure ((), size - 8) : Walker Kind (Unit × Nat))
      (fun a o'' => ∃ c, a.2 = c - 8 ∧ o'' = edge c) fun _ s => k.Whole s := by
  apply (inside_follows hhole).bindEnds
  · rintro size _ rfl
    exact Follows.done ⟨size, rfl, rfl⟩
  · rintro size _ l' a _ l'' - - h - - - hend
    cases h
    exact hend

theorem containerRule_follows :
    Follows k noHole (n + 1) (edge 0) containerRule.run (fun _ => Past 0)
      fun _ s => k.Whole s := by
  rw [run_containerRule]
  apply (tag_follows riffTag rfl (Reads.fresh 0 4)).bind
  rintro _ _ rfl
  have hpatched := Follows.reserving (k := k) (n := n + 1)
    (fun _ => inside.run >>= fun size => pure ((), size - 8))
    (fun a o'' => ∃ c, a.2 = c - 8 ∧ o'' = edge c) (fun _ s => k.Whole s)
    (by decide) (by decide) (Reads.fresh 4 4) (fun _ him => him.opens (by decide) (Or.inr rfl))
    (fun v _ => (sized_follows (Nat.le_refl 8)).asking fun _ _ h => h.2) ?_
    fun _ _ _ hsize h => h.resized hsize
  · apply hpatched.weaken
    rintro _ _ ⟨_, c, -, rfl⟩
    exact ⟨c, Nat.zero_le c, rfl⟩
  · rintro a _ ⟨c, ha, rfl⟩
    exact ⟨c, rfl, fun hc => by omega⟩

theorem grammar_follows :
    Follows k noHole (n + 2) (edge 0) riff.grammar.run (fun _ => Past 0)
      fun _ s => k.Whole s := by
  apply (Follows.setEndian .little (Nat.le_refl 0)).andThen
  intro _
  exact containerRule_follows.inScope "riff" Kind.container fun _ _ _ h => h

section Last

theorem trailing_spends (c : Nat) :
    Spends hole (edge c) trailing.run fun r => r.isRight = true := by
  rw [trailing, run_bind, run_request]
  apply Spends.andThen (n := 0) (Follows.endOfFile c endThreshold (by decide) (by decide))
    (Spends.endOfFile c endThreshold (by decide) (by decide))
  intro ends _ s r t _ _ h hlast
  cases ends with
  | true =>
    cases h
    exact ⟨trivial, rfl⟩
  | false =>
    rw [if_neg Bool.false_ne_true, run_bind] at h
    obtain ⟨_, _, -, h⟩ := bind_ok.1 h
    cases h
    cases hlast

theorem samples_spends (c : Nat) (hr : Reads o 4 (edge c)) (hc : hole.stop ≤ c) :
    Spends hole o (do
      inScope "data" Kind.data dataRule
      repeatFrom () fun _ => trailing
      request .fileSize : Grammar Kind Nat).run fun _ => True := by
  apply Spends.seq (n := 1)
    ((dataRule_follows c hr hc).inScope "data" Kind.data fun _ _ _ h => h)
  rintro _ _ ⟨d, -, rfl⟩
  rw [run_bind]
  have hloop : Spends hole (edge d) (repeatFrom () fun _ => trailing : Rule).run
      fun _ => True := by
    apply Spends.repeatFrom (n := 1) (fun _ => Past 0)
    · rintro _ _ ⟨e, -, rfl⟩
      exact trailing_follows e
    · rintro _ _ ⟨e, -, rfl⟩
      exact trailing_spends e
    · exact ⟨d, Nat.zero_le d, rfl⟩
  apply Spends.andThen (n := 1) (trailings_follows d) hloop
  intro _ _ s size t _ _ h _
  rw [run_request] at h
  cases h
  exact ⟨trivial, rfl⟩

theorem inside_spends (hhole : hole.stop ≤ 8) :
    Spends hole (edge 8) inside.run fun _ => True := by
  rw [inside]
  apply Spends.seq (n := 0) (Follows.bytesKnown 4 formTypes (by decide) (by decide) (by decide)
    (by decide) (Reads.fresh 8 4)).discard
  rintro _ _ rfl
  apply Spends.seq (n := 1)
    ((formatRule_follows 12).inScope "fmt" Kind.format fun _ _ _ h => h)
  rintro _ _ rfl
  apply Spends.seq (n := 0) ((Follows.lookBytes 36 0 4 [listTag, dataTag] (by decide) (by decide)
    (by decide) (by decide)).underEvil false)
  rintro next _ rfl
  by_cases hnext : next = listTag
  · rw [if_pos hnext]
    apply Spends.seq (n := 1) ((listRule_follows 36).inScope "list" Kind.list fun _ _ _ h => h)
    rintro _ _ ⟨d, hd, rfl⟩
    exact samples_spends (d + 4) (Reads.fresh d 4) (by omega)
  · rw [if_neg hnext]
    exact samples_spends 40 (Reads.run 36 4) (by omega)

theorem containerRule_spends : Spends noHole (edge 0) containerRule.run fun _ => True := by
  rw [run_containerRule]
  apply Spends.bind (n := 0) (tag_follows riffTag rfl (Reads.fresh 0 4))
  rintro _ _ rfl
  apply Spends.reserving (n := 1) (by decide) (by decide) (Reads.fresh 4 4)
    (fun _ him => him.opens (by decide) (Or.inr rfl)) (sized_follows (Nat.le_refl 8))
  · rintro a _ ⟨c, -, rfl⟩
    exact ⟨c, rfl⟩
  · apply Spends.andThen (n := 1) (inside_follows (Nat.le_refl 8)) (inside_spends (Nat.le_refl 8))
    intro _ _ s a t _ _ h _
    cases h
    exact ⟨trivial, rfl⟩

theorem grammar_spends : Spends noHole (edge 0) riff.grammar.run fun _ => True := by
  apply Spends.seq (n := 1) (Follows.setEndian .little (Nat.le_refl 0))
  rintro _ _ rfl
  exact Spends.inScope "riff" .container (n := 1) containerRule_follows containerRule_spends

end Last

section Stops

variable {p : Int → Prop} {names : String → Prop}

theorem payloadSize_within (h1 : p 1) (what : String) : (payloadSize what).Within names p := by
  apply within_bind (within_request _)
  intro size
  apply within_bind (within_request _)
  intro room
  by_cases hroom : room < size
  · rw [if_pos hroom]
    exact h1
  · rw [if_neg hroom]
    trivial

theorem pad_within (size : Nat) : (pad size).Within names p := by
  rw [pad]
  split
  · exact fun _ => trivial
  · trivial

theorem listRule_within (h1 : p 1) : listRule.Within names p := by
  apply within_bind (within_literal 4 listTag)
  intro _
  apply within_bind (payloadSize_within h1 _)
  intro size
  by_cases hsize : size < 4
  · rw [if_pos hsize]
    exact h1
  · rw [if_neg hsize]
    exact fun _ _ => pad_within size

theorem dataRule_within (h1 : p 1) : dataRule.Within names p := by
  apply within_bind (within_literal 4 dataTag)
  intro _
  apply within_bind (payloadSize_within h1 _)
  intro size
  exact fun _ _ _ _ _ => pad_within size

theorem junkRule_within (h1 : p 1) : junkRule.Within names p := by
  apply within_bind (within_literal 4 junkTag)
  intro _
  apply within_bind (payloadSize_within h1 _)
  intro size
  exact fun _ => pad_within size

def productionNames : List String := ["riff", "fmt", "list", "data", "junk"]

theorem trailing_within : trailing.Within (· ∈ productionNames) (· = 1) := by
  intro ends
  cases ends with
  | true => trivial
  | false => exact ⟨by decide, junkRule_within rfl, fun _ => trivial⟩

theorem containerRule_within : containerRule.Within (· ∈ productionNames) (· = 1) := by
  have hformat : (inScope "fmt" Kind.format formatRule).Within (· ∈ productionNames) (· = 1) :=
    ⟨by decide, ⟨fun _ => trivial, fun _ _ _ _ _ _ _ _ => trivial⟩, fun _ => trivial⟩
  have hlook : (underEvil false (request (.lookBytes 0 4 [listTag, dataTag])) :
      Grammar Kind Bytes).Within (· ∈ productionNames) (· = 1) :=
    ⟨fun _ => trivial, fun _ => trivial⟩
  apply within_bind (within_literal 4 riffTag)
  intro _ total _
  apply within_bind hformat
  intro _
  apply within_bind hlook
  intro next
  by_cases hnext : next = listTag
  · rw [if_pos hnext]
    exact ⟨by decide, listRule_within rfl, fun _ => ⟨by decide, dataRule_within rfl, fun _ =>
      ⟨fun _ => trailing_within, fun _ _ _ => trivial⟩⟩⟩
  · rw [if_neg hnext]
    exact ⟨by decide, dataRule_within rfl, fun _ =>
      ⟨fun _ => trailing_within, fun _ _ _ => trivial⟩⟩

theorem grammar_within : riff.grammar.Within (· ∈ productionNames) (· = 1) :=
  fun _ => ⟨by decide, containerRule_within, fun _ => trivial⟩

theorem grammar_stops (h1 : p 1) : riff.grammar.StopsIn p :=
  grammar_within.stops fun _ h => h ▸ h1

end Stops

theorem riff_faithful : Faithful riff.grammar where
  follows k := grammar_follows
  spends := grammar_spends
  stops := grammar_stops (by decide)

/-- Decode, then encode: the decisions of a parse generate the input again, with the same chunks
and insertion points, whatever room the second walk has beyond what it needs. -/
theorem riff_parse_generate {limits limits' : Limits} {input : Bytes} {w : Walk Kind}
    (h : riff.grammar.parse limits input = .ok w) (hevil : limits'.allowEvil = limits.allowEvil)
    (hdepth : 2 ≤ limits'.maxDepth) (hfile : input.length ≤ limits'.fileCapacity)
    (hstream : w.decisions.length ≤ limits'.streamCapacity) :
    riff.grammar.generate limits' w.decisions =
      .ok ⟨.generate, input, w.decisions, w.chunks, w.points⟩ :=
  riff_faithful.generates h hevil hdepth hfile hstream

def unsummed : Bytes :=
  riffTag ++ [40, 0, 0, 0] ++ [0x57, 0x41, 0x56, 0x45] ++
    fmtTag ++ [16, 0, 0, 0, 1, 0, 1, 0, 0x40, 0x1F, 0, 0, 0x40, 0x1F, 0, 0, 1, 0, 8, 0] ++
    dataTag ++ [1, 0, 0, 0, 128, 0, 0, 0]

theorem riff_parse_generate_unsummed :
    ∃ w : Walk Kind, riff.grammar.parse {} unsummed = .ok w ∧
      riff.grammar.generate { streamCapacity := 29, fileCapacity := 48, maxDepth := 2 }
        w.decisions = .ok ⟨.generate, unsummed, w.decisions, w.chunks, w.points⟩ := by
  have hrun : (riff.grammar.parse {} unsummed).toOption.any (·.decisions.length ≤ 29) = true := by
    decide +kernel
  obtain ⟨w, h, hlen⟩ := ok_of_any hrun
  exact ⟨w, h, riff_parse_generate h rfl (by decide) (by decide) (of_decide_eq_true hlen)⟩

/-- Encode, then decode: whatever a stream generates is parsed into chunks of the same shape, and
into a stream that is no longer. -/
theorem riff_generate_parse {limits : Limits} {decisions : Bytes} {w : Walk Kind}
    (hcap : limits.fileCapacity ≤ 2 ^ 32) (h : riff.grammar.generate limits decisions = .ok w) :
    w.decisions.length ≤ decisions.length ∧ ∃ p, riff.grammar.parse limits w.file = .ok p ∧
      p.file = w.file ∧ p.chunks.map Chunk.shape = w.chunks.map Chunk.shape ∧
      p.decisions.length ≤ w.decisions.length :=
  riff_faithful.parses hcap h

def listed : Bytes :=
  [1, 1, 0, 1, 1, 1, 0, 32, 0, 1, 0, 32, 0, 32, 0, 1, 0, 1, 0, 1, 32, 4, 1, 200, 9, 5,
    1, 32, 0, 77, 1, 88, 200, 1, 32, 1, 8, 9, 100, 7]

theorem riff_generate_parse_listed :
    ∃ w p : Walk Kind, riff.grammar.generate {} listed = .ok w ∧
      w.decisions.length ≤ listed.length ∧ riff.grammar.parse {} w.file = .ok p ∧
      p.file = w.file ∧ p.chunks.map Chunk.shape = w.chunks.map Chunk.shape ∧
      p.decisions.length ≤ w.decisions.length := by
  have hrun : (riff.grammar.generate {} listed).toOption.any (fun _ => true) = true := by
    decide +kernel
  obtain ⟨w, h, -⟩ := ok_of_any hrun
  obtain ⟨hlen, p, hp⟩ := riff_generate_parse (by decide) h
  exact ⟨w, p, h, hlen, hp⟩

end DecisionWalk.Riff
