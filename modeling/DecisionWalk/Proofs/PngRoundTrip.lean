import DecisionWalk.Format.Png
import DecisionWalk.Proofs.RoundTrip

/-!
# Round trips of the PNG subset

Every chunk is read from behind a look at its type to a new edge. The type
stands there already; the length in front of it fills the gap. The last decision
is one for the CRC of the end chunk.
-/

set_option autoImplicit false

namespace DecisionWalk.Png

open Walker Outline Grammar

variable {k : Link} {hole : Span} {n : Nat} {o o' : Outline}

def announced (c : Nat) : Outline := ⟨c, 4, 4⟩

def measured (c : Nat) : Outline := ⟨c, 0, 4⟩

def typed (type : Bytes) : Grammar Kind Nat := do
  let start ← request .tell
  discard (underEvil false (request (.bytesKnown 4 [type])))
  pure start

def summed (start : Nat) : Grammar Kind Nat := do
  let stop ← request .tell
  request (.checksum32 start stop)

theorem run_framed (type : Bytes) (body : Rule) :
    (framed type body).run = (do
      let start ← (typed type).run
      body.run
      let crc ← (summed start).run
      (oneOf 4 [crc]).run) := by
  simp only [framed, typed, summed, run_bind, run_pure, bind_assoc, pure_bind]

theorem typed_follows (type : Bytes) (htype : type.length = 4) (hr : Reads o 4 o') :
    Follows k hole n o (typed type).run (fun a o'' => a = o.cursor ∧ o'' = o') anyEnd := by
  apply Follows.tell.seq
  rintro _ _ ⟨rfl, rfl⟩
  apply (Follows.literal 4 type (by decide) htype hr).discard.andThen
  intro _
  exact Follows.done ⟨rfl, rfl⟩

theorem summed_follows (start c : Nat) (hstart : hole.stop ≤ start) :
    Follows k hole n (edge c) (summed start).run
      (fun a o'' => a < 256 ^ 4 ∧ o'' = edge c) anyEnd := by
  apply Follows.tell.seq
  rintro stop _ ⟨hstop, rfl⟩
  exact Follows.checksum32 start stop hstart (Nat.le_of_eq hstop)

theorem crc_follows (crc c : Nat) (hcrc : crc < 256 ^ 4) :
    Follows k hole n (edge c) (oneOf 4 [crc]).run (fun _ o'' => o'' = edge (c + 4))
      anyEnd :=
  (Follows.exactly 4 crc (by decide) (by decide) hcrc (Reads.fresh c 4)).discard

/-- What is left of a chunk behind its body. -/
theorem closing_follows (start c : Nat) (hstart : hole.stop ≤ start) :
    Follows k hole n (edge c) ((summed start).run >>= fun crc => (oneOf 4 [crc]).run)
      (fun _ o'' => o'' = edge (c + 4)) anyEnd := by
  apply (summed_follows start c hstart).bind
  rintro crc _ ⟨hcrc, rfl⟩
  exact crc_follows crc c hcrc

theorem framed_follows {type : Bytes} {body : Rule} {c : Nat} (htype : type.length = 4) (m : Nat)
    (hr : Reads o 4 (edge c))
    (hb : Follows k noHole n (edge c) body.run (fun _ => Past (c + m)) anyEnd) :
    Follows k noHole n o (framed type body).run (fun _ => Past (c + m + 4)) anyEnd := by
  rw [run_framed]
  apply (typed_follows type htype hr).bind
  rintro _ _ ⟨rfl, rfl⟩
  apply hb.bind
  rintro _ _ ⟨d, hd, rfl⟩
  apply (closing_follows _ d (Nat.zero_le _)).weaken
  rintro _ _ rfl
  exact ⟨d + 4, by omega, rfl⟩

theorem sized_follows {type : Bytes} {body : Rule} {length c : Nat} (hlength : length < 256 ^ 4)
    (htype : type.length = 4) (hr : Reads o 4 o') (hr' : Reads o' 4 (edge c))
    (hb : Follows k noHole n (edge c) body.run
      (fun _ o'' => o'' = edge (c + length)) anyEnd) :
    Follows k noHole n o (sized length type body).run (fun _ => Past c) anyEnd := by
  apply (Follows.exactly 4 length (by decide) (by decide) hlength hr).discard.andThen
  intro _
  have hbody : Follows k noHole n (edge c) body.run (fun _ => Past (c + length)) anyEnd := by
    apply hb.weaken
    rintro _ _ rfl
    exact ⟨_, Nat.le_refl _, rfl⟩
  apply (framed_follows htype length hr' hbody).weaken
  rintro _ _ ⟨d, hd, rfl⟩
  exact ⟨d, by omega, rfl⟩

theorem between_lt {low high w : Nat} (h : high < w) : ∀ v ∈ between low high, v < w := by
  intro v hv
  obtain ⟨i, hi, rfl⟩ := List.mem_map.1 hv
  rw [List.mem_range] at hi
  omega

theorem byteOf_follows (known : List Nat) (p : Nat) (hne : known ≠ []) (hlen : known.length ≤ 256)
    (hknown : ∀ v ∈ known, v < 256) :
    Follows k hole n (edge p) (oneOf 1 known).run (fun _ o'' => o'' = edge (p + 1)) anyEnd :=
  (Follows.uintKnown 1 known (by decide) (by decide) hne hlen hknown (Reads.fresh p 1)).discard

theorem headerRule_follows (c : Nat) :
    Follows k noHole n (edge c) headerRule.run (fun _ => Past (c + 8)) anyEnd := by
  apply sized_follows (by decide) rfl (Reads.fresh c 4) (Reads.fresh _ 4)
  apply (Follows.uint 4 (by decide) (by decide) (Reads.fresh _ 4)).discard.andThen
  intro _
  apply (Follows.uint 4 (by decide) (by decide) (Reads.fresh _ 4)).discard.andThen
  intro _
  apply (byteOf_follows [1, 2, 4, 8, 16] _ (by decide) (by decide) (by decide)).andThen
  intro _
  apply (byteOf_follows [0, 2, 3, 4, 6] _ (by decide) (by decide) (by decide)).andThen
  intro _
  apply (byteOf_follows [0] _ (by decide) (by decide) (by decide)).andThen
  intro _
  apply (byteOf_follows [0] _ (by decide) (by decide) (by decide)).andThen
  intro _
  exact byteOf_follows [0, 1] _ (by decide) (by decide) (by decide)

theorem physicalDimsRule_follows (c : Nat) :
    Follows k noHole n (announced c) physicalDimsRule.run (fun _ => Past (c + 8)) anyEnd := by
  apply sized_follows (by decide) rfl (Reads.gap c 4 4) (Reads.run _ 4)
  apply (Follows.uint 4 (by decide) (by decide) (Reads.fresh _ 4)).discard.andThen
  intro _
  apply (Follows.uint 4 (by decide) (by decide) (Reads.fresh _ 4)).discard.andThen
  intro _
  exact byteOf_follows [0, 1] _ (by decide) (by decide) (by decide)

theorem timeRule_follows (c : Nat) :
    Follows k noHole n (announced c) timeRule.run (fun _ => Past (c + 8)) anyEnd := by
  apply sized_follows (by decide) rfl (Reads.gap c 4 4) (Reads.run _ 4)
  apply (Follows.uint 2 (by decide) (by decide) (Reads.fresh _ 2)).discard.andThen
  intro _
  apply (byteOf_follows (between 1 12) _ (by decide) (by decide) (between_lt (by decide))).andThen
  intro _
  apply (byteOf_follows (between 1 31) _ (by decide) (by decide) (between_lt (by decide))).andThen
  intro _
  apply (byteOf_follows (between 0 23) _ (by decide) (by decide) (between_lt (by decide))).andThen
  intro _
  apply (byteOf_follows (between 0 59) _ (by decide) (by decide) (between_lt (by decide))).andThen
  intro _
  exact byteOf_follows (between 0 60) _ (by decide) (by decide) (between_lt (by decide))

theorem endRule_follows (c : Nat) :
    Follows k noHole n (announced c) endRule.run (fun _ => Past (c + 8)) anyEnd := by
  apply sized_follows (by decide) rfl (Reads.gap c 4 4) (Reads.run _ 4)
  exact Follows.done rfl

theorem dataRule_follows (c : Nat) :
    Follows k noHole n (announced c) dataRule.run (fun _ => Past (c + 8)) anyEnd := by
  apply (Follows.uint 4 (by decide) (by decide) (Reads.gap c 4 4)).andThen
  intro length
  rw [run_bind, run_request]
  have hbody : Follows k noHole n (edge (c + 8))
      (discard (request (.bytes length)) : Rule).run (fun _ => Past (c + 8 + length)) anyEnd := by
    apply (Follows.bytes length (Reads.fresh _ length)).discard.weaken
    rintro _ _ rfl
    exact ⟨_, Nat.le_refl _, rfl⟩
  have htype : idat.length = 4 := rfl
  have hframed := framed_follows htype length (Reads.run (c + 4) 4) hbody
  apply (Follows.guarded (length + 8) ?_ ?_ hframed ?_).weaken
  · rintro _ _ ⟨d, hd, rfl⟩
    exact ⟨d, by omega, rfl⟩
  · intro room hroom s t a
    rw [if_pos hroom]
    exact throw_not_ok _ _ _ _
  · intro room hroom
    rw [if_neg (by omega)]
  · rintro _ _ ⟨d, hd, rfl⟩
    show c + 4 + (length + 8) ≤ d
    omega

def worded (held : Option Nat) : Walker Kind (Nat × Nat) := do
  let start ← (typed text).run
  let keyword ← (request (.cstring keywordMost) : Grammar Kind Bytes).run
  let count ← (do
    let room ← Walker.remaining
    decideCount (room - 4) (held.map (· - (keyword.length + 1))))
  let _ ← (request (.string count) : Grammar Kind Bytes).run
  pure (start, keyword.length + 1 + count)

theorem run_textRule :
    textRule.run = ((do
      let length ← reserve 4
      let a ← worded length.parsed
      patch length a.2
      pure a.1) >>= fun start => (summed start).run >>= fun crc => (oneOf 4 [crc]).run) := by
  simp only [textRule, worded, run_framed, run_bind, run_request, run_discard, Request.answer,
    bind_assoc, pure_bind]

theorem worded_mirrors (c v : Nat) (hv : k.leader = .parse → v < 256 ^ 4) :
    Mirrors k (fieldHole c 4) n (measured (c + 4)) (worded (k.leader.held v))
      (worded (k.follower.held v))
      (fun a o'' => a.1 = c + 4 ∧ o'' = edge (c + 8 + a.2))
      fun a s => a.2 = v ∧ k.Leaves 4 s := by
  apply Mirrors.bind (typed_follows text rfl (Reads.run (c + 4) 4))
  rintro _ _ ⟨rfl, rfl⟩
  apply Mirrors.bind (Follows.cstring keywordMost (c + 8) (by decide))
  rintro keyword _ rfl
  apply Mirrors.bindEnds (Mirrors.counting 4 ?_)
  · rintro count _ rfl
    apply Mirrors.bind (Follows.string count (Reads.fresh _ count))
    rintro _ _ rfl
    apply Follows.done
    exact ⟨rfl, congrArg edge (by omega)⟩
  · rintro count _ l' b _ l'' rfl hl' h ⟨-, rfl⟩ hl'' - ⟨hbv, hleaves⟩
    obtain ⟨_, _, -, h⟩ := bind_ok.1 h
    cases h
    have hsize' : l'.image.size = c + 8 + (keyword.length + 1) := hl'.shows.size
    have hsize'' : l''.image.size = c + 8 + (keyword.length + 1 + count) := hl''.shows.size
    -- The value found is the keyword's length and the count, so the count can be told from it.
    constructor
    · cases hm : k.follower with
      | parse =>
        left
        show some (v - (keyword.length + 1)) = some count
        rw [← hbv, Nat.add_sub_cancel_left]
      | generate => exact Or.inr ⟨rfl, rfl⟩
    · cases k with
      | replay decisions => trivial
      | reparse input =>
        have hle : l''.image.size + 4 ≤ input.size := hleaves
        show l'.image.size + (count + 4) ≤ input.size
        omega
  · intro w hw
    cases hm : k.leader with
    | parse =>
      rw [hm] at hw
      cases hw
      have hlt := hv hm
      show v - (keyword.length + 1) < 256 ^ 8
      omega
    | generate =>
      rw [hm] at hw
      cases hw

theorem textRule_follows (c : Nat) :
    Follows k noHole n (announced c) textRule.run (fun _ => Past (c + 8)) anyEnd := by
  have hpatched : Follows k noHole n (announced c) (do
      let length ← reserve 4
      let a ← worded length.parsed
      patch length a.2
      pure a.1) (fun a o'' => ∃ v, a = c + 4 ∧ o'' = edge (c + 8 + v))
      fun _ s => k.Leaves 4 s := by
    apply Follows.reserving worded (fun a o'' => a.1 = c + 4 ∧ o'' = edge (c + 8 + a.2))
      (fun _ s => k.Leaves 4 s) (by decide) (by decide) (Reads.gap c 4 4)
      (fun _ him => him.opens (by decide) (Or.inl (Nat.le_refl 4))) (worded_mirrors c)
    · rintro a _ ⟨-, rfl⟩
      exact ⟨_, rfl, fun hc => by omega⟩
    · exact fun _ _ _ hsize h => h.resized hsize
  rw [run_textRule]
  apply hpatched.bindEnds
  · rintro start _ ⟨v, -, rfl⟩
    apply (closing_follows start _ (Nat.zero_le _)).weaken
    rintro _ _ rfl
    exact ⟨_, by omega, rfl⟩
  · rintro start _ l' b o'' l'' ⟨v, -, rfl⟩ hl' h - - hin -
    obtain ⟨_, rfl, hl'', -⟩ :=
      closing_follows (n := n) start (c + 8 + v) (Nat.zero_le _) l' b l'' hl' h
    cases k with
    | replay decisions => trivial
    | reparse input =>
      have hsize' : l'.image.size = c + 8 + v := hl'.shows.size
      have hsize'' : l''.image.size = c + 8 + v + 4 := hl''.shows.size
      have hle : l''.image.size ≤ input.size := hin.2.1
      show l'.image.size + 4 ≤ input.size
      omega

/-- The chunk of a type is one of five. -/
theorem chunkOf_cases (type : Bytes) :
    chunkOf type = (Grammar.inScope "idat" .data dataRule >>= fun _ => pure (.inl ())) ∨
    chunkOf type = (Grammar.inScope "text" .text textRule >>= fun _ => pure (.inl ())) ∨
    chunkOf type =
      (Grammar.inScope "phys" .physicalDims physicalDimsRule >>= fun _ => pure (.inl ())) ∨
    chunkOf type = (Grammar.inScope "time" .time timeRule >>= fun _ => pure (.inl ())) ∨
    chunkOf type = (Grammar.inScope "iend" .finish endRule >>= fun _ => pure (.inr ())) := by
  rw [chunkOf]
  by_cases hdata : type = idat
  · exact Or.inl (if_pos hdata)
  by_cases htext : type = text
  · rw [if_neg hdata, if_pos htext]
    exact Or.inr (Or.inl rfl)
  by_cases hphys : type = phys
  · rw [if_neg hdata, if_neg htext, if_pos hphys]
    exact Or.inr (Or.inr (Or.inl rfl))
  by_cases htime : type = time
  · rw [if_neg hdata, if_neg htext, if_neg hphys, if_pos htime]
    exact Or.inr (Or.inr (Or.inr (Or.inl rfl)))
  · rw [if_neg hdata, if_neg htext, if_neg hphys, if_neg htime]
    exact Or.inr (Or.inr (Or.inr (Or.inr rfl)))

/-- A chunk of one kind, after which the walk goes on or ends with `result`. -/
theorem chunk_follows {name : String} {kind : Kind} {rule : Rule} {c : Nat}
    (result : Unit ⊕ Unit)
    (hrule : Follows k noHole n (announced c) rule.run (fun _ => Past (c + 8)) anyEnd) :
    Follows k noHole (n + 1) (announced c)
      (Grammar.inScope name kind rule >>= fun _ => pure result).run
      (Sum.elim (fun _ => Past 0) fun _ => Past 0) (Sum.elim anyEnd anyEnd) := by
  apply (hrule.inScope name kind fun _ _ _ h => h).seq
  rintro _ _ ⟨d, hd, rfl⟩
  apply Follows.done
  cases result <;> exact ⟨d, Nat.zero_le d, rfl⟩

theorem following_follows (c : Nat) :
    Follows k noHole (n + 1) (edge c) following.run
      (Sum.elim (fun _ => Past 0) fun _ => Past 0) (Sum.elim anyEnd anyEnd) := by
  apply ((Follows.lookBytes c 4 4 followingTypes (by decide) (by decide) (by decide)
    (by decide)).underEvil false).andThen
  intro type
  rcases chunkOf_cases type with h | h | h | h | h <;> rw [h]
  · exact chunk_follows _ (dataRule_follows c)
  · exact chunk_follows _ (textRule_follows c)
  · exact chunk_follows _ (physicalDimsRule_follows c)
  · exact chunk_follows _ (timeRule_follows c)
  · exact chunk_follows _ (endRule_follows c)

theorem fileRule_follows :
    Follows k noHole (n + 1) (edge 0) fileRule.run (fun _ => Past 0) anyEnd := by
  apply ((Follows.literal 8 signatureBytes (by decide) rfl (Reads.fresh 0 8)).discard.inScope
    "signature" Kind.signature fun _ _ _ h => h).andThen
  intro _
  apply ((headerRule_follows 8).inScope "ihdr" .header fun _ _ _ h => h).seq
  rintro _ _ ⟨c, -, rfl⟩
  apply Follows.repeatFrom fun _ => Past 0
  · rintro _ _ ⟨d, -, rfl⟩
    exact following_follows d
  · exact ⟨c, Nat.zero_le c, rfl⟩

theorem grammar_follows :
    Follows k noHole (n + 2) (edge 0) png.grammar.run (fun _ => Past 0) anyEnd := by
  apply (Follows.setEndian .big (Nat.le_refl 0)).andThen
  intro _
  exact fileRule_follows.inScope "png" .file fun _ _ _ h => h

section Last

theorem closing_spends (start c : Nat) :
    Spends noHole (edge c) ((summed start).run >>= fun crc => (oneOf 4 [crc]).run)
      fun _ => True := by
  apply Spends.bind (n := 0) (summed_follows start c (Nat.zero_le _))
  rintro crc _ ⟨hcrc, rfl⟩
  apply Spends.discard
  apply Spends.uintKnown 4 c [crc] (by decide) (by decide) (List.cons_ne_nil _ _) (by simp)
  intro v hv
  rw [List.mem_singleton.1 hv]
  exact hcrc

theorem endRule_spends (c : Nat) :
    Spends noHole (announced c) endRule.run fun _ => True := by
  apply Spends.seq (n := 0)
    (Follows.exactly 4 0 (by decide) (by decide) (by decide) (Reads.gap c 4 4)).discard
  rintro _ _ rfl
  rw [run_framed]
  apply Spends.bind (n := 0) (typed_follows iend rfl (Reads.run (c + 4) 4))
  rintro start _ ⟨-, rfl⟩
  exact closing_spends start (c + 4 + 4)

theorem following_spends (c : Nat) :
    Spends noHole (edge c) following.run fun r => r.isRight = true := by
  have hlater : ∀ (name : String) (kind : Kind) (rule : Rule) (o : Outline),
      Spends noHole o (Grammar.inScope name kind rule >>= fun _ => pure (.inl ()) :
        Grammar Kind (Unit ⊕ Unit)).run fun r => r.isRight = true := by
    intro name kind rule o
    apply Spends.never
    intro s r t h
    rw [run_bind] at h
    obtain ⟨_, _, -, h⟩ := bind_ok.1 h
    cases h
    exact Bool.false_ne_true
  apply Spends.seq (n := 0) ((Follows.lookBytes c 4 4 followingTypes (by decide) (by decide)
    (by decide) (by decide)).underEvil false)
  rintro type _ rfl
  rcases chunkOf_cases type with h | h | h | h | h <;> rw [h]
  · exact hlater _ _ _ _
  · exact hlater _ _ _ _
  · exact hlater _ _ _ _
  · exact hlater _ _ _ _
  · rw [run_bind]
    have hend := endRule_follows (k := .reparse #[]) (n := 0) c
    apply Spends.andThen (hend.inScope "iend" .finish fun _ _ _ h => h)
      (Spends.inScope "iend" .finish hend (endRule_spends c))
    intro _ _ s r t _ _ h _
    cases h
    exact ⟨trivial, rfl⟩

theorem fileRule_spends : Spends noHole (edge 0) fileRule.run fun _ => True := by
  apply Spends.seq (n := 1) ((Follows.literal 8 signatureBytes (by decide) rfl
    (Reads.fresh 0 8)).discard.inScope "signature" Kind.signature fun _ _ _ h => h)
  rintro _ _ rfl
  apply Spends.seq (n := 1) ((headerRule_follows 8).inScope "ihdr" .header fun _ _ _ h => h)
  rintro _ _ ⟨c, -, rfl⟩
  apply Spends.repeatFrom (n := 1) (fun _ => Past 0)
  · rintro _ _ ⟨d, -, rfl⟩
    exact following_follows d
  · rintro _ _ ⟨d, -, rfl⟩
    exact following_spends d
  · exact ⟨c, Nat.zero_le c, rfl⟩

theorem grammar_spends : Spends noHole (edge 0) png.grammar.run fun _ => True := by
  apply Spends.seq (n := 1) (Follows.setEndian .big (Nat.le_refl 0))
  rintro _ _ rfl
  exact Spends.inScope "png" .file (n := 1) fileRule_follows fileRule_spends

end Last

section Stops

variable {p : Int → Prop} {names : String → Prop}

theorem framed_within {type : Bytes} {body : Rule} (hb : body.Within names p) :
    (framed type body).Within names p := by
  apply within_bind (within_request _)
  intro start
  apply within_bind (within_literal 4 type)
  intro _
  exact within_bind hb fun _ _ _ _ => trivial

theorem sized_within {length : Nat} {type : Bytes} {body : Rule} (hb : body.Within names p) :
    (sized length type body).Within names p :=
  fun _ => framed_within hb

theorem dataRule_within (h1 : p 1) : dataRule.Within names p := by
  apply within_bind (within_request _)
  intro length
  apply within_bind (within_request _)
  intro room
  by_cases hroom : room < length + 8
  · rw [if_pos hroom]
    exact h1
  · rw [if_neg hroom]
    exact framed_within fun _ => trivial

def productionNames : List String :=
  ["png", "signature", "ihdr", "idat", "text", "phys", "time", "iend"]

theorem following_within : following.Within (· ∈ productionNames) (· = 1) := by
  have hlook : (underEvil false (request (.lookBytes 4 4 followingTypes)) :
      Grammar Kind Bytes).Within (· ∈ productionNames) (· = 1) :=
    ⟨fun _ => trivial, fun _ => trivial⟩
  apply within_bind hlook
  intro type
  rcases chunkOf_cases type with h | h | h | h | h <;> rw [h]
  · exact ⟨by decide, dataRule_within rfl, fun _ => trivial⟩
  · exact ⟨by decide, fun _ => framed_within fun _ _ _ _ _ => trivial, fun _ => trivial⟩
  · exact ⟨by decide, sized_within fun _ _ _ => trivial, fun _ => trivial⟩
  · exact ⟨by decide, sized_within fun _ _ _ _ _ _ => trivial, fun _ => trivial⟩
  · exact ⟨by decide, sized_within trivial, fun _ => trivial⟩

theorem grammar_within : png.grammar.Within (· ∈ productionNames) (· = 1) := by
  have hheader : headerRule.Within (· ∈ productionNames) (· = 1) :=
    sized_within fun _ _ _ _ _ _ _ => trivial
  have hfile : fileRule.Within (· ∈ productionNames) (· = 1) :=
    ⟨by decide, within_literal 8 _, fun _ => ⟨by decide, hheader, fun _ =>
      ⟨fun _ => following_within, fun _ => trivial⟩⟩⟩
  exact fun _ => ⟨by decide, hfile, fun _ => trivial⟩

theorem grammar_stops (h1 : p 1) : png.grammar.StopsIn p :=
  grammar_within.stops fun _ h => h ▸ h1

end Stops

theorem png_faithful : Faithful png.grammar where
  follows k := grammar_follows.ending
  spends := grammar_spends
  stops := grammar_stops (by decide)

/-- Decode, then encode: the decisions of a parse generate the input again, with the same chunks
and insertion points, whatever room the second walk has beyond what it needs. -/
theorem png_parse_generate {limits limits' : Limits} {input : Bytes} {w : Walk Kind}
    (h : png.grammar.parse limits input = .ok w) (hevil : limits'.allowEvil = limits.allowEvil)
    (hdepth : 2 ≤ limits'.maxDepth) (hfile : input.length ≤ limits'.fileCapacity)
    (hstream : w.decisions.length ≤ limits'.streamCapacity) :
    png.grammar.generate limits' w.decisions =
      .ok ⟨.generate, input, w.decisions, w.chunks, w.points⟩ :=
  png_faithful.generates h hevil hdepth hfile hstream

def unsummed : Bytes :=
  signatureBytes ++ [0, 0, 0, 13] ++ ihdr ++ [0, 0, 0, 1, 0, 0, 0, 1, 8, 0, 0, 0, 0] ++
    [0, 0, 0, 0] ++ [0, 0, 0, 0] ++ iend ++ [0, 0, 0, 0]

theorem png_parse_generate_unsummed :
    ∃ w : Walk Kind, png.grammar.parse {} unsummed = .ok w ∧
      png.grammar.generate { streamCapacity := 25, fileCapacity := 45, maxDepth := 2 } w.decisions =
        .ok ⟨.generate, unsummed, w.decisions, w.chunks, w.points⟩ := by
  have hrun : (png.grammar.parse {} unsummed).toOption.any (·.decisions.length ≤ 25) = true := by
    decide +kernel
  obtain ⟨w, h, hlen⟩ := ok_of_any hrun
  exact ⟨w, h, png_parse_generate h rfl (by decide) (by decide) (of_decide_eq_true hlen)⟩

/-- Encode, then decode: whatever a stream generates is parsed into chunks of the same shape, and
into a stream that is no longer. -/
theorem png_generate_parse {limits : Limits} {decisions : Bytes} {w : Walk Kind}
    (hcap : limits.fileCapacity ≤ 2 ^ 32) (h : png.grammar.generate limits decisions = .ok w) :
    w.decisions.length ≤ decisions.length ∧ ∃ p, png.grammar.parse limits w.file = .ok p ∧
      p.file = w.file ∧ p.chunks.map Chunk.shape = w.chunks.map Chunk.shape ∧
      p.decisions.length ≤ w.decisions.length :=
  png_faithful.parses hcap h

def shortest : Bytes :=
  [1, 1, 129, 32, 0, 32, 0, 1, 3, 1, 0, 1, 1, 1, 0, 1, 1, 4, 1, 1, 1, 7]

theorem png_generate_parse_shortest :
    ∃ w p : Walk Kind, png.grammar.generate {} shortest = .ok w ∧
      w.decisions.length ≤ shortest.length ∧ png.grammar.parse {} w.file = .ok p ∧
      p.file = w.file ∧ p.chunks.map Chunk.shape = w.chunks.map Chunk.shape ∧
      p.decisions.length ≤ w.decisions.length := by
  have hrun : (png.grammar.generate {} shortest).toOption.any (fun _ => true) = true := by
    decide +kernel
  obtain ⟨w, h, -⟩ := ok_of_any hrun
  obtain ⟨hlen, p, hp⟩ := png_generate_parse (by decide) h
  exact ⟨w, p, h, hlen, hp⟩

end DecisionWalk.Png
