import DecisionWalk.Proofs.MachineRules
import DecisionWalk.Proofs.PngRoundTrip
import DecisionWalk.Proofs.RiffRoundTrip

/-!
# The formats on a machine

The rules of the two formats as programs of a machine, where sums and differences
of sizes are demanded to fit in a word. A machine that walks either format meets
no demand that fails, whatever the file or the decisions: it ends as the walk
does.
-/

set_option autoImplicit false

namespace DecisionWalk

variable {K : Type} {k : Nat}

namespace Machine

def skipUInt (width : Nat) : Machine K Unit := do
  let _ ← readUInt width

def oneOf (width : Nat) (known : List Nat) : Machine K Unit := do
  let _ ← readUIntKnown width known

def literal (length : Nat) (bytes : Bytes) : Machine K Unit := do
  let _ ← underEvil false (readBytesKnown length [bytes])

end Machine

section Fields

variable [DecidableEq K]

theorem skipUInt_serves (width : Nat) :
    Serves k k (Machine.skipUInt width)
      (discard (Grammar.request (.uint width)) : Grammar K Unit).run anyResult :=
  (Serves.uint width).ask.discard

theorem oneOf_serves (width : Nat) {known : List Nat} (hk : known.length ≤ wordValues) :
    Serves k k (Machine.oneOf width known)
      (discard (Grammar.request (.uintKnown width known)) : Grammar K Unit).run anyResult :=
  (Serves.uintKnown width hk).ask.discard

/-- A known value that is computed. -/
theorem single_serves (width value : Nat) :
    Serves k k (Machine.oneOf width [value])
      (discard (Grammar.request (.uintKnown width [value])) : Grammar K Unit).run anyResult :=
  oneOf_serves width (by decide : 1 ≤ wordValues)

theorem literal_serves {length : Nat} (bytes : Bytes) (hlength : bytes.length = length)
    (hsmall : length < smallValues) :
    Serves k k (Machine.literal length bytes)
      (discard (Grammar.underEvil false (Grammar.request (.bytesKnown length [bytes]))) :
        Grammar K Unit).run anyResult := by
  have hone : [bytes].length ≤ wordValues := (by decide : 1 ≤ wordValues)
  refine ((Serves.bytesKnown hsmall hone ?_).ask.evil false).discard
  intro bs hbs
  rw [List.mem_singleton.1 hbs]
  exact hlength

theorem Grammar.run_position_le {α : Type} {g : Grammar K α} {s t : State K} {a : α}
    (h : g.run s = .ok a t) : s.stream.position ≤ t.stream.position := by
  have hprefix := (g.after_kept s).consumed.length_le
  rw [Walker.after_ok h] at hprefix
  rwa [Stream.consumed, Stream.consumed, Array.length_toList, Array.length_toList] at hprefix

end Fields

namespace Png

open Machine

section Programs

def framedProgram (type : Bytes) (body : Machine Kind Unit) : Machine Kind Unit := do
  let start ← tell
  literal 4 type
  body
  let stop ← tell
  let crc ← checksum32 start stop
  Machine.oneOf 4 [crc]

def sizedProgram (length : Nat) (type : Bytes) (body : Machine Kind Unit) : Machine Kind Unit := do
  Machine.oneOf 4 [length]
  framedProgram type body

def headerProgram : Machine Kind Unit :=
  sizedProgram 13 ihdr do
    Machine.skipUInt 4
    Machine.skipUInt 4
    Machine.oneOf 1 [1, 2, 4, 8, 16]
    Machine.oneOf 1 [0, 2, 3, 4, 6]
    Machine.oneOf 1 [0]
    Machine.oneOf 1 [0]
    Machine.oneOf 1 [0, 1]

def dataProgram : Machine Kind Unit := do
  let length ← readUInt 4
  let room ← remaining
  let needed ← Machine.sum length 8
  if room < needed then
    stop 1 s!"IDAT length {length} runs past the end of the file"
  else
    framedProgram idat do
      let _ ← readBytes length

def textProgram : Machine Kind Unit := do
  let length ← reserve 4
  framedProgram text do
    let keyword ← readCString keywordMost
    let used ← Machine.sum keyword.length 1
    let room ← remaining
    let count ← decideCount (room - 4) (length.parsed.map (· - used))
    let _ ← readString count
    let total ← Machine.sum used count
    patch length total

def physicalDimsProgram : Machine Kind Unit :=
  sizedProgram 9 phys do
    Machine.skipUInt 4
    Machine.skipUInt 4
    Machine.oneOf 1 [0, 1]

def timeProgram : Machine Kind Unit :=
  sizedProgram 7 time do
    Machine.skipUInt 2
    Machine.oneOf 1 (between 1 12)
    Machine.oneOf 1 (between 1 31)
    Machine.oneOf 1 (between 0 23)
    Machine.oneOf 1 (between 0 59)
    Machine.oneOf 1 (between 0 60)

def endProgram : Machine Kind Unit := sizedProgram 0 iend (pure ())

def chunkProgram (type : Bytes) : Machine Kind (Unit ⊕ Unit) :=
  if type = idat then do
    inScope "idat" .data dataProgram
    pure (.inl ())
  else if type = text then do
    inScope "text" .text textProgram
    pure (.inl ())
  else if type = phys then do
    inScope "phys" .physicalDims physicalDimsProgram
    pure (.inl ())
  else if type = time then do
    inScope "time" .time timeProgram
    pure (.inl ())
  else do
    inScope "iend" .finish endProgram
    pure (.inr ())

def followingProgram : Machine Kind (Unit ⊕ Unit) := do
  let type ← underEvil false (lookBytesKnown 4 4 followingTypes)
  chunkProgram type

def fileProgram : Machine Kind Unit := do
  inScope "signature" .signature (literal 8 signatureBytes)
  inScope "ihdr" .header headerProgram
  repeatFrom () fun _ => followingProgram

def program : Machine Kind Unit := do
  setEndian .big
  inScope "png" .file fileProgram

end Programs

theorem framed_serves {type : Bytes} {x : Machine Kind Unit} {body : Rule}
    (htype : type.length = 4) (hbody : Serves k k x body.run anyResult) :
    Serves k k (framedProgram type x) (framed type body).run anyResult :=
  Serves.tell.ask.seq fun _ hstart => (literal_serves type htype (by decide)).seq fun _ _ =>
    hbody.seq fun _ _ => Serves.tell.ask.seq fun _ hstop =>
      (Serves.checksum32 hstart hstop).ask.seq fun _ _ => single_serves 4 _

theorem sized_serves {length : Nat} {type : Bytes} {x : Machine Kind Unit} {body : Rule}
    (htype : type.length = 4) (hbody : Serves k k x body.run anyResult) :
    Serves k k (sizedProgram length type x) (sized length type body).run anyResult :=
  (single_serves 4 length).seq fun _ _ => framed_serves htype hbody

theorem headerProgram_serves : Serves k k headerProgram headerRule.run anyResult :=
  sized_serves rfl <| (skipUInt_serves 4).seq fun _ _ => (skipUInt_serves 4).seq fun _ _ =>
    (oneOf_serves 1 (by decide)).seq fun _ _ => (oneOf_serves 1 (by decide)).seq fun _ _ =>
      (oneOf_serves 1 (by decide)).seq fun _ _ => (oneOf_serves 1 (by decide)).seq fun _ _ =>
        oneOf_serves 1 (by decide)

theorem dataProgram_serves : Serves k k dataProgram dataRule.run anyResult := by
  refine (Serves.uint 4).ask.seq fun length hlength => Serves.remaining.ask.seq fun room _ => ?_
  have hsmall : length < smallValues := Nat.lt_trans hlength (by decide)
  have hsum : length + 8 < wordValues := by
    simp only [smallValues, wordValues] at *
    omega
  refine .sum hsum ?_
  split
  · exact .stop 1 _
  · exact framed_serves rfl (Serves.bytes hsmall).ask.discard

theorem textProgram_serves : Serves k k textProgram textRule.run anyResult := by
  refine (Serves.reserve 4).ask.seq fun length hwidth => framed_serves rfl ?_
  refine (Serves.cstring (by decide)).ask.seq fun keyword hkeyword => .sum ?_ ?_
  · simp only [smallValues, wordValues] at *
    omega
  refine Serves.remaining.ask.seq fun room hroom => ?_
  refine (Serves.count _ _).ask.seq fun count hcount => ?_
  have hsmall : count < smallValues := by omega
  have hwide : length.width ≤ wordBytes := hwidth ▸ (by decide : 4 ≤ wordBytes)
  refine .past (.ask (.string hsmall)) (.sum ?_ (.ask (.patch _ hwide)))
  simp only [smallValues, wordValues] at *
  omega

theorem physicalDimsProgram_serves :
    Serves k k physicalDimsProgram physicalDimsRule.run anyResult :=
  sized_serves rfl <| (skipUInt_serves 4).seq fun _ _ => (skipUInt_serves 4).seq fun _ _ =>
    oneOf_serves 1 (by decide)

theorem timeProgram_serves : Serves k k timeProgram timeRule.run anyResult :=
  sized_serves rfl <| (skipUInt_serves 2).seq fun _ _ => (oneOf_serves 1 (by decide)).seq fun _ _ =>
    (oneOf_serves 1 (by decide)).seq fun _ _ => (oneOf_serves 1 (by decide)).seq fun _ _ =>
      (oneOf_serves 1 (by decide)).seq fun _ _ => oneOf_serves 1 (by decide)

theorem endProgram_serves : Serves k k endProgram endRule.run anyResult :=
  sized_serves rfl (.pure trivial)

/-- Each type of chunk is a production with its own rule. -/
theorem chunkProgram_serves (type : Bytes) (hk : k < smallValues) :
    Serves k (k + 1) (chunkProgram type) (chunkOf type).run anyResult := by
  rw [chunkProgram, chunkOf]
  split
  · exact (dataProgram_serves.scope hk).seq fun _ _ => .pure trivial
  split
  · exact (textProgram_serves.scope hk).seq fun _ _ => .pure trivial
  split
  · exact (physicalDimsProgram_serves.scope hk).seq fun _ _ => .pure trivial
  split
  · exact (timeProgram_serves.scope hk).seq fun _ _ => .pure trivial
  · exact (endProgram_serves.scope hk).seq fun _ _ => .pure trivial

theorem followingProgram_serves (hk : k < smallValues) :
    Serves (k + 1) (k + 1) followingProgram following.run anyResult := by
  have hlook : Serves (k + 1) k (lookBytesKnown 4 4 followingTypes)
      (Grammar.request (.lookBytes 4 4 followingTypes) : Grammar Kind Bytes).run anyResult :=
    .ask (.lookBytes (by decide) (by decide) (by decide) (by decide))
  exact (hlook.evil false).seq fun type _ => chunkProgram_serves type hk

/-- The look at the type of a chunk takes a decision. -/
theorem following_moves {s t : State Kind} {r : Unit ⊕ Unit} (h : following.run s = .ok r t) :
    s.stream.position < t.stream.position := by
  rw [following, Grammar.run_bind] at h
  obtain ⟨type, u, hlook, hchunk⟩ := Walker.bind_ok.1 h
  exact Nat.lt_of_lt_of_le (Looked.underEvil hlook).position (Grammar.run_position_le hchunk)

theorem fileProgram_serves : Serves 1 3 fileProgram fileRule.run anyResult := by
  have hsignature : Serves 1 2 (inScope "signature" Kind.signature (literal 8 signatureBytes))
      (Grammar.inScope "signature" Kind.signature
        (discard (Grammar.underEvil false (Grammar.request (.bytesKnown 8 [signatureBytes]))))).run
      anyResult :=
    (literal_serves signatureBytes rfl (by decide)).scope (by decide)
  have hheader : Serves 2 3 (inScope "ihdr" Kind.header headerProgram)
      (Grammar.inScope "ihdr" Kind.header headerRule).run anyResult :=
    headerProgram_serves.scope (by decide)
  refine hsignature.seq fun _ _ => hheader.seq fun _ _ => .loop ?_ ?_
  · intro _
    exact (followingProgram_serves (k := 2) (by decide)).weaken fun r _ => by cases r <;> trivial
  · exact fun _ _ _ _ => following_moves

theorem program_serves : Serves 0 3 program png.grammar.run anyResult :=
  (Serves.ask (.setEndian .big)).seq fun _ _ => fileProgram_serves.scope (by decide)

end Png

namespace Riff

open Machine

section Programs

def payloadProgram (what : String) : Machine Kind Nat := do
  let size ← readUInt 4
  let room ← remaining
  if room < size then stop 1 s!"{what} size {size} runs past the end of the file"
  else pure size

def padProgram (size : Nat) : Machine Kind Unit :=
  if size % 2 = 1 then skip 1 else pure ()

def formatProgram : Machine Kind Unit := do
  literal 4 fmtTag
  Machine.oneOf 4 [16]
  Machine.oneOf 2 [1, 3]
  Machine.skipUInt 2
  Machine.oneOf 4 sampleRates
  Machine.skipUInt 4
  Machine.skipUInt 2
  Machine.oneOf 2 [8, 16, 24, 32]

def listProgram : Machine Kind Unit := do
  literal 4 listTag
  let size ← payloadProgram "LIST"
  if size < 4 then stop 1 s!"LIST size {size} cannot hold its list type"
  else do
    let _ ← readBytesKnown 4 [infoTag]
    let rest ← difference size 4
    let _ ← readString rest
    padProgram size

def dataProgram : Machine Kind Unit := do
  literal 4 dataTag
  let size ← payloadProgram "data"
  let start ← tell
  let _ ← readBytes size
  let stop ← tell
  let crc ← checksum16 start stop
  Machine.oneOf 2 [crc]
  padProgram size

def junkProgram : Machine Kind Unit := do
  literal 4 junkTag
  let size ← payloadProgram "JUNK"
  let _ ← readBytes size
  padProgram size

def trailingProgram : Machine Kind (Unit ⊕ Unit) := do
  let ends ← endOfFile endThreshold
  if ends then pure (.inr ())
  else do
    inScope "junk" .junk junkProgram
    pure (.inl ())

def containerProgram : Machine Kind Unit := do
  literal 4 riffTag
  let total ← reserve 4
  let _ ← readBytesKnown 4 formTypes
  inScope "fmt" .format formatProgram
  let next ← underEvil false (lookBytesKnown 0 4 [listTag, dataTag])
  if next = listTag then
    inScope "list" .list listProgram
  inScope "data" .data dataProgram
  repeatFrom () fun _ => trailingProgram
  let size ← fileSize
  patch total (size - 8)

def program : Machine Kind Unit := do
  setEndian .little
  inScope "riff" .container containerProgram

end Programs

theorem tag_serves {expected : Bytes} (h : expected.length = 4) :
    Serves k k (literal 4 expected) (tag expected).run anyResult :=
  literal_serves expected h (by decide)

theorem payloadProgram_serves (what : String) :
    Serves k k (payloadProgram what) (payloadSize what).run (· < smallValues) := by
  refine .seq (.ask (.uint 4)) fun size hsize => .seq (.ask .remaining) fun room _ => ?_
  split
  · exact .stop 1 _
  · exact .pure (Nat.lt_trans hsize (by decide))

theorem padProgram_serves (size : Nat) : Serves k k (padProgram size) (pad size).run anyResult := by
  rw [padProgram, pad]
  split
  · exact .ask (.skip (by decide))
  · exact .pure trivial

theorem formatProgram_serves : Serves k k formatProgram formatRule.run anyResult :=
  (tag_serves rfl).seq fun _ _ => (oneOf_serves 4 (by decide)).seq fun _ _ =>
    (oneOf_serves 2 (by decide)).seq fun _ _ => (skipUInt_serves 2).seq fun _ _ =>
      (oneOf_serves 4 (by decide)).seq fun _ _ => (skipUInt_serves 4).seq fun _ _ =>
        (skipUInt_serves 2).seq fun _ _ => oneOf_serves 2 (by decide)

theorem listProgram_serves : Serves k k listProgram listRule.run anyResult := by
  refine (tag_serves rfl).seq fun _ _ => (payloadProgram_serves "LIST").seq fun size hsize => ?_
  split
  · exact .stop 1 _
  · rename_i hlist
    have hrest : size - 4 < smallValues := Nat.lt_of_le_of_lt (Nat.sub_le _ _) hsize
    refine .past (.ask (.bytesKnown (by decide) (by decide) (by decide))) ?_
    exact .difference (Nat.le_of_not_lt hlist)
      (.past (.ask (.string hrest)) (padProgram_serves size))

theorem dataProgram_serves : Serves k k dataProgram dataRule.run anyResult := by
  refine (tag_serves rfl).seq fun _ _ => (payloadProgram_serves "data").seq fun size hsize => ?_
  refine .seq (.ask .tell) fun start hstart => .past (.ask (.bytes hsize)) ?_
  refine .seq (.ask .tell) fun stop hstop => .seq (.ask (.checksum16 hstart hstop)) fun crc _ => ?_
  exact (single_serves 2 crc).seq fun _ _ => padProgram_serves size

theorem junkProgram_serves : Serves k k junkProgram junkRule.run anyResult :=
  (tag_serves rfl).seq fun _ _ => (payloadProgram_serves "JUNK").seq fun size hsize =>
    .past (.ask (.bytes hsize)) (padProgram_serves size)

theorem trailingProgram_serves (hk : k < smallValues) :
    Serves (k + 1) (k + 1) trailingProgram trailing.run anyResult := by
  refine .seq (.ask (.endOfFile endThreshold)) fun ends _ => ?_
  split
  · exact (Serves.pure trivial).slacken (Nat.le_succ k)
  · exact (junkProgram_serves.scope hk).seq fun _ _ => .pure trivial

theorem trailing_moves {s t : State Kind} {r : Unit ⊕ Unit} (h : trailing.run s = .ok r t) :
    s.stream.position < t.stream.position := by
  rw [trailing, Grammar.run_bind, Grammar.run_request] at h
  obtain ⟨ends, u, hcoin, hrest⟩ := Walker.bind_ok.1 h
  exact Nat.lt_of_lt_of_le (endOfFile_spends hcoin) (Grammar.run_position_le hrest)

/-- The samples, the junk behind them, and the size in front of it all. -/
theorem samples_serves {total : Reserved} (hwidth : total.width ≤ wordBytes) :
    Serves 2 3
      (do
        inScope "data" Kind.data dataProgram
        repeatFrom () fun _ => trailingProgram
        let size ← fileSize
        patch total (size - 8))
      (do
        Grammar.inScope "data" Kind.data dataRule
        Grammar.repeatFrom () fun _ => trailing
        let size ← Grammar.request .fileSize
        Grammar.request (.patch total (size - 8)) : Rule).run anyResult := by
  have hdata : Serves 2 3 (inScope "data" Kind.data dataProgram)
      (Grammar.inScope "data" Kind.data dataRule).run anyResult :=
    dataProgram_serves.scope (by decide)
  have htrailing : Serves 3 3 (repeatFrom () fun _ => trailingProgram)
      (Grammar.repeatFrom () fun _ => trailing).run anyResult := by
    refine .loop ?_ fun _ _ _ _ => trailing_moves
    intro _
    exact (trailingProgram_serves (k := 2) (by decide)).weaken fun r _ => by cases r <;> trivial
  exact hdata.seq fun _ _ => htrailing.seq fun _ _ => .seq (.ask .fileSize) fun size _ =>
    .ask (.patch _ hwidth)

theorem containerProgram_serves : Serves 1 3 containerProgram containerRule.run anyResult := by
  refine (tag_serves rfl).seq fun _ _ => .seq (.ask (.reserve 4)) fun total hwidth => ?_
  have hwide : total.width ≤ wordBytes := hwidth ▸ (by decide : 4 ≤ wordBytes)
  refine .past (.ask (.bytesKnown (by decide) (by decide) (by decide))) ?_
  have hformat : Serves 1 2 (inScope "fmt" Kind.format formatProgram)
      (Grammar.inScope "fmt" Kind.format formatRule).run anyResult :=
    formatProgram_serves.scope (by decide)
  have hlook : Serves 2 1 (lookBytesKnown 0 4 [listTag, dataTag])
      (Grammar.request (.lookBytes 0 4 [listTag, dataTag]) : Grammar Kind Bytes).run anyResult :=
    .ask (.lookBytes (by decide) (by decide) (by decide) (by decide))
  refine hformat.seq fun _ _ => (hlook.evil false).seq fun next _ => ?_
  split
  · have hlist : Serves 1 2 (inScope "list" Kind.list listProgram)
        (Grammar.inScope "list" Kind.list listRule).run anyResult :=
      listProgram_serves.scope (by decide)
    exact hlist.seq fun _ _ => samples_serves hwide
  · exact (samples_serves hwide).tighten (by decide)

theorem program_serves : Serves 0 3 program riff.grammar.run anyResult :=
  (Serves.ask (.setEndian .little)).seq fun _ _ => containerProgram_serves.scope (by decide)

end Riff

/-- No walk of either format traps, from any decisions or any input and under any watches, as long
as no capacity and no input is too large. It ends as the walker says, with a result or with an
error of the walk, and what mutations of the result wait for is not too large either. -/
theorem formats_untrapped {limits : Limits} {origin : Origin} {pngWatches : List (Watch Png.Kind)}
    {riffWatches : List (Watch Riff.Kind)} (hpng : Manageable limits origin pngWatches)
    (hriff : Manageable limits origin riffWatches) :
    Executes Png.program png.grammar limits origin pngWatches ∧
      Executes Riff.program riff.grammar limits origin riffWatches :=
  ⟨Png.program_serves.executes (by decide) (Png.grammar_stops (by decide)) hpng,
    Riff.program_serves.executes (by decide) (Riff.grammar_stops (by decide)) hriff⟩

def vast : Limits where
  streamCapacity := 0x3FFFFFFFFFFFFFFF
  fileCapacity := 0x3FFFFFFFFFFFFFFF

def bareDecisions : Bytes := [1, 1, 129, 32, 0, 32, 0, 1, 3, 1, 0, 1, 1, 1, 0, 1, 1, 4, 1, 1, 1]

def endWatch : Watch Png.Kind where
  start := 16
  kind := some .finish
  depth := some 1
  restore := some [7]

/-- The machine generates a PNG, and sees its end chunk close, where the decisions make no RIFF
file. -/
theorem formats_untrapped_vast :
    (∃ w, w.1.file.length = 45 ∧ w.2.any (·.observedStop == some 21) = true ∧
      Machine.runFrom Png.program vast (.decisions bareDecisions) [endWatch] = .ok w) ∧
    Machine.runFrom Riff.program vast (.decisions bareDecisions) [] =
      .error (.failed (.capacityExceeded .stream 21)) := by
  have hmanageable : Manageable vast (.decisions bareDecisions) [endWatch] := by
    refine ⟨by decide, by decide, fun _ h => (nomatch h), ?_⟩
    intro w hw d hd
    obtain rfl := List.mem_singleton.1 hw
    cases hd
    decide
  have hriff : Manageable vast (.decisions bareDecisions) ([] : List (Watch Riff.Kind)) :=
    ⟨by decide, by decide, fun _ h => (nomatch h), fun _ h => (nomatch h)⟩
  obtain ⟨hpng, hriff⟩ := formats_untrapped hmanageable hriff
  have hfile : (png.grammar.runFrom vast (.decisions bareDecisions) [endWatch]).outcome.toOption.any
      (fun w => w.1.file.length == 45 && w.2.any (·.observedStop == some 21)) = true := by
    decide +kernel
  have hfailed : (match (riff.grammar.runFrom vast (.decisions bareDecisions) []).outcome with
      | .error e => decide (e = .capacityExceeded .stream 21)
      | .ok _ => false) = true := by
    decide +kernel
  constructor
  · obtain ⟨w, hw, hseen⟩ := ok_of_any hfile
    obtain ⟨hlength, hstop⟩ := Bool.and_eq_true_iff.1 hseen
    exact ⟨w, eq_of_beq hlength, hstop, by rw [hpng.runs, hw]; rfl⟩
  · rw [hriff.runs]
    split at hfailed
    · rename_i e he
      rw [he, of_decide_eq_true hfailed]
      rfl
    · cases hfailed

end DecisionWalk
