import DecisionWalk.Proofs.PngRoundTrip
import DecisionWalk.Proofs.Portable

/-!
# The chunks of a PNG read alike everywhere

A chunk tells all about itself: its length stands in front, its CRC covers what
was read from its type on, and a text reaches as far as the length in front says.
What a rule takes from the rest of the file is only whether there is enough of it.
-/

set_option autoImplicit false

namespace DecisionWalk.Png

open Walker Grammar

variable {b : Bool} {look depth m : Nat} {read : Bytes}

theorem skipUInt_portable (w : Nat) (h1 : 1 ≤ w) (h8 : w ≤ 8) :
    Portable .big b look depth w read fun _ => (skipUInt w).run :=
  (Portable.uint w h1 h8).discard

theorem oneOf_portable (w : Nat) (known : List Nat) (h1 : 1 ≤ w) (h8 : w ≤ 8) (hne : known ≠ [])
    (hlen : known.length ≤ 256) (hknown : ∀ v ∈ known, v < 256 ^ w) :
    Portable .big b look depth w read fun _ => (oneOf w known).run :=
  (Portable.uintKnown w known h1 h8 hne hlen hknown).discard

theorem literal_portable (w : Nat) (bs : Bytes) (h1 : 1 ≤ w) (hbs : bs.length = w) :
    Portable .big b look depth w read fun _ =>
      (discard (underEvil false (request (.bytesKnown w [bs]))) : Rule).run := by
  apply Portable.discard
  apply Portable.underEvil
  apply Portable.bytesKnown w [bs] h1 (List.cons_ne_nil _ _) (by simp)
  intro u hu
  rw [List.mem_singleton.1 hu]
  exact hbs

theorem exactly_portable (w v : Nat) (h1 : 1 ≤ w) (h8 : w ≤ 8) (hv : v < 256 ^ w) :
    Portable .big b look depth w read fun _ => (oneOf w [v]).run := by
  apply oneOf_portable w [v] h1 h8 (List.cons_ne_nil _ _) (by simp)
  intro u hu
  rw [List.mem_singleton.1 hu]
  exact hv

theorem then_portable {g f : Rule} {n : Nat}
    (hg : Portable .big b look depth m read fun _ => g.run)
    (hf : ∀ read, Portable .big b look depth n read fun _ => f.run) :
    Portable .big b look depth (m + n) read fun _ => (g >>= fun _ => f).run :=
  hg.seq fun _ _ _ => hf _

/-- The CRC of what was read since the type, and the end of the chunk. -/
theorem closing_portable {front middle : Bytes} (hread : read = front ++ middle) :
    Portable .big b look depth 4 read fun n =>
      (summed (n + front.length) >>= fun crc => oneOf 4 [crc]).run := by
  show Portable _ _ _ _ _ _ fun n => (request .tell >>= fun stop =>
    request (.checksum32 (n + front.length) stop) >>= fun crc => oneOf 4 [crc]).run
  apply Portable.tell
  apply Portable.checksum32 hread
  exact exactly_portable 4 _ (by decide) (by decide) (crc32 middle).toNat_lt

theorem framed_portable {type : Bytes} {body : Rule} (htype : type.length = 4)
    (hbody : ∀ read, Portable .big b look depth m read fun _ => body.run) :
    Portable .big b look depth (m + 8) read fun _ => (framed type body).run := by
  have hinner : ∀ u : Bytes, Portable .big b look depth (m + 4) (read ++ u) fun n =>
      (body >>= fun _ => summed (n + read.length) >>= fun crc => oneOf 4 [crc]).run := by
    intro u
    apply (hbody _).seq
    intro _ v _
    exact closing_portable (List.append_assoc read u v)
  show Portable _ _ _ _ _ _ fun _ => (request .tell >>= fun start =>
    discard (underEvil false (request (.bytesKnown 4 [type]))) >>= fun _ => body >>= fun _ =>
      summed start >>= fun crc => oneOf 4 [crc]).run
  apply Portable.tell
  have hframed := (literal_portable 4 type (by decide) htype).seq fun _ u _ => hinner u
  exact hframed.weaken (by omega)

theorem sized_portable {length : Nat} {type : Bytes} {body : Rule} (hlength : length < 256 ^ 4)
    (htype : type.length = 4)
    (hbody : ∀ read, Portable .big b look depth m read fun _ => body.run) :
    Portable .big b look depth 8 read fun _ => (sized length type body).run :=
  ((exactly_portable 4 length (by decide) (by decide) hlength).seq fun _ _ _ =>
    framed_portable htype hbody).weaken (by omega)

theorem byteOf_portable (known : List Nat) (hne : known ≠ []) (hlen : known.length ≤ 256)
    (hknown : ∀ v ∈ known, v < 256) (read : Bytes) :
    Portable .big b look depth 1 read fun _ => (oneOf 1 known).run :=
  oneOf_portable 1 known (by decide) (by decide) hne hlen hknown

theorem headerRule_portable : Portable .big b look depth 8 read fun _ => headerRule.run := by
  apply sized_portable (by decide) rfl
  intro read
  apply then_portable (skipUInt_portable 4 (by decide) (by decide))
  intro read
  apply then_portable (skipUInt_portable 4 (by decide) (by decide))
  intro read
  apply then_portable (byteOf_portable [1, 2, 4, 8, 16] (by decide) (by decide) (by decide) read)
  intro read
  apply then_portable (byteOf_portable [0, 2, 3, 4, 6] (by decide) (by decide) (by decide) read)
  intro read
  apply then_portable (byteOf_portable [0] (by decide) (by decide) (by decide) read)
  intro read
  apply then_portable (byteOf_portable [0] (by decide) (by decide) (by decide) read)
  exact byteOf_portable [0, 1] (by decide) (by decide) (by decide)

theorem physicalDimsRule_portable :
    Portable .big b look depth 8 read fun _ => physicalDimsRule.run := by
  apply sized_portable (by decide) rfl
  intro read
  apply then_portable (skipUInt_portable 4 (by decide) (by decide))
  intro read
  apply then_portable (skipUInt_portable 4 (by decide) (by decide))
  exact byteOf_portable [0, 1] (by decide) (by decide) (by decide)

theorem timeRule_portable : Portable .big b look depth 8 read fun _ => timeRule.run := by
  apply sized_portable (by decide) rfl
  intro read
  apply then_portable (skipUInt_portable 2 (by decide) (by decide))
  intro read
  apply then_portable (byteOf_portable (between 1 12) (by decide) (by decide)
    (between_lt (by decide)) read)
  intro read
  apply then_portable (byteOf_portable (between 1 31) (by decide) (by decide)
    (between_lt (by decide)) read)
  intro read
  apply then_portable (byteOf_portable (between 0 23) (by decide) (by decide)
    (between_lt (by decide)) read)
  intro read
  apply then_portable (byteOf_portable (between 0 59) (by decide) (by decide)
    (between_lt (by decide)) read)
  exact byteOf_portable (between 0 60) (by decide) (by decide) (between_lt (by decide))

theorem endRule_portable : Portable .big b look depth 8 read fun _ => endRule.run :=
  sized_portable (by decide) rfl fun _ => Portable.pure ()

/-- The length in front is checked against the rest, which holds the chunk anyway. -/
theorem dataRule_portable : Portable .big b look depth 8 read fun _ => dataRule.run := by
  have hframed : ∀ length (read : Bytes), Portable .big b look depth (length + 8) read fun _ =>
      (framed idat (discard (request (.bytes length)))).run := fun length _ =>
    framed_portable rfl fun _ => (Portable.bytes length).discard
  have hchecked : ∀ length (read : Bytes), Portable .big b look depth 8 read fun _ =>
      (request .remaining >>= fun room => if room < length + 8 then
        .stop 1 s!"IDAT length {length} runs past the end of the file"
      else framed idat (discard (request (.bytes length))) : Rule).run := fun length read =>
    (Portable.guarded (length + 8) _ _ (Nat.le_refl _) (hframed length read)).weaken (by omega)
  exact ((Portable.uint 4 (by decide) (by decide)).seq fun length _ _ =>
    hchecked length _).weaken (by decide)

/-- The words of a text reach as far as the length in front says, and the length is patched with
what it holds. -/
theorem words_portable {front field middle : Bytes} (used : Nat) (hfield : field.length = 4)
    (hread : read = front ++ field ++ middle) :
    Portable .big b look depth 4 read fun n => (request .remaining >>= fun room =>
      request (.count (room - 4) (some (Endian.big.decode field - used))) >>= fun count =>
      discard (request (.string count)) >>= fun _ =>
      request (.patch ⟨n + front.length, 4, some (Endian.big.decode field)⟩ (used + count)) >>=
        fun _ => summed (n + (front ++ field).length) >>= fun crc => oneOf 4 [crc] : Rule).run := by
  have hshort : Endian.big.decode field - used < 256 ^ 8 := by
    have hlt := Endian.big.decode_lt field
    rw [hfield] at hlt
    omega
  have hleast : 4 ≤ Endian.big.decode field - used + 4 := Nat.le_add_left _ _
  refine Portable.weaken ?_ hleast
  apply Portable.counted (Endian.big.decode field - used) 4 hshort (Nat.le_refl _)
  apply (Portable.string _).discard.seq
  intro _ words _
  have hpatched : read ++ words = front ++ field ++ (middle ++ words) := by
    rw [hread, List.append_assoc]
  apply Portable.patch _ hpatched hfield
  exact closing_portable hpatched

theorem textRule_portable : Portable .big b look depth 8 read fun _ => textRule.run := by
  show Portable _ _ _ _ _ _ fun _ => (request (.reserve 4) >>= fun length =>
    request .tell >>= fun start =>
    discard (underEvil false (request (.bytesKnown 4 [text]))) >>= fun _ =>
    request (.cstring keywordMost) >>= fun keyword =>
    request .remaining >>= fun room =>
    request (.count (room - 4) (length.parsed.map (· - (keyword.length + 1)))) >>= fun count =>
    discard (request (.string count)) >>= fun _ =>
    request (.patch length (keyword.length + 1 + count)) >>= fun _ =>
    summed start >>= fun crc => oneOf 4 [crc]).run
  have hleast : 8 ≤ 4 + (4 + (0 + 4)) := by decide
  refine Portable.weaken ?_ hleast
  apply Portable.reserve 4 (by decide) (by decide)
  intro field hfield
  apply Portable.tell
  apply (literal_portable 4 text (by decide) rfl).seq
  intro _ type _
  apply (Portable.cstring keywordMost (by decide)).seq
  intro keyword spelled _
  have hread : read ++ field ++ type ++ spelled = read ++ field ++ (type ++ spelled) :=
    List.append_assoc _ _ _
  exact words_portable (keyword.length + 1) hfield hread

/-- Of the chunks that may follow, each is read alike everywhere. -/
theorem chunkOf_portable (type : Bytes) :
    Portable .big b look 1 8 [] fun _ => (chunkOf type).run := by
  have hchunk : ∀ (name : String) (kind : Kind) (rule : Rule) (result : Unit ⊕ Unit),
      (Portable .big b look 0 8 [] fun _ => rule.run) →
      Portable .big b look 1 8 [] fun _ =>
        (Grammar.inScope name kind rule >>= fun _ => pure result).run := by
    intro name kind rule result hrule
    apply Portable.seq (m := 0) (hrule.inScope name kind)
    intro _ _ _
    simp only [run_pure]
    exact Portable.pure result
  rcases chunkOf_cases type with h | h | h | h | h <;> rw [h]
  · exact hchunk _ _ _ _ dataRule_portable
  · exact hchunk _ _ _ _ textRule_portable
  · exact hchunk _ _ _ _ physicalDimsRule_portable
  · exact hchunk _ _ _ _ timeRule_portable
  · exact hchunk _ _ _ _ endRule_portable

theorem following_portable : Portable .big b 0 1 8 [] fun _ => following.run :=
  (Portable.lookBytes 4 4 followingTypes (by decide) (by decide) (by decide) (by decide)
    (Nat.le_refl _) (Nat.le_refl _) fun type _ => chunkOf_portable type).settled (Nat.le_refl _)

end DecisionWalk.Png
