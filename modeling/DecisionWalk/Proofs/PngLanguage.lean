import DecisionWalk.Proofs.PngRoundTrip
import DecisionWalk.Proofs.Readings

/-!
# The files of the PNG subset

A parse accepts the signature, a header, any chunks that may follow, and the end
chunk, and nothing else. The length of a body is checked in three ways: it is
known, it is compared with what is left of the file, or it is reserved and
patched behind the body. All three come to the same chunk.
-/

set_option autoImplicit false

namespace DecisionWalk.Png

open Walker Grammar

variable {seen depth : Nat} {past : Bytes}

def sum (type body : Bytes) : Bytes := Endian.big.encode 4 (crc32 (type ++ body)).toNat

def chunk (type body : Bytes) : Bytes :=
  Endian.big.encode 4 body.length ++ type ++ body ++ sum type body

structure HeaderBody (body : Bytes) : Prop where
  length : body.length = 13
  bitDepth : body.getD 8 0 ∈ ([1, 2, 4, 8, 16] : Bytes)
  colorType : body.getD 9 0 ∈ ([0, 2, 3, 4, 6] : Bytes)
  compression : body.getD 10 0 = 0
  filter : body.getD 11 0 = 0
  interlace : body.getD 12 0 ∈ ([0, 1] : Bytes)

def TextBody (body : Bytes) : Prop :=
  ∃ keyword words, body = keyword ++ 0 :: words ∧ keyword.length ≤ 79 ∧ ∀ b ∈ keyword, b ≠ 0

structure PhysicalDimsBody (body : Bytes) : Prop where
  length : body.length = 9
  unit : body.getD 8 0 ∈ ([0, 1] : Bytes)

structure TimeBody (body : Bytes) : Prop where
  length : body.length = 7
  month : 1 ≤ body.getD 2 0 ∧ body.getD 2 0 ≤ 12
  day : 1 ≤ body.getD 3 0 ∧ body.getD 3 0 ≤ 31
  hour : body.getD 4 0 ≤ 23
  minute : body.getD 5 0 ≤ 59
  second : body.getD 6 0 ≤ 60

structure BodyOf (type body : Bytes) : Prop where
  fits : body.length < 2 ^ 32
  header : type = ihdr → HeaderBody body
  text : type = text → TextBody body
  physicalDims : type = phys → PhysicalDimsBody body
  time : type = time → TimeBody body
  finish : type = iend → body = []

def IsChunk (type bytes : Bytes) : Prop := ∃ body, BodyOf type body ∧ bytes = chunk type body

def innerTypes : List Bytes := [idat, text, phys, time]

def Accepts (input : Bytes) : Prop :=
  ∃ header chunks final, IsChunk ihdr header ∧ (∀ c ∈ chunks, ∃ type ∈ innerTypes, IsChunk type c) ∧
    IsChunk iend final ∧ input = signatureBytes ++ header ++ List.flatten chunks ++ final

section Bodies

variable {body : Bytes}

theorem bodyOf_ihdr : BodyOf ihdr body ↔ HeaderBody body := by
  constructor
  · exact fun h => h.header rfl
  · intro h
    have hlen := h.length
    exact ⟨by omega, fun _ => h, fun ht => absurd ht (by decide), fun ht => absurd ht (by decide),
      fun ht => absurd ht (by decide), fun ht => absurd ht (by decide)⟩

theorem bodyOf_idat : BodyOf idat body ↔ body.length < 2 ^ 32 := by
  constructor
  · exact fun h => h.fits
  · exact fun h => ⟨h, fun ht => absurd ht (by decide), fun ht => absurd ht (by decide),
      fun ht => absurd ht (by decide), fun ht => absurd ht (by decide),
      fun ht => absurd ht (by decide)⟩

theorem bodyOf_text : BodyOf text body ↔ body.length < 2 ^ 32 ∧ TextBody body := by
  constructor
  · exact fun h => ⟨h.fits, h.text rfl⟩
  · exact fun h => ⟨h.1, fun ht => absurd ht (by decide), fun _ => h.2,
      fun ht => absurd ht (by decide), fun ht => absurd ht (by decide),
      fun ht => absurd ht (by decide)⟩

theorem bodyOf_phys : BodyOf phys body ↔ PhysicalDimsBody body := by
  constructor
  · exact fun h => h.physicalDims rfl
  · intro h
    have hlen := h.length
    exact ⟨by omega, fun ht => absurd ht (by decide), fun ht => absurd ht (by decide), fun _ => h,
      fun ht => absurd ht (by decide), fun ht => absurd ht (by decide)⟩

theorem bodyOf_time : BodyOf time body ↔ TimeBody body := by
  constructor
  · exact fun h => h.time rfl
  · intro h
    have hlen := h.length
    exact ⟨by omega, fun ht => absurd ht (by decide), fun ht => absurd ht (by decide),
      fun ht => absurd ht (by decide), fun _ => h, fun ht => absurd ht (by decide)⟩

theorem bodyOf_iend : BodyOf iend body ↔ body = [] := by
  constructor
  · exact fun h => h.finish rfl
  · rintro rfl
    exact ⟨by decide, fun ht => absurd ht (by decide), fun ht => absurd ht (by decide),
      fun ht => absurd ht (by decide), fun ht => absurd ht (by decide), fun _ => rfl⟩

end Bodies

@[simp] theorem sum_length (type body : Bytes) : (sum type body).length = 4 :=
  Endian.length_encode _ _ _

theorem chunk_eq (type body : Bytes) :
    chunk type body = Endian.big.encode 4 body.length ++ (type ++ body ++ sum type body) := by
  simp only [chunk, List.append_assoc]

theorem chunk_length {type : Bytes} (body : Bytes) (htype : type.length = 4) :
    (chunk type body).length = body.length + 12 := by
  simp only [chunk, List.length_append, Endian.length_encode, sum_length, htype]
  omega

/-- The type stands behind the length. -/
theorem chunk_type {type : Bytes} (body : Bytes) (htype : type.length = 4) :
    ((chunk type body).drop 4).take 4 = type := by
  have hlen : (Endian.big.encode 4 body.length).length = 4 := Endian.length_encode _ _ _
  rw [chunk_eq, List.append_assoc, List.drop_left' hlen, List.take_left' htype]

section Rules

/-- What stands behind a body, with the type in front of it at `front`. -/
theorem closing_scans {front type body : Bytes} (hpast : past = front ++ (type ++ body)) :
    Scans .big false seen depth past (summed front.length >>= fun crc => oneOf 4 [crc]).run
      (Block 4 2 fun u => u = sum type body) := by
  have hcrc : (crc32 (type ++ body)).toNat < 256 ^ 4 := (crc32 (type ++ body)).toNat_lt
  show Scans _ _ _ _ _ (request .tell >>= fun stop => request (.checksum32 front.length stop) >>=
    fun crc => oneOf 4 [crc]).run _
  apply Scans.knowing Scans.tell
  apply Scans.knowing (Scans.checksum32 hpast)
  exact Scans.exactly 4 _ (by decide) (by decide) hcrc

theorem framed_scans {type : Bytes} {body : Rule} {lang : Lang Unit} (htype : type.length = 4)
    (hbody : Scans .big false seen depth (past ++ type) body.run lang) :
    Scans .big false seen depth past (framed type body).run
      fun r v _ n => ∃ u m, r = type ++ u ++ sum type u ∧ lang u (sum type u ++ v) () m ∧
        n ≤ m + 4 := by
  have hinner : Scans .big false seen depth (past ++ type)
      (body >>= fun _ => summed past.length >>= fun crc => oneOf 4 [crc]).run
      fun r v _ n => ∃ u m, r = u ++ sum type u ∧ lang u (sum type u ++ v) () m ∧ n ≤ m + 2 := by
    apply hbody.seq fun _ u => Block 4 2 fun w => w = sum type u
    · rintro _ u -
      exact closing_scans (List.append_assoc past type u)
    · rintro u _ v _ _ n m hu ⟨-, rfl, hm⟩
      exact ⟨u, n, rfl, hu, by omega⟩
    · rintro _ v _ n ⟨u, m, rfl, hu, -⟩
      exact ⟨u, _, (), rfl, ⟨m, hu⟩, 0, sum_length type u, rfl, Nat.zero_le _⟩
  show Scans _ _ _ _ _ (request .tell >>= fun start =>
    discard (underEvil false (request (.bytesKnown 4 [type]))) >>= fun _ => body >>= fun _ =>
      summed start >>= fun crc => oneOf 4 [crc]).run _
  apply Scans.knowing Scans.tell
  apply (Scans.literal 4 type (by decide) htype).seq fun _ _ r v _ n =>
    ∃ u m, r = u ++ sum type u ∧ lang u (sum type u ++ v) () m ∧ n ≤ m + 2
  · rintro _ _ ⟨_, _, -, rfl, -⟩
    exact hinner
  · rintro _ _ v _ _ n m ⟨-, rfl, hn⟩ ⟨u, k, rfl, hu, hk⟩
    exact ⟨u, k, (List.append_assoc _ _ _).symm, hu, by omega⟩
  · rintro _ v _ n ⟨u, m, rfl, hu, -⟩
    exact ⟨type, _, (), List.append_assoc _ _ _, ⟨0, htype, rfl, Nat.zero_le _⟩, 0, u, m, rfl, hu,
      Nat.zero_le _⟩

theorem sized_scans {length most : Nat} {type : Bytes} {body : Rule} {holds : Bytes → Prop}
    (hlength : length < 256 ^ 4) (htype : type.length = 4)
    (hbody : ∀ past, Scans .big false seen depth past body.run (Block length most holds)) :
    Scans .big false seen depth past (sized length type body).run
      fun r _ _ n => ∃ u, r = chunk type u ∧ u.length = length ∧ holds u ∧ n ≤ most + 6 := by
  apply (Scans.exactly 4 length (by decide) (by decide) hlength).seq
  · rintro _ u -
    exact framed_scans htype (hbody _)
  · rintro _ _ v _ _ n m ⟨-, rfl, hn⟩ ⟨u, k, rfl, ⟨rfl, hu, hk⟩, hm⟩
    exact ⟨u, (chunk_eq type u).symm, rfl, hu, by omega⟩
  · rintro _ v _ n ⟨u, rfl, rfl, hu, -⟩
    exact ⟨_, _, (), chunk_eq type u, ⟨0, Endian.length_encode _ _ _, rfl, Nat.zero_le _⟩, 0, u, 0,
      rfl, ⟨rfl, hu, Nat.zero_le _⟩, Nat.zero_le _⟩

theorem mem_between (low high v : Nat) : v ∈ between low high ↔ low ≤ v ∧ v ≤ high := by
  simp only [between, List.mem_map, List.mem_range]
  constructor
  · rintro ⟨i, hi, rfl⟩
    omega
  · rintro ⟨hlow, hhigh⟩
    exact ⟨v - low, by omega, by omega⟩

theorem byteOf_scans (known : List Nat) (hne : known ≠ []) (hlen : known.length ≤ 256)
    (hknown : ∀ v ∈ known, v < 256) :
    Scans .big false seen depth past (oneOf 1 known).run
      (Block 1 2 fun u => (u.getD 0 0).toNat ∈ known) := by
  have hbyte : ∀ u : Bytes, u.length = 1 → Endian.big.decode u = (u.getD 0 0).toNat := by
    intro u hu
    obtain ⟨x, rfl⟩ := List.length_eq_one_iff.1 hu
    simp [Endian.decode, leValue]
  apply (Scans.oneOf 1 known (by decide) (by decide) hne hlen hknown).describe
  · rintro u _ _ n ⟨hu, hmem, hn⟩
    rw [hbyte u hu] at hmem
    exact ⟨hu, hmem, hn⟩
  · rintro u _ _ n ⟨hu, hmem, hn⟩
    rw [← hbyte u hu] at hmem
    exact ⟨n, hu, hmem, hn⟩

theorem drop_getD (bs : Bytes) (i j : Nat) : (bs.drop i).getD j 0 = bs.getD (i + j) 0 := by
  rw [List.getD_eq_getElem?_getD, List.getD_eq_getElem?_getD, List.getElem?_drop]

theorem take_getD (bs : Bytes) (i : Nat) : (bs.take (i + 1)).getD i 0 = bs.getD i 0 := by
  rw [List.getD_eq_getElem?_getD, List.getD_eq_getElem?_getD, List.getElem?_take_of_lt (by omega)]

theorem skipUInt_scans (w : Nat) (h1 : 1 ≤ w) (h8 : w ≤ 8) :
    Scans .big false seen depth past (skipUInt w).run (Block w (1 + w) fun _ => True) :=
  Scans.anyUInt w h1 h8

theorem listed_scans (known : Bytes) (hne : known ≠ []) (hlen : known.length ≤ 256) :
    Scans .big false seen depth past (oneOf 1 (known.map UInt8.toNat)).run
      (Block 1 2 fun u => u.getD 0 0 ∈ known) := by
  have hmem : ∀ b : UInt8, b.toNat ∈ known.map UInt8.toNat ↔ b ∈ known := by
    intro b
    simp [UInt8.toNat_inj]
  apply (byteOf_scans (known.map UInt8.toNat) (by simpa using hne)
    (by simpa using hlen) ?_).describe
  · rintro u _ _ n ⟨hu, hb, hn⟩
    exact ⟨hu, (hmem _).1 hb, hn⟩
  · rintro u _ _ n ⟨hu, hb, hn⟩
    exact ⟨n, hu, (hmem _).2 hb, hn⟩
  · intro v hv
    obtain ⟨b, -, rfl⟩ := List.mem_map.1 hv
    exact b.toNat_lt

theorem ranged_scans (low high : UInt8) (hle : low ≤ high) :
    Scans .big false seen depth past (oneOf 1 (between low.toNat high.toNat)).run
      (Block 1 2 fun u => low ≤ u.getD 0 0 ∧ u.getD 0 0 ≤ high) := by
  have hmem : ∀ b : UInt8, b.toNat ∈ between low.toNat high.toNat ↔ low ≤ b ∧ b ≤ high := by
    intro b
    rw [mem_between, UInt8.le_iff_toNat_le, UInt8.le_iff_toNat_le]
  have hhigh := high.toNat_lt
  have hlength : (between low.toNat high.toNat).length = high.toNat + 1 - low.toNat := by
    rw [between, List.length_map, List.length_range]
  have hne : between low.toNat high.toNat ≠ [] := by
    rw [← List.length_pos_iff, hlength]
    exact Nat.sub_pos_of_lt (Nat.lt_succ_of_le (UInt8.le_iff_toNat_le.1 hle))
  apply (byteOf_scans _ hne (by omega) (between_lt hhigh)).describe
  · rintro u _ _ n ⟨hu, hb, hn⟩
    exact ⟨hu, (hmem _).1 hb, hn⟩
  · rintro u _ _ n ⟨hu, hb, hn⟩
    exact ⟨n, hu, (hmem _).2 hb, hn⟩

def chunkLang (type : Bytes) : Lang Unit :=
  fun r _ _ n => ∃ body, r = chunk type body ∧ BodyOf type body ∧ n ≤ body.length + 18

theorem headerRule_scans :
    Scans .big false seen depth past headerRule.run (chunkLang ihdr) := by
  apply Scans.describe
  · apply sized_scans (by decide) rfl
    intro past
    apply (skipUInt_scans 4 (by decide) (by decide)).blocks
    intro _ _
    apply (skipUInt_scans 4 (by decide) (by decide)).blocks
    intro _ _
    apply (listed_scans [1, 2, 4, 8, 16] (by decide) (by decide)).blocks
    intro _ _
    apply (listed_scans [0, 2, 3, 4, 6] (by decide) (by decide)).blocks
    intro _ _
    apply (listed_scans [0] (by decide) (by decide)).blocks
    intro _ _
    apply (listed_scans [0] (by decide) (by decide)).blocks
    intro _ _
    exact listed_scans [0, 1] (by decide) (by decide)
  · rintro _ v _ n ⟨u, rfl, hlen, ⟨-, -, h8, h9, h10, h11, h12⟩, hn⟩
    simp only [drop_getD, take_getD, List.mem_singleton] at h8 h9 h10 h11 h12
    exact ⟨u, rfl, bodyOf_ihdr.2 ⟨hlen, h8, h9, h10, h11, h12⟩, by omega⟩
  · rintro _ v _ n ⟨u, rfl, hbody, -⟩
    obtain ⟨hlen, h8, h9, h10, h11, h12⟩ := bodyOf_ihdr.1 hbody
    refine ⟨0, u, rfl, hlen, ⟨trivial, trivial, ?_⟩, Nat.zero_le _⟩
    simp only [drop_getD, take_getD, List.mem_singleton]
    exact ⟨h8, h9, h10, h11, h12⟩

theorem physicalDimsRule_scans :
    Scans .big false seen depth past physicalDimsRule.run (chunkLang phys) := by
  apply Scans.describe
  · apply sized_scans (by decide) rfl
    intro past
    apply (skipUInt_scans 4 (by decide) (by decide)).blocks
    intro _ _
    apply (skipUInt_scans 4 (by decide) (by decide)).blocks
    intro _ _
    exact listed_scans [0, 1] (by decide) (by decide)
  · rintro _ v _ n ⟨u, rfl, hlen, ⟨-, -, h8⟩, hn⟩
    simp only [drop_getD] at h8
    exact ⟨u, rfl, bodyOf_phys.2 ⟨hlen, h8⟩, by omega⟩
  · rintro _ v _ n ⟨u, rfl, hbody, -⟩
    obtain ⟨hlen, h8⟩ := bodyOf_phys.1 hbody
    refine ⟨0, u, rfl, hlen, ⟨trivial, trivial, ?_⟩, Nat.zero_le _⟩
    simp only [drop_getD]
    exact h8

theorem timeRule_scans :
    Scans .big false seen depth past timeRule.run (chunkLang time) := by
  apply Scans.describe
  · apply sized_scans (by decide) rfl
    intro past
    apply (skipUInt_scans 2 (by decide) (by decide)).blocks
    intro _ _
    apply (ranged_scans 1 12 (by decide)).blocks
    intro _ _
    apply (ranged_scans 1 31 (by decide)).blocks
    intro _ _
    apply (ranged_scans 0 23 (by decide)).blocks
    intro _ _
    apply (ranged_scans 0 59 (by decide)).blocks
    intro _ _
    exact ranged_scans 0 60 (by decide)
  · rintro _ v _ n ⟨u, rfl, hlen, ⟨-, h2, h3, h4, h5, h6⟩, hn⟩
    simp only [drop_getD, take_getD] at h2 h3 h4 h5 h6
    exact ⟨u, rfl, bodyOf_time.2 ⟨hlen, h2, h3, h4.2, h5.2, h6.2⟩, by omega⟩
  · rintro _ v _ n ⟨u, rfl, hbody, -⟩
    obtain ⟨hlen, h2, h3, h4, h5, h6⟩ := bodyOf_time.1 hbody
    refine ⟨0, u, rfl, hlen, ⟨trivial, ?_⟩, Nat.zero_le _⟩
    simp only [drop_getD, take_getD]
    exact ⟨h2, h3, ⟨UInt8.zero_le, h4⟩, ⟨UInt8.zero_le, h5⟩, UInt8.zero_le, h6⟩

theorem endRule_scans :
    Scans .big false seen depth past endRule.run (chunkLang iend) := by
  apply Scans.describe
  · apply sized_scans (by decide) rfl
    intro past
    have hnone : Scans .big false seen depth past (pure () : Rule).run
        (Block 0 0 fun _ => True) := by
      apply (Scans.pure ()).describe
      · rintro u _ _ n ⟨rfl, -, rfl⟩
        exact ⟨rfl, trivial, Nat.le_refl _⟩
      · rintro u _ _ n ⟨hu, -, hn⟩
        exact ⟨0, List.length_eq_zero_iff.1 hu, rfl, rfl⟩
    exact hnone
  · rintro _ v _ n ⟨u, rfl, hlen, -, hn⟩
    exact ⟨u, rfl, bodyOf_iend.2 (List.length_eq_zero_iff.1 hlen), by omega⟩
  · rintro _ v _ n ⟨u, rfl, hbody, -⟩
    exact ⟨0, u, rfl, List.length_eq_zero_iff.2 (bodyOf_iend.1 hbody), trivial, Nat.zero_le _⟩

theorem dataRule_scans :
    Scans .big false seen depth past dataRule.run (chunkLang idat) := by
  apply (Scans.uint 4 (by decide) (by decide)).seq fun length _ r v _ n =>
    length + 8 ≤ (r ++ v).length ∧ ∃ u m, r = idat ++ u ++ sum idat u ∧
      Block length length (fun _ => True) u (sum idat u ++ v) () m ∧ n ≤ m + 4
  · rintro length u -
    exact Scans.guarded _ _ _ (framed_scans rfl (Scans.anyBytes length))
  · rintro u _ v _ _ n m ⟨hu, rfl, hn⟩ ⟨-, body, k, rfl, ⟨hbody, -, hk⟩, hm⟩
    have hlt := Endian.big.decode_lt u
    have henc := Endian.big.encode_decode u
    rw [hu] at hlt henc
    refine ⟨body, ?_, bodyOf_idat.2 (by omega), by omega⟩
    rw [chunk_eq, hbody, henc]
  · rintro _ v _ n ⟨body, rfl, hbody, -⟩
    have henc := (Endian.big.encode_eq_iff (w := 4) hbody.fits).1 rfl
    refine ⟨_, _, body.length, chunk_eq idat body, ⟨0, henc.1, henc.2.symm, Nat.zero_le _⟩, 0, ?_,
      body, 0, rfl, ⟨rfl, trivial, Nat.zero_le _⟩, Nat.zero_le _⟩
    simp only [List.length_append, sum_length, show idat.length = 4 from rfl]
    omega

/-- What follows the keyword of a text, whose length was reserved as `middle`. -/
theorem words_scans {front middle back : Bytes} (used : Nat)
    (hpast : past = front ++ middle ++ back) (hmiddle : middle.length = 4) :
    Scans .big false seen depth past (request .remaining >>= fun room =>
        request (.count (room - 4) (some (Endian.big.decode middle - used))) >>= fun count =>
          discard (request (.string count)) >>= fun _ =>
            request (.patch ⟨front.length, 4, some (Endian.big.decode middle)⟩ (used + count)) :
            Rule).run
      fun u v _ n => used + u.length = Endian.big.decode middle ∧
        u.length ≤ (u ++ v).length - 4 ∧ n ≤ u.length + 10 := by
  have hlt := Endian.big.decode_lt middle
  rw [hmiddle] at hlt
  apply Scans.given (fun room u _ _ n => used + u.length = Endian.big.decode middle ∧
    u.length ≤ room - 4 ∧ n ≤ u.length + 10) List.length Scans.remaining
  intro rest
  apply (Scans.count (rest.length - 4) (Endian.big.decode middle - used) (by omega)).seq
    fun count _ u _ _ n => used + count = Endian.big.decode middle ∧ u.length = count ∧
      n ≤ count + 1
  · rintro count w -
    apply (Scans.anyString count).seq fun _ _ u _ _ n =>
      u = [] ∧ Endian.big.decode middle = used + count ∧ n = 0
    · rintro _ u -
      have hsplit : past ++ w ++ u = front ++ middle ++ (back ++ w ++ u) := by
        rw [hpast]
        simp only [List.append_assoc]
      exact Scans.patch (used + count) hsplit hmiddle
    · rintro u _ v _ _ n m ⟨hu, -, hn⟩ ⟨rfl, hused, rfl⟩
      rw [List.append_nil]
      exact ⟨hused.symm, hu, by omega⟩
    · rintro u v _ n ⟨hused, hu, -⟩
      exact ⟨u, [], (), (List.append_nil u).symm, ⟨0, hu, trivial, Nat.zero_le _⟩, 0, rfl,
        hused.symm, rfl⟩
  · rintro _ u v _ _ n m ⟨rfl, rfl, hle, hn⟩ ⟨hused, hu, hm⟩
    rw [List.nil_append]
    exact ⟨by omega, by omega, by omega⟩
  · rintro u v _ n ⟨hused, hle, hn⟩
    exact ⟨[], u, _, rfl, ⟨0, rfl, rfl, by omega, Nat.zero_le _⟩, 0, by omega, by omega,
      Nat.zero_le _⟩

theorem textBody_scans {front middle : Bytes} (hpast : past = front ++ middle ++ text)
    (hmiddle : middle.length = 4) :
    Scans .big false seen depth past (do
        let keyword ← request (.cstring keywordMost)
        let used := keyword.length + 1
        let room ← request .remaining
        let count ← request (.count (room - 4) (some (Endian.big.decode middle - used)))
        discard (request (.string count))
        request (.patch ⟨front.length, 4, some (Endian.big.decode middle)⟩ (used + count)) :
        Rule).run
      fun u v _ n => ∃ keyword words, u = keyword ++ 0 :: words ∧ keyword.length ≤ keywordMost ∧
        (∀ b ∈ keyword, b ≠ 0) ∧ u.length = Endian.big.decode middle ∧
        words.length ≤ (words ++ v).length - 4 ∧ n ≤ u.length + 12 := by
  apply (Scans.cstring keywordMost (by decide)).seq fun keyword _ u v _ n =>
    keyword.length + 1 + u.length = Endian.big.decode middle ∧
      u.length ≤ (u ++ v).length - 4 ∧ n ≤ u.length + 10
  · rintro keyword u -
    have hsplit : past ++ u = front ++ middle ++ (text ++ u) := by
      rw [hpast]
      simp only [List.append_assoc]
    exact words_scans (keyword.length + 1) hsplit hmiddle
  · rintro _ words v keyword _ n m ⟨rfl, hk, hz, hn⟩ ⟨hlen, hroom, hm⟩
    have hwidth : lengthWidth keywordMost = 1 := by decide
    refine ⟨keyword, words, by simp, hk, hz, ?_, hroom, ?_⟩
    · simp only [List.length_append, List.length_singleton]
      omega
    · simp only [List.length_append, List.length_singleton]
      omega
  · rintro _ v _ n ⟨keyword, words, rfl, hk, hz, hlen, hroom, -⟩
    simp only [List.length_append, List.length_cons] at hlen
    refine ⟨keyword ++ [0], words, keyword, by simp, ⟨0, rfl, hk, hz, Nat.zero_le _⟩, 0, by omega,
      hroom, Nat.zero_le _⟩

theorem textRule_scans :
    Scans .big false seen depth past textRule.run (chunkLang text) := by
  apply (Scans.reserve 4 (by decide) (by decide)).seq fun _ middle r v _ n =>
    ∃ u m, r = text ++ u ++ sum text u ∧ (∃ keyword words, u = keyword ++ 0 :: words ∧
      keyword.length ≤ keywordMost ∧ (∀ b ∈ keyword, b ≠ 0) ∧
      u.length = Endian.big.decode middle ∧
      words.length ≤ (words ++ (sum text u ++ v)).length - 4 ∧ m ≤ u.length + 12) ∧ n ≤ m + 4
  · rintro _ middle ⟨_, _, hmiddle, rfl, -⟩
    exact framed_scans rfl (textBody_scans rfl hmiddle)
  · rintro middle _ v _ _ n m ⟨hmiddle, -, rfl⟩
      ⟨u, k, rfl, ⟨keyword, words, hu, hk, hz, hlen, -, hm⟩, hn⟩
    have hlt := Endian.big.decode_lt middle
    have henc := Endian.big.encode_decode middle
    rw [hmiddle] at hlt henc
    refine ⟨u, ?_, bodyOf_text.2 ⟨by omega, keyword, words, hu, hk, hz⟩, by omega⟩
    rw [chunk_eq, hlen, henc]
  · rintro _ v _ n ⟨u, rfl, hbody, -⟩
    obtain ⟨hfits, keyword, words, hu, hk, hz⟩ := bodyOf_text.1 hbody
    have henc := (Endian.big.encode_eq_iff (w := 4) hfits).1 rfl
    refine ⟨_, _, _, chunk_eq text u, ⟨0, henc.1, rfl, rfl⟩, 0, u, 0, rfl,
      ⟨keyword, words, hu, hk, hz, henc.2.symm, ?_, Nat.zero_le _⟩, Nat.zero_le _⟩
    simp only [List.length_append, sum_length]
    omega

/-- A chunk in its own production. -/
theorem piece_scans {name : String} {kind : Kind} {rule : Rule} {type : Bytes}
    (result : Unit ⊕ Unit) (htype : type.length = 4)
    (hrule : Scans .big false seen depth past rule.run (chunkLang type)) :
    Scans .big false seen (depth + 1) past (inScope name kind rule >>= fun _ => pure result).run
      fun r _ a n => IsChunk type r ∧ a = result ∧ n + 2 ≤ 2 * r.length := by
  apply (hrule.inScope name kind).seq fun _ _ r _ a n => r = [] ∧ a = result ∧ n = 0
  · exact fun _ _ _ => Scans.pure result
  · rintro _ _ v _ _ n m ⟨body, rfl, hbody, hn⟩ ⟨rfl, rfl, rfl⟩
    rw [List.append_nil]
    refine ⟨⟨body, hbody, rfl⟩, rfl, ?_⟩
    rw [chunk_length body htype]
    omega
  · rintro _ v _ n ⟨⟨body, hbody, rfl⟩, rfl, -⟩
    exact ⟨_, [], (), (List.append_nil _).symm, ⟨0, body, rfl, hbody, Nat.zero_le _⟩, 0, rfl, rfl,
      rfl⟩

def outcome (type : Bytes) : Unit ⊕ Unit := if type = iend then .inr () else .inl ()

theorem chunkOf_scans {type : Bytes} (htype : type ∈ followingTypes) :
    Scans .big false seen (depth + 1) past (chunkOf type).run
      fun r _ a n => IsChunk type r ∧ a = outcome type ∧ n + 2 ≤ 2 * r.length := by
  simp only [followingTypes, List.mem_cons, List.not_mem_nil, or_false] at htype
  rcases htype with rfl | rfl | rfl | rfl | rfl
  · exact piece_scans (.inl ()) rfl dataRule_scans
  · exact piece_scans (.inl ()) rfl textRule_scans
  · exact piece_scans (.inl ()) rfl physicalDimsRule_scans
  · exact piece_scans (.inl ()) rfl timeRule_scans
  · exact piece_scans (.inr ()) rfl endRule_scans

def roundLang : Lang (Unit ⊕ Unit) :=
  fun r _ a n => (∃ type ∈ followingTypes, IsChunk type r ∧ a = outcome type) ∧ 0 < n ∧
    n ≤ 2 * r.length

theorem isChunk_type {type r : Bytes} (htype : type.length = 4) (h : IsChunk type r) (v : Bytes) :
    ((r ++ v).drop 4).take 4 = type := by
  obtain ⟨body, -, rfl⟩ := h
  have hlen := chunk_length body htype
  rw [List.drop_append_of_le_length (by omega),
    List.take_append_of_le_length (by rw [List.length_drop]; omega), chunk_type body htype]

theorem following_scans : Scans .big false 0 (depth + 1) past following.run roundLang := by
  have hlength : ∀ type ∈ followingTypes, type.length = 4 := by decide
  have hlook : Scans .big false (past.length + 8) (depth + 1) past following.run roundLang := by
    apply ((Scans.lookBytes 4 4 followingTypes (by decide) (by decide) (by decide) hlength
      (by omega)).underEvil false).seq fun type _ r v a n => type ∈ followingTypes ∧
        IsChunk type r ∧ a = outcome type ∧ n + 2 ≤ 2 * r.length
    · rintro type _ ⟨_, _, rfl, -, hmem, -⟩
      rw [List.append_nil]
      apply (chunkOf_scans hmem).describe
      · exact fun _ _ _ _ h => ⟨hmem, h⟩
      · exact fun _ _ _ n h => ⟨n, h.2⟩
    · rintro _ r v type a n m ⟨rfl, -, hmem, hpos, hn⟩ ⟨-, hchunk, ha, hm⟩
      rw [List.nil_append]
      exact ⟨⟨type, hmem, hchunk, ha⟩, by omega, by omega⟩
    · rintro r v a n ⟨⟨type, hmem, hchunk, ha⟩, hpos, hn⟩
      have hlen : 12 ≤ r.length := by
        obtain ⟨body, -, rfl⟩ := hchunk
        rw [chunk_length body (hlength type hmem)]
        omega
      refine ⟨[], r, type, rfl, ⟨1, rfl, ?_, hmem, by omega, by omega⟩, 0, hmem, hchunk, ha,
        by omega⟩
      exact (isChunk_type (hlength type hmem) hchunk v).symm
  apply hlook.within (Nat.zero_le _)
  rintro r v a n ⟨⟨type, hmem, ⟨body, -, rfl⟩, -⟩, -⟩
  rw [chunk_length body (hlength type hmem)]
  omega

end Rules

section File

def Tail (r : Bytes) : Prop :=
  ∃ chunks final, (∀ c ∈ chunks, ∃ type ∈ innerTypes, IsChunk type c) ∧ IsChunk iend final ∧
    r = List.flatten chunks ++ final

theorem tail_of_turns {r v : Bytes} {c : Unit} {n : Nat} (h : Turns roundLang r v c n) :
    Tail r ∧ n ≤ 2 * r.length := by
  induction h with
  | last h =>
    obtain ⟨⟨type, -, hchunk, ha⟩, -, hn⟩ := h
    by_cases hend : type = iend
    · subst hend
      exact ⟨⟨[], _, by simp, hchunk, rfl⟩, hn⟩
    · rw [outcome, if_neg hend] at ha
      cases ha
  | @again u _ _ _ _ _ h _ ih =>
    obtain ⟨⟨type, hmem, hchunk, ha⟩, -, hn⟩ := h
    obtain ⟨⟨chunks, final, hchunks, hfinal, rfl⟩, hm⟩ := ih
    have hinner : type ∈ innerTypes := by
      by_cases hend : type = iend
      · rw [outcome, if_pos hend] at ha
        cases ha
      · have hall : ∀ type ∈ followingTypes, type ≠ iend → type ∈ innerTypes := by decide
        exact hall type hmem hend
    refine ⟨⟨u :: chunks, final, ?_, hfinal, ?_⟩, ?_⟩
    · rintro c (_ | ⟨_, hc⟩)
      · exact ⟨type, hinner, hchunk⟩
      · exact hchunks c hc
    · rw [List.flatten_cons, List.append_assoc]
    · rw [List.length_append]
      omega

theorem turns_of_tail {r : Bytes} (h : Tail r) (v : Bytes) : ∃ n, Turns roundLang r v () n := by
  obtain ⟨chunks, final, hchunks, hfinal, rfl⟩ := h
  have hcost : ∀ {type c : Bytes}, type ∈ followingTypes → IsChunk type c → 1 ≤ 2 * c.length := by
    rintro type _ hmem ⟨body, -, rfl⟩
    have hlength : ∀ type ∈ followingTypes, type.length = 4 := by decide
    rw [chunk_length body (hlength type hmem)]
    omega
  induction chunks with
  | nil =>
    have hmem : iend ∈ followingTypes := by decide
    exact ⟨1, .last ⟨⟨iend, hmem, hfinal, rfl⟩, Nat.one_pos, hcost hmem hfinal⟩⟩
  | cons c chunks ih =>
    obtain ⟨m, hm⟩ := ih fun c hc => hchunks c (List.mem_cons_of_mem _ hc)
    obtain ⟨type, hinner, hchunk⟩ := hchunks c List.mem_cons_self
    have hmem : type ∈ followingTypes ∧ type ≠ iend := by
      have hall : ∀ type ∈ innerTypes, type ∈ followingTypes ∧ type ≠ iend := by decide
      exact hall type hinner
    rw [List.flatten_cons, List.append_assoc]
    refine ⟨1 + m, .again ⟨⟨type, hmem.1, hchunk, ?_⟩, Nat.one_pos, hcost hmem.1 hchunk⟩ hm⟩
    rw [outcome, if_neg hmem.2]

theorem loop_scans :
    Scans .big false 0 1 past (repeatFrom () fun _ => following).run
      fun r _ _ n => Tail r ∧ n ≤ 2 * r.length := by
  apply (Scans.repeatFrom (fun past => following_scans) fun u v n h => h.2.1).describe
  · exact fun _ _ _ _ h => tail_of_turns h
  · exact fun _ v _ _ h => turns_of_tail h.1 v

theorem fileRule_scans :
    Scans .big false 0 1 past fileRule.run fun r _ _ n => Accepts r ∧ n ≤ 2 * r.length := by
  apply ((Scans.literal 8 signatureBytes (by decide) rfl).inScope "signature" Kind.signature).seq
    fun _ _ r _ _ n => ∃ u w, r = u ++ w ∧ IsChunk ihdr u ∧ Tail w ∧ n ≤ 2 * r.length
  · rintro _ u -
    apply (headerRule_scans.inScope "ihdr" Kind.header).seq fun _ _ r _ _ n =>
      Tail r ∧ n ≤ 2 * r.length
    · exact fun _ _ _ => loop_scans
    · rintro _ w v _ _ n m ⟨body, rfl, hbody, hn⟩ ⟨hw, hm⟩
      refine ⟨_, w, rfl, ⟨body, hbody, rfl⟩, hw, ?_⟩
      rw [List.length_append, chunk_length body rfl]
      omega
    · rintro _ v _ n ⟨_, w, rfl, ⟨body, hbody, rfl⟩, hw, -⟩
      exact ⟨_, w, (), rfl, ⟨0, body, rfl, hbody, Nat.zero_le _⟩, 0, hw, Nat.zero_le _⟩
  · rintro _ _ v _ _ n m ⟨hlen, rfl, hn⟩ ⟨u, w, rfl, hu, ⟨chunks, final, hchunks, hfinal, rfl⟩, hm⟩
    refine ⟨⟨u, chunks, final, hu, hchunks, hfinal, by simp only [List.append_assoc]⟩, ?_⟩
    rw [List.length_append, hlen]
    omega
  · rintro _ v _ n ⟨⟨u, chunks, final, hu, hchunks, hfinal, rfl⟩, -⟩
    exact ⟨signatureBytes, u ++ (chunks.flatten ++ final), (), by simp only [List.append_assoc],
      ⟨0, rfl, rfl, Nat.zero_le _⟩, 0, u, _, rfl, hu, ⟨chunks, final, hchunks, hfinal, rfl⟩,
      Nat.zero_le _⟩

end File

/-- A parse accepts the files of the subset and no others, if known values are not departed from
and the stream has room for two decisions a byte. -/
theorem png_accepts_iff {limits : Limits} {input : Bytes} (hevil : limits.allowEvil = false)
    (hdepth : 2 ≤ limits.maxDepth) (hstream : 2 * input.length ≤ limits.streamCapacity) :
    (∃ w, png.grammar.parse limits input = .ok w) ↔ Accepts input := by
  have hfile : Scans .big false 0 2 [] (inScope "png" Kind.file fileRule).run
      fun r _ _ n => Accepts r ∧ n ≤ 2 * r.length := fileRule_scans.inScope "png" Kind.file
  have haccept :=
    hfile.accepts (fun _ _ _ h => h.2) (grammar_stops (by decide)) hevil hdepth hstream
  refine haccept.trans ⟨?_, ?_⟩
  · rintro ⟨_, h, -⟩
    exact h
  · exact fun h => ⟨0, h, Nat.zero_le _⟩

def labelled : Bytes :=
  signatureBytes ++ chunk ihdr [0, 0, 0, 1, 0, 0, 0, 1, 8, 0, 0, 0, 0] ++ chunk text [0, 65] ++
    chunk iend []

theorem png_accepts_labelled : Accepts labelled ∧ ¬ Accepts (labelled ++ [0]) := by
  have hparse : (png.grammar.parse { allowEvil := false } labelled).toOption.any
      (fun _ => true) = true := by decide +kernel
  have hrefuse : (png.grammar.parse { allowEvil := false } (labelled ++ [0])).toOption.any
      (fun _ => true) = false := by decide +kernel
  constructor
  · obtain ⟨w, h, -⟩ := ok_of_any hparse
    exact (png_accepts_iff rfl (by decide) (by decide)).1 ⟨w, h⟩
  · intro h
    have hlimits : ({ allowEvil := false } : Limits).allowEvil = false := rfl
    obtain ⟨w, hw⟩ := (png_accepts_iff hlimits (by decide) (by decide)).2 h
    rw [hw] at hrefuse
    cases hrefuse

end DecisionWalk.Png
