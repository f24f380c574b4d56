import DecisionWalk.Proofs.Readings
import DecisionWalk.Proofs.RiffRoundTrip

/-!
# The files of the RIFF/WAVE subset

A parse accepts a container whose size field counts all that follows it: a form
type, the format, perhaps a list, the samples with their CRC, and any number of
junk chunks up to the end of the file. A payload of odd size has one byte of
padding behind it, and behind the CRC of the samples.
-/

set_option autoImplicit false

namespace DecisionWalk.Riff

open Walker Grammar

variable {seen depth : Nat} {past : Bytes}

def le32 (n : Nat) : Bytes := Endian.little.encode 4 n

def le16 (n : Nat) : Bytes := Endian.little.encode 2 n

def IsFormat (bytes : Bytes) : Prop :=
  ∃ format channels rate average align bits,
    bytes = fmtTag ++ le32 16 ++ le16 format ++ channels ++ le32 rate ++ average ++ align ++
      le16 bits ∧
    format ∈ [1, 3] ∧ channels.length = 2 ∧ rate ∈ [8000, 11025, 22050, 44100, 48000] ∧
    average.length = 4 ∧ align.length = 2 ∧ bits ∈ [8, 16, 24, 32]

def IsList (bytes : Bytes) : Prop :=
  ∃ size words padding, bytes = listTag ++ le32 size ++ infoTag ++ words ++ padding ∧
    4 ≤ size ∧ size < 2 ^ 32 ∧ words.length = size - 4 ∧ padding.length = size % 2

def IsData (bytes : Bytes) : Prop :=
  ∃ samples padding, bytes = dataTag ++ le32 samples.length ++ samples ++
      le16 (crc16 samples).toNat ++ padding ∧
    samples.length < 2 ^ 32 ∧ padding.length = samples.length % 2

def IsJunk (bytes : Bytes) : Prop :=
  ∃ junk padding, bytes = junkTag ++ le32 junk.length ++ junk ++ padding ∧
    junk.length < 2 ^ 32 ∧ padding.length = junk.length % 2

def Samples (bytes : Bytes) : Prop :=
  ∃ data junks, bytes = data ++ List.flatten junks ∧ IsData data ∧ ∀ j ∈ junks, IsJunk j

def Accepts (input : Bytes) : Prop :=
  ∃ form format list samples,
    input = riffTag ++ le32 (input.length - 8) ++ form ++ format ++ list ++ samples ∧
    input.length - 8 < 2 ^ 32 ∧ form ∈ formTypes ∧ IsFormat format ∧ (list = [] ∨ IsList list) ∧
    Samples samples

@[simp] theorem le32_length (n : Nat) : (le32 n).length = 4 := Endian.length_encode _ _ _

@[simp] theorem le16_length (n : Nat) : (le16 n).length = 2 := Endian.length_encode _ _ _

theorem eq_le32 {u : Bytes} (hu : u.length = 4) : u = le32 (Endian.little.decode u) := by
  rw [le32, ← hu, Endian.encode_decode]

theorem eq_le16 {u : Bytes} (hu : u.length = 2) : u = le16 (Endian.little.decode u) := by
  rw [le16, ← hu, Endian.encode_decode]

theorem decode_le32 {n : Nat} (h : n < 2 ^ 32) : Endian.little.decode (le32 n) = n := by
  rw [le32, Endian.decode_encode]
  exact Nat.mod_eq_of_lt h

theorem decode_le16 {n : Nat} (h : n < 2 ^ 16) : Endian.little.decode (le16 n) = n := by
  rw [le16, Endian.decode_encode]
  exact Nat.mod_eq_of_lt h

section Rules

theorem tag_scans (expected : Bytes) (htag : expected.length = 4) :
    Scans .little false seen depth past (tag expected).run
      (Block 4 2 fun u => u = expected) :=
  Scans.literal 4 expected (by decide) htag

/-- A size is only taken if so many bytes are left. -/
theorem payloadSize_scans (what : String) :
    Scans .little false seen depth past (payloadSize what).run
      fun u v a n => u = le32 a ∧ a < 2 ^ 32 ∧ a ≤ v.length ∧ n ≤ 5 := by
  apply (Scans.uint 4 (by decide) (by decide)).seq fun size _ u v a n =>
    size ≤ (u ++ v).length ∧ u = [] ∧ a = size ∧ n = 0
  · exact fun size _ _ => Scans.guarded size 1 _ (Scans.pure size)
  · rintro u _ v _ _ n m ⟨hu, rfl, hn⟩ ⟨hroom, rfl, rfl, rfl⟩
    have hlt := Endian.little.decode_lt u
    rw [hu] at hlt
    rw [List.append_nil]
    exact ⟨eq_le32 hu, hlt, hroom, hn⟩
  · rintro _ v a n ⟨rfl, hlt, hroom, -⟩
    exact ⟨_, [], a, (List.append_nil _).symm,
      ⟨0, le32_length a, (decode_le32 hlt).symm, Nat.zero_le _⟩, 0, hroom, rfl, rfl, rfl⟩

theorem pad_scans (size : Nat) (hseen : seen ≤ past.length) :
    Scans .little false seen depth past (pad size).run (Block (size % 2) 1 fun _ => True) := by
  by_cases hodd : size % 2 = 1
  · rw [pad, if_pos hodd, hodd]
    exact Scans.skipOne hseen
  · have heven : size % 2 = 0 := by omega
    rw [pad, if_neg hodd, heven]
    apply (Scans.pure ()).describe
    · rintro u _ _ n ⟨rfl, -, rfl⟩
      exact ⟨rfl, trivial, Nat.zero_le _⟩
    · rintro u _ _ n ⟨hu, -, -⟩
      exact ⟨0, List.length_eq_zero_iff.1 hu, rfl, rfl⟩

theorem format_length {r : Bytes} (h : IsFormat r) : r.length = 24 := by
  obtain ⟨format, channels, rate, average, align, bits, rfl, -, hchannels, -, haverage, halign,
    -⟩ := h
  simp only [List.length_append, le32_length, le16_length, hchannels, haverage, halign,
    show fmtTag.length = 4 from rfl]

theorem formatRule_scans :
    Scans .little false seen depth past formatRule.run
      fun r _ _ n => IsFormat r ∧ n ≤ 21 := by
  apply Scans.describe
  · apply (tag_scans fmtTag rfl).joined
    intro _ _
    apply (Scans.exactly 4 16 (by decide) (by decide) (by decide)).joined
    intro _ _
    apply (Scans.oneOf 2 [1, 3] (by decide) (by decide) (by decide) (by decide) (by decide)).joined
    intro _ _
    apply (Scans.anyUInt 2 (by decide) (by decide)).joined
    intro _ _
    apply (Scans.oneOf 4 sampleRates (by decide) (by decide) (by decide) (by decide)
      (by decide)).joined
    intro _ _
    apply (Scans.anyUInt 4 (by decide) (by decide)).joined
    intro _ _
    apply (Scans.anyUInt 2 (by decide) (by decide)).joined
    intro _ _
    exact Scans.oneOf 2 [8, 16, 24, 32] (by decide) (by decide) (by decide) (by decide) (by decide)
  · rintro _ _ _ n ⟨-, ⟨_, _, rfl, -, rfl, -, _, _, rfl, -, rfl, -, f, _, rfl, hf, hformat, -,
      channels, _, rfl, hchannels, -, -, r, _, rfl, hr, hrate, -, average, _, rfl, haverage, -, -,
      align, b, rfl, halign, -, hb, hbits⟩, hn⟩
    refine ⟨⟨_, channels, _, average, align, _, ?_, hformat, hchannels, hrate, haverage, halign,
      hbits⟩, hn⟩
    rw [← eq_le16 hf, ← eq_le32 hr, ← eq_le16 hb]
    simp only [le32, List.append_assoc]
  · rintro _ _ _ n ⟨hall, hn⟩
    have hlen := format_length hall
    obtain ⟨format, channels, rate, average, align, bits, rfl, hformat, hchannels, hrate, haverage,
      halign, hbits⟩ := hall
    have hsmall : format < 2 ^ 16 ∧ rate < 2 ^ 32 ∧ bits < 2 ^ 16 := by
      simp only [List.mem_cons, List.not_mem_nil, or_false] at hformat hrate hbits
      omega
    rw [← decode_le16 hsmall.1] at hformat
    rw [← decode_le32 hsmall.2.1] at hrate
    rw [← decode_le16 hsmall.2.2] at hbits
    refine ⟨n, hlen, ⟨fmtTag, le32 16 ++ (le16 format ++ (channels ++ (le32 rate ++ (average ++
      (align ++ le16 bits))))), by simp only [List.append_assoc], rfl, rfl, ?_,
      le32 16, _, rfl, le32_length _, rfl, ?_, le16 format, _, rfl, le16_length _, hformat, ?_,
      channels, _, rfl, hchannels, trivial, ?_, le32 rate, _, rfl, le32_length _, hrate, ?_,
      average, _, rfl, haverage, trivial, ?_, align, _, rfl, halign, trivial, le16_length _,
      hbits⟩, hn⟩
    all_goals simp only [List.length_append, le32_length, le16_length, hchannels, haverage, halign]

/-- A rule that starts with a tag and a size. -/
theorem tagged_scans {expected : Bytes} {what : String} {body : Nat → Rule} {lang : Nat → Lang Unit}
    (htag : expected.length = 4)
    (hbody : ∀ size past', past'.length = past.length + 8 →
      Scans .little false seen depth past' (body size).run (lang size)) :
    Scans .little false seen depth past
      (tag expected >>= fun _ => payloadSize what >>= body).run
      fun r v _ n => ∃ size u m, r = expected ++ le32 size ++ u ∧ size < 2 ^ 32 ∧
        size ≤ (u ++ v).length ∧ lang size u v () m ∧ n ≤ m + 7 := by
  have hsized : ∀ past', past'.length = past.length + 4 → Scans .little false seen depth past'
      (payloadSize what >>= body).run
      fun r v _ n => ∃ size u m, r = le32 size ++ u ∧ size < 2 ^ 32 ∧ size ≤ (u ++ v).length ∧
        lang size u v () m ∧ n ≤ m + 5 := by
    intro past' hpast
    apply (payloadSize_scans what).seq fun size _ => lang size
    · rintro size _ ⟨_, _, rfl, -⟩
      apply hbody
      rw [List.length_append, le32_length]
      omega
    · rintro _ u v size _ n m ⟨rfl, hlt, hroom, hn⟩ hu
      exact ⟨size, u, m, rfl, hlt, hroom, hu, by omega⟩
    · rintro _ v _ n ⟨size, u, m, rfl, hlt, hroom, hu, -⟩
      exact ⟨_, u, size, rfl, ⟨0, rfl, hlt, hroom, Nat.zero_le _⟩, m, hu⟩
  apply (tag_scans expected htag).seq fun _ _ r v _ n => ∃ size u m, r = le32 size ++ u ∧
    size < 2 ^ 32 ∧ size ≤ (u ++ v).length ∧ lang size u v () m ∧ n ≤ m + 5
  · rintro _ _ ⟨_, _, hu, -⟩
    apply hsized
    rw [List.length_append, hu]
  · rintro _ _ v _ _ n m ⟨-, rfl, hn⟩ ⟨size, u, k, rfl, hlt, hroom, hu, hk⟩
    exact ⟨size, u, k, (List.append_assoc _ _ _).symm, hlt, hroom, hu, by omega⟩
  · rintro _ v _ n ⟨size, u, m, rfl, hlt, hroom, hu, -⟩
    exact ⟨expected, _, (), List.append_assoc _ _ _, ⟨0, htag, rfl, Nat.zero_le _⟩, 0, size, u, m,
      rfl, hlt, hroom, hu, Nat.zero_le _⟩

/-- A payload whose parts are read by `body`, and the byte that makes its size even. -/
theorem padded_scans {body : Rule} {size w c : Nat} {holds : Bytes → Prop}
    (hseen : seen ≤ past.length + w)
    (hbody : Scans .little false seen depth past body.run (Block w c holds)) :
    Scans .little false seen depth past (body >>= fun _ => pad size).run
      (Block (size % 2 + w) (c + 1) fun r => ∃ u padding, r = u ++ padding ∧ u.length = w ∧
        holds u ∧ padding.length = size % 2 ∧ True) := by
  apply hbody.joined
  intro u hu
  apply pad_scans
  rw [List.length_append]
  omega

theorem junkRule_scans (hseen : seen ≤ past.length + 8) :
    Scans .little false seen depth past junkRule.run
      fun r _ _ n => IsJunk r ∧ n + 1 ≤ 2 * r.length := by
  have hbody : ∀ size past', past'.length = past.length + 8 →
      Scans .little false seen depth past'
        (discard (request (.bytes size)) >>= fun _ => pad size).run
        (Block (size % 2 + size) (size + 1) fun r => ∃ u padding, r = u ++ padding ∧
          u.length = size ∧ True ∧ padding.length = size % 2 ∧ True) :=
    fun size past' hpast => padded_scans (by omega) (Scans.anyBytes size)
  apply (tagged_scans rfl hbody).describe
  · rintro _ v _ n ⟨size, _, m, rfl, hlt, -, ⟨-, ⟨junk, padding, rfl, rfl, -, hpad, -⟩, hm⟩, hn⟩
    refine ⟨⟨junk, padding, by simp only [List.append_assoc], hlt, hpad⟩, ?_⟩
    simp only [List.length_append, le32_length, show junkTag.length = 4 from rfl]
    omega
  · rintro _ v _ n ⟨⟨junk, padding, rfl, hlt, hpad⟩, -⟩
    refine ⟨0, junk.length, junk ++ padding, 0, by simp only [List.append_assoc], hlt, ?_,
      ⟨?_, ⟨junk, padding, rfl, rfl, trivial, hpad, trivial⟩, Nat.zero_le _⟩, Nat.zero_le _⟩
    · simp only [List.length_append]
      omega
    · rw [List.length_append, hpad, Nat.add_comm]

theorem listRule_scans (hseen : seen ≤ past.length + 8) :
    Scans .little false seen depth past listRule.run
      fun r _ _ n => IsList r ∧ n ≤ 2 * r.length := by
  have hbody : ∀ size past', past'.length = past.length + 8 →
      Scans .little false seen depth past'
        (if size < 4 then .stop 1 s!"LIST size {size} cannot hold its list type"
        else do
          discard (request (.bytesKnown 4 [infoTag]))
          discard (request (.string (size - 4)))
          pad size : Rule).run
        fun r _ _ n => ∃ words padding, r = infoTag ++ words ++ padding ∧ 4 ≤ size ∧
          words.length = size - 4 ∧ padding.length = size % 2 ∧ n ≤ size + 1 := by
    intro size past' hpast
    by_cases hsize : size < 4
    · rw [if_pos hsize]
      apply (Scans.refuses fun s a t => throw_not_ok _ s t a).describe
      · exact fun _ _ _ _ h => h.elim
      · rintro _ v _ n ⟨_, _, -, hfour, -⟩
        omega
    · rw [if_neg hsize]
      apply Scans.describe
      · apply (Scans.oneOfBytes 4 [infoTag] (by decide) (by decide) (by decide) (by decide)).joined
        intro u hu
        apply padded_scans ?_ (Scans.anyString (size - 4))
        rw [List.length_append]
        omega
      · rintro _ v _ n ⟨-, ⟨_, _, rfl, -, hinfo, -, words, padding, rfl, hwords, -, hpad, -⟩, hn⟩
        rw [List.mem_singleton.1 hinfo]
        exact ⟨words, padding, (List.append_assoc _ _ _).symm, by omega, hwords, hpad, by omega⟩
      · rintro _ v _ n ⟨words, padding, rfl, hfour, hwords, hpad, -⟩
        refine ⟨0, ?_, ⟨infoTag, words ++ padding, List.append_assoc _ _ _, rfl,
          List.mem_singleton.2 rfl, ?_, words, padding, rfl, hwords, trivial, hpad, trivial⟩,
          Nat.zero_le _⟩
        · simp only [List.length_append, hwords, hpad, show infoTag.length = 4 from rfl]
          omega
        · rw [List.length_append, hwords, hpad, Nat.add_comm]
  apply (tagged_scans rfl hbody).describe
  · rintro _ v _ n ⟨size, _, m, rfl, hlt, -, ⟨words, padding, rfl, hfour, hwords, hpad, hm⟩, hn⟩
    refine ⟨⟨size, words, padding, by simp only [List.append_assoc], hfour, hlt, hwords, hpad⟩, ?_⟩
    simp only [List.length_append, le32_length, show listTag.length = 4 from rfl,
      show infoTag.length = 4 from rfl]
    omega
  · rintro _ v _ n ⟨⟨size, words, padding, rfl, hfour, hlt, hwords, hpad⟩, -⟩
    refine ⟨0, size, infoTag ++ words ++ padding, 0, by simp only [List.append_assoc], hlt, ?_,
      ⟨words, padding, rfl, hfour, hwords, hpad, Nat.zero_le _⟩, Nat.zero_le _⟩
    simp only [List.length_append, show infoTag.length = 4 from rfl]
    omega

theorem dataRule_scans (hseen : seen ≤ past.length + 8) :
    Scans .little false seen depth past dataRule.run
      fun r _ _ n => IsData r ∧ n + 9 ≤ 2 * r.length := by
  have hbody : ∀ size past', past'.length = past.length + 8 →
      Scans .little false seen depth past' (do
        let start ← request .tell
        discard (request (.bytes size))
        let stop ← request .tell
        let crc ← request (.checksum16 start stop)
        oneOf 2 [crc]
        pad size : Rule).run
        fun r _ _ n => ∃ samples padding, r = samples ++ le16 (crc16 samples).toNat ++ padding ∧
          samples.length = size ∧ padding.length = size % 2 ∧ n ≤ size + 3 := by
    intro size past' hpast
    apply Scans.knowing Scans.tell
    apply (Scans.anyBytes size).seq fun _ samples => Block (size % 2 + 2) 3 fun r =>
      ∃ u padding, r = u ++ padding ∧ u.length = 2 ∧ u = le16 (crc16 samples).toNat ∧
        padding.length = size % 2 ∧ True
    · rintro _ samples -
      apply Scans.knowing Scans.tell
      apply Scans.knowing (Scans.checksum16 rfl)
      apply padded_scans ?_ (Scans.exactly 2 _ (by decide) (by decide) (crc16 samples).toNat_lt)
      rw [List.length_append]
      omega
    · rintro samples _ v _ _ n m ⟨hlen, -, hn⟩ ⟨-, ⟨_, padding, rfl, -, rfl, hpad, -⟩, hm⟩
      exact ⟨samples, padding, (List.append_assoc _ _ _).symm, hlen, hpad, by omega⟩
    · rintro _ v _ n ⟨samples, padding, rfl, hlen, hpad, -⟩
      refine ⟨samples, _, (), List.append_assoc _ _ _, ⟨0, hlen, trivial, Nat.zero_le _⟩, 0, ?_,
        ⟨_, padding, rfl, le16_length _, rfl, hpad, trivial⟩, Nat.zero_le _⟩
      rw [List.length_append, le16_length, hpad, Nat.add_comm]
  apply (tagged_scans rfl hbody).describe
  · rintro _ v _ n ⟨_, _, m, rfl, hlt, -, ⟨samples, padding, rfl, rfl, hpad, hm⟩, hn⟩
    refine ⟨⟨samples, padding, by simp only [List.append_assoc], hlt, hpad⟩, ?_⟩
    simp only [List.length_append, le32_length, le16_length, show dataTag.length = 4 from rfl]
    omega
  · rintro _ v _ n ⟨⟨samples, padding, rfl, hlt, hpad⟩, -⟩
    refine ⟨0, samples.length, samples ++ le16 (crc16 samples).toNat ++ padding, 0,
      by simp only [List.append_assoc], hlt, ?_,
      ⟨samples, padding, rfl, rfl, hpad, Nat.zero_le _⟩, Nat.zero_le _⟩
    simp only [List.length_append]
    omega

def roundLang : Lang (Unit ⊕ Unit) :=
  fun r v a n => a = .inl () ∧ IsJunk r ∧ 0 < n ∧ n ≤ 2 * r.length ∨
    a = .inr () ∧ r = [] ∧ v = [] ∧ n = 1

theorem junk_length {r : Bytes} (h : IsJunk r) : 8 ≤ r.length := by
  obtain ⟨junk, padding, rfl, -⟩ := h
  simp only [List.length_append, le32_length, show junkTag.length = 4 from rfl]
  omega

theorem data_length {r : Bytes} (h : IsData r) : 10 ≤ r.length := by
  obtain ⟨samples, padding, rfl, -⟩ := h
  simp only [List.length_append, le32_length, le16_length, show dataTag.length = 4 from rfl]
  omega

theorem trailing_scans : Scans .little false 0 (depth + 1) past trailing.run roundLang := by
  apply (Scans.endOfFile endThreshold (by decide) (by decide)).seq fun ends _ r v a n =>
    ends = true ∧ a = .inr () ∧ r = [] ∧ n = 0 ∨
      ends = false ∧ a = .inl () ∧ IsJunk r ∧ n + 1 ≤ 2 * r.length
  · rintro ends _ -
    cases ends with
    | true =>
      rw [if_pos rfl]
      apply (Scans.pure (Sum.inr ())).describe
      · rintro r _ a n ⟨hr, ha, hn⟩
        exact Or.inl ⟨rfl, ha, hr, hn⟩
      · rintro r _ a n (⟨-, ha, hr, hn⟩ | ⟨h, -⟩)
        · exact ⟨n, hr, ha, hn⟩
        · cases h
    | false =>
      rw [if_neg Bool.false_ne_true]
      apply ((junkRule_scans (Nat.zero_le _)).inScope "junk" Kind.junk).seq
        fun _ _ r _ a n => r = [] ∧ a = .inl () ∧ n = 0
      · exact fun _ _ _ => Scans.pure (Sum.inl ())
      · rintro r _ v _ a n m ⟨hr, hn⟩ ⟨rfl, ha, rfl⟩
        rw [List.append_nil]
        exact Or.inr ⟨rfl, ha, hr, hn⟩
      · rintro r v a n (⟨h, -⟩ | ⟨-, ha, hr, hn⟩)
        · cases h
        · have := junk_length hr
          exact ⟨r, [], (), (List.append_nil r).symm, ⟨0, hr, by omega⟩, 0, rfl, ha, rfl⟩
  · rintro _ r v ends a n m ⟨rfl, hends, rfl⟩ (⟨h, ha, rfl, rfl⟩ | ⟨h, ha, hr, hm⟩)
    · rw [h, eq_comm, decide_eq_true_eq] at hends
      exact Or.inr ⟨ha, rfl, hends, rfl⟩
    · exact Or.inl ⟨ha, hr, by omega, by rw [List.nil_append]; omega⟩
  · rintro r v a n (⟨ha, hr, -⟩ | ⟨ha, rfl, rfl, -⟩)
    · have hlen := junk_length hr
      have hne : r ++ v ≠ [] := by
        intro h
        rw [(List.append_eq_nil_iff.1 h).1] at hlen
        exact absurd hlen (by decide)
      exact ⟨[], r, false, rfl, ⟨1, rfl, (decide_eq_false hne).symm, rfl⟩, 0,
        Or.inr ⟨rfl, ha, hr, by omega⟩⟩
    · exact ⟨[], [], true, rfl, ⟨1, rfl, rfl, rfl⟩, 0, Or.inl ⟨rfl, ha, rfl, rfl⟩⟩

end Rules

section File

theorem junks_of_turns {r v : Bytes} {c : Unit} {n : Nat} (h : Turns roundLang r v c n) :
    (∃ junks, r = List.flatten junks ∧ ∀ j ∈ junks, IsJunk j) ∧ v = [] ∧ n ≤ 2 * r.length + 1 := by
  induction h with
  | last h =>
    obtain ⟨h, -⟩ | ⟨-, rfl, rfl, rfl⟩ := h
    · cases h
    · exact ⟨⟨[], rfl, by simp⟩, rfl, by simp⟩
  | @again u _ _ _ _ _ h _ ih =>
    obtain ⟨-, hu, -, hn⟩ | ⟨h, -⟩ := h
    · obtain ⟨⟨junks, rfl, hjunks⟩, hv, hm⟩ := ih
      refine ⟨⟨u :: junks, List.flatten_cons.symm, ?_⟩, hv, ?_⟩
      · rintro j (_ | ⟨_, hj⟩)
        · exact hu
        · exact hjunks j hj
      · rw [List.length_append]
        omega
    · cases h

theorem turns_of_junks (junks : List Bytes) (hjunks : ∀ j ∈ junks, IsJunk j) :
    ∃ n, Turns roundLang (List.flatten junks) [] () n := by
  induction junks with
  | nil => exact ⟨1, .last (Or.inr ⟨rfl, rfl, rfl, rfl⟩)⟩
  | cons j junks ih =>
    obtain ⟨m, hm⟩ := ih fun k hk => hjunks k (List.mem_cons_of_mem _ hk)
    have hj := hjunks j List.mem_cons_self
    have := junk_length hj
    rw [List.flatten_cons]
    exact ⟨1 + m, .again (Or.inl ⟨rfl, hj, Nat.one_pos, by omega⟩) hm⟩

theorem loop_scans :
    Scans .little false 0 1 past (repeatFrom () fun _ => trailing).run
      fun r v _ n => (∃ junks, r = List.flatten junks ∧ ∀ j ∈ junks, IsJunk j) ∧ v = [] ∧
        n ≤ 2 * r.length + 1 := by
  apply (Scans.repeatFrom (fun past => trailing_scans) ?_).describe
  · exact fun _ _ _ _ h => junks_of_turns h
  · rintro _ _ _ n ⟨⟨junks, rfl, hjunks⟩, rfl, -⟩
    exact turns_of_junks junks hjunks
  · rintro u v n (⟨-, -, hn, -⟩ | ⟨h, -⟩)
    · exact hn
    · cases h

def sampled (total : Reserved) : Rule := do
  inScope "data" .data dataRule
  repeatFrom () fun _ => trailing
  let size ← request .fileSize
  request (.patch total (size - 8))

def chunked (total : Reserved) : Rule := do
  let next ← underEvil false (request (.lookBytes 0 4 [listTag, dataTag]))
  if next = listTag then do
    inScope "list" .list listRule
    sampled total
  else sampled total

def heldSize (front middle : Bytes) : Reserved :=
  ⟨front.length, 4, some (Endian.little.decode middle)⟩

theorem sampled_scans {front middle back : Bytes} (hpast : past = front ++ middle ++ back)
    (hmiddle : middle.length = 4) (hseen : seen ≤ past.length + 4) :
    Scans .little false seen 1 past (sampled (heldSize front middle)).run
      fun r v _ n => Samples r ∧ v = [] ∧
        Endian.little.decode middle = past.length + r.length - 8 ∧ n + 8 ≤ 2 * r.length := by
  have hpatch : ∀ more, seen ≤ past.length + more.length →
      Scans .little false seen 1 (past ++ more) (request .fileSize >>= fun size =>
        request (.patch (heldSize front middle) (size - 8)) : Rule).run
      fun u _ _ n => u = [] ∧
        Endian.little.decode middle = past.length + more.length - 8 ∧ n = 0 := by
    intro more hmore
    have hsplit : past ++ more = front ++ middle ++ (back ++ more) := by
      rw [hpast]
      simp only [List.append_assoc]
    rw [← List.length_append] at hmore ⊢
    exact Scans.knowing (Scans.fileSize hmore) (Scans.patch _ hsplit hmiddle)
  have htail : ∀ data, IsData data → Scans .little false seen 1 (past ++ data)
      (repeatFrom () (fun _ => trailing) >>= fun _ => request .fileSize >>= fun size =>
        request (.patch (heldSize front middle) (size - 8)) : Rule).run
      fun r v _ n => (∃ junks, r = List.flatten junks ∧ ∀ j ∈ junks, IsJunk j) ∧ v = [] ∧
        Endian.little.decode middle = past.length + (data ++ r).length - 8 ∧
          n ≤ 2 * r.length + 1 := by
    intro data hdata
    have hlen := data_length hdata
    have hbehind : seen ≤ (past ++ data).length := by
      rw [List.length_append]
      omega
    apply (loop_scans.settled hbehind).seq fun _ junk u _ _ n => u = [] ∧
      Endian.little.decode middle = past.length + (data ++ junk).length - 8 ∧ n = 0
    · rintro _ junk -
      rw [List.append_assoc]
      apply hpatch
      rw [List.length_append]
      omega
    · rintro junk _ v _ _ n m ⟨hjunks, hv, hn⟩ ⟨rfl, hsize, rfl⟩
      rw [List.append_nil]
      exact ⟨hjunks, hv, hsize, hn⟩
    · rintro junk v _ n ⟨hjunks, hv, hsize, -⟩
      exact ⟨junk, [], (), (List.append_nil junk).symm, ⟨0, hjunks, hv, Nat.zero_le _⟩, 0, rfl,
        hsize, rfl⟩
  apply ((dataRule_scans (by omega)).inScope "data" Kind.data).seq fun _ data r v _ n =>
    (∃ junks, r = List.flatten junks ∧ ∀ j ∈ junks, IsJunk j) ∧ v = [] ∧
      Endian.little.decode middle = past.length + (data ++ r).length - 8 ∧ n ≤ 2 * r.length + 1
  · rintro _ data ⟨_, _, hdata, -⟩
    exact htail data hdata
  · rintro data _ v _ _ n m ⟨hdata, hn⟩ ⟨⟨junks, rfl, hjunks⟩, hv, hsize, hm⟩
    refine ⟨⟨data, junks, rfl, hdata, hjunks⟩, hv, hsize, ?_⟩
    rw [List.length_append]
    omega
  · rintro _ v _ n ⟨⟨data, junks, rfl, hdata, hjunks⟩, hv, hsize, -⟩
    have := data_length hdata
    exact ⟨data, _, (), rfl, ⟨0, hdata, by omega⟩, 0, ⟨junks, rfl, hjunks⟩, hv, hsize,
      Nat.zero_le _⟩

/-- The tags that start a list and samples. -/
theorem list_tag {r : Bytes} (h : IsList r) (v : Bytes) : (r ++ v).take 4 = listTag := by
  obtain ⟨size, words, padding, rfl, -⟩ := h
  simp only [List.append_assoc]
  exact List.take_left' rfl

theorem samples_tag {r : Bytes} (h : Samples r) (v : Bytes) : (r ++ v).take 4 = dataTag := by
  obtain ⟨_, junks, rfl, ⟨samples, padding, rfl, -⟩, -⟩ := h
  simp only [List.append_assoc]
  exact List.take_left' rfl

theorem samples_length {r : Bytes} (h : Samples r) : 10 ≤ r.length := by
  obtain ⟨data, junks, rfl, hdata, -⟩ := h
  have := data_length hdata
  rw [List.length_append]
  omega

def Chunks (r : Bytes) : Prop :=
  ∃ list samples, r = list ++ samples ∧ (list = [] ∨ IsList list) ∧ Samples samples

def ChunksFrom (next r : Bytes) : Prop :=
  ∃ list samples, r = list ++ samples ∧
    (next = listTag ∧ IsList list ∨ next ≠ listTag ∧ list = []) ∧ Samples samples

theorem ChunksFrom.chunks {next r : Bytes} (h : ChunksFrom next r) : Chunks r := by
  obtain ⟨list, samples, hr, hlist, hsamples⟩ := h
  exact ⟨list, samples, hr, hlist.symm.imp And.right And.right, hsamples⟩

/-- The first tag tells whether there is a list. -/
theorem Chunks.next {r : Bytes} (h : Chunks r) (v : Bytes) :
    ∃ next ∈ [listTag, dataTag], next = (r ++ v).take 4 ∧ ChunksFrom next r := by
  obtain ⟨list, samples, rfl, rfl | hlist, hsamples⟩ := h
  · exact ⟨dataTag, by decide, (samples_tag hsamples v).symm, [], samples, rfl,
      Or.inr ⟨by decide, rfl⟩, hsamples⟩
  · have htag := list_tag hlist (samples ++ v)
    rw [← List.append_assoc] at htag
    exact ⟨listTag, by decide, htag.symm, list, samples, rfl, Or.inl ⟨rfl, hlist⟩, hsamples⟩

theorem chunks_length {r : Bytes} (h : Chunks r) : 10 ≤ r.length := by
  obtain ⟨list, samples, rfl, -, hsamples⟩ := h
  have := samples_length hsamples
  rw [List.length_append]
  omega

theorem chunksFrom_scans {front middle back : Bytes} (hpast : past = front ++ middle ++ back)
    (hmiddle : middle.length = 4) (next : Bytes) :
    Scans .little false (past.length + 4) 1 past
      (if next = listTag then do
        inScope "list" .list listRule
        sampled (heldSize front middle)
      else sampled (heldSize front middle) : Rule).run
      fun r v _ n => ChunksFrom next r ∧ v = [] ∧
        Endian.little.decode middle = past.length + r.length - 8 ∧ n + 8 ≤ 2 * r.length := by
  by_cases hnext : next = listTag
  · rw [if_pos hnext]
    apply ((listRule_scans (by omega)).inScope "list" Kind.list).seq fun _ list r v _ n =>
      Samples r ∧ v = [] ∧
        Endian.little.decode middle = (past ++ list).length + r.length - 8 ∧ n + 8 ≤ 2 * r.length
    · rintro _ list -
      have hsplit : past ++ list = front ++ middle ++ (back ++ list) := by
        rw [hpast]
        simp only [List.append_assoc]
      apply sampled_scans hsplit hmiddle
      rw [List.length_append]
      omega
    · rintro list samples v _ _ n m ⟨hlist, hn⟩ ⟨hsamples, hv, hsize, hm⟩
      rw [List.length_append, Nat.add_assoc, ← List.length_append] at hsize
      refine ⟨⟨list, samples, rfl, Or.inl ⟨hnext, hlist⟩, hsamples⟩, hv, hsize, ?_⟩
      rw [List.length_append]
      omega
    · rintro _ v _ n ⟨⟨list, samples, rfl, ⟨-, hlist⟩ | ⟨hother, -⟩, hsamples⟩, hv, hsize, -⟩
      · have := samples_length hsamples
        rw [List.length_append, ← Nat.add_assoc, ← List.length_append] at hsize
        exact ⟨list, samples, (), rfl, ⟨0, hlist, Nat.zero_le _⟩, 0, hsamples, hv, hsize,
          by omega⟩
      · exact absurd hnext hother
  · rw [if_neg hnext]
    apply (sampled_scans hpast hmiddle (Nat.le_refl _)).describe
    · rintro r v _ n ⟨hsamples, hv, hsize, hn⟩
      exact ⟨⟨[], r, rfl, Or.inr ⟨hnext, rfl⟩, hsamples⟩, hv, hsize, hn⟩
    · rintro _ v _ n ⟨⟨list, samples, rfl, ⟨hother, -⟩ | ⟨-, rfl⟩, hsamples⟩, hv, hsize, hn⟩
      · exact absurd hother hnext
      · exact ⟨n, hsamples, hv, hsize, hn⟩

/-- The list if there is one, told by a look at the next tag, and the samples. -/
theorem chunked_scans {front middle back : Bytes} (hpast : past = front ++ middle ++ back)
    (hmiddle : middle.length = 4) :
    Scans .little false 0 1 past (chunked (heldSize front middle)).run
      fun r v _ n => Chunks r ∧ v = [] ∧
        Endian.little.decode middle = past.length + r.length - 8 ∧ n + 6 ≤ 2 * r.length := by
  have hlook : Scans .little false (past.length + 4) 1 past (chunked (heldSize front middle)).run
      fun r v _ n => Chunks r ∧ v = [] ∧
        Endian.little.decode middle = past.length + r.length - 8 ∧ n + 6 ≤ 2 * r.length := by
    apply ((Scans.lookBytes 0 4 [listTag, dataTag] (by decide) (by decide) (by decide) (by decide)
      (by omega)).underEvil false).seq fun next _ r v _ n => ChunksFrom next r ∧ v = [] ∧
        Endian.little.decode middle = past.length + r.length - 8 ∧ n + 8 ≤ 2 * r.length
    · rintro next _ ⟨_, _, rfl, -⟩
      rw [List.append_nil]
      exact chunksFrom_scans hpast hmiddle next
    · rintro _ r v next _ n m ⟨rfl, -, -, -, hn⟩ ⟨hchunks, hv, hsize, hm⟩
      rw [List.nil_append]
      exact ⟨hchunks.chunks, hv, hsize, by omega⟩
    · rintro r v _ n ⟨hchunks, hv, hsize, -⟩
      have hlen := chunks_length hchunks
      obtain ⟨next, hmem, htag, hfrom⟩ := hchunks.next v
      exact ⟨[], r, next, rfl, ⟨1, rfl, htag, hmem, by decide, by decide⟩, 0, hfrom, hv, hsize,
        by omega⟩
  apply hlook.within (Nat.zero_le _)
  rintro r v _ n ⟨hchunks, -⟩
  have := chunks_length hchunks
  omega

def Formatted (r : Bytes) : Prop :=
  ∃ format chunks, r = format ++ chunks ∧ IsFormat format ∧ Chunks chunks

theorem formatted_scans {middle form : Bytes} (hmiddle : middle.length = 4)
    (hform : form.length = 4) :
    Scans .little false 0 1 (riffTag ++ middle ++ form)
      (inScope "fmt" .format formatRule >>= fun _ => chunked (heldSize riffTag middle)).run
      fun r v _ n => Formatted r ∧ v = [] ∧ Endian.little.decode middle = r.length + 4 ∧
        n ≤ 2 * r.length := by
  apply (formatRule_scans.inScope "fmt" Kind.format).seq fun _ format r v _ n =>
    Chunks r ∧ v = [] ∧
      Endian.little.decode middle = (riffTag ++ middle ++ form ++ format).length + r.length - 8 ∧
      n + 6 ≤ 2 * r.length
  · rintro _ format -
    exact chunked_scans (List.append_assoc _ _ _) hmiddle
  · rintro format chunks v _ _ n m ⟨hformat, hn⟩ ⟨hchunks, hv, hsize, hm⟩
    have hlen := format_length hformat
    simp only [List.length_append, hform, hmiddle, hlen, show riffTag.length = 4 from rfl] at hsize
    refine ⟨⟨format, chunks, rfl, hformat, hchunks⟩, hv, ?_, ?_⟩
    · rw [List.length_append, hlen]
      omega
    · rw [List.length_append, hlen]
      omega
  · rintro _ v _ n ⟨⟨format, chunks, rfl, hformat, hchunks⟩, hv, hsize, -⟩
    have hlen := format_length hformat
    have := chunks_length hchunks
    refine ⟨format, chunks, (), rfl, ⟨0, hformat, Nat.zero_le _⟩, 0, hchunks, hv, ?_, by omega⟩
    simp only [List.length_append, hlen, hform, hmiddle, show riffTag.length = 4 from rfl]
      at hsize ⊢
    omega

def Content (r : Bytes) : Prop :=
  ∃ form format list samples, r = form ++ format ++ list ++ samples ∧ form ∈ formTypes ∧
    IsFormat format ∧ (list = [] ∨ IsList list) ∧ Samples samples

theorem content_scans {middle : Bytes} (hmiddle : middle.length = 4) :
    Scans .little false 0 1 (riffTag ++ middle) (do
      discard (request (.bytesKnown 4 formTypes))
      inScope "fmt" .format formatRule
      chunked (heldSize riffTag middle) : Rule).run
      fun r v _ n => Content r ∧ v = [] ∧ Endian.little.decode middle = r.length ∧
        n ≤ 2 * r.length := by
  have hforms : ∀ bs ∈ formTypes, bs.length = 4 := by decide
  apply (Scans.oneOfBytes 4 formTypes (by decide) (by decide) (by decide) hforms).seq
    fun _ _ r v _ n => Formatted r ∧ v = [] ∧ Endian.little.decode middle = r.length + 4 ∧
      n ≤ 2 * r.length
  · rintro _ form ⟨_, _, hform, -⟩
    exact formatted_scans hmiddle hform
  · rintro form _ v _ _ n m ⟨hform, hmem, hn⟩
      ⟨⟨format, _, rfl, hformat, list, samples, rfl, hlist, hsamples⟩, hv, hsize, hm⟩
    refine ⟨⟨form, format, list, samples, by simp only [List.append_assoc], hmem, hformat, hlist,
      hsamples⟩, hv, ?_, ?_⟩
    · rw [List.length_append, hform]
      omega
    · rw [List.length_append, hform]
      omega
  · rintro _ v _ n
      ⟨⟨form, format, list, samples, rfl, hmem, hformat, hlist, hsamples⟩, hv, hsize, -⟩
    refine ⟨form, format ++ (list ++ samples), (), by simp only [List.append_assoc],
      ⟨0, hforms form hmem, hmem, Nat.zero_le _⟩, 0,
      ⟨format, _, rfl, hformat, list, samples, rfl, hlist, hsamples⟩, hv, ?_, Nat.zero_le _⟩
    have hform := hforms form hmem
    simp only [List.length_append, hform] at hsize ⊢
    omega

theorem containerRule_scans :
    Scans .little false 0 1 [] containerRule.run
      fun r v _ n => (Accepts r ∧ v = []) ∧ n ≤ 2 * r.length := by
  show Scans _ _ _ _ _ (tag riffTag >>= fun _ => request (.reserve 4) >>= fun total =>
    discard (request (.bytesKnown 4 formTypes)) >>= fun _ =>
      inScope "fmt" Kind.format formatRule >>= fun _ => chunked total).run _
  apply (tag_scans riffTag rfl).seq fun _ _ r v _ n => ∃ middle u, r = middle ++ u ∧
    middle.length = 4 ∧ Content u ∧ v = [] ∧ Endian.little.decode middle = u.length ∧
    n ≤ 2 * u.length
  · rintro _ _ ⟨_, _, -, rfl, -⟩
    apply (Scans.reserve 4 (by decide) (by decide)).seq fun _ middle u v _ n =>
      Content u ∧ v = [] ∧ Endian.little.decode middle = u.length ∧ n ≤ 2 * u.length
    · rintro _ middle ⟨_, _, hmiddle, rfl, -⟩
      exact content_scans hmiddle
    · rintro middle u v _ _ n m ⟨hmiddle, -, rfl⟩ ⟨hu, hv, hsize, hm⟩
      exact ⟨middle, u, rfl, hmiddle, hu, hv, hsize, by omega⟩
    · rintro _ v _ n ⟨middle, u, rfl, hmiddle, hu, hv, hsize, -⟩
      exact ⟨middle, u, _, rfl, ⟨0, hmiddle, rfl, rfl⟩, 0, hu, hv, hsize, Nat.zero_le _⟩
  · rintro _ _ v _ _ n m ⟨-, rfl, hn⟩ ⟨middle, _, rfl, hmiddle,
      ⟨form, format, list, samples, rfl, hmem, hformat, hlist, hsamples⟩, hv, hsize, hm⟩
    have hlt := Endian.little.decode_lt middle
    have hmid := eq_le32 hmiddle
    rw [hmiddle] at hlt
    rw [hsize] at hlt hmid
    have hlen : (riffTag ++ (middle ++ (form ++ format ++ list ++ samples))).length - 8 =
        (form ++ format ++ list ++ samples).length := by
      simp only [List.length_append, hmiddle, show riffTag.length = 4 from rfl]
      omega
    refine ⟨⟨⟨form, format, list, samples, ?_, ?_, hmem, hformat, hlist, hsamples⟩, hv⟩, ?_⟩
    · rw [hlen, ← hmid]
      simp only [List.append_assoc]
    · rw [hlen]
      exact hlt
    · simp only [List.length_append, hmiddle, show riffTag.length = 4 from rfl] at hm ⊢
      omega
  · rintro r v _ n ⟨⟨⟨form, format, list, samples, hr, hlt, hmem, hformat, hlist, hsamples⟩, hv⟩, -⟩
    have hlen := congrArg List.length hr
    simp only [List.length_append, le32_length, show riffTag.length = 4 from rfl] at hlen
    refine ⟨riffTag, le32 (r.length - 8) ++ (form ++ format ++ list ++ samples), (), ?_,
      ⟨0, rfl, rfl, Nat.zero_le _⟩, 0, _, _, rfl, le32_length _,
      ⟨form, format, list, samples, rfl, hmem, hformat, hlist, hsamples⟩, hv, ?_, Nat.zero_le _⟩
    · refine hr.trans ?_
      simp only [List.append_assoc]
    · rw [decode_le32 hlt]
      simp only [List.length_append]
      omega

end File

/-- A parse accepts the files of the subset and no others, if known values are not departed from
and the stream has room for two decisions a byte. -/
theorem riff_accepts_iff {limits : Limits} {input : Bytes} (hevil : limits.allowEvil = false)
    (hdepth : 2 ≤ limits.maxDepth) (hstream : 2 * input.length ≤ limits.streamCapacity) :
    (∃ w, riff.grammar.parse limits input = .ok w) ↔ Accepts input := by
  have hfile : Scans .little false 0 2 [] (inScope "riff" Kind.container containerRule).run
      fun r v _ n => (Accepts r ∧ v = []) ∧ n ≤ 2 * r.length :=
    containerRule_scans.inScope "riff" Kind.container
  have haccept :=
    hfile.accepts (fun _ _ _ h => h.2) (grammar_stops (by decide)) hevil hdepth hstream
  refine haccept.trans ⟨?_, ?_⟩
  · rintro ⟨_, h, -⟩
    exact h.1
  · exact fun h => ⟨0, ⟨h, rfl⟩, Nat.zero_le _⟩

def oddSized : Bytes :=
  riffTag ++ le32 54 ++ [0x57, 0x41, 0x56, 0x45] ++
    (fmtTag ++ le32 16 ++ le16 1 ++ [2, 0] ++ le32 44100 ++ [0, 0, 0, 0] ++ [4, 0] ++ le16 16) ++
    (listTag ++ le32 5 ++ infoTag ++ [65] ++ [0]) ++
    (dataTag ++ le32 1 ++ [7] ++ le16 (crc16 [7]).toNat ++ [9])

theorem riff_accepts_oddSized : Accepts oddSized ∧ ¬ Accepts (oddSized.dropLast) := by
  have hparse : (riff.grammar.parse { allowEvil := false } oddSized).toOption.any
      (fun _ => true) = true := by decide +kernel
  have hrefuse : (riff.grammar.parse { allowEvil := false } oddSized.dropLast).toOption.any
      (fun _ => true) = false := by decide +kernel
  have hlimits : ({ allowEvil := false } : Limits).allowEvil = false := rfl
  constructor
  · obtain ⟨w, h, -⟩ := ok_of_any hparse
    exact (riff_accepts_iff hlimits (by decide) (by decide)).1 ⟨w, h⟩
  · intro h
    obtain ⟨w, hw⟩ := (riff_accepts_iff hlimits (by decide) (by decide)).2 h
    rw [hw] at hrefuse
    cases hrefuse

end DecisionWalk.Riff
