import DecisionWalk.Proofs.Emission
import DecisionWalk.Proofs.Strings

/-!
# Fields in both directions

Every read finds what is there, draws a value and emits its bytes. The laws of a
field say when a value is found, so that the draw is forced, and that the bytes
emitted for a value are the bytes it is found in.
-/

set_option autoImplicit false

namespace DecisionWalk

open Image

variable {K α : Type} {m : Mode} {s t : State K}

structure Field (K α : Type) where
  find : Walker K (Option α)
  draw : Option α → Walker K α
  encode : Endian → α → Bytes

namespace Field

open Walker

def read (f : Field K α) : Walker K α := do
  let there ← f.find
  let value ← f.draw there
  let s ← get
  emit (f.encode s.endian value)
  pure value

/-- The laws of a field. While generating, nothing is found where the image is `opens` and a value
where it is `shut`; while parsing a value is always found. -/
structure Lawful (f : Field K α) (opens shut : Image → Prop) (fits : Bool → α → Prop)
    (code : α → Bytes) : Prop where
  codec : Codec True f.draw fits code
  absent : ∀ s, Sound .generate s → opens s.image → f.find s = .ok none s
  found : ∀ m s b v, Sound m s → (m = .parse ∨ shut s.image) → fits b v →
    s.image.Stands (f.encode s.endian v) → f.find s = .ok (some v) s
  finds : ∀ m s r t, Sound m s → (m = .parse ∨ shut s.image) → f.find s = .ok r t →
    t = s ∧ ∃ v, r = some v ∧ s.image.Stands (f.encode s.endian v)
  admits : ∀ m s v w t, Sound m s → (m = .parse ∨ shut s.image) →
    f.find s = .ok (some v) s → f.draw (some v) s = .ok w t → fits s.evil.allowed v
  fixed : ∀ im b e v, shut im → fits b v → im.cursor + (f.encode e v).length ≤ im.size ∧
    ∀ k, k < (f.encode e v).length → im.fixedAt (im.cursor + k) = true
  fresh : ∀ im b e v, opens im → fits b v →
    ∀ k, k < (f.encode e v).length → im.fixedAt (im.cursor + k) = false
  same : ∀ a b : Image, a.cursor = b.cursor → a.size = b.size →
    (∀ i, a.fixedAt i = b.fixedAt i) → (opens a → opens b) ∧ (shut a → shut b)

/-- What a read does on its own. -/
theorem Lawful.ran {f : Field K α} {opens shut : Image → Prop} {fits : Bool → α → Prop}
    {code : α → Bytes} (hf : f.Lawful opens shut fits code) {v : α} (hs : Sound m s)
    (hw : opens s.image ∨ shut s.image) (h : f.read s = .ok v t) :
    ∃ r u, f.draw r s = .ok v u ∧ emit (f.encode u.endian v) u = .ok () t ∧
      (∀ w, r = some w → fits s.evil.allowed w) ∧ (m = .parse → r ≠ none) ∧
      ((m = .generate ∧ opens s.image) ∨
        ∃ w, r = some w ∧ s.image.Stands (f.encode s.endian w)) := by
  obtain ⟨r, s', h1, h2⟩ := bind_ok.1 h
  obtain ⟨w, u, h3, h4⟩ := bind_ok.1 h2
  obtain ⟨_, t', h5, h6⟩ := bind_ok.1 ((get_bind _ u).symm.trans h4)
  cases h6
  by_cases hm : m = .parse ∨ shut s.image
  · obtain ⟨rfl, w, rfl, hst⟩ := hf.finds m s r s' hs hm h1
    have hfits := hf.admits m s' w v u hs hm h1 h3
    refine ⟨some w, u, h3, h5, ?_, fun _ hn => (nomatch hn), Or.inr ⟨w, rfl, hst⟩⟩
    intro w' hw'
    cases hw'
    exact hfits
  · have ho : opens s.image := hw.resolve_right fun hsh => hm (Or.inr hsh)
    have hg : m = .generate := by
      cases m with
      | generate => rfl
      | parse => exact absurd (Or.inl rfl) hm
    subst hg
    rw [hf.absent s hs ho] at h1
    cases h1
    exact ⟨none, u, h3, h5, fun w hw => (nomatch hw), fun hp => (nomatch hp), Or.inl ⟨rfl, ho⟩⟩

def Opens (n : Nat) (im : Image) : Prop :=
  n ≠ 0 ∧ ∀ k, k < n → im.fixedAt (im.cursor + k) = false

def Shut (n : Nat) (im : Image) : Prop :=
  im.cursor + n ≤ im.size ∧ ∀ k, k < n → im.fixedAt (im.cursor + k) = true

def ofWidth (n : Nat) (decode : Endian → Bytes → α) (encode : Endian → α → Bytes)
    (draw : Option α → Walker K α) : Field K α where
  find := do
    let s ← get
    let there ← Walker.found s.image.cursor n
    pure (there.map (decode s.endian))
  draw := draw
  encode := encode

theorem ofWidth_find {n : Nat} {decode : Endian → Bytes → α} {encode : Endian → α → Bytes}
    {draw : Option α → Walker K α} {r : Option Bytes}
    (h : Walker.found s.image.cursor n s = .ok r s) :
    (ofWidth n decode encode draw).find s = .ok (r.map (decode s.endian)) s := by
  show (get >>= fun s => Walker.found s.image.cursor n >>= fun there =>
    pure (there.map (decode s.endian)) : Walker K (Option α)) s = _
  rw [get_bind, bind_run h, pure_run]

section Width

variable {n : Nat} {decode : Endian → Bytes → α} {encode : Endian → α → Bytes}
  {draw : Option α → Walker K α}

theorem ofWidth_there (hs : Sound m s) (hm : m = .parse ∨ Shut n s.image)
    (hl : s.image.cursor + n ≤ s.image.bytes.size) :
    (ofWidth n decode encode draw).find s =
      .ok (some (decode s.endian (s.image.window s.image.cursor n))) s := by
  refine ofWidth_find (r := some (s.image.window s.image.cursor n)) ?_
  cases m with
  | parse => exact found_parse hs _ _ hl
  | generate =>
    rcases hm with hm | hm
    · cases hm
    · exact found_fixed hs _ _ hm.1 hm.2

theorem ofWidth_within {r : Option α} (hs : Sound m s) (hm : m = .parse ∨ Shut n s.image)
    (h : (ofWidth n decode encode draw).find s = .ok r t) :
    s.image.cursor + n ≤ s.image.bytes.size := by
  rcases hm with rfl | hm
  · obtain ⟨_, _, h1, -⟩ := bind_ok.1 ((get_bind _ s).symm.trans h)
    exact (found_parse_ok hs h1).2.2
  · have h1 := hm.1
    have h2 := hs.size_le
    omega

theorem ofWidth_lawful {fits : Bool → α → Prop} {code : α → Bytes}
    (hc : Codec True draw fits code)
    (hlen : ∀ b e v, fits b v → (encode e v).length = n)
    (hdec : ∀ b e v, fits b v → decode e (encode e v) = v)
    (henc : ∀ e bs, bs.length = n → encode e (decode e bs) = bs)
    (hadm : ∀ s e bs w t, bs.length = n → draw (some (decode e bs)) s = .ok w t →
      fits s.evil.allowed (decode e bs)) :
    (ofWidth n decode encode draw).Lawful (Opens n) (Shut n) fits code := by
  refine ⟨hc, ?_, ?_, ?_, ?_, ?_, ?_, ?_⟩
  · intro s hs ho
    exact ofWidth_find (found_fresh hs _ n ho.1 ho.2)
  · intro m s b v hs hm hv hst
    have hl : (encode s.endian v).length = n := hlen b s.endian v hv
    have hst' : s.image.Stands (encode s.endian v) := hst
    have hw := stands_window hst'
    rw [hl] at hw
    rw [ofWidth_there hs hm (by rw [← hl]; exact hst'.1), hw, hdec b s.endian v hv]
  · intro m s r t hs hm h
    have hl := ofWidth_within hs hm h
    rw [ofWidth_there hs hm hl] at h
    cases h
    refine ⟨rfl, _, rfl, ?_⟩
    show s.image.Stands (encode s.endian (decode s.endian _))
    rw [henc _ _ (window_length s.image _ n hl)]
    exact window_stands s.image n hl
  · intro m s v w t hs hm h hdraw
    have hl := ofWidth_within hs hm h
    rw [ofWidth_there hs hm hl] at h
    cases h
    exact hadm s s.endian _ w t (window_length s.image _ n hl) hdraw
  · intro im b e v hsh hv
    have hl : (encode e v).length = n := hlen b e v hv
    show im.cursor + (encode e v).length ≤ im.size ∧
      ∀ k, k < (encode e v).length → im.fixedAt (im.cursor + k) = true
    rw [hl]
    exact hsh
  · intro im b e v ho hv k hk
    have hl : (encode e v).length = n := hlen b e v hv
    exact ho.2 k (hl ▸ hk)
  · intro a b hcur hsize hfix
    simp only [Opens, Shut, hcur, hsize, hfix]
    exact ⟨fun h => h, fun h => h⟩

end Width

def integer (width : Nat) (draw : Option Nat → Walker K Nat) : Field K Nat :=
  ofWidth width Endian.decode (fun e => e.encode width) draw

def string (length : Nat) (draw : Option Bytes → Walker K Bytes) : Field K Bytes :=
  ofWidth length (fun _ bs => bs) (fun _ bs => bs) draw

theorem integer_lawful {width : Nat} {draw : Option Nat → Walker K Nat}
    {fits : Bool → Nat → Prop} {code : Nat → Bytes} (hc : Codec True draw fits code)
    (hfits : ∀ b v, fits b v → v < 256 ^ width)
    (hadm : ∀ s v w t, v < 256 ^ width → draw (some v) s = .ok w t → fits s.evil.allowed v) :
    (integer width draw).Lawful (Opens width) (Shut width) fits code := by
  apply ofWidth_lawful hc
  · intro b e v _
    exact Endian.length_encode e width v
  · intro b e v hv
    rw [Endian.decode_encode, Nat.mod_eq_of_lt (hfits b v hv)]
  · intro e bs hl
    rw [← hl, Endian.encode_decode]
  · intro s e bs w t hl h
    exact hadm s _ w t (hl ▸ Endian.decode_lt e bs) h

theorem string_lawful {n : Nat} {draw : Option Bytes → Walker K Bytes}
    {fits : Bool → Bytes → Prop} {code : Bytes → Bytes} (hc : Codec True draw fits code)
    (hfits : ∀ b bs, fits b bs → bs.length = n)
    (hadm : ∀ s bs w t, bs.length = n → draw (some bs) s = .ok w t → fits s.evil.allowed bs) :
    (string n draw).Lawful (Opens n) (Shut n) fits code := by
  apply ofWidth_lawful hc
  · intro b e bs hbs
    exact hfits b bs hbs
  · intro b e bs _
    rfl
  · intro e bs _
    rfl
  · intro s e bs w t hl h
    exact hadm s bs w t hl h

theorem uint_lawful (width : Nat) (h1 : 1 ≤ width) (h8 : width ≤ 8) :
    (integer (K := K) width (sampleSmall width)).Lawful (Opens width) (Shut width)
      (fun _ v => v < 256 ^ width) (Sampler.smallCode width) :=
  integer_lawful (sampleSmall_codec width h1 h8) (fun _ _ h => h) (fun _ _ _ _ h _ => h)

theorem uintFull_lawful (width : Nat) (h8 : width ≤ 8) :
    (integer (K := K) width (decideRaw width)).Lawful (Opens width) (Shut width)
      (fun _ v => v < 256 ^ width) (leBytes width) :=
  integer_lawful (decideRaw_codec width h8) (fun _ _ h => h) (fun _ _ _ _ h _ => h)

theorem bytes_lawful (n : Nat) :
    (string (K := K) n (drawSymbols .plain n)).Lawful (Opens n) (Shut n)
      (fun _ bs => bs.length = n) Alphabet.plain.stringCode :=
  string_lawful (drawBytes_codec n) (fun _ _ h => h) (fun _ _ _ _ h _ => h)

theorem string_text_lawful (n : Nat) :
    (string (K := K) n (drawText .plain n)).Lawful (Opens n) (Shut n)
      (fun _ bs => bs.length = n) (textCode .plain) :=
  string_lawful (drawString_codec n) (fun _ _ h => h) (fun _ _ _ _ h _ => h)

theorem uintKnown_lawful (width : Nat) (known : List Nat) (h1 : 1 ≤ width) (h8 : width ≤ 8)
    (hne : known ≠ []) (hlen : known.length ≤ 256) (hknown : ∀ v ∈ known, v < 256 ^ width) :
    (integer (K := K) width fun found => chooseKnown found known (sampleSmall width)).Lawful
      (Opens width) (Shut width) (fun b v => v ∈ known ∨ b = true ∧ v < 256 ^ width)
      (knownCode known (Sampler.smallCode width)) := by
  apply integer_lawful
  · apply chooseKnown_codec known _ _ _ hne (sampleSmall_codec width h1 h8)
    intro _ v _
    have hw := Sampler.decisionWidth_le_one known.length hlen
    rw [Sampler.smallCode_length]
    omega
  · intro b v hv
    rcases hv with hv | hv
    · exact hknown v hv
    · exact hv.2
  · intro s v w t hv h
    exact (chooseKnown_admits h).imp_right fun hs => ⟨hs, hv⟩

theorem bytesKnown_lawful (n : Nat) (known : List Bytes) (h1 : 1 ≤ n) (hne : known ≠ [])
    (hlen : known.length ≤ 256) (hknown : ∀ bs ∈ known, bs.length = n) :
    (string (K := K) n fun found => chooseKnown found known (drawSymbols .plain n)).Lawful
      (Opens n) (Shut n) (fun b bs => bs ∈ known ∨ b = true ∧ bs.length = n)
      (knownCode known Alphabet.plain.stringCode) := by
  apply string_lawful
  · apply chooseKnown_codec known _ _ _ hne (drawBytes_codec n)
    intro _ bs hbs
    have hw := Sampler.decisionWidth_le_one known.length hlen
    have hp : Sampler.decisionWidth Alphabet.plain.size = 1 :=
      Sampler.decisionWidth_eq_one 256 (by decide) (by decide)
    rw [Alphabet.stringCode_length, hp, hknown bs hbs]
    omega
  · intro b bs hbs
    rcases hbs with hbs | hbs
    · exact hknown bs hbs
    · exact hbs.2
  · intro s bs w t hl h
    exact (chooseKnown_admits h).imp_right fun hs => ⟨hs, hl⟩

end Field

namespace Walker

theorem checkWidth_run {width : Nat} (h1 : 1 ≤ width) (h8 : width ≤ 8) :
    checkWidth (K := K) width = pure () := by
  rw [checkWidth, if_pos ⟨h1, h8⟩]

theorem readUInt_eq (width : Nat) (h1 : 1 ≤ width) (h8 : width ≤ 8) :
    readUInt (K := K) width = (Field.integer width (sampleSmall width)).read := by
  rw [readUInt, checkWidth_run h1 h8]
  rfl

theorem readUIntFull_eq (width : Nat) (h1 : 1 ≤ width) (h8 : width ≤ 8) :
    readUIntFull (K := K) width = (Field.integer width (decideRaw width)).read := by
  rw [readUIntFull, checkWidth_run h1 h8]
  rfl

theorem readUIntKnown_eq (width : Nat) (known : List Nat) (h1 : 1 ≤ width) (h8 : width ≤ 8) :
    readUIntKnown (K := K) width known =
      (Field.integer width fun found => chooseKnown found known (sampleSmall width)).read := by
  rw [readUIntKnown, checkWidth_run h1 h8]
  rfl

theorem string_find (n : Nat) (draw : Option Bytes → Walker K Bytes) :
    (Field.string n draw).find = (tell >>= fun p => found p n) := by
  funext s
  cases h : found s.image.cursor n s with
  | ok r t =>
    have hl : (Field.string n draw).find s = .ok (r.map fun bs => bs) t := bind_run h
    have hr : (tell >>= fun p => found p n : Walker K (Option Bytes)) s = .ok r t := h
    rw [hl, hr, Option.map_id_fun']
    rfl
  | error e t =>
    have hl : (Field.string n draw).find s = .error e t :=
      (get_bind _ s).trans (bind_error h)
    have hr : (tell >>= fun p => found p n : Walker K (Option Bytes)) s = .error e t := h
    rw [hl, hr]

theorem string_read (n : Nat) (draw : Option Bytes → Walker K Bytes) :
    (Field.string n draw).read = (do
      let there ← found (← tell) n
      let bytes ← draw there
      emit bytes
      pure bytes) := by
  rw [Field.read, string_find, bind_assoc]
  rfl

theorem readBytes_eq (n : Nat) :
    readBytes (K := K) n = (Field.string n (drawSymbols .plain n)).read := by
  rw [string_read]
  rfl

theorem readString_eq (n : Nat) :
    readString (K := K) n = (Field.string n (drawText .plain n)).read := by
  rw [string_read, readString]
  simp only [drawText, bind_assoc]

theorem readBytesKnown_eq (n : Nat) (known : List Bytes) (hknown : ∀ bs ∈ known, bs.length = n) :
    readBytesKnown (K := K) n known =
      (Field.string n fun found => chooseKnown found known (drawSymbols .plain n)).read := by
  have hf : known.find? (·.length != n) = none := by
    rw [List.find?_eq_none]
    intro bs hbs
    simp [hknown bs hbs]
  rw [string_read, readBytesKnown, hf]

def terminated (most : Nat) : Field K Bytes where
  find := foundCString most
  draw := drawTerminated most
  encode _ bs := bs ++ [0]

theorem readCString_eq (most : Nat) : readCString (K := K) most = (terminated most).read := by
  rw [readCString, Field.read]
  simp only [terminated, drawTerminated, drawText, bind_assoc]
  rfl

def reach (most : Nat) (im : Image) : Nat := min (most + 1) (im.bytes.size - im.cursor)

theorem foundCString_run (most : Nat) (hm : s.mode = .parse)
    (hlimit : s.image.limit = s.image.bytes.size) : foundCString most s =
      match (s.image.window s.image.cursor (reach most s.image)).findIdx? (· == 0) with
      | some length =>
        .ok (some ((s.image.window s.image.cursor (reach most s.image)).take length)) s
      | none => violation (.unterminated (most + 1) s.image.cursor) s := by
  have hw : (s.image.slice? s.image.cursor
      (min (s.image.cursor + most + 1) s.image.limit)).getD [] =
      s.image.window s.image.cursor (reach most s.image) := by
    rw [hlimit]
    by_cases hc : s.image.cursor ≤ s.image.bytes.size
    · have hstop : min (s.image.cursor + most + 1) s.image.bytes.size =
          s.image.cursor + reach most s.image := by
        rw [reach]
        omega
      rw [hstop, slice_eq _ _ _ (by rw [reach]; omega), Option.getD_some]
    · rw [slice?, if_neg (by omega), Option.getD_none, reach,
        Nat.sub_eq_zero_of_le (by omega), Nat.min_zero, window]
      simp
  have hparse : ∀ p : Prop, ¬ (s.mode = .generate ∧ p) := by
    rintro p ⟨hgenerate, -⟩
    rw [hm] at hgenerate
    cases hgenerate
  rw [foundCString]
  dsimp only
  rw [if_neg (hparse _), hw]
  cases (s.image.window s.image.cursor (reach most s.image)).findIdx? (· == 0) with
  | none => rfl
  | some length => exact if_neg (hparse _)

/-- A terminated string is found where it stands. -/
theorem findIdx?_window {im : Image} {bs : Bytes} {n : Nat} (hl : bs.length < n)
    (hz : ∀ b ∈ bs, b ≠ 0) (hst : im.Stands (bs ++ [0])) :
    (im.window im.cursor n).findIdx? (· == 0) = some bs.length ∧
      (im.window im.cursor n).take bs.length = bs := by
  obtain ⟨j, rfl⟩ : ∃ j, n = (bs ++ [0]).length + j :=
    ⟨n - (bs ++ [0]).length, by rw [List.length_append, List.length_singleton]; omega⟩
  have hw : im.window im.cursor ((bs ++ [0]).length + j) =
      bs ++ 0 :: im.window (im.cursor + (bs ++ [0]).length) j := by
    rw [window_append, stands_window hst]
    simp
  have hn : bs.findIdx? (· == 0) = none := by
    rw [List.findIdx?_eq_none_iff]
    intro b hb
    simpa using hz b hb
  rw [hw, List.findIdx?_append, hn]
  simp [List.findIdx?_cons]

/-- What a zero byte ends is a terminated string that stands there. -/
theorem window_terminated {im : Image} {n length : Nat}
    (h : (im.window im.cursor n).findIdx? (· == 0) = some length) :
    length < n ∧ ((im.window im.cursor n).take length).length = length ∧
      (∀ b ∈ (im.window im.cursor n).take length, b ≠ 0) ∧
      im.Stands ((im.window im.cursor n).take length ++ [0]) := by
  obtain ⟨hn, h0, hne⟩ := List.findIdx?_eq_some_iff_getElem.1 h
  have hlen : (im.window im.cursor n).length =
      min (im.cursor + n) im.bytes.size - im.cursor := by
    rw [window, Array.length_toList, Array.size_extract]
  refine ⟨by omega, ?_, ?_, ?_⟩
  · rw [List.length_take, Nat.min_eq_left (Nat.le_of_lt hn)]
  · intro b hb
    obtain ⟨k, hk, rfl⟩ := List.mem_iff_getElem.1 hb
    rw [List.length_take] at hk
    have := hne k (by omega)
    simpa using this
  · have hsplit : im.window im.cursor (length + 1) =
        (im.window im.cursor n).take length ++ [0] := by
      rw [← eq_of_beq h0, List.take_append_getElem hn, window_take _ _ _ _ (by omega)]
    rw [← hsplit]
    exact window_stands im (length + 1) (by omega)

theorem foundCString_parse (most : Nat) (hm : s.mode = .parse)
    (hlimit : s.image.limit = s.image.bytes.size) (bs : Bytes) (hl : bs.length ≤ most)
    (hz : ∀ b ∈ bs, b ≠ 0) (hst : s.image.Stands (bs ++ [0])) :
    foundCString most s = .ok (some bs) s := by
  have hin := hst.1
  rw [List.length_append, List.length_singleton] at hin
  obtain ⟨hi, htake⟩ := findIdx?_window (n := reach most s.image) (by rw [reach]; omega) hz hst
  rw [foundCString_run most hm hlimit, hi]
  dsimp only
  rw [htake]

theorem foundCString_ok (most : Nat) (hs : Sound .parse s) (r : Option Bytes)
    (h : foundCString most s = .ok r t) :
    t = s ∧ ∃ bs, r = some bs ∧ bs.length ≤ most ∧ (∀ b ∈ bs, b ≠ 0) ∧
      s.image.Stands (bs ++ [0]) := by
  rw [foundCString_run most hs.mode hs.limit_parse] at h
  cases hi : (s.image.window s.image.cursor (reach most s.image)).findIdx? (· == 0) with
  | none =>
    rw [hi] at h
    exact absurd h (violation_not_ok _ _ _ _)
  | some n =>
    rw [hi] at h
    cases h
    obtain ⟨hlt, hlen, hz, hst⟩ := window_terminated hi
    have hr : reach most s.image ≤ most + 1 := Nat.min_le_left _ _
    exact ⟨rfl, _, rfl, by omega, hz, hst⟩

theorem terminated_lawful (most : Nat) (hw : lengthWidth most ≤ 8) :
    (terminated (K := K) most).Lawful (fun im => ∀ k, im.fixedAt (im.cursor + k) = false)
      (fun _ => False)
      (fun _ bs => bs.length ≤ most ∧ ∀ b ∈ bs, Alphabet.nonNul.contains b = true)
      (terminatedCode most) := by
  refine ⟨drawTerminated_codec most hw, ?_, ?_, ?_, ?_, ?_, ?_, ?_⟩
  · intro s hs ho
    show foundCString most s = _
    rw [foundCString]
    simp only [hs.mode, region_fresh s.image s.image.cursor 1 (by decide) (fun k _ => ho k),
      and_self, if_true]
  · intro m s b bs hs hm hbs hst
    rcases hm with rfl | hm
    · exact foundCString_parse most hs.mode hs.limit_parse bs hbs.1
        (fun c hc => (Alphabet.nonNul_contains c).1 (hbs.2 c hc)) hst
    · cases hm
  · intro m s r t hs hm h
    rcases hm with rfl | hm
    · obtain ⟨rfl, bs, rfl, -, -, hst⟩ := foundCString_ok most hs r h
      exact ⟨rfl, bs, rfl, hst⟩
    · cases hm
  · intro m s bs w t hs hm h _
    rcases hm with rfl | hm
    · obtain ⟨-, bs', hbs, hl, hz, -⟩ := foundCString_ok most hs _ h
      cases hbs
      exact ⟨hl, fun b hb => (Alphabet.nonNul_contains b).2 (hz b hb)⟩
    · cases hm
  · intro im b e bs hsh
    cases hsh
  · intro im b e bs ho _ k _
    exact ho k
  · intro a b hcur _ hfix
    simp only [hcur, hfix]
    exact ⟨fun h => h, fun h => h⟩

end Walker

end DecisionWalk
