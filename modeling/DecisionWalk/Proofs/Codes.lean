import Mathlib.Algebra.Group.Nat.Defs
import DecisionWalk.Proofs.Recording

/-!
# Recorded decisions are codes

A draw is a code: the decisions that a forced value records are read back as
that same value, and whatever is read has a recorded form. Where `thrifty`
holds, the recorded form is never longer than what was read.
-/

set_option autoImplicit false

namespace DecisionWalk

open Sampler

/-- The laws that join the two uses of a draw. The values that `fits` admits under the given evil
bit are the ones recorded, each as its `code`. -/
structure Codec {K α : Type} (thrifty : Prop) (draw : Option α → Walker K α)
    (fits : Bool → α → Prop) (code : α → Bytes) : Prop where
  forced : ∀ s v w t, fits s.evil.allowed v → draw (some v) s = .ok w t →
    w = v ∧ t = s.recorded (code v) ∧ s.stream.Holds (code v)
  force : ∀ s v, fits s.evil.allowed v →
    s.stream.position + (code v).length ≤ s.stream.capacity →
    draw (some v) s = .ok v (s.recorded (code v))
  replays : ∀ s v r, fits s.evil.allowed v → s.stream.ahead = code v ++ r →
    draw none s = .ok v (s.recorded (code v))
  drawn : ∀ s v t, draw none s = .ok v t → fits s.evil.allowed v ∧
    ∃ e r, s.stream.ahead = e ++ r ∧ t = s.recorded e ∧ (e = [] ↔ code v = []) ∧
      (thrifty → (code v).length ≤ e.length)

theorem leValue_lt (bs : Bytes) : leValue bs < 256 ^ bs.length := by
  induction bs with
  | nil => simp [leValue]
  | cons b bs ih =>
    have hb := b.toNat_lt
    rw [leValue, List.length_cons, Nat.pow_succ]
    omega

theorem Endian.decode_lt (e : Endian) (bs : Bytes) : e.decode bs < 256 ^ bs.length := by
  cases e with
  | little => exact leValue_lt bs
  | big =>
    have h := leValue_lt bs.reverse
    rw [List.length_reverse] at h
    exact h

theorem leValue_leBytes (n v : Nat) : leValue (leBytes n v) = v % 256 ^ n := by
  induction n generalizing v with
  | zero => simp [leBytes, leValue, Nat.mod_one]
  | succ n ih =>
    rw [leBytes, leValue, ih, Nat.pow_succ', Nat.mod_mul]
    simp

theorem Endian.decode_encode (e : Endian) (width value : Nat) :
    e.decode (e.encode width value) = value % 256 ^ width := by
  cases e <;> simp [encode, decode, leValue_leBytes]

namespace Sampler

theorem lt_pow_decisionWidth (bound v : Nat) (h : v < bound) : v < 256 ^ decisionWidth bound := by
  rw [decisionWidth]
  by_cases hb : bound ≤ 1
  · rw [if_pos hb]
    omega
  · rw [if_neg hb]
    have hl : bound - 1 < 2 ^ (Nat.log2 (bound - 1) + 1) := Nat.lt_log2_self
    have hp : 2 ^ (Nat.log2 (bound - 1) + 1) ≤ 2 ^ (8 * (Nat.log2 (bound - 1) / 8 + 1)) :=
      Nat.pow_le_pow_right (by decide) (by omega)
    rw [show 256 = 2 ^ 8 from rfl, ← Nat.pow_mul]
    omega

theorem decisionWidth_eq_zero (bound : Nat) : decisionWidth bound = 0 ↔ bound ≤ 1 := by
  rw [decisionWidth]
  split <;> simp_all

theorem decisionWidth_eq_one (bound : Nat) (h2 : 2 ≤ bound) (h256 : bound ≤ 256) :
    decisionWidth bound = 1 := by
  have hl : Nat.log2 (bound - 1) < 8 := (Nat.log2_lt (by omega)).2 (by omega)
  rw [decisionWidth, if_neg (by omega)]
  omega

theorem decisionWidth_le_one (bound : Nat) (h : bound ≤ 256) : decisionWidth bound ≤ 1 := by
  by_cases h2 : 2 ≤ bound
  · exact Nat.le_of_eq (decisionWidth_eq_one bound h2 h)
  · rw [(decisionWidth_eq_zero bound).2 (by omega)]
    exact Nat.zero_le 1

def belowCode (bound v : Nat) : Bytes := leBytes (decisionWidth bound) v

@[simp] theorem belowCode_length (bound v : Nat) :
    (belowCode bound v).length = decisionWidth bound :=
  length_leBytes _ _

theorem encode_eq (v : Nat) : encode v =
    if 1 ≤ v ∧ v ≤ 16 then (.tiny, v - 1) else if v < 256 then (.byte, v)
    else if v < 65536 then (.wide, v) else (.full, v) := by
  by_cases h1 : 1 ≤ v ∧ v ≤ 16
  · simp [encode, selectorFor, Tier.ofSelector, fullBelow, wideBelow, byteBelow, tinyValues, h1]
  · by_cases h2 : v < 256
    · simp [encode, selectorFor, Tier.ofSelector, fullBelow, wideBelow, byteBelow, tinyValues,
        h1, h2]
    · by_cases h3 : v < 65536
      · simp [encode, selectorFor, Tier.ofSelector, fullBelow, wideBelow, tinyValues, h1, h2, h3]
      · simp [encode, selectorFor, Tier.ofSelector, fullBelow, tinyValues, h1, h2, h3]

theorem encode_tier (v : Nat) : Tier.ofSelector (selectorFor v) = (encode v).1 := by
  rw [encode]
  split <;> simp_all

theorem selectorFor_lt (v : Nat) : selectorFor v < 256 := by
  simp only [selectorFor, byteBelow, wideBelow, fullBelow]
  split
  · decide
  · split
    · decide
    · split <;> decide

def RawFits (width : Nat) : Tier → Nat → Prop
  | .tiny, raw => raw < tinyValues
  | tier, raw => raw < valuesOf (tier.rawWidth width)

def tierCode (width : Nat) : Tier → Nat → Bytes
  | .tiny, raw => belowCode tinyValues raw
  | tier, raw => leBytes (tier.rawWidth width) raw

def rawLength (width v : Nat) : Nat :=
  if v < 256 then 1 else if v < 65536 then min width 2 else width

def smallCode (width v : Nat) : Bytes :=
  belowCode 256 (selectorFor v) ++ tierCode width (encode v).1 (encode v).2

theorem valuesOf_eq (width : Nat) (h : width ≤ 8) : valuesOf width = 256 ^ width := by
  rw [valuesOf, Nat.min_eq_left h]
  rfl

theorem valuesOf_mono {width other : Nat} (h : width ≤ other) : valuesOf width ≤ valuesOf other :=
  Nat.pow_le_pow_right (by decide) (by omega)

theorem valuesOf_le (width : Nat) : valuesOf width ≤ 256 ^ width :=
  Nat.pow_le_pow_right (by decide) (Nat.min_le_left _ _)

theorem valuesOf_pos (width : Nat) : 0 < valuesOf width := Nat.pow_pos (by decide)

theorem two_le_width {width v : Nat} (hv : v < valuesOf width) (h : ¬ v < 256) : 2 ≤ width := by
  by_cases hw : width ≤ 1
  · have hp : valuesOf width ≤ 256 := valuesOf_mono hw
    omega
  · omega

theorem encode_fits (width v : Nat) (hv : v < valuesOf width) :
    RawFits width (encode v).1 (encode v).2 := by
  rw [encode_eq]
  split
  · show v - 1 < 16
    omega
  · split
    · show v < 256
      assumption
    · split
      · have hw := two_le_width hv (by assumption)
        show v < valuesOf (min width 2)
        rw [Nat.min_eq_right hw]
        assumption
      · exact hv

theorem decode_encode_value (width v : Nat) (hv : v < valuesOf width) :
    (encode v).1.decode width (encode v).2 = v := by
  rw [encode_eq]
  split
  · simp only [Tier.decode, tinyValues]
    omega
  · split
    · show v % 256 = v
      omega
    · split
      · have hw := two_le_width hv (by assumption)
        show v % valuesOf (min width 2) = v
        rw [Nat.min_eq_right hw]
        exact Nat.mod_eq_of_lt (by assumption)
      · show v % valuesOf width = v
        exact Nat.mod_eq_of_lt hv

theorem smallCode_length (width v : Nat) : (smallCode width v).length = 1 + rawLength width v := by
  have h256 := decisionWidth_eq_one 256 (by decide) (by decide)
  have h16 := decisionWidth_eq_one 16 (by decide) (by decide)
  rw [smallCode, List.length_append, belowCode_length, h256, encode_eq, rawLength]
  split
  · rw [if_pos (by omega)]
    simp [tierCode, tinyValues, h16]
  · split
    · simp [tierCode, Tier.rawWidth]
    · split <;> simp [tierCode, Tier.rawWidth]

theorem smallCode_ne (width v : Nat) : smallCode width v ≠ [] := by
  rw [Ne, ← List.length_eq_zero_iff, smallCode_length]
  omega

theorem decode_lt (width raw : Nat) (tier : Tier) (hw1 : 1 ≤ width) :
    tier.decode width raw < valuesOf width := by
  have hp : 256 ≤ valuesOf width := valuesOf_mono hw1
  cases tier with
  | tiny =>
    simp only [Tier.decode, tinyValues]
    omega
  | byte => exact Nat.lt_of_lt_of_le (Nat.mod_lt _ (valuesOf_pos 1)) hp
  | wide =>
    have hm : valuesOf (min width 2) ≤ valuesOf width := valuesOf_mono (Nat.min_le_left _ _)
    exact Nat.lt_of_lt_of_le (Nat.mod_lt _ (valuesOf_pos _)) hm
  | full => exact Nat.mod_lt _ (valuesOf_pos _)

/-- No tier draws fewer raw bytes than its value is recorded with. -/
theorem rawLength_decode_le (width raw : Nat) (tier : Tier) (hw1 : 1 ≤ width) :
    rawLength width (tier.decode width raw) ≤ (tierCode width tier raw).length := by
  cases tier with
  | tiny =>
    have h16 := decisionWidth_eq_one 16 (by decide) (by decide)
    have hv : raw % 16 + 1 < 256 := by omega
    simp [rawLength, Tier.decode, tierCode, tinyValues, h16, hv]
  | byte =>
    have hv : raw % 256 < 256 := Nat.mod_lt _ (by decide)
    show rawLength width (raw % 256) ≤ (leBytes 1 raw).length
    simp [rawLength, hv]
  | wide =>
    show rawLength width (raw % 256 ^ min (min width 2) 8) ≤ (leBytes (min width 2) raw).length
    have hv : raw % 256 ^ min (min width 2) 8 < 256 ^ min (min width 2) 8 :=
      Nat.mod_lt _ (Nat.pow_pos (by decide))
    have hp : 256 ^ min (min width 2) 8 ≤ 256 ^ 2 := Nat.pow_le_pow_right (by decide) (by omega)
    rw [length_leBytes, rawLength]
    split
    · omega
    · exact Nat.le_of_eq (if_pos (by omega))
  | full =>
    show rawLength width _ ≤ (leBytes width raw).length
    rw [length_leBytes, rawLength]
    split
    · exact hw1
    · split
      · exact Nat.min_le_left _ _
      · exact Nat.le_refl _

end Sampler

namespace Walker

variable {K : Type} {T : Prop}

/-- A draw without a choice takes no decision. -/
theorem Codec.silent {α : Type} {draw : Option α → Walker K α} {fits : Bool → α → Prop}
    {code : α → Bytes} (a : α) (hrun : ∀ f s, draw f s = .ok a s) (hfits : ∀ b v, fits b v ↔ v = a)
    (hcode : ∀ v, code v = []) : Codec T draw fits code := by
  refine ⟨?_, ?_, ?_, ?_⟩
  · intro s v w t hv h
    rw [hrun] at h
    cases h
    rw [hcode, State.recorded_nil]
    exact ⟨((hfits _ v).1 hv).symm, rfl, Stream.holds_nil _⟩
  · intro s v hv _
    rw [hrun, hcode, State.recorded_nil, (hfits _ v).1 hv]
  · intro s v r hv _
    rw [hrun, hcode, State.recorded_nil, (hfits _ v).1 hv]
  · intro s v t h
    rw [hrun] at h
    cases h
    exact ⟨(hfits _ _).2 rfl, [], s.stream.ahead, rfl, by simp, by simp [hcode], by simp [hcode]⟩

/-- A number is recorded as its own bytes. What is read there may have to be reduced first. -/
theorem Codec.spelled {draw : Option Nat → Walker K Nat} {width bound : Nat} (reduce : Nat → Nat)
    (hw : width ≠ 0) (hbound : ∀ v, v < bound → v < 256 ^ width)
    (hput : ∀ v, v < bound → draw (some v) = (putDecision v width >>= fun _ => pure v))
    (htake : draw none = (takeDecision width >>= fun raw => pure (reduce raw)))
    (hreduce : ∀ raw, raw < 256 ^ width → reduce raw < bound)
    (hkeep : ∀ v, v < bound → reduce v = v) :
    Codec T draw (fun _ v => v < bound) (leBytes width) := by
  have hne : ∀ bs : Bytes, bs.length = width → bs ≠ [] := by
    rintro _ hlen rfl
    exact hw hlen.symm
  refine ⟨?_, ?_, ?_, ?_⟩
  · intro s v w t hv h
    rw [hput v hv] at h
    obtain ⟨_, u, hp, h⟩ := bind_ok.1 h
    obtain ⟨hc, rfl⟩ := put_ok hp
    cases h
    exact ⟨rfl, rfl, fun _ => by rw [length_leBytes]; exact hc⟩
  · intro s v hv hr
    rw [length_leBytes] at hr
    rw [hput v hv, bind_run (put_run v _ hr)]
    rfl
  · intro s v r hv hr
    have ht := take_run _ _ hr
    rw [length_leBytes, leValue_leBytes, Nat.mod_eq_of_lt (hbound v hv)] at ht
    rw [htake, bind_run ht, hkeep v hv]
    rfl
  · intro s v t h
    rw [htake] at h
    obtain ⟨raw, u, ht, h⟩ := bind_ok.1 h
    obtain ⟨e, r, ha, hl, rfl, rfl⟩ := take_ok ht
    cases h
    refine ⟨hreduce _ (hl ▸ leValue_lt e), e, r, ha, rfl, ?_, ?_⟩
    · exact iff_of_false (hne e hl) (hne _ (length_leBytes _ _))
    · intro _
      exact Nat.le_of_eq ((length_leBytes _ _).trans hl.symm)

theorem decideBelow_codec (bound : Nat) (hb : 0 < bound) :
    Codec T (decideBelow (K := K) bound) (fun _ v => v < bound) (belowCode bound) := by
  by_cases hw : decisionWidth bound = 0
  · have h1 := (decisionWidth_eq_zero bound).1 hw
    apply Codec.silent 0
    · intro f s
      simp [decideBelow, hw]
    · intro _ v
      omega
    · intro v
      simp [belowCode, hw, leBytes]
  · apply Codec.spelled (· % bound) hw (lt_pow_decisionWidth bound)
    · intro v hv
      simp only [decideBelow, if_neg hw, if_pos hv]
    · simp only [decideBelow, if_neg hw]
    · intro raw _
      exact Nat.mod_lt raw hb
    · intro v hv
      exact Nat.mod_eq_of_lt hv

theorem decideRaw_codec (width : Nat) (hw8 : width ≤ 8) :
    Codec T (decideRaw (K := K) width) (fun _ v => v < 256 ^ width) (leBytes width) := by
  by_cases hw : width = 0
  · subst hw
    exact Codec.silent 0 (fun _ _ => rfl) (fun _ v => Nat.lt_one_iff) fun _ => rfl
  · apply Codec.spelled id hw (fun _ hv => hv)
    · intro v hv
      simp only [decideRaw, if_neg hw, valuesOf_eq width hw8, Nat.mod_eq_of_lt hv]
    · simp only [decideRaw, if_neg hw, id, bind_pure]
    · intro raw hraw
      exact hraw
    · intro v _
      rfl

def drawReduced (width : Nat) (forced : Option Nat) : Walker K Nat := do
  let raw ← decideRaw width forced
  pure (raw % valuesOf width)

theorem drawReduced_codec (width : Nat) :
    Codec T (drawReduced (K := K) width) (fun _ v => v < valuesOf width) (leBytes width) := by
  by_cases hw : width = 0
  · subst hw
    exact Codec.silent 0 (fun _ _ => rfl) (fun _ v => Nat.lt_one_iff) fun _ => rfl
  · apply Codec.spelled (· % valuesOf width) hw
    · intro v hv
      exact Nat.lt_of_lt_of_le hv (valuesOf_le width)
    · intro v hv
      simp only [drawReduced, decideRaw, if_neg hw, bind_assoc, pure_bind, Nat.mod_eq_of_lt hv]
    · simp only [drawReduced, decideRaw, if_neg hw]
    · intro raw _
      exact Nat.mod_lt _ (valuesOf_pos width)
    · intro v hv
      exact Nat.mod_eq_of_lt hv

def drawRaw (width : Nat) (tier : Tier) (forced : Option Nat) : Walker K Nat :=
  match tier with
  | .tiny => decideBelow tinyValues forced
  | other => drawReduced (other.rawWidth width) forced

theorem drawRaw_codec (width : Nat) (tier : Tier) :
    Codec T (drawRaw (K := K) width tier) (fun _ => RawFits width tier) (tierCode width tier) := by
  cases tier with
  | tiny => exact decideBelow_codec tinyValues (by decide)
  | byte => exact drawReduced_codec 1
  | wide => exact drawReduced_codec (min width 2)
  | full => exact drawReduced_codec width

/-- A draw in two steps. The first step draws a head, which a value found in the file settles;
a drawn head need not be the one that records the value. -/
theorem Codec.headed {η α : Type} {x : Option η → Walker K η} {y : η → Option α → Walker K α}
    {fitsx : Bool → η → Prop} {codex : η → Bytes} (fits : Bool → α → Prop) (head : α → η)
    (tail : α → Bytes)
    (hx : Codec T x fitsx codex) (hne : ∀ h, codex h ≠ [])
    (hfits : ∀ b v, fits b v → fitsx b (head v))
    (hforced : ∀ s v w t, fits s.evil.allowed v → y (head v) (some v) s = .ok w t →
      w = v ∧ t = s.recorded (tail v) ∧ s.stream.Holds (tail v))
    (hforce : ∀ s v, fits s.evil.allowed v →
      s.stream.position + (tail v).length ≤ s.stream.capacity →
      y (head v) (some v) s = .ok v (s.recorded (tail v)))
    (hreplays : ∀ s v r, fits s.evil.allowed v → s.stream.ahead = tail v ++ r →
      y (head v) none s = .ok v (s.recorded (tail v)))
    (hdrawn : ∀ s h v t, fitsx s.evil.allowed h → y h none s = .ok v t →
      fits s.evil.allowed v ∧ ∃ e r, s.stream.ahead = e ++ r ∧ t = s.recorded e ∧
        (T → (codex (head v)).length + (tail v).length ≤ (codex h).length + e.length)) :
    Codec T (fun found => x (found.map head) >>= fun h => y h found) fits
      (fun v => codex (head v) ++ tail v) := by
  refine ⟨?_, ?_, ?_, ?_⟩
  · intro s v w t hv h
    obtain ⟨_, u, h1, h2⟩ := bind_ok.1 h
    obtain ⟨rfl, rfl, hc⟩ := hx.forced _ _ _ _ (hfits _ v hv) h1
    obtain ⟨rfl, rfl, hc'⟩ := hforced (s.recorded (codex (head v))) _ _ _ hv h2
    exact ⟨rfl, by simp, Stream.holds_append _ _ _ hc hc'⟩
  · intro s v hv hr
    rw [List.length_append] at hr
    have h1 := hx.force s (head v) (hfits _ v hv) (by omega)
    have h2 := hforce (s.recorded (codex (head v))) v hv
      (by rw [State.recorded_stream, Stream.recorded_position, Stream.recorded_capacity]; omega)
    rw [Option.map_some, bind_run h1, h2, State.recorded_recorded]
  · intro s v r hv hr
    rw [List.append_assoc] at hr
    have h1 := hx.replays s (head v) _ (hfits _ v hv) hr
    have h2 := hreplays (s.recorded (codex (head v))) v r hv (by simp [hr])
    rw [Option.map_none, bind_run h1, h2, State.recorded_recorded]
  · intro s v t h
    obtain ⟨d, u, h1, h2⟩ := bind_ok.1 h
    obtain ⟨hd, e, r, ha, rfl, hn, hle⟩ := hx.drawn _ _ _ h1
    obtain ⟨hv, f, r', ha', rfl, hlf⟩ := hdrawn (s.recorded e) _ _ _ hd h2
    have hr : r = f ++ r' := by simpa [ha] using ha'
    have he : e ≠ [] := fun hc => hne d (hn.1 hc)
    refine ⟨hv, e ++ f, r', by rw [ha, hr, List.append_assoc], by simp, by simp [he, hne], ?_⟩
    intro ht
    have h3 := hle ht
    have h4 := hlf ht
    rw [List.length_append, List.length_append]
    omega

theorem coinCode_length (coin : Nat) : (belowCode 256 coin).length = 1 := by
  rw [belowCode_length]
  exact decisionWidth_eq_one 256 (by decide) (by decide)

/-- A coin is always recorded. -/
theorem coinCode_ne (coin : Nat) : belowCode 256 coin ≠ [] := by
  rw [Ne, ← List.length_eq_zero_iff, coinCode_length]
  decide

theorem sampleSmall_eq (width : Nat) (forced : Option Nat) :
    sampleSmall (K := K) width forced = (do
      let selector ← decideBelow 256 (forced.map selectorFor)
      let raw ← drawRaw width (Tier.ofSelector selector) (forced.map fun v => (encode v).2)
      pure ((Tier.ofSelector selector).decode width raw)) := by
  unfold sampleSmall
  congr 1
  funext selector
  cases h : Tier.ofSelector selector with
  | tiny => rfl
  | byte => simp only [drawRaw, drawReduced, bind_assoc, pure_bind, Tier.decode, Nat.mod_mod]
  | wide => simp only [drawRaw, drawReduced, bind_assoc, pure_bind, Tier.decode, Nat.mod_mod]
  | full => simp only [drawRaw, drawReduced, bind_assoc, pure_bind, Tier.decode, Nat.mod_mod]

/-- A sampled value is recorded by its tier. Fields wider than eight bytes hold no more values
than those of eight. -/
theorem sample_codec (width : Nat) (hw1 : 1 ≤ width) :
    Codec T (sampleSmall (K := K) width) (fun _ v => v < valuesOf width) (smallCode width) := by
  have hraw := fun tier => drawRaw_codec (K := K) (T := T) width tier
  have hcodec := Codec.headed (K := K) (T := T) (fun _ v => v < valuesOf width) selectorFor
    (fun v => tierCode width (encode v).1 (encode v).2)
    (y := fun selector forced => do
      let raw ← drawRaw width (Tier.ofSelector selector) (forced.map fun v => (encode v).2)
      pure ((Tier.ofSelector selector).decode width raw))
    (decideBelow_codec 256 (by decide)) coinCode_ne (fun _ v _ => selectorFor_lt v) ?_ ?_ ?_ ?_
  · have he : sampleSmall (K := K) width = _ := funext (sampleSmall_eq width)
    rw [he]
    exact hcodec
  · intro s v w t hv h
    simp only [encode_tier, bind_ok, pure_run, Option.map_some] at h
    obtain ⟨_, u, h1, h⟩ := h
    obtain ⟨rfl, rfl, hc⟩ := (hraw _).forced _ _ _ _ (encode_fits width v hv) h1
    rw [decode_encode_value width v hv] at h
    cases h
    exact ⟨rfl, rfl, hc⟩
  · intro s v hv hr
    have h1 := (hraw (encode v).1).force s (encode v).2 (encode_fits width v hv) hr
    simp only [encode_tier, Option.map_some, bind_run h1, pure_run,
      decode_encode_value width v hv]
  · intro s v r hv hr
    have h1 := (hraw (encode v).1).replays s (encode v).2 r (encode_fits width v hv) hr
    simp only [encode_tier, Option.map_none, bind_run h1, pure_run,
      decode_encode_value width v hv]
  · intro s selector v t _ h
    simp only [bind_ok, pure_run, Option.map_none] at h
    obtain ⟨raw, u, h1, h⟩ := h
    obtain ⟨-, e, r, ha, rfl, -, hle⟩ := (hraw _).drawn _ _ _ h1
    cases h
    refine ⟨decode_lt width raw _ hw1, e, r, ha, rfl, ?_⟩
    intro ht
    have hl := smallCode_length width ((Tier.ofSelector selector).decode width raw)
    have hd := rawLength_decode_le width raw (Tier.ofSelector selector) hw1
    have hf := hle ht
    rw [smallCode, List.length_append, coinCode_length] at hl
    rw [coinCode_length, coinCode_length]
    omega

theorem sampleSmall_codec (width : Nat) (hw1 : 1 ≤ width) (hw8 : width ≤ 8) :
    Codec T (sampleSmall (K := K) width) (fun _ v => v < 256 ^ width) (smallCode width) := by
  rw [← valuesOf_eq width hw8]
  exact sample_codec width hw1

end Walker

end DecisionWalk
