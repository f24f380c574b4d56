import DecisionWalk.Proofs.Choices

/-!
# Codes of strings

Every symbol of a string is drawn by its index in an alphabet, which the coin in
front of the string chooses. A string that ends at a zero byte also draws its
length.
-/

set_option autoImplicit false

namespace DecisionWalk

open Sampler

namespace Alphabet

def symbolCode (a : Alphabet) (b : UInt8) : Bytes := belowCode a.size ((a.index? b).getD 0)

def stringCode (a : Alphabet) (bs : Bytes) : Bytes := bs.flatMap a.symbolCode

theorem contains_iff (a : Alphabet) (b : UInt8) :
    a.contains b = true ↔ ∃ i, a.index? b = some i := by
  rw [contains, Option.isSome_iff_exists]

theorem stringCode_length (a : Alphabet) (bs : Bytes) :
    (a.stringCode bs).length = bs.length * decisionWidth a.size := by
  induction bs with
  | nil => simp [stringCode]
  | cons b bs ih =>
    rw [stringCode, List.flatMap_cons, List.length_append, symbolCode, belowCode_length,
      show (bs.flatMap a.symbolCode).length = (a.stringCode bs).length from rfl, ih,
      List.length_cons, Nat.succ_mul, Nat.add_comm]

theorem plain_contains (b : UInt8) : plain.contains b = true := rfl

theorem nonNul_contains (b : UInt8) : nonNul.contains b = true ↔ b ≠ 0 := by
  by_cases hb : b = 0 <;> simp [contains, nonNul, hb]

theorem printable_ne_zero (b : UInt8) (h : printable.contains b = true) : b ≠ 0 := by
  rintro rfl
  revert h
  decide +kernel

end Alphabet

namespace Walker

variable {K : Type} {T : Prop}

theorem drawSymbol_codec (a : Alphabet) (ha : 0 < a.size) :
    Codec T (drawSymbol (K := K) a) (fun _ b => a.contains b = true) a.symbolCode := by
  have hidx := decideBelow_codec (K := K) (T := T) a.size ha
  refine ⟨?_, ?_, ?_, ?_⟩
  · intro s b w t hb h
    obtain ⟨i, hi⟩ := (a.contains_iff b).1 hb
    obtain ⟨hlt, hsym⟩ := a.symbol_of_index? b i hi
    simp only [drawSymbol, hi, bind_ok, pure_run] at h
    obtain ⟨_, u, h1, h⟩ := h
    have hcode : a.symbolCode b = belowCode a.size i := by simp [Alphabet.symbolCode, hi]
    obtain ⟨rfl, rfl, hc⟩ := hidx.forced _ _ _ _ hlt h1
    cases h
    rw [hcode]
    exact ⟨hsym, rfl, hc⟩
  · intro s b hb hr
    obtain ⟨i, hi⟩ := (a.contains_iff b).1 hb
    obtain ⟨hlt, hsym⟩ := a.symbol_of_index? b i hi
    simp only [Alphabet.symbolCode, hi, Option.getD_some] at hr ⊢
    simp only [drawSymbol, hi, bind_run (hidx.force s i hlt hr), pure_run, hsym]
  · intro s b r hb hr
    obtain ⟨i, hi⟩ := (a.contains_iff b).1 hb
    obtain ⟨hlt, hsym⟩ := a.symbol_of_index? b i hi
    simp only [Alphabet.symbolCode, hi, Option.getD_some] at hr ⊢
    simp only [drawSymbol, bind_run (hidx.replays s i r hlt hr), pure_run, hsym]
  · intro s b t h
    simp only [drawSymbol, bind_ok, pure_run] at h
    obtain ⟨i, u, h1, h⟩ := h
    obtain ⟨hlt, e, r, hah, rfl, hn, hle⟩ := hidx.drawn _ _ _ h1
    cases h
    have hi := a.index?_symbol i hlt
    exact ⟨(a.contains_iff _).2 ⟨i, hi⟩, e, r, hah, rfl,
      by simpa [Alphabet.symbolCode, hi] using hn, by simpa [Alphabet.symbolCode, hi] using hle⟩

/-- Forced symbols are recorded one after the other. -/
theorem drawSymbols_forced (a : Alphabet) (ha : 0 < a.size) (bs : Bytes) (s t : State K) (w : Bytes)
    (hb : ∀ b ∈ bs, a.contains b = true)
    (h : (bs.mapM fun b => drawSymbol (K := K) a (some b)) s = .ok w t) :
    w = bs ∧ t = s.recorded (a.stringCode bs) ∧ s.stream.Holds (a.stringCode bs) := by
  have hsym := drawSymbol_codec (K := K) (T := True) a ha
  induction bs generalizing s t w with
  | nil =>
    cases h
    exact ⟨rfl, by simp [Alphabet.stringCode], Stream.holds_nil _⟩
  | cons b bs ih =>
    simp only [List.mapM_cons, bind_ok, pure_run] at h
    obtain ⟨_, u, h1, _, q, h2, h⟩ := h
    obtain ⟨rfl, rfl, hc⟩ := hsym.forced _ _ _ _ (hb b (by simp)) h1
    obtain ⟨rfl, rfl, hc'⟩ := ih _ _ _ (fun c hc => hb c (by simp [hc])) h2
    cases h
    exact ⟨rfl, by simp [Alphabet.stringCode], Stream.holds_append _ _ _ hc hc'⟩

theorem drawSymbols_force (a : Alphabet) (ha : 0 < a.size) (bs : Bytes) (s : State K)
    (hb : ∀ b ∈ bs, a.contains b = true)
    (hr : s.stream.position + (a.stringCode bs).length ≤ s.stream.capacity) :
    (bs.mapM fun b => drawSymbol (K := K) a (some b)) s =
      .ok bs (s.recorded (a.stringCode bs)) := by
  have hsym := drawSymbol_codec (K := K) (T := True) a ha
  induction bs generalizing s with
  | nil => simp [Alphabet.stringCode]
  | cons b bs ih =>
    have hc : a.stringCode (b :: bs) = a.symbolCode b ++ a.stringCode bs := rfl
    rw [hc, List.length_append] at hr
    have h1 := hsym.force s b (hb b (by simp)) (by omega)
    have h2 := ih (s.recorded (a.symbolCode b)) (fun c hc => hb c (by simp [hc]))
      (by rw [State.recorded_stream, Stream.recorded_position, Stream.recorded_capacity]; omega)
    rw [List.mapM_cons, bind_run h1, bind_run h2, hc, pure_run, State.recorded_recorded]

theorem drawFresh_replays (a : Alphabet) (ha : 0 < a.size) (bs drawn r : Bytes) (s : State K)
    (hb : ∀ b ∈ bs, a.contains b = true) (hr : s.stream.ahead = a.stringCode bs ++ r) :
    drawFresh a bs.length drawn s = .ok (drawn.reverse ++ bs) (s.recorded (a.stringCode bs)) := by
  have hsym := drawSymbol_codec (K := K) (T := True) a ha
  induction bs generalizing s drawn with
  | nil => simp [drawFresh, Alphabet.stringCode]
  | cons b bs ih =>
    have hc : a.stringCode (b :: bs) = a.symbolCode b ++ a.stringCode bs := rfl
    rw [hc, List.append_assoc] at hr
    have h1 := hsym.replays s b _ (hb b (by simp)) hr
    have h2 := ih (b :: drawn) (s.recorded (a.symbolCode b)) (fun c hc => hb c (by simp [hc]))
      (by simp [hr])
    rw [List.length_cons, drawFresh, bind_run h1, h2, hc, State.recorded_recorded]
    simp

theorem drawFresh_drawn (a : Alphabet) (ha : 0 < a.size) (n : Nat) (drawn w : Bytes)
    (s t : State K) (h : drawFresh a n drawn s = .ok w t) :
    ∃ bs e r, w = drawn.reverse ++ bs ∧ bs.length = n ∧ (∀ b ∈ bs, a.contains b = true) ∧
      s.stream.ahead = e ++ r ∧ t = s.recorded e ∧ (a.stringCode bs).length ≤ e.length ∧
      (e = [] ↔ a.stringCode bs = []) := by
  have hsym := drawSymbol_codec (K := K) (T := True) a ha
  induction n generalizing s drawn with
  | zero =>
    cases h
    exact ⟨[], [], t.stream.ahead, by simp, rfl, by simp, rfl, by simp,
      by simp [Alphabet.stringCode], by simp [Alphabet.stringCode]⟩
  | succ n ih =>
    rw [drawFresh, bind_ok] at h
    obtain ⟨b, u, h1, h2⟩ := h
    obtain ⟨hb, e, r, hah, rfl, hn, hle⟩ := hsym.drawn _ _ _ h1
    obtain ⟨bs, f, r', rfl, hl, hbs, hah', rfl, hlf, hnf⟩ := ih _ _ h2
    have hrr : r = f ++ r' := by simpa [hah] using hah'
    have hc : a.stringCode (b :: bs) = a.symbolCode b ++ a.stringCode bs := rfl
    refine ⟨b :: bs, e ++ f, r', by simp, by simp [hl], ?_, by rw [hah, hrr, List.append_assoc],
      by simp, ?_, by simp [hc, hn, hnf]⟩
    · intro c hc
      rcases List.mem_cons.1 hc with rfl | hc
      · exact hb
      · exact hbs c hc
    · have := hle trivial
      rw [hc, List.length_append, List.length_append]
      omega

theorem drawSymbols_codec (a : Alphabet) (n : Nat) (ha : 0 < a.size) :
    Codec T (drawSymbols (K := K) a n)
      (fun _ bs => bs.length = n ∧ ∀ b ∈ bs, a.contains b = true) a.stringCode := by
  refine ⟨?_, ?_, ?_, ?_⟩
  · intro s bs w t hb h
    exact drawSymbols_forced a ha bs s t w hb.2 h
  · intro s bs hb hr
    exact drawSymbols_force a ha bs s hb.2 hr
  · intro s bs r hb hr
    have h := drawFresh_replays a ha bs [] r s hb.2 hr
    rw [hb.1] at h
    exact h
  · intro s w t h
    obtain ⟨bs, e, r, rfl, hl, hb, hah, rfl, hle, hn⟩ := drawFresh_drawn a ha n [] w s t h
    exact ⟨⟨hl, hb⟩, e, r, hah, rfl, hn, fun _ => hle⟩

theorem drawBytes_codec (n : Nat) :
    Codec T (drawSymbols (K := K) .plain n) (fun _ bs => bs.length = n)
      Alphabet.plain.stringCode := by
  simpa [Alphabet.plain_contains] using drawSymbols_codec (K := K) (T := T) .plain n (by decide)

def stringCoinFor (bs : Bytes) : Nat := if bs.all Alphabet.printable.contains then 255 else 0

def coinAlphabet (other : Alphabet) (coin : Nat) : Alphabet :=
  if printableFrom ≤ coin then .printable else other

def textCode (other : Alphabet) (bs : Bytes) : Bytes :=
  belowCode 256 (stringCoinFor bs) ++ (coinAlphabet other (stringCoinFor bs)).stringCode bs

def drawText (other : Alphabet) (n : Nat) (found : Option Bytes) : Walker K Bytes := do
  let restricted ← stringCoin found
  drawSymbols (if restricted then .printable else other) n found

theorem drawText_eq (other : Alphabet) (n : Nat) (found : Option Bytes) :
    drawText (K := K) other n found =
      (decideBelow 256 (found.map stringCoinFor) >>=
        fun coin => drawSymbols (coinAlphabet other coin) n found) := by
  simp only [drawText, stringCoin, bind_assoc, pure_bind, decide_eq_true_eq]
  rfl

section Text

variable (other : Alphabet) (h2 : 2 ≤ other.size) (h256 : other.size ≤ 256)
include h2 h256

/-- Whatever the coin, a symbol takes one byte. -/
theorem coinAlphabet_width (coin : Nat) :
    2 ≤ (coinAlphabet other coin).size ∧ decisionWidth (coinAlphabet other coin).size = 1 := by
  rw [coinAlphabet]
  split
  · exact ⟨by decide, decisionWidth_eq_one _ (by decide) (by decide)⟩
  · exact ⟨h2, decisionWidth_eq_one _ h2 h256⟩

theorem textCode_length (bs : Bytes) : (textCode other bs).length = 1 + bs.length := by
  rw [textCode, List.length_append, coinCode_length, Alphabet.stringCode_length,
    (coinAlphabet_width other h2 h256 _).2, Nat.mul_one]

omit h2 h256 in
/-- The coin recorded for a string chooses an alphabet that holds all its symbols. -/
theorem coinAlphabet_contains (bs : Bytes) (hb : ∀ b ∈ bs, other.contains b = true) :
    ∀ b ∈ bs, (coinAlphabet other (stringCoinFor bs)).contains b = true := by
  by_cases hp : bs.all Alphabet.printable.contains = true
  · have hc : stringCoinFor bs = 255 := by rw [stringCoinFor, if_pos hp]
    rw [hc, coinAlphabet, if_pos (by decide)]
    exact List.all_eq_true.1 hp
  · have hc : stringCoinFor bs = 0 := by rw [stringCoinFor, if_neg hp]
    rw [hc, coinAlphabet, if_neg (by decide)]
    exact hb

theorem drawText_codec (n : Nat)
    (hsub : ∀ b, Alphabet.printable.contains b = true → other.contains b = true) :
    Codec T (drawText (K := K) other n)
      (fun _ bs => bs.length = n ∧ ∀ b ∈ bs, other.contains b = true) (textCode other) := by
  have hcoin : ∀ bs, stringCoinFor bs < 256 := by
    intro bs
    rw [stringCoinFor]
    split <;> decide
  have hsym := fun coin => drawSymbols_codec (K := K) (T := T) (coinAlphabet other coin) n
    (Nat.lt_of_lt_of_le Nat.zero_lt_two (coinAlphabet_width other h2 h256 coin).1)
  have hall := coinAlphabet_contains other
  have hcodec := Codec.headed (K := K) (T := T)
    (fun _ bs => bs.length = n ∧ ∀ b ∈ bs, other.contains b = true) stringCoinFor
    (fun bs => (coinAlphabet other (stringCoinFor bs)).stringCode bs)
    (y := fun coin found => drawSymbols (coinAlphabet other coin) n found)
    (decideBelow_codec 256 (by decide)) coinCode_ne (fun _ bs _ => hcoin bs) ?_ ?_ ?_ ?_
  · have he : drawText (K := K) other n = _ := funext (drawText_eq other n)
    rw [he]
    exact hcodec
  · intro s bs w t hb h
    exact (hsym _).forced s bs w t ⟨hb.1, hall bs hb.2⟩ h
  · intro s bs hb hr
    exact (hsym _).force s bs ⟨hb.1, hall bs hb.2⟩ hr
  · intro s bs r hb hr
    exact (hsym _).replays s bs r ⟨hb.1, hall bs hb.2⟩ hr
  · intro s coin bs t _ h
    obtain ⟨hb, e, r, ha, rfl, -, hle⟩ := (hsym coin).drawn s bs t h
    refine ⟨⟨hb.1, ?_⟩, e, r, ha, rfl, ?_⟩
    · intro b hmem
      have hc := hb.2 b hmem
      rw [coinAlphabet] at hc
      split at hc
      · exact hsub b hc
      · exact hc
    · intro ht
      have hl := textCode_length other h2 h256 bs
      have he := hle ht
      rw [Alphabet.stringCode_length, (coinAlphabet_width other h2 h256 coin).2] at he
      rw [textCode, List.length_append, coinCode_length] at hl
      rw [coinCode_length, coinCode_length]
      omega

end Text

theorem drawString_codec (n : Nat) :
    Codec T (drawText (K := K) .plain n) (fun _ bs => bs.length = n) (textCode .plain) := by
  have h := drawText_codec (K := K) (T := T) .plain (by decide) (by decide) n
    (fun b _ => Alphabet.plain_contains b)
  simpa [Alphabet.plain_contains] using h

theorem rawLength_mono (width v w : Nat) (hw : 1 ≤ width) (h : v ≤ w) :
    rawLength width v ≤ rawLength width w := by
  rw [rawLength, rawLength]
  by_cases hv : v < 256
  · rw [if_pos hv]
    split
    · exact Nat.le_refl _
    · split <;> omega
  · rw [if_neg hv, if_neg (by omega : ¬ w < 256)]
    by_cases h2 : w < 65536
    · apply Nat.le_of_eq
      rw [if_pos h2, if_pos (by omega)]
    · rw [if_neg h2]
      split
      · exact Nat.min_le_left _ _
      · exact Nat.le_refl _

def drawCount (most : Nat) (derived : Option Nat) : Walker K Nat :=
  sampleSmall 8 derived >>= fun v => pure (v % (most + 1))

/-- A count below a bound is drawn over the whole width and reduced, so its record does not
depend on the bound. -/
theorem count_codec (most : Nat) :
    Codec T (drawCount (K := K) most) (fun _ v => v ≤ most ∧ v < 256 ^ 8) (smallCode 8) := by
  have hs := sampleSmall_codec (K := K) (T := T) 8 (by decide) (by decide)
  refine ⟨?_, ?_, ?_, ?_⟩
  · intro s v w t hv h
    simp only [drawCount, bind_ok, pure_run] at h
    obtain ⟨_, u, h1, h⟩ := h
    obtain ⟨rfl, rfl, hc⟩ := hs.forced _ _ _ _ hv.2 h1
    cases h
    exact ⟨Nat.mod_eq_of_lt (by omega), rfl, hc⟩
  · intro s v hv hr
    simp only [drawCount, bind_run (hs.force s v hv.2 hr), pure_run,
      Nat.mod_eq_of_lt (show v < most + 1 by omega)]
  · intro s v r hv hr
    simp only [drawCount, bind_run (hs.replays s v r hv.2 hr), pure_run,
      Nat.mod_eq_of_lt (show v < most + 1 by omega)]
  · intro s v t h
    simp only [drawCount, bind_ok, pure_run] at h
    obtain ⟨d, u, h1, h⟩ := h
    obtain ⟨hd, e, r, ha, rfl, hn, hle⟩ := hs.drawn _ _ _ h1
    cases h
    have hmod : d % (most + 1) ≤ d := Nat.mod_le _ _
    have hlt : d % (most + 1) < most + 1 := Nat.mod_lt _ (by omega)
    refine ⟨⟨by omega, by omega⟩, e, r, ha, rfl, by simp [hn, smallCode_ne], ?_⟩
    intro ht
    have hm := rawLength_mono 8 _ _ (by decide) hmod
    have he := hle ht
    rw [smallCode_length] at he ⊢
    omega

def lengthWidth (most : Nat) : Nat := max (decisionWidth (most + 1)) 1

theorem lt_pow_lengthWidth (most v : Nat) (h : v ≤ most) : v < 256 ^ lengthWidth most := by
  have hd : v < 256 ^ decisionWidth (most + 1) := lt_pow_decisionWidth _ _ (by omega)
  have hp : 256 ^ decisionWidth (most + 1) ≤ 256 ^ lengthWidth most :=
    Nat.pow_le_pow_right (by decide) (Nat.le_max_left _ _)
  omega

def drawTerminated (most : Nat) (found : Option Bytes) : Walker K Bytes :=
  sampleSmall (lengthWidth most) (found.map List.length) >>=
    fun drawn => drawText .nonNul (drawn % (most + 1)) found

def terminatedCode (most : Nat) (bs : Bytes) : Bytes :=
  smallCode (lengthWidth most) bs.length ++ textCode .nonNul bs

/-- A length is drawn as a number of at most eight bytes, whatever the longest string is. -/
theorem terminated_codec (most : Nat) :
    Codec T (drawTerminated (K := K) most)
      (fun _ bs => (bs.length ≤ most ∧ ∀ b ∈ bs, Alphabet.nonNul.contains b = true) ∧
        bs.length < 256 ^ 8)
      (terminatedCode most) := by
  have hw1 : 1 ≤ lengthWidth most := Nat.le_max_right _ _
  have htext := fun n => drawText_codec (K := K) (T := T) .nonNul (by decide) (by decide) n
    (fun b hb => (Alphabet.nonNul_contains b).2 (Alphabet.printable_ne_zero b hb))
  have hmod : ∀ bs : Bytes, bs.length ≤ most → bs.length = bs.length % (most + 1) := by
    intro bs hbs
    rw [Nat.mod_eq_of_lt (by omega)]
  have hvalue : ∀ v, v ≤ most → v < 256 ^ 8 → v < valuesOf (lengthWidth most) := by
    intro v hv h8
    by_cases hw : lengthWidth most ≤ 8
    · rw [valuesOf_eq _ hw]
      exact lt_pow_lengthWidth most v hv
    · exact Nat.lt_of_lt_of_le h8 (valuesOf_mono (show 8 ≤ lengthWidth most by omega))
  have hcodec := Codec.headed (K := K) (T := T)
    (fun _ bs => (bs.length ≤ most ∧ ∀ b ∈ bs, Alphabet.nonNul.contains b = true) ∧
      bs.length < 256 ^ 8)
    List.length (textCode .nonNul)
    (y := fun drawn found => drawText .nonNul (drawn % (most + 1)) found)
    (sample_codec (lengthWidth most) hw1) (smallCode_ne _)
    (fun _ bs hbs => hvalue _ hbs.1.1 hbs.2) ?_ ?_ ?_ ?_
  · exact hcodec
  · intro s bs w t hb h
    exact (htext _).forced s bs w t ⟨hmod bs hb.1.1, hb.1.2⟩ h
  · intro s bs hb hr
    exact (htext _).force s bs ⟨hmod bs hb.1.1, hb.1.2⟩ hr
  · intro s bs r hb hr
    exact (htext _).replays s bs r ⟨hmod bs hb.1.1, hb.1.2⟩ hr
  · intro s drawn bs t hdrawn h
    obtain ⟨hb, e, r, ha, rfl, -, hle⟩ := (htext _).drawn s bs t h
    have hlt : drawn % (most + 1) < most + 1 := Nat.mod_lt _ (by omega)
    have hmod : drawn % (most + 1) ≤ drawn := Nat.mod_le _ _
    have h8 : valuesOf (lengthWidth most) ≤ 256 ^ 8 :=
      Nat.pow_le_pow_right (by decide) (Nat.min_le_right _ _)
    refine ⟨⟨⟨by omega, hb.2⟩, by omega⟩, e, r, ha, rfl, ?_⟩
    intro ht
    have he := hle ht
    have hm := rawLength_mono (lengthWidth most) bs.length drawn hw1 (by omega)
    rw [smallCode_length, smallCode_length]
    omega

theorem drawTerminated_codec (most : Nat) (hw : lengthWidth most ≤ 8) :
    Codec T (drawTerminated (K := K) most)
      (fun _ bs => bs.length ≤ most ∧ ∀ b ∈ bs, Alphabet.nonNul.contains b = true)
      (terminatedCode most) := by
  have h := terminated_codec (K := K) (T := T) most
  have hsmall : ∀ bs : Bytes, bs.length ≤ most → bs.length < 256 ^ 8 := by
    intro bs hbs
    exact Nat.lt_of_lt_of_le (lt_pow_lengthWidth most _ hbs) (Nat.pow_le_pow_right (by decide) hw)
  refine ⟨?_, ?_, ?_, ?_⟩
  · intro s bs w t hb
    exact h.forced s bs w t ⟨hb, hsmall bs hb.1⟩
  · intro s bs hb
    exact h.force s bs ⟨hb, hsmall bs hb.1⟩
  · intro s bs r hb
    exact h.replays s bs r ⟨hb, hsmall bs hb.1⟩
  · intro s bs t hd
    obtain ⟨hb, hd⟩ := h.drawn s bs t hd
    exact ⟨hb.1, hd⟩

def endCoin (threshold : Nat) (ends : Option Bool) : Walker K Bool :=
  decideBelow 256 (ends.map fun e => if e then 0 else 255) >>=
    fun coin => pure (decide (coin < threshold))

def endCode (ends : Bool) : Bytes := belowCode 256 (if ends then 0 else 255)

theorem endCoin_codec (threshold : Nat) (h0 : 0 < threshold) (h255 : threshold ≤ 255) :
    Codec T (endCoin (K := K) threshold) (fun _ _ => True) endCode := by
  have hcoin := decideBelow_codec (K := K) (T := T) 256 (by decide)
  have hlt : ∀ b : Bool, (if b then 0 else 255) < 256 := by decide
  have hread : ∀ b : Bool, decide ((if b then 0 else 255) < threshold) = b := by
    intro b
    cases b with
    | false => simp only [Bool.false_eq_true, if_false, decide_eq_false_iff_not]; omega
    | true => simpa using h0
  refine ⟨?_, ?_, ?_, ?_⟩
  · intro s v w t _ h
    simp only [endCoin, bind_ok, pure_run, Option.map_some] at h
    obtain ⟨_, u, h1, h⟩ := h
    obtain ⟨rfl, rfl, hc⟩ := hcoin.forced _ _ _ _ (hlt v) h1
    rw [hread] at h
    cases h
    exact ⟨rfl, rfl, hc⟩
  · intro s v _ hr
    simp only [endCoin, Option.map_some, bind_run (hcoin.force s _ (hlt v) hr), pure_run, hread]
    rfl
  · intro s v r _ hr
    simp only [endCoin, Option.map_none, bind_run (hcoin.replays s _ r (hlt v) hr), pure_run, hread]
    rfl
  · intro s v t h
    simp only [endCoin, bind_ok, pure_run, Option.map_none] at h
    obtain ⟨coin, u, h1, h⟩ := h
    obtain ⟨-, e, r, ha, rfl, hn, hle⟩ := hcoin.drawn _ _ _ h1
    cases h
    refine ⟨trivial, e, r, ha, rfl, ?_, ?_⟩
    · rw [hn]
      exact iff_of_false (coinCode_ne _) (coinCode_ne _)
    · intro ht
      have := hle ht
      rw [coinCode_length] at this
      rw [endCode, coinCode_length]
      exact this

end Walker

end DecisionWalk
