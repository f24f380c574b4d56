import DecisionWalk.Proofs.Codes
import DecisionWalk.Walker.Field

/-!
# Codes of known values, strings and counts

A choice among known values is a coin followed by an index or, under the evil
bit, by any value. A string is a coin followed by one index per symbol.
-/

set_option autoImplicit false

namespace DecisionWalk.Walker

open Sampler

variable {K α : Type} {T : Prop}

def pick (known : List α) (i : Nat) : Walker K α :=
  match known[i]? with
  | some v => pure v
  | none => throw (.defect .choice)

theorem pick_run {known : List α} {v : α} {i : Nat} (h : known[i]? = some v) (s : State K) :
    pick known i s = .ok v s := by
  rw [pick, h]
  rfl

theorem pick_ok {known : List α} {v : α} {i : Nat} {s t : State K}
    (h : pick known i s = .ok v t) : known[i]? = some v ∧ t = s := by
  cases hv : known[i]? with
  | none =>
    rw [pick, hv] at h
    cases h
  | some w =>
    rw [pick_run hv] at h
    cases h
    exact ⟨rfl, rfl⟩

theorem isEvil_good (e : EvilBit) : e.isEvil EvilBit.goodCoin = false := by
  cases e.allowed <;> simp [EvilBit.isEvil, EvilBit.goodCoin, EvilBit.oneIn]

theorem isEvil_evil (e : EvilBit) : e.isEvil EvilBit.evilCoin = e.allowed := by
  simp [EvilBit.isEvil, EvilBit.evilCoin]

theorem allowed_of_isEvil {e : EvilBit} {coin : Nat} (h : e.isEvil coin = true) :
    e.allowed = true := by
  rw [EvilBit.isEvil, Bool.and_eq_true] at h
  exact h.1

section Known

variable [DecidableEq α]

theorem findIdx_of_mem {known : List α} {v : α} (h : v ∈ known) :
    ∃ i, known.findIdx? (· == v) = some i := by
  apply Option.isSome_iff_exists.1
  rw [List.findIdx?_isSome]
  simpa using h

theorem get_of_findIdx {known : List α} {v : α} {i : Nat}
    (h : known.findIdx? (· == v) = some i) : i < known.length ∧ known[i]? = some v := by
  obtain ⟨hi, hv, -⟩ := List.findIdx?_eq_some_iff_getElem.1 h
  exact ⟨hi, by rw [List.getElem?_eq_getElem hi, eq_of_beq hv]⟩

theorem mem_of_findIdx {known : List α} {v : α} {i : Nat}
    (h : known.findIdx? (· == v) = some i) : v ∈ known :=
  List.mem_of_getElem? (get_of_findIdx h).2

def coinFor (known : List α) (v : α) : Nat :=
  if (known.findIdx? (· == v)).isSome then EvilBit.goodCoin else EvilBit.evilCoin

theorem coinFor_known {known : List α} {v : α} (h : v ∈ known) :
    coinFor known v = EvilBit.goodCoin := by
  obtain ⟨i, hi⟩ := findIdx_of_mem h
  simp [coinFor, hi]

theorem findIdx_of_not_mem {known : List α} {v : α} (h : v ∉ known) :
    known.findIdx? (· == v) = none := by
  cases hi : known.findIdx? (· == v) with
  | none => rfl
  | some i => exact absurd (mem_of_findIdx hi) h

theorem coinFor_unknown {known : List α} {v : α} (h : v ∉ known) :
    coinFor known v = EvilBit.evilCoin := by
  simp [coinFor, findIdx_of_not_mem h]

def drawIndexed (known : List α) (found : Option α) : Walker K α := do
  let choice ← decideBelow known.length (found.bind fun v => known.findIdx? (· == v))
  pick known choice

def indexCode (known : List α) (v : α) : Bytes :=
  belowCode known.length ((known.findIdx? (· == v)).getD 0)

theorem drawIndexed_codec (known : List α) (hk : known ≠ []) :
    Codec T (drawIndexed (K := K) known) (fun _ v => v ∈ known) (indexCode known) := by
  have hidx := decideBelow_codec (K := K) (T := T) known.length (List.length_pos_iff.2 hk)
  have hindex : ∀ v, v ∈ known → ∃ i, i < known.length ∧ known[i]? = some v ∧
      known.findIdx? (· == v) = some i ∧ indexCode known v = belowCode known.length i := by
    intro v hv
    obtain ⟨i, hi⟩ := findIdx_of_mem hv
    have hget := get_of_findIdx hi
    refine ⟨i, hget.1, hget.2, hi, ?_⟩
    rw [indexCode, hi]
    rfl
  refine ⟨?_, ?_, ?_, ?_⟩
  · intro s v w t hv h
    obtain ⟨i, hlt, hget, hi, hcode⟩ := hindex v hv
    rw [drawIndexed, Option.bind_some, hi, bind_ok] at h
    obtain ⟨_, u, h1, h2⟩ := h
    obtain ⟨rfl, rfl, hc⟩ := hidx.forced _ _ _ _ hlt h1
    rw [pick_run hget] at h2
    cases h2
    rw [hcode]
    exact ⟨rfl, rfl, hc⟩
  · intro s v hv hr
    obtain ⟨i, hlt, hget, hi, hcode⟩ := hindex v hv
    rw [hcode] at hr ⊢
    rw [drawIndexed, Option.bind_some, hi, bind_run (hidx.force s i hlt hr), pick_run hget]
  · intro s v r hv hr
    obtain ⟨i, hlt, hget, hi, hcode⟩ := hindex v hv
    rw [hcode] at hr ⊢
    rw [drawIndexed, Option.bind_none, bind_run (hidx.replays s i r hlt hr), pick_run hget]
  · intro s v t h
    rw [drawIndexed, Option.bind_none, bind_ok] at h
    obtain ⟨c, u, h1, h2⟩ := h
    obtain ⟨-, e, r, ha, rfl, hnil, hle⟩ := hidx.drawn _ _ _ h1
    obtain ⟨hget, rfl⟩ := pick_ok h2
    have hsame : (belowCode known.length c).length = (indexCode known v).length := by
      rw [indexCode, belowCode_length, belowCode_length]
    refine ⟨List.mem_of_getElem? hget, e, r, ha, rfl, ?_, fun ht => hsame ▸ hle ht⟩
    rw [hnil, ← List.length_eq_zero_iff, ← List.length_eq_zero_iff, hsame]

def choiceCode (known : List α) (evilCode : α → Bytes) (v : α) : Bytes :=
  if v ∈ known then indexCode known v else evilCode v

def knownCode (known : List α) (evilCode : α → Bytes) (v : α) : Bytes :=
  belowCode 256 (coinFor known v) ++ choiceCode known evilCode v

def afterCoin (known : List α) (evilDraw : Option α → Walker K α) (coin : Nat)
    (found : Option α) : Walker K α := do
  let s ← get
  if s.evil.isEvil coin then evilDraw found else drawIndexed known found

theorem chooseKnown_none (known : List α) (evilDraw : Option α → Walker K α) (hk : known ≠ []) :
    chooseKnown none known evilDraw =
      (decideBelow 256 none >>= fun coin => afterCoin known evilDraw coin none) := by
  have he : ¬ known.isEmpty = true := by simpa using hk
  unfold chooseKnown
  rw [if_neg he]
  rfl

theorem chooseKnown_some (known : List α) (evilDraw : Option α → Walker K α) (v : α)
    (s : State K) (hk : known ≠ []) (hv : v ∈ known ∨ s.evil.allowed = true) :
    chooseKnown (some v) known evilDraw s =
      (decideBelow 256 (some (coinFor known v)) >>=
        fun coin => afterCoin known evilDraw coin (some v)) s := by
  have he : ¬ known.isEmpty = true := by simpa using hk
  have hn : ¬ (some (known.findIdx? (· == v)) = some none ∧ s.evil.allowed = false) := by
    rintro ⟨hi, hs⟩
    rcases hv with hv | hv
    · obtain ⟨i, hv⟩ := findIdx_of_mem hv
      rw [hv] at hi
      cases hi
    · rw [hs] at hv
      cases hv
  unfold chooseKnown
  rw [if_neg he]
  refine (get_bind _ s).trans ?_
  dsimp only [Option.map_some]
  rw [if_neg hn]
  rfl

theorem chooseKnown_refused (known : List α) (evilDraw : Option α → Walker K α) (v w : α)
    (s t : State K) (hv : v ∉ known) (hs : s.evil.allowed = false) :
    chooseKnown (some v) known evilDraw s ≠ .ok w t := by
  have hi := findIdx_of_not_mem hv
  intro h
  unfold chooseKnown at h
  by_cases hk : known.isEmpty = true
  · rw [if_pos hk, bind_ok] at h
    obtain ⟨_, _, h, -⟩ := h
    exact violation_not_ok _ _ _ _ h
  · rw [if_neg hk] at h
    replace h := (get_bind _ s).symm.trans h
    dsimp only [Option.map_some] at h
    rw [if_pos ⟨congrArg some hi, hs⟩, bind_ok] at h
    obtain ⟨_, _, h, -⟩ := h
    exact violation_not_ok _ _ _ _ h

/-- A value is taken from the file only if it is known or the evil bit is set. -/
theorem chooseKnown_admits {known : List α} {evilDraw : Option α → Walker K α} {v w : α}
    {s t : State K} (h : chooseKnown (some v) known evilDraw s = .ok w t) :
    v ∈ known ∨ s.evil.allowed = true := by
  by_cases hv : v ∈ known
  · exact Or.inl hv
  · right
    cases hs : s.evil.allowed with
    | true => rfl
    | false => exact absurd h (chooseKnown_refused known _ v w s t hv hs)

theorem afterCoin_known {known : List α} {v : α} (evilDraw : Option α → Walker K α)
    (hv : v ∈ known) (found : Option α) (s : State K) :
    afterCoin known evilDraw (coinFor known v) found s = drawIndexed known found s := by
  rw [afterCoin, get_bind, coinFor_known hv, isEvil_good]
  rfl

theorem afterCoin_evil {known : List α} {v : α} (evilDraw : Option α → Walker K α)
    (hv : v ∉ known) (found : Option α) (s : State K) (hs : s.evil.allowed = true) :
    afterCoin known evilDraw (coinFor known v) found s = evilDraw found s := by
  rw [afterCoin, get_bind, coinFor_unknown hv, isEvil_evil, hs]
  rfl

/-- What is drawn behind a coin fits, and is recorded in no more decisions. -/
theorem afterCoin_drawn {known : List α} {evilDraw : Option α → Walker K α} {dom : α → Prop}
    {evilCode : α → Bytes} (hk : known ≠ []) (hd : Codec T evilDraw (fun _ => dom) evilCode)
    (hT : T → ∀ v ∈ known, decisionWidth known.length ≤ (evilCode v).length) {s t : State K}
    {coin : Nat} {v : α} (h : afterCoin known evilDraw coin none s = .ok v t) :
    (v ∈ known ∨ s.evil.allowed = true ∧ dom v) ∧ ∃ e r, s.stream.ahead = e ++ r ∧
      t = s.recorded e ∧ (T → (choiceCode known evilCode v).length ≤ e.length) := by
  have hindex := drawIndexed_codec (K := K) (T := T) known hk
  rw [afterCoin, get_bind] at h
  by_cases hev : s.evil.isEvil coin = true
  · rw [if_pos hev] at h
    obtain ⟨hv, e, r, ha, rfl, -, hle⟩ := hd.drawn _ _ _ h
    refine ⟨Or.inr ⟨allowed_of_isEvil hev, hv⟩, e, r, ha, rfl, ?_⟩
    intro ht
    rw [choiceCode]
    split
    case isTrue hm =>
      rw [indexCode, belowCode_length]
      exact Nat.le_trans (hT ht v hm) (hle ht)
    case isFalse => exact hle ht
  · rw [if_neg hev] at h
    obtain ⟨hv, e, r, ha, rfl, -, hle⟩ := hindex.drawn _ _ _ h
    refine ⟨Or.inl hv, e, r, ha, rfl, ?_⟩
    rw [choiceCode, if_pos hv]
    exact hle

/-- A coin and what is drawn behind it, without the check that refuses an unknown value. -/
theorem tossed_codec (known : List α) (evilDraw : Option α → Walker K α) (dom : α → Prop)
    (evilCode : α → Bytes) (hk : known ≠ []) (hd : Codec T evilDraw (fun _ => dom) evilCode)
    (hT : T → ∀ v ∈ known, decisionWidth known.length ≤ (evilCode v).length) :
    Codec T (fun found => decideBelow 256 (found.map (coinFor known)) >>= fun coin =>
        afterCoin known evilDraw coin found)
      (fun b v => v ∈ known ∨ b = true ∧ dom v) (knownCode known evilCode) := by
  have hindex := drawIndexed_codec (K := K) (T := T) known hk
  have hcoin : ∀ v, coinFor known v < 256 := by
    intro v
    rw [coinFor]
    split <;> decide
  apply Codec.headed (T := T) (fun b v => v ∈ known ∨ b = true ∧ dom v)
    (coinFor known) (choiceCode known evilCode) (y := afterCoin known evilDraw)
    (decideBelow_codec (K := K) 256 (by decide)) coinCode_ne (fun _ v _ => hcoin v)
  · intro s v w t hv h
    rw [choiceCode]
    by_cases hm : v ∈ known
    · rw [afterCoin_known evilDraw hm] at h
      rw [if_pos hm]
      exact hindex.forced s v w t hm h
    · obtain ⟨hs, hdom⟩ := hv.resolve_left hm
      rw [afterCoin_evil evilDraw hm _ s hs] at h
      rw [if_neg hm]
      exact hd.forced s v w t hdom h
  · intro s v hv hr
    rw [choiceCode] at hr ⊢
    by_cases hm : v ∈ known
    · rw [if_pos hm] at hr ⊢
      rw [afterCoin_known evilDraw hm, hindex.force s v hm hr]
    · obtain ⟨hs, hdom⟩ := hv.resolve_left hm
      rw [if_neg hm] at hr ⊢
      rw [afterCoin_evil evilDraw hm _ s hs, hd.force s v hdom hr]
  · intro s v r hv hr
    rw [choiceCode] at hr ⊢
    by_cases hm : v ∈ known
    · rw [if_pos hm] at hr ⊢
      rw [afterCoin_known evilDraw hm, hindex.replays s v r hm hr]
    · obtain ⟨hs, hdom⟩ := hv.resolve_left hm
      rw [if_neg hm] at hr ⊢
      rw [afterCoin_evil evilDraw hm _ s hs, hd.replays s v r hdom hr]
  · intro s coin v t _ h
    obtain ⟨hv, e, r, ha, rfl, hle⟩ := afterCoin_drawn hk hd hT h
    refine ⟨hv, e, r, ha, rfl, ?_⟩
    intro ht
    have he := hle ht
    rw [coinCode_length, coinCode_length]
    omega

/-- Known values are recorded by their index; others only while the evil bit is set. -/
theorem chooseKnown_codec (known : List α) (evilDraw : Option α → Walker K α) (dom : α → Prop)
    (evilCode : α → Bytes) (hk : known ≠ []) (hd : Codec T evilDraw (fun _ => dom) evilCode)
    (hT : T → ∀ v ∈ known, decisionWidth known.length ≤ (evilCode v).length) :
    Codec T (fun found => chooseKnown found known evilDraw)
      (fun b v => v ∈ known ∨ b = true ∧ dom v) (knownCode known evilCode) := by
  have hcodec := tossed_codec (T := T) known evilDraw dom evilCode hk hd hT
  have hsome : ∀ (s : State K) (v : α), (v ∈ known ∨ s.evil.allowed = true ∧ dom v) →
      chooseKnown (some v) known evilDraw s =
        (decideBelow 256 (some (coinFor known v)) >>=
          fun coin => afterCoin known evilDraw coin (some v)) s := by
    intro s v hv
    exact chooseKnown_some known evilDraw v s hk (hv.imp_right And.left)
  refine ⟨?_, ?_, ?_, ?_⟩
  · intro s v w t hv h
    exact hcodec.forced s v w t hv ((hsome s v hv).symm.trans h)
  · intro s v hv hr
    exact (hsome s v hv).trans (hcodec.force s v hv hr)
  · intro s v r hv hr
    rw [chooseKnown_none known evilDraw hk]
    exact hcodec.replays s v r hv hr
  · intro s v t h
    rw [chooseKnown_none known evilDraw hk] at h
    exact hcodec.drawn s v t h

end Known

end DecisionWalk.Walker
