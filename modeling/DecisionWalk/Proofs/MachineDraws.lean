import DecisionWalk.Proofs.Draws
import DecisionWalk.Proofs.Machine

/-!
# Draws on a machine

A draw on a machine does what the walker does, and no demand of it fails, as long
as the stream is not too large and what is forced lies below its bound. What was
found in a file always does.
-/

set_option autoImplicit false

namespace DecisionWalk

variable {K α β : Type} {s t : State K}

/-- From this state on, the machine does what the walker does, and the walker breaks none of its
own rules. -/
structure Matches (x : Machine K α) (y : Walker K α) (s : State K) : Prop where
  runs : x s = Machine.lifted (y s)
  sane : ∀ d t, y s ≠ .error (.defect d) t

namespace Matches

open Machine

variable {x : Machine K α} {y : Walker K α} {f : α → Machine K β} {g : α → Walker K β}

theorem pure (a : α) (s : State K) : Matches (pure a) (pure a) s :=
  ⟨rfl, fun _ _ h => (nomatch h)⟩

theorem violation (v : Violation) (s : State K) :
    Matches (plain (Walker.violation v)) (Walker.violation v : Walker K α) s :=
  ⟨rfl, fun _ _ h => (nomatch h)⟩

theorem plain (h : ∀ d t, y s ≠ .error (.defect d) t) : Matches (plain y) y s := ⟨rfl, h⟩

/-- What comes behind starts where the walker has come to. -/
theorem bind (hx : Matches x y s) (hf : ∀ a t, y s = .ok a t → Matches (f a) (g a) t) :
    Matches (x >>= f) (y >>= g) s := by
  have hruns := hx.runs
  cases hy : y s with
  | ok a t =>
    rw [hy] at hruns
    have hrest := hf a t hy
    have hbind : (x >>= f) s = f a t := by
      show EStateM.bind x f s = _
      rw [EStateM.bind, hruns]
      rfl
    refine ⟨?_, ?_⟩
    · rw [hbind, Walker.bind_run hy, hrest.runs]
    · rw [Walker.bind_run hy]
      exact hrest.sane
  | error e t =>
    rw [hy] at hruns
    have hbind : (x >>= f) s = .error (.failed e) t := by
      show EStateM.bind x f s = _
      rw [EStateM.bind, hruns]
      rfl
    refine ⟨?_, ?_⟩
    · rw [hbind, Walker.bind_error hy]
      rfl
    · intro d u hd
      rw [Walker.bind_error hy] at hd
      cases hd
      exact hx.sane d _ hy

theorem get {f : State K → Machine K α} (h : Matches (f s) y s) : Matches (get >>= f) y s :=
  ⟨h.runs, h.sane⟩

theorem gets {f : State K → Machine K α} {g : State K → Walker K α} (h : Matches (f s) (g s) s) :
    Matches (MonadState.get >>= f) (MonadState.get >>= g) s :=
  ⟨h.runs, h.sane⟩

theorem demand {p : Prop} [Decidable p] {cause : Trap} {f : Unit → Machine K α} (hp : p)
    (h : Matches (f ()) y s) : Matches (demand p cause >>= f) y s := by
  have hrun : (Machine.demand p cause >>= f) = f () := by
    rw [Machine.demand, if_pos hp]
    rfl
  rw [hrun]
  exact h

theorem addable {a b : Nat} {f : Unit → Machine K α} (hab : a + b < wordValues)
    (h : Matches (f ()) y s) : Matches (addable a b >>= f) y s :=
  demand hab h

theorem sum {a b : Nat} {f : Nat → Machine K α} (hab : a + b < wordValues)
    (h : Matches (f (a + b)) y s) : Matches (sum a b >>= f) y s := by
  rw [Machine.sum, bind_assoc]
  exact addable hab h

theorem range {start stop size : Nat} {f : Unit → Machine K α} (hr : start ≤ stop ∧ stop ≤ size)
    (h : Matches (f ()) y s) : Matches (range start stop size >>= f) y s :=
  demand hr h

theorem ite {p : Prop} [Decidable p] {x' : Machine K α} {y' : Walker K α}
    (h : p → Matches x y s) (h' : ¬ p → Matches x' y' s) :
    Matches (if p then x else x') (if p then y else y') s := by
  split
  · exact h ‹_›
  · exact h' ‹_›

/-- A check that fails ends both. -/
theorem guarded {p : Prop} [Decidable p] (v : Violation) {f' : Unit → Machine K α}
    {g' : Unit → Walker K α} (h : ¬ p → Matches (f' ()) (g' ()) s) :
    Matches (if p then Machine.plain (Walker.violation v) >>= f' else f' ())
      (if p then Walker.violation v >>= g' else g' ()) s :=
  ite (fun _ => (violation v s).bind fun _ _ hv => absurd hv (Walker.violation_not_ok _ _ _ _)) h

end Matches

def smallValues : Nat := 0x4000000000000000

structure Steady (s : State K) : Prop where
  within : s.stream.length ≤ s.stream.capacity
  capacity : s.stream.capacity < smallValues

theorem Steady.position_le (h : Steady s) : s.stream.position ≤ s.stream.capacity :=
  Nat.le_trans (Nat.le_add_right _ _) h.within

/-- Draws keep a stream steady. -/
theorem Draws.steady {x : Walker K α} {a : α} (hx : Draws True x) (hs : Steady s)
    (h : x s = .ok a t) : Steady t := by
  obtain ⟨e, o, he, hrun⟩ := hx s
  have hend := hrun s (.refl s)
  rw [h] at hend
  cases o with
  | error cause => cases hend
  | ok b =>
    cases hend
    exact ⟨Stream.recorded_length_le he hs.within, hs.capacity⟩

namespace Machine

open Sampler

theorem takeDecision_matches {n : Nat} (hn : n ≤ wordBytes) (hs : Steady s) :
    Matches (takeDecision n) (Walker.takeDecision n) s := by
  have hposition := hs.position_le
  have hcapacity := hs.capacity
  have hsum : s.stream.position + n < wordValues := by
    simp only [wordValues, smallValues, wordBytes] at *
    omega
  refine .demand hn (.get (.sum hsum ?_))
  have hplain : Matches (plain (Walker.takeDecision n)) (Walker.takeDecision n) s := by
    refine .plain fun d t h => ?_
    rw [Walker.takeDecision] at h
    split at h <;> cases h
  dsimp only
  split
  case isTrue hle => exact .range ⟨Nat.le_add_right _ _, hle⟩ hplain
  case isFalse => exact hplain

theorem putDecision_matches {n : Nat} (value : Nat) (hn : n ≤ wordBytes) (hs : Steady s) :
    Matches (putDecision value n) (Walker.putDecision value n) s := by
  have hposition := hs.position_le
  have hcapacity := hs.capacity
  have hsum : s.stream.position + n < wordValues := by
    simp only [wordValues, smallValues, wordBytes] at *
    omega
  refine .demand hn (.get (.sum hsum ?_))
  have hplain : Matches (plain (Walker.putDecision value n)) (Walker.putDecision value n) s := by
    refine .plain fun d t h => ?_
    rw [Walker.putDecision] at h
    split at h <;> cases h
  dsimp only
  split
  · exact .range ⟨Nat.le_add_right _ _, Nat.le_max_right _ _⟩ (.range ⟨Nat.zero_le _, hn⟩ hplain)
  · exact hplain

theorem decisionWidth_le {bound : Nat} (hb : bound ≤ wordValues) :
    decisionWidth bound ≤ wordBytes := by
  rw [decisionWidth]
  split
  · exact Nat.zero_le _
  · have hlog : Nat.log2 (bound - 1) < 64 := by
      refine (Nat.log2_lt (by omega)).2 ?_
      simp only [wordValues] at hb
      omega
    simp only [wordBytes]
    omega

theorem decideBelow_matches {bound : Nat} {forced : Option Nat} (hb : bound ≤ wordValues)
    (hf : ∀ v, forced = some v → v < bound) (hs : Steady s) :
    Matches (decideBelow bound forced) (Walker.decideBelow bound forced) s := by
  unfold decideBelow Walker.decideBelow
  refine .ite (fun _ => .pure _ _) fun _ => ?_
  have hwidth := decisionWidth_le hb
  cases forced with
  | none => exact (takeDecision_matches hwidth hs).bind fun _ _ _ => .pure _ _
  | some v =>
    dsimp only
    rw [if_pos (hf v rfl)]
    exact .demand (hf v rfl) ((putDecision_matches v hwidth hs).bind fun _ _ _ => .pure _ _)

theorem decideRaw_matches {width : Nat} (forced : Option Nat) (hw : width ≤ wordBytes)
    (hs : Steady s) : Matches (decideRaw width forced) (Walker.decideRaw width forced) s := by
  unfold decideRaw Walker.decideRaw
  refine .ite (fun _ => .pure _ _) fun _ => ?_
  cases forced with
  | none => exact takeDecision_matches hw hs
  | some v => exact (putDecision_matches _ hw hs).bind fun _ _ _ => .pure _ _

/-- A forced draw gives what it was forced to. -/
theorem decideBelow_forced {bound v w : Nat} (hv : v < bound)
    (h : Walker.decideBelow bound (some v) s = .ok w t) : w = v :=
  ((Walker.decideBelow_codec (T := True) bound (Nat.zero_lt_of_lt hv)).forced s v w t hv h).1

theorem decideBelow_lt {bound v : Nat} {forced : Option Nat} (hb : 0 < bound)
    (hf : ∀ w, forced = some w → w < bound)
    (h : Walker.decideBelow bound forced s = .ok v t) : v < bound := by
  cases forced with
  | none => exact ((Walker.decideBelow_codec (T := True) bound hb).drawn s v t h).1
  | some w =>
    rw [decideBelow_forced (hf w rfl) h]
    exact hf w rfl

/-- Tiny values are not zero. -/
theorem encode_run (v : Nat) :
    (encode v : Machine K Nat) = Pure.pure (Sampler.encode v).2 := by
  rw [encode, encode_tier, encode_eq]
  by_cases hv : 1 ≤ v ∧ v ≤ 16
  · rw [if_pos hv]
    show difference v 1 = _
    rw [difference, demand, if_pos hv.1]
    rfl
  · rw [if_neg hv]
    by_cases hb : v < 256
    · rw [if_pos hb]
    · rw [if_neg hb]
      by_cases hw : v < 65536
      · rw [if_pos hw]
      · rw [if_neg hw]

theorem encodes_run (forced : Option Nat) :
    (forced.mapM encode : Machine K (Option Nat)) =
      Pure.pure (forced.map fun v => (Sampler.encode v).2) := by
  cases forced with
  | none => rfl
  | some v =>
    rw [Option.mapM_some, encode_run]
    rfl

theorem encode_tiny_lt {v : Nat} (h : (Sampler.encode v).1 = .tiny) :
    (Sampler.encode v).2 < tinyValues := by
  rw [encode_eq] at h ⊢
  by_cases hv : 1 ≤ v ∧ v ≤ 16
  · rw [if_pos hv]
    show v - 1 < 16
    omega
  · rw [if_neg hv] at h
    split at h
    · cases h
    · split at h <;> cases h

theorem sampleSmall_matches {width : Nat} (forced : Option Nat) (hw : width ≤ wordBytes)
    (hs : Steady s) : Matches (sampleSmall width forced) (Walker.sampleSmall width forced) s := by
  have hselector : ∀ v, forced.map selectorFor = some v → v < 256 := by
    intro v hv
    obtain ⟨w, -, rfl⟩ := Option.map_eq_some_iff.1 hv
    exact selectorFor_lt w
  rw [sampleSmall, Walker.sampleSmall]
  refine (decideBelow_matches (by decide) hselector hs).bind fun selector t ht => ?_
  have hsteady : Steady t := (Draws.decideBelow 256 fun _ => trivial).steady hs ht
  dsimp only
  rw [encodes_run, pure_bind]
  have hraw : (Tier.ofSelector selector).rawWidth width ≤ wordBytes := by
    cases Tier.ofSelector selector with
    | full => exact hw
    | wide => exact Nat.le_trans (Nat.min_le_left _ _) hw
    | byte => exact (by decide : 1 ≤ wordBytes)
    | tiny => exact Nat.zero_le _
  cases htier : Tier.ofSelector selector with
  | tiny =>
    refine (decideBelow_matches (by decide) ?_ hsteady).bind fun _ _ _ => .pure _ _
    intro raw hraw
    obtain ⟨v, rfl, rfl⟩ := Option.map_eq_some_iff.1 hraw
    -- The selector was forced too, so the tier is the one that records the value.
    obtain rfl := decideBelow_forced (selectorFor_lt v) ht
    exact encode_tiny_lt ((encode_tier v).symm.trans htier)
  | byte => exact (decideRaw_matches _ (htier ▸ hraw) hsteady).bind fun _ _ _ => .pure _ _
  | wide => exact (decideRaw_matches _ (htier ▸ hraw) hsteady).bind fun _ _ _ => .pure _ _
  | full => exact (decideRaw_matches _ (htier ▸ hraw) hsteady).bind fun _ _ _ => .pure _ _

theorem chooseKnown_matches [DecidableEq α] {found : Option α} {known : List α}
    {draw' : Option α → Machine K α} {draw : Option α → Walker K α}
    (hk : known.length ≤ wordValues)
    (hdraw : ∀ t, Steady t → Matches (draw' found) (draw found) t) (hs : Steady s) :
    Matches (chooseKnown found known draw') (Walker.chooseKnown found known draw) s := by
  unfold chooseKnown Walker.chooseKnown
  refine .guarded _ fun hne => ?_
  refine .gets (.guarded _ fun _ => ?_)
  have hpos : 0 < known.length := by
    cases known with
    | nil => exact absurd rfl hne
    | cons v known => exact Nat.succ_pos _
  refine (decideBelow_matches (by decide) ?_ hs).bind fun coin t ht => .gets ?_
  · intro coin hcoin
    obtain ⟨i, -, rfl⟩ := Option.map_eq_some_iff.1 hcoin
    split <;> decide
  have hsteady : Steady t := (Draws.decideBelow 256 fun _ => trivial).steady hs ht
  refine .ite (fun _ => hdraw t hsteady) fun _ => ?_
  have hindex : ∀ i, (found.map fun v => known.findIdx? (· == v)).join = some i →
      i < known.length := by
    intro i hi
    obtain ⟨v, -, hv⟩ := Option.map_eq_some_iff.1 (Option.join_eq_some_iff.1 hi)
    exact (Walker.get_of_findIdx hv).1
  refine (decideBelow_matches hk hindex hsteady).bind fun choice u hu => ?_
  have hchoice := decideBelow_lt hpos hindex hu
  rw [item, List.getElem?_eq_getElem hchoice]
  exact .pure _ _

theorem drawSymbol_matches {a : Alphabet} {old : Option UInt8} (ha : 0 < a.size)
    (hsize : a.size ≤ wordValues) (hold : ∀ b, old = some b → a.contains b = true)
    (hs : Steady s) : Matches (drawSymbol a old) (Walker.drawSymbol a old) s := by
  have hindex : ∀ i, old.bind a.index? = some i → i < a.size := by
    intro i hi
    obtain ⟨b, -, hb⟩ := Option.bind_eq_some_iff.1 hi
    exact (a.symbol_of_index? b i hb).1
  have hwalker : Walker.drawSymbol (K := K) a old =
      (Walker.decideBelow a.size (old.bind a.index?) >>= fun i => Pure.pure (a.symbol i)) := by
    cases old with
    | none => rfl
    | some b =>
      obtain ⟨i, hi⟩ := (a.contains_iff b).1 (hold b rfl)
      rw [Walker.drawSymbol, Option.bind_some, hi]
  rw [hwalker, drawSymbol]
  refine .demand ?_ ((decideBelow_matches hsize hindex hs).bind fun i t ht =>
    .demand (decideBelow_lt ha hindex ht) (.pure _ _))
  cases old with
  | none => rfl
  | some b => exact hold b rfl

theorem drawFresh_matches {a : Alphabet} (ha : 0 < a.size) (hsize : a.size ≤ wordValues)
    (left i : Nat) (drawn : Bytes) (hs : Steady s) :
    Matches (drawFrom a none left i drawn) (Walker.drawFresh a left drawn) s := by
  induction left generalizing i drawn s with
  | zero => exact .pure _ _
  | succ left ih =>
    rw [drawFrom, Option.mapM_none, pure_bind]
    refine (drawSymbol_matches ha hsize (by simp) hs).bind fun b t ht => ?_
    exact ih _ _ ((Draws.drawSymbol a fun _ => trivial).steady hs ht)

/-- The symbols that are there are gone through by their index. -/
theorem drawThere_matches {a : Alphabet} {bs : Bytes} (ha : 0 < a.size)
    (hsize : a.size ≤ wordValues) (hb : ∀ b ∈ bs, a.contains b = true) (left i : Nat)
    (drawn : Bytes) (hlen : bs.length = i + left) (hs : Steady s) :
    Matches (drawFrom a (some bs) left i drawn)
      ((bs.drop i).mapM (fun b => Walker.drawSymbol a (some b)) >>= fun rest =>
        Pure.pure (drawn.reverse ++ rest)) s := by
  induction left generalizing i drawn s with
  | zero =>
    rw [List.drop_eq_nil_of_le (by omega), List.mapM_nil, pure_bind, List.append_nil]
    exact .pure _ _
  | succ left ih =>
    have hi : i < bs.length := by omega
    have hitem : ((some bs).mapM (item · i) : Machine K (Option UInt8)) =
        Pure.pure (some (bs.get ⟨i, hi⟩)) := by
      rw [Option.mapM_some, item, List.getElem?_eq_getElem hi]
      rfl
    rw [drawFrom, hitem, pure_bind, List.drop_eq_getElem_cons hi, List.mapM_cons]
    simp only [bind_assoc, pure_bind]
    have hsymbol : Matches (drawSymbol a (some bs[i])) (Walker.drawSymbol a (some bs[i])) s := by
      refine drawSymbol_matches ha hsize ?_ hs
      rintro b ⟨⟩
      exact hb _ (List.getElem_mem hi)
    refine hsymbol.bind fun b t ht => ?_
    have hrest := ih (i + 1) (b :: drawn) (by omega)
      ((Draws.drawSymbol a fun _ => trivial).steady hs ht)
    simpa only [List.reverse_cons, List.append_assoc, List.singleton_append] using hrest

theorem drawSymbols_matches {a : Alphabet} {length : Nat} {found : Option Bytes} (ha : 0 < a.size)
    (hsize : a.size ≤ wordValues) (hlength : length < allocationBound)
    (hf : ∀ bs, found = some bs → bs.length = length ∧ ∀ b ∈ bs, a.contains b = true)
    (hs : Steady s) :
    Matches (drawSymbols a length found) (Walker.drawSymbols a length found) s := by
  refine .demand hlength ?_
  cases found with
  | none => exact drawFresh_matches ha hsize length 0 [] hs
  | some bs =>
    obtain ⟨hlen, hb⟩ := hf bs rfl
    have h := drawThere_matches ha hsize hb length 0 [] (by omega) hs
    simp only [List.drop_zero, List.reverse_nil, List.nil_append, bind_pure] at h
    exact h

theorem stringCoin_matches (found : Option Bytes) (hs : Steady s) :
    Matches (stringCoin found) (Walker.stringCoin found) s := by
  refine (decideBelow_matches (by decide) ?_ hs).bind fun _ _ _ => .pure _ _
  intro v hv
  obtain ⟨bs, -, rfl⟩ := Option.map_eq_some_iff.1 hv
  split <;> decide

def drawText (other : Alphabet) (length : Nat) (found : Option Bytes) : Machine K Bytes := do
  let restricted ← stringCoin found
  drawSymbols (if restricted then .printable else other) length found

theorem drawText_matches (other : Alphabet) {length : Nat} {found : Option Bytes}
    (ho : 0 < other.size) (hsize : other.size ≤ wordValues) (hlength : length < allocationBound)
    (hf : ∀ bs, found = some bs → bs.length = length ∧ ∀ b ∈ bs, other.contains b = true)
    (hs : Steady s) :
    Matches (drawText other length found) (Walker.drawText other length found) s := by
  refine (stringCoin_matches found hs).bind fun restricted t ht => ?_
  have hsteady : Steady t := (Draws.stringCoin fun _ => trivial).steady hs ht
  refine drawSymbols_matches ?_ ?_ hlength ?_ hsteady
  · cases restricted
    · exact ho
    · exact (by decide : 0 < Alphabet.printable.size)
  · cases restricted
    · exact hsize
    · exact (by decide : Alphabet.printable.size ≤ wordValues)
  · intro bs hbs
    subst hbs
    obtain ⟨hlen, hb⟩ := hf bs rfl
    refine ⟨hlen, ?_⟩
    obtain ⟨coin, u, hcoin, hend⟩ := Walker.bind_ok.1 ht
    cases hend
    have hlt : Walker.stringCoinFor bs < 256 := by
      rw [Walker.stringCoinFor]
      split <;> decide
    obtain rfl := decideBelow_forced (v := Walker.stringCoinFor bs) hlt hcoin
    have hall := Walker.coinAlphabet_contains other bs hb
    simpa only [Walker.coinAlphabet, decide_eq_true_eq] using hall

end Machine

end DecisionWalk
