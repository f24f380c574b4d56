import Mathlib.Data.Nat.Bitwise
import Mathlib.Data.UInt
import Mathlib.Logic.Function.Iterate
import DecisionWalk.Checksum

/-!
# Checksums tell short bursts apart

A checksum takes a byte in by exclusive or and then shifts its register. Shifting
is additive and loses nothing, and as many bytes as the register is wide can wait
in it side by side. So a register that starts from one value and takes in other
bytes of that many ends with another value, and no byte behind them makes up for
it.
-/

set_option autoImplicit false

namespace DecisionWalk

section Additive

variable {R : Type} [XorOp R]

/-- A shift that folds a polynomial in where a one falls out is additive. -/
theorem folded_xor [Std.Associative (α := R) (· ^^^ ·)] [Std.Commutative (α := R) (· ^^^ ·)]
    (moved : R → R) (falls : R → Prop) [DecidablePred falls] (polynomial : R)
    (hcancel : ∀ x y : R, x ^^^ y ^^^ y = x)
    (hmoved : ∀ a b, moved (a ^^^ b) = moved a ^^^ moved b)
    (hfalls : ∀ a b, falls (a ^^^ b) ↔ ¬ (falls a ↔ falls b)) (a b : R) :
    (if falls (a ^^^ b) then moved (a ^^^ b) ^^^ polynomial else moved (a ^^^ b)) =
      (if falls a then moved a ^^^ polynomial else moved a) ^^^
        (if falls b then moved b ^^^ polynomial else moved b) := by
  rw [hmoved]
  by_cases ha : falls a <;> by_cases hb : falls b
  · -- The polynomials cancel.
    rw [if_neg (by simp [hfalls, ha, hb]), if_pos ha, if_pos hb,
      ← hcancel (moved a ^^^ moved b) polynomial]
    ac_rfl
  · rw [if_pos (by simp [hfalls, ha, hb]), if_pos ha, if_neg hb]
    ac_rfl
  · rw [if_pos (by simp [hfalls, ha, hb]), if_neg ha, if_pos hb]
    ac_rfl
  · rw [if_neg (by simp [hfalls, ha, hb]), if_neg ha, if_neg hb]

theorem repeat_xor {f : R → R} (hf : ∀ a b, f (a ^^^ b) = f a ^^^ f b) (n : Nat) (a b : R) :
    Nat.repeat f n (a ^^^ b) = Nat.repeat f n a ^^^ Nat.repeat f n b := by
  induction n with
  | zero => rfl
  | succ n ih => rw [Nat.repeat, Nat.repeat, Nat.repeat, ih, hf]

theorem additive_injective [Zero R] {f : R → R} (hf : ∀ a b, f (a ^^^ b) = f a ^^^ f b)
    (hzero : ∀ a b : R, a ^^^ b = 0 ↔ a = b) (hlost : ∀ r, f r = 0 → r = 0) :
    Function.Injective f := by
  intro a b h
  apply (hzero a b).1
  apply hlost
  rw [hf, h]
  exact (hzero _ _).2 rfl

omit [XorOp R] in
theorem repeat_injective {f : R → R} (hf : Function.Injective f) (n : Nat) :
    Function.Injective (Nat.repeat f n) := by
  induction n with
  | zero => exact fun _ _ h => h
  | succ n ih => exact hf.comp ih

end Additive

section Register

variable {R : Type} [XorOp R] [Zero R]

def waiting (enter : UInt8 → R) (delay : R → R) : Bytes → R
  | [] => 0
  | b :: bs => enter b ^^^ delay (waiting enter delay bs)

/-- A register in which `window` bytes can wait: a shift brings what is delayed nearer, and where
bytes enter nothing else waits. -/
structure Register (R : Type) [XorOp R] [Zero R] where
  shift : R → R
  enter : UInt8 → R
  delay : R → R
  window : Nat
  xor_assoc : ∀ x y z : R, x ^^^ y ^^^ z = x ^^^ (y ^^^ z)
  xor_self : ∀ x : R, x ^^^ x = 0
  xor_zero : ∀ x : R, x ^^^ 0 = x
  zero_xor : ∀ x : R, 0 ^^^ x = x
  shift_xor : ∀ x y, shift (x ^^^ y) = shift x ^^^ shift y
  shift_injective : Function.Injective shift
  shift_delay : ∀ bs : Bytes, bs.length < window →
    shift (delay (waiting enter delay bs)) = waiting enter delay bs
  enter_apart : ∀ b c x y, enter b ^^^ delay x = enter c ^^^ delay y → b = c

namespace Register

variable (g : Register R)

def absorb (r : R) (b : UInt8) : R := g.shift (r ^^^ g.enter b)

def load (bs : Bytes) : R := waiting g.enter g.delay bs

theorem load_cons (b : UInt8) (bs : Bytes) :
    g.load (b :: bs) = g.enter b ^^^ g.delay (g.load bs) := rfl

include g in
theorem xor_left_cancel {x y z : R} (h : x ^^^ y = x ^^^ z) : y = z := by
  have hx : ∀ w, x ^^^ (x ^^^ w) = w := by
    intro w
    rw [← g.xor_assoc, g.xor_self, g.zero_xor]
  rw [← hx y, h, hx]

include g in
theorem xor_right_cancel {x y z : R} (h : x ^^^ z = y ^^^ z) : x = y := by
  have hz : ∀ w, w ^^^ z ^^^ z = w := by
    intro w
    rw [g.xor_assoc, g.xor_self, g.xor_zero]
  rw [← hz x, h, hz]

/-- To take bytes in one by one is to load them all and then shift as often. -/
theorem foldl_absorb {bs : Bytes} (h : bs.length ≤ g.window) (r : R) :
    bs.foldl g.absorb r = g.shift^[bs.length] (r ^^^ g.load bs) := by
  induction bs generalizing r with
  | nil => exact (g.xor_zero r).symm
  | cons b bs ih =>
    have hnear : g.shift (g.delay (g.load bs)) = g.load bs := g.shift_delay bs h
    calc (b :: bs).foldl g.absorb r
        = g.shift^[bs.length] (g.shift (r ^^^ g.enter b) ^^^ g.load bs) :=
          ih (Nat.le_of_succ_le h) (g.absorb r b)
      _ = g.shift^[bs.length] (g.shift (r ^^^ g.enter b ^^^ g.delay (g.load bs))) := by
          rw [g.shift_xor (r ^^^ g.enter b), hnear]
      _ = g.shift^[bs.length + 1] (r ^^^ g.load (b :: bs)) := by
          rw [Function.iterate_succ_apply, load_cons, g.xor_assoc]

/-- The bytes that wait in a register can be told from it. -/
theorem load_injective {u v : Bytes} (hl : u.length = v.length) (hw : u.length ≤ g.window)
    (h : g.load u = g.load v) : u = v := by
  induction u generalizing v with
  | nil => exact (List.length_eq_zero_iff.1 hl.symm).symm
  | cons b u ih =>
    cases v with
    | nil => cases hl
    | cons c v =>
      have hl' : u.length = v.length := Nat.succ.inj hl
      obtain rfl : b = c := g.enter_apart b c _ _ h
      have hdelay : g.delay (g.load u) = g.delay (g.load v) := g.xor_left_cancel h
      have hload : g.load u = g.load v := by
        have hshift := congrArg g.shift hdelay
        rwa [load, load, g.shift_delay u hw, g.shift_delay v (hl' ▸ hw)] at hshift
      rw [ih hl' (Nat.le_of_succ_le hw) hload]

theorem foldl_injective (bs : Bytes) : Function.Injective (bs.foldl g.absorb) := by
  induction bs with
  | nil => exact fun _ _ h => h
  | cons b bs ih =>
    intro x y h
    exact g.xor_right_cancel (g.shift_injective (ih h))

theorem burst {p s u v : Bytes} {r : R} (hl : u.length = v.length) (hw : u.length ≤ g.window)
    (h : (p ++ u ++ s).foldl g.absorb r = (p ++ v ++ s).foldl g.absorb r) : u = v := by
  simp only [List.foldl_append] at h
  have hsame := g.foldl_injective s h
  have hv : v.length ≤ g.window := hl ▸ hw
  rw [g.foldl_absorb hw, g.foldl_absorb hv, ← hl] at hsame
  have hloaded := g.shift_injective.iterate u.length hsame
  exact g.load_injective hl hw (g.xor_left_cancel hloaded)

end Register

end Register

namespace Crc32

theorem low_iff (r : UInt32) : r &&& 1 = 1 ↔ r.toNat % 2 = 1 := by
  rw [← UInt32.toNat_inj, UInt32.toNat_and, UInt32.toNat_one, Nat.and_one_is_mod]

theorem toNat_shiftRight_one (r : UInt32) : (r >>> 1).toNat = r.toNat / 2 := by
  rw [UInt32.toNat_shiftRight]
  rfl

theorem shiftBit_xor (a b : UInt32) : shiftBit (a ^^^ b) = shiftBit a ^^^ shiftBit b := by
  apply folded_xor (R := UInt32) (· >>> 1) (· &&& 1 = 1)
  · intro x y
    rw [UInt32.xor_assoc, UInt32.xor_self, UInt32.xor_zero]
  · intro a b
    exact UInt32.shiftRight_xor
  · intro a b
    rw [low_iff, low_iff, low_iff, UInt32.toNat_xor, Nat.xor_mod_two_eq_one]

theorem shiftBit_eq_zero {r : UInt32} (h : shiftBit r = 0) : r = 0 := by
  have hlt := r.toNat_lt
  rw [shiftBit] at h
  split at h
  · have hp := congrArg UInt32.toNat (UInt32.xor_eq_zero_iff.1 h)
    rw [toNat_shiftRight_one] at hp
    have htop : polynomial.toNat = 0xEDB88320 := rfl
    omega
  · rename_i hlow
    have hz := congrArg UInt32.toNat h
    rw [toNat_shiftRight_one, UInt32.toNat_zero] at hz
    rw [low_iff] at hlow
    exact UInt32.toNat_inj.1 (by rw [UInt32.toNat_zero]; omega)

theorem shiftBit_injective : Function.Injective shiftBit :=
  additive_injective shiftBit_xor (fun _ _ => UInt32.xor_eq_zero_iff) fun _ => shiftBit_eq_zero

/-- Zeros at the low end are shifted out. -/
theorem repeat_shiftBit (n v : Nat) (h : v * 2 ^ n < 2 ^ 32) :
    Nat.repeat shiftBit n (UInt32.ofNat (v * 2 ^ n)) = UInt32.ofNat v := by
  induction n generalizing v with
  | zero => rw [Nat.pow_zero, Nat.mul_one, Nat.repeat]
  | succ n ih =>
    have hv : v * 2 ^ (n + 1) = v * 2 * 2 ^ n := by rw [Nat.pow_succ', Nat.mul_assoc]
    have hle : v * 2 ≤ v * 2 * 2 ^ n := Nat.le_mul_of_pos_right _ (Nat.pow_pos (by decide))
    rw [hv] at h ⊢
    have h2 : (UInt32.ofNat (v * 2)).toNat = v * 2 :=
      UInt32.toNat_ofNat_of_lt' (Nat.lt_of_le_of_lt hle h)
    have h1 : (UInt32.ofNat v).toNat = v := by
      rw [UInt32.toNat_ofNat']
      omega
    rw [Nat.repeat, ih (v * 2) h, shiftBit, if_neg (by rw [low_iff, h2]; omega)]
    apply UInt32.toNat_inj.1
    rw [toNat_shiftRight_one, h2, h1]
    omega

theorem toNat_shiftLeft_eight (r : UInt32) : (r <<< 8).toNat = r.toNat * 256 % 2 ^ 32 := by
  rw [UInt32.toNat_shiftLeft, Nat.shiftLeft_eq]
  rfl

theorem waiting_lt (bs : Bytes) (h : bs.length ≤ 4) :
    (waiting UInt8.toUInt32 (· <<< 8) bs).toNat < 2 ^ (8 * bs.length) := by
  induction bs with
  | nil => decide
  | cons b bs ih =>
    have hb := b.toNat_lt
    have hlt := ih (Nat.le_of_succ_le h)
    have hpow : 2 ^ (8 * (b :: bs).length) = 2 ^ (8 * bs.length) * 256 := by
      rw [List.length_cons, Nat.mul_succ, Nat.pow_add]
    have hpos : 0 < 2 ^ (8 * bs.length) := Nat.pow_pos (by decide)
    rw [waiting, UInt32.toNat_xor]
    apply Nat.xor_lt_two_pow
    · rw [UInt8.toNat_toUInt32, hpow]
      omega
    · have hmod := Nat.mod_le ((waiting UInt8.toUInt32 (· <<< 8) bs).toNat * 256) (2 ^ 32)
      rw [toNat_shiftLeft_eight, hpow]
      omega

def register : Register UInt32 where
  shift := shiftByte
  enter := UInt8.toUInt32
  delay := (· <<< 8)
  window := 4
  xor_assoc := UInt32.xor_assoc
  xor_self _ := UInt32.xor_self
  xor_zero _ := UInt32.xor_zero
  zero_xor _ := UInt32.zero_xor
  shift_xor := repeat_xor shiftBit_xor 8
  shift_injective := repeat_injective shiftBit_injective 8
  shift_delay bs h := by
    have hlt := waiting_lt bs (Nat.le_of_lt h)
    have hle : 2 ^ (8 * bs.length) ≤ 2 ^ 24 := Nat.pow_le_pow_right (by decide) (by omega)
    generalize waiting UInt8.toUInt32 (· <<< 8) bs = r at hlt ⊢
    have hrepeat := repeat_shiftBit 8 r.toNat (by omega)
    have hshift : r <<< 8 = UInt32.ofNat (r.toNat * 2 ^ 8) := by
      apply UInt32.toNat_inj.1
      rw [toNat_shiftLeft_eight, UInt32.toNat_ofNat']
      rfl
    rw [UInt32.ofNat_toNat] at hrepeat
    rw [shiftByte, hshift, hrepeat]
  enter_apart b c x y h := by
    have hlow : ∀ (b : UInt8) (x : UInt32), (b.toUInt32 ^^^ x <<< 8).toNat % 2 ^ 8 = b.toNat := by
      intro b x
      have hb := b.toNat_lt
      rw [UInt32.toNat_xor, Nat.xor_mod_two_pow, UInt8.toNat_toUInt32, toNat_shiftLeft_eight,
        Nat.mod_eq_of_lt hb]
      have hx : x.toNat * 256 % 2 ^ 32 % 2 ^ 8 = 0 := by omega
      rw [hx, Nat.xor_zero]
    apply UInt8.toNat_inj.1
    rw [← hlow b x, h, hlow]

end Crc32

namespace Crc16

theorem high_iff (r : UInt16) : r &&& 0x8000 = 0x8000 ↔ r.toNat / 2 ^ 15 % 2 = 1 := by
  have hand : (r &&& 0x8000).toNat = r.toNat / 2 ^ 15 % 2 * 2 ^ 15 := by
    have hbit := Nat.mod_two_eq_zero_or_one (r.toNat / 2 ^ 15)
    rw [UInt16.toNat_and, show (0x8000 : UInt16).toNat = 2 ^ 15 from rfl, Nat.and_two_pow,
      Nat.testBit_eq_decide_div_mod_eq]
    rcases hbit with h | h <;> rw [h] <;> rfl
  rw [← UInt16.toNat_inj, hand, show (0x8000 : UInt16).toNat = 2 ^ 15 from rfl]
  omega

theorem toNat_shiftLeft_one (r : UInt16) : (r <<< 1).toNat = r.toNat * 2 % 2 ^ 16 := by
  rw [UInt16.toNat_shiftLeft, Nat.shiftLeft_eq]
  rfl

theorem shiftBit_xor (a b : UInt16) : shiftBit (a ^^^ b) = shiftBit a ^^^ shiftBit b := by
  apply folded_xor (R := UInt16) (· <<< 1) (· &&& 0x8000 = 0x8000)
  · intro x y
    rw [UInt16.xor_assoc, UInt16.xor_self, UInt16.xor_zero]
  · intro a b
    exact UInt16.shiftLeft_xor
  · intro a b
    rw [high_iff, high_iff, high_iff, UInt16.toNat_xor, Nat.xor_div_two_pow,
      Nat.xor_mod_two_eq_one]

theorem shiftBit_eq_zero {r : UInt16} (h : shiftBit r = 0) : r = 0 := by
  have hlt := r.toNat_lt
  rw [shiftBit] at h
  split at h
  · have hp := congrArg UInt16.toNat (UInt16.xor_eq_zero_iff.1 h)
    rw [toNat_shiftLeft_one] at hp
    have hodd : polynomial.toNat = 0x1021 := rfl
    omega
  · rename_i hhigh
    have hz := congrArg UInt16.toNat h
    rw [toNat_shiftLeft_one, UInt16.toNat_zero] at hz
    rw [high_iff] at hhigh
    exact UInt16.toNat_inj.1 (by rw [UInt16.toNat_zero]; omega)

theorem shiftBit_injective : Function.Injective shiftBit :=
  additive_injective shiftBit_xor (fun _ _ => UInt16.xor_eq_zero_iff) fun _ => shiftBit_eq_zero

theorem toNat_repeat_shiftBit (n : Nat) (r : UInt16) (h : r.toNat * 2 ^ n < 2 ^ 16) :
    (Nat.repeat shiftBit n r).toNat = r.toNat * 2 ^ n := by
  induction n with
  | zero => rw [Nat.pow_zero, Nat.mul_one, Nat.repeat]
  | succ n ih =>
    rw [Nat.pow_succ, ← Nat.mul_assoc] at h ⊢
    have hn := ih (by omega)
    rw [Nat.repeat, shiftBit, if_neg (by rw [high_iff, hn]; omega), toNat_shiftLeft_one, hn]
    omega

theorem toNat_shiftRight_eight (r : UInt16) : (r >>> 8).toNat = r.toNat / 256 := by
  rw [UInt16.toNat_shiftRight, Nat.shiftRight_eq_div_pow]
  rfl

theorem toNat_enter (b : UInt8) : (b.toUInt16 <<< 8).toNat = b.toNat * 256 := by
  have hb := b.toNat_lt
  rw [UInt16.toNat_shiftLeft, Nat.shiftLeft_eq, UInt8.toNat_toUInt16]
  show b.toNat * 2 ^ 8 % 2 ^ 16 = b.toNat * 256
  omega

theorem waiting_mod (bs : Bytes) (h : bs.length < 2) :
    (waiting (·.toUInt16 <<< 8) (· >>> 8) bs).toNat % 256 = 0 := by
  match bs, h with
  | [], _ => rfl
  | [b], _ =>
    show ((b.toUInt16 <<< 8) ^^^ ((0 : UInt16) >>> 8)).toNat % 256 = 0
    rw [UInt16.zero_shiftRight, UInt16.xor_zero, toNat_enter, Nat.mul_mod_left]

def register : Register UInt16 where
  shift := shiftByte
  enter := (·.toUInt16 <<< 8)
  delay := (· >>> 8)
  window := 2
  xor_assoc := UInt16.xor_assoc
  xor_self _ := UInt16.xor_self
  xor_zero _ := UInt16.xor_zero
  zero_xor _ := UInt16.zero_xor
  shift_xor := repeat_xor shiftBit_xor 8
  shift_injective := repeat_injective shiftBit_injective 8
  shift_delay bs h := by
    have hmod := waiting_mod bs h
    generalize waiting (·.toUInt16 <<< 8) (· >>> 8) bs = r at hmod ⊢
    have hlt := r.toNat_lt
    have hr := toNat_shiftRight_eight r
    have hshift := toNat_repeat_shiftBit 8 (r >>> 8) (by omega)
    apply UInt16.toNat_inj.1
    rw [shiftByte, hshift, hr]
    omega
  enter_apart b c x y h := by
    have hhigh : ∀ (b : UInt8) (x : UInt16),
        ((b.toUInt16 <<< 8) ^^^ (x >>> 8)).toNat / 2 ^ 8 = b.toNat := by
      intro b x
      have hlt := x.toNat_lt
      have hx : x.toNat / 256 / 2 ^ 8 = 0 := by omega
      rw [UInt16.toNat_xor, Nat.xor_div_two_pow, toNat_enter, toNat_shiftRight_eight, hx,
        Nat.xor_zero]
      omega
    apply UInt8.toNat_inj.1
    rw [← hhigh b x, h, hhigh]

end Crc16

/-- Two files that differ only in a short stretch have different checksums: four bytes are told
apart by the 32-bit one and two bytes by the 16-bit one, whatever stands around them. -/
theorem checksums_detect_bursts (p s : Bytes) {u v : Bytes} (hl : u.length = v.length)
    (hne : u ≠ v) :
    (u.length ≤ 4 → crc32 (p ++ u ++ s) ≠ crc32 (p ++ v ++ s)) ∧
      (u.length ≤ 2 → crc16 (p ++ u ++ s) ≠ crc16 (p ++ v ++ s)) := by
  constructor
  · intro hw h
    have hfold : (p ++ u ++ s).foldl Crc32.register.absorb 0xFFFFFFFF =
        (p ++ v ++ s).foldl Crc32.register.absorb 0xFFFFFFFF := UInt32.not_inj.1 h
    exact hne (Crc32.register.burst hl hw hfold)
  · intro hw h
    have hfold : (p ++ u ++ s).foldl Crc16.register.absorb 0xFFFF =
        (p ++ v ++ s).foldl Crc16.register.absorb 0xFFFF := h
    exact hne (Crc16.register.burst hl hw hfold)

/-- A length field of four bytes and its last two, in front of more bytes. -/
theorem checksums_detect_bursts_length :
    crc32 ([0x52, 0x49] ++ [0, 0, 0, 13] ++ [7]) ≠ crc32 ([0x52, 0x49] ++ [13, 0, 0, 0] ++ [7]) ∧
      crc16 ([0x52, 0x49, 0, 0] ++ [0, 13] ++ [7]) ≠
        crc16 ([0x52, 0x49, 0, 0] ++ [13, 0] ++ [7]) :=
  ⟨(checksums_detect_bursts [0x52, 0x49] [7] (u := [0, 0, 0, 13]) (v := [13, 0, 0, 0]) rfl
      (by decide)).1 (by decide),
    (checksums_detect_bursts [0x52, 0x49, 0, 0] [7] (u := [0, 13]) (v := [13, 0]) rfl
      (by decide)).2 (by decide)⟩

end DecisionWalk
