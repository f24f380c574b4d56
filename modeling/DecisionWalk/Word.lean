/-!
# Bytes and the integers they spell

An integer of `n` bytes is the list of its base-256 digits. Digits are listed
least significant first; the other byte order is the reversed list.
-/

set_option autoImplicit false

namespace DecisionWalk

abbrev Bytes := List UInt8

def leBytes : Nat → Nat → Bytes
  | 0, _ => []
  | n + 1, v => UInt8.ofNat v :: leBytes n (v / 256)

def leValue : Bytes → Nat
  | [] => 0
  | b :: bs => b.toNat + 256 * leValue bs

@[simp] theorem length_leBytes (n v : Nat) : (leBytes n v).length = n := by
  induction n generalizing v with
  | zero => rfl
  | succ n ih => simp [leBytes, ih]

theorem leBytes_leValue (bs : Bytes) : leBytes bs.length (leValue bs) = bs := by
  induction bs with
  | nil => rfl
  | cons b bs ih =>
    have hb : b.toNat < 256 := b.toNat_lt
    have hd : (b.toNat + 256 * leValue bs) / 256 = leValue bs := by omega
    have hm : UInt8.ofNat (b.toNat + 256 * leValue bs) = b := by
      apply UInt8.toNat_inj.1
      rw [UInt8.toNat_ofNat']
      omega
    rw [List.length_cons, leValue, leBytes, hd, hm, ih]

inductive Endian where
  | little
  | big
  deriving DecidableEq, Repr, Inhabited

namespace Endian

def encode : Endian → Nat → Nat → Bytes
  | .little, width, value => leBytes width value
  | .big, width, value => (leBytes width value).reverse

def decode : Endian → Bytes → Nat
  | .little, bs => leValue bs
  | .big, bs => leValue bs.reverse

@[simp] theorem length_encode (e : Endian) (width value : Nat) :
    (e.encode width value).length = width := by
  cases e <;> simp [encode]

theorem encode_decode (e : Endian) (bs : Bytes) : e.encode bs.length (e.decode bs) = bs := by
  cases e with
  | little => exact leBytes_leValue bs
  | big =>
    have h := leBytes_leValue bs.reverse
    rw [List.length_reverse] at h
    rw [encode, decode, h, List.reverse_reverse]

end Endian

end DecisionWalk
