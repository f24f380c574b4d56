import DecisionWalk.Word

/-!
# Alphabets of byte symbols

A string is drawn symbol by symbol, each symbol by its index in an alphabet.
An alphabet numbers its symbols one to one, so a symbol found in a file has one
index to record.
-/

set_option autoImplicit false

namespace DecisionWalk

structure Alphabet where
  size : Nat
  symbol : Nat → UInt8
  index? : UInt8 → Option Nat
  index?_symbol : ∀ i, i < size → index? (symbol i) = some i
  symbol_of_index? : ∀ b i, index? b = some i → i < size ∧ symbol i = b

namespace Alphabet

def plain : Alphabet where
  size := 256
  symbol i := UInt8.ofNat i
  index? b := some b.toNat
  index?_symbol i h := by
    simp only [UInt8.toNat_ofNat', Option.some.injEq]
    omega
  symbol_of_index? b i h := by
    cases h
    exact ⟨b.toNat_lt, UInt8.ofNat_toNat⟩

def nonNul : Alphabet where
  size := 255
  symbol i := UInt8.ofNat (i + 1)
  index? b := if b = 0 then none else some (b.toNat - 1)
  index?_symbol i h := by
    have hv : (UInt8.ofNat (i + 1)).toNat = i + 1 := by
      rw [UInt8.toNat_ofNat']
      omega
    have hz : UInt8.ofNat (i + 1) ≠ 0 := fun hc => by
      rw [hc] at hv
      simp at hv
    rw [if_neg hz, hv]
    rfl
  symbol_of_index? b i h := by
    by_cases hb : b = 0
    · simp [hb] at h
    · have hn : b.toNat ≠ 0 := fun hc => hb (UInt8.toNat_inj.1 hc)
      have hlt : b.toNat < 256 := b.toNat_lt
      simp only [hb, if_false, Option.some.injEq] at h
      subst h
      refine ⟨by omega, ?_⟩
      rw [Nat.sub_add_cancel (by omega)]
      exact UInt8.ofNat_toNat

def printableSymbols : Bytes :=
  "ABCDEFGHIJKLMNOPQRSTUVWXYZabcdefghijklmnopqrstuvwxyz0123456789 ._-".toList.map
    fun c => UInt8.ofNat c.toNat

theorem length_printableSymbols : printableSymbols.length = 66 := by
  decide +kernel

def printable : Alphabet where
  size := 66
  symbol i := printableSymbols.getD i 0
  index? b := printableSymbols.findIdx? (· == b)
  index?_symbol := by
    decide +kernel
  symbol_of_index? b i h := by
    obtain ⟨hi, hb, _⟩ := List.findIdx?_eq_some_iff_getElem.1 h
    refine ⟨length_printableSymbols ▸ hi, ?_⟩
    rw [List.getD_eq_getElem?_getD, List.getElem?_eq_getElem hi]
    exact eq_of_beq hb

def contains (a : Alphabet) (b : UInt8) : Bool := (a.index? b).isSome

end Alphabet

end DecisionWalk
