import DecisionWalk.Word

/-!
# Random sources

A random source gives 32-bit words and byte strings, and passes itself on.
Choices among `n` things take one word, and a second one only when the first
leaves the choice open.
-/

set_option autoImplicit false

namespace DecisionWalk

class RandomSource (ρ : Type) where
  word : ρ → UInt32 × ρ
  fill : ρ → Nat → Bytes × ρ
  length_fill : ∀ r n, (fill r n).1.length = n

namespace Random

variable {ρ : Type} [RandomSource ρ]

/-- A number below `n`: the word scaled to `n`, with a carry from a second word where the
fraction lost by scaling could hold one. -/
def below (r : ρ) (n : Nat) : Nat × ρ :=
  let (first, r) := RandomSource.word r
  let scaled := first.toNat * n
  let high := scaled / 0x100000000
  let low := scaled % 0x100000000
  if low > 0x100000000 - n then
    let (second, r) := RandomSource.word r
    let carry := if low + second.toNat * n / 0x100000000 ≥ 0x100000000 then 1 else 0
    (high + carry, r)
  else (high, r)

def pick? {α : Type} (r : ρ) (xs : List α) : Option α × ρ :=
  if xs.isEmpty then (none, r)
  else
    let (i, r) := below r xs.length
    (xs[i]?, r)

end Random

end DecisionWalk
