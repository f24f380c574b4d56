import DecisionWalk.Chunk

/-!
# Ranges of a list

What a range shows of a list, when the list grows behind the range and when two
ranges meet.
-/

set_option autoImplicit false

namespace DecisionWalk.Span

def Fits {α : Type} (s : Span) (xs : List α) : Prop := s.start ≤ s.stop ∧ s.stop ≤ xs.length

theorem Fits.append {α : Type} {s : Span} {xs : List α} (h : s.Fits xs) (ys : List α) :
    s.Fits (xs ++ ys) := by
  refine ⟨h.1, ?_⟩
  rw [List.length_append]
  exact Nat.le_add_right_of_le h.2

theorem of_append {α : Type} {s : Span} {xs : List α} (h : s.Fits xs) (ys : List α) :
    s.of (xs ++ ys) = s.of xs := by
  rw [of, of, List.take_append_of_le_length h.2]

theorem length_of {α : Type} {s : Span} {xs : List α} (h : s.Fits xs) :
    (s.of xs).length = s.length := by
  rw [of, List.length_drop, List.length_take, Nat.min_eq_left h.2, length]

def after {α : Type} (xs ys : List α) : Span := ⟨xs.length, xs.length + ys.length⟩

theorem after_fits {α : Type} (xs ys : List α) : (after xs ys).Fits (xs ++ ys) :=
  ⟨Nat.le_add_right _ _, Nat.le_of_eq List.length_append.symm⟩

theorem after_of {α : Type} (xs ys : List α) : (after xs ys).of (xs ++ ys) = ys := by
  rw [of, after, ← List.length_append, List.take_length, List.drop_left]

theorem of_all {α : Type} (xs : List α) : of ⟨0, xs.length⟩ xs = xs := List.take_length

theorem of_left {α : Type} (xs : List α) (n : Nat) : of ⟨0, n⟩ xs = xs.take n := rfl

theorem of_right {α : Type} (xs : List α) (n : Nat) : of ⟨n, xs.length⟩ xs = xs.drop n := by
  rw [of, List.take_length]

/-- Two ranges that meet show what one range over both shows. -/
theorem of_meet {α : Type} {a b c : Nat} (xs : List α) (hab : a ≤ b) (hbc : b ≤ c) :
    of ⟨a, b⟩ xs ++ of ⟨b, c⟩ xs = of ⟨a, c⟩ xs := by
  have hdrop : xs.drop b = (xs.drop a).drop (b - a) := by
    rw [List.drop_drop, Nat.add_sub_cancel' hab]
  have hlength : c - a = (b - a) + (c - b) := by omega
  simp only [of, List.drop_take, hlength, List.take_add, hdrop]

end DecisionWalk.Span
