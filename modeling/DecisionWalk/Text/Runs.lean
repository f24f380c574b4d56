/-!
# Classes of characters as runs
-/

set_option autoImplicit false

namespace DecisionWalk.Text

/-- Whether a character is in a class. The numbers say, in order and in turn, where runs of
characters in the class and of others begin. -/
def inRuns (edges : Array Nat) (c : Char) : Bool :=
  edges.foldl (fun inside edge => if edge ≤ c.toNat then !inside else inside) false

end DecisionWalk.Text
