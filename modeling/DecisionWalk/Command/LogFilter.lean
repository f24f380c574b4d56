import DecisionWalk.Command.LogFilter.Directive

/-!
# Log filters

A filter is a list of directives with commas between them, of which malformed
ones do not count. A message is shown when the most specific directive about it
has its level or a higher one. A filter without directives shows errors only.
-/

set_option autoImplicit false

namespace DecisionWalk.Command.LogFilter

def directives (filter : String) : List Directive :=
  ((filter.splitOn ",").filter (!·.isEmpty)).filterMap Directive.ofText?

def deciding (target : String) (fields : List String) (ds : List Directive) : Option Directive :=
  (ds.filter (·.covers target fields)).foldl
    (fun best d => if best.all (Directive.rankLE · d) then some d else best) none

def showsErrors (filter target : String) (fields : List String) : Bool :=
  match directives filter with
  | [] => true
  | ds => (deciding target fields ds).any (1 ≤ ·.level)

end DecisionWalk.Command.LogFilter
