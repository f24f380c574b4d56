/-!
# TOML values

The values that settings are made of. No setting is a number with a fraction or
a point in time, so of those it is only kept that they were there.
-/

set_option autoImplicit false

namespace DecisionWalk.Toml

inductive Beginning where
  | header
  | dotted
  | whole
  deriving DecidableEq, Repr

inductive Datum where
  | integer (n : Int)
  | float
  | moment
  | boolean (b : Bool)
  | text (s : String)
  | list (items : List Datum)
  | record (beginning : Beginning) (fields : List (String × Datum))
  deriving Repr, Inhabited

abbrev Fields := List (String × Datum)

namespace Fields

def has (fields : Fields) (name : String) : Bool := (fields.lookup name).isSome

def replace (fields : Fields) (name : String) (value : Datum) : Fields :=
  fields.map fun (other, old) => (other, if other = name then value else old)

def define (value : Datum) : List String → Fields → Option Fields
  | [], _ => none
  | [name], fields => if fields.has name then none else some (fields ++ [(name, value)])
  | name :: key, fields =>
    match fields.lookup name with
    | none => (define value key []).map fun inner => fields ++ [(name, .record .dotted inner)]
    | some (.record .dotted inner) =>
      (define value key inner).map fun inner => fields.replace name (.record .dotted inner)
    | some _ => none

end Fields

abbrev Reader (α : Type) := List Char → Option (α × List Char)

end DecisionWalk.Toml
