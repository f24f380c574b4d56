import DecisionWalk.Toml.Scalar

/-!
# TOML documents with one level of sections

A document is a list of named values; a section is a record. Settings have no
deeper structure, so a header that goes deeper names no setting, and a document
that holds one is refused.
-/

set_option autoImplicit false

namespace DecisionWalk.Toml

def nestingLimit : Nat := 79

mutual

def readValue : Nat → Nat → Reader Datum
  | 0, _, _ => none
  | n + 1, room, cs =>
    match cs with
    | '"' :: '"' :: '"' :: rest =>
      (readLongBasic false [] (skipFirstLineEnd rest)).map fun (s, rest) => (.text s, rest)
    | '"' :: rest => (readBasic [] rest).map fun (s, rest) => (.text s, rest)
    | '\x27' :: '\x27' :: '\x27' :: rest =>
      (readLongLiteral [] (skipFirstLineEnd rest)).map fun (s, rest) => (.text s, rest)
    | '\x27' :: rest => (readLiteral [] rest).map fun (s, rest) => (.text s, rest)
    | '[' :: rest =>
      if room = 0 then none
      else (readItems n (room - 1) [] rest).map fun (items, rest) => (.list items, rest)
    | '\x7b' :: rest =>
      if room = 0 then none
      else match skipBlank rest with
        | '\x7d' :: rest => some (.record .whole [], rest)
        | rest =>
          (readFields n (room - 1) [] rest).map fun (fields, rest) => (.record .whole fields, rest)
    | cs => readScalar cs

def readItems : Nat → Nat → List Datum → Reader (List Datum)
  | 0, _, _, _ => none
  | n + 1, room, found, cs =>
    match skipFiller false cs with
    | ']' :: rest => some (found.reverse, rest)
    | cs => do
      let (item, rest) ← readValue n room cs
      match skipFiller false rest with
      | ',' :: rest => readItems n room (item :: found) rest
      | ']' :: rest => some ((item :: found).reverse, rest)
      | _ => none

def readFields : Nat → Nat → Fields → Reader Fields
  | 0, _, _, _ => none
  | n + 1, room, found, cs => do
    let (key, rest) ← readKeys keyLimit cs
    match rest with
    | '=' :: rest =>
      let (value, rest) ← readValue n room (skipBlank rest)
      let found ← found.define value key
      match skipBlank rest with
      | ',' :: rest => readFields n room found rest
      | '\x7d' :: rest => some (found, rest)
      | _ => none
    | _ => none

end

structure Document where
  sections : Fields := []
  current : Option String := none
  deriving Repr

namespace Document

def openSection (d : Document) (name : String) : Option Document :=
  if d.sections.has name then none
  else some ⟨d.sections ++ [(name, .record .header [])], some name⟩

def define (d : Document) (key : List String) (value : Datum) : Option Document :=
  match d.current with
  | none => (d.sections.define value key).map fun sections => { d with sections := sections }
  | some name =>
    match d.sections.lookup name with
    | some (.record beginning fields) =>
      (Fields.define value key fields).map fun fields =>
        { d with sections := d.sections.replace name (.record beginning fields) }
    | _ => none

def readLines : Nat → Document → List Char → Option Document
  | 0, _, _ => none
  | n + 1, d, cs =>
    match skipFiller false cs with
    | [] => some d
    | '[' :: rest => do
      let (name, rest) ← readKey (skipBlank rest)
      match skipBlank rest with
      | ']' :: rest =>
        let rest ← endOfLine rest
        let d ← d.openSection name
        readLines n d rest
      | _ => none
    | cs => do
      let (key, rest) ← readKeys keyLimit cs
      match rest with
      | '=' :: rest =>
        let (value, rest) ← readValue n nestingLimit (skipBlank rest)
        let rest ← endOfLine rest
        let d ← d.define key value
        readLines n d rest
      | _ => none

def ofText? (text : String) : Option Document :=
  let cs := match text.toList with
    | '\ufeff' :: rest => rest
    | cs => cs
  readLines (cs.length + 1) {} cs

end Document

end DecisionWalk.Toml
