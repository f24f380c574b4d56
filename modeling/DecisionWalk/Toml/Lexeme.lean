import DecisionWalk.Text
import DecisionWalk.Toml.Datum

/-!
# Blanks, comments, strings and keys

The smallest parts of a TOML text. Every reader here stops right behind what it
read.
-/

set_option autoImplicit false

namespace DecisionWalk.Toml

open Text (hexValue?)

def isBlank (c : Char) : Bool := c == ' ' || c == '\t'

def skipBlank (cs : List Char) : List Char := cs.dropWhile isBlank

def isPlain (c : Char) : Bool :=
  c == '\t' || (0x20 ≤ c.toNat && c.toNat ≤ 0x7E) || 0x80 ≤ c.toNat

def skipFiller (inComment : Bool) : List Char → List Char
  | [] => []
  | c :: rest =>
    if isBlank c || inComment && isPlain c then skipFiller inComment rest
    else if c = '#' then skipFiller true rest
    else if c = '\n' ∨ c = '\r' ∧ rest.head? = some '\n' then skipFiller false rest
    else c :: rest

def skipComment : List Char → List Char
  | '#' :: rest => rest.dropWhile isPlain
  | cs => cs

def endOfLine (cs : List Char) : Option (List Char) :=
  match skipComment (skipBlank cs) with
  | [] => some []
  | '\n' :: rest => some rest
  | '\r' :: '\n' :: rest => some rest
  | _ => none

def charOfHex? (digits : List Char) : Option Char := do
  let values ← digits.mapM hexValue?
  let code := values.foldl (fun n d => 16 * n + d) 0
  if code.isValidChar then some (Char.ofNat code) else none

def shortEscape? : Char → Option Char
  | 'b' => some '\x08'
  | 't' => some '\t'
  | 'n' => some '\n'
  | 'f' => some '\x0c'
  | 'r' => some '\r'
  | '"' => some '"'
  | '\\' => some '\\'
  | _ => none

def readBasic (found : List Char) : Reader String
  | [] => none
  | '"' :: rest => some (String.ofList found.reverse, rest)
  | '\\' :: 'u' :: a :: b :: c :: d :: rest =>
    (charOfHex? [a, b, c, d]).bind fun x => readBasic (x :: found) rest
  | '\\' :: 'U' :: a :: b :: c :: d :: e :: f :: g :: h :: rest =>
    (charOfHex? [a, b, c, d, e, f, g, h]).bind fun x => readBasic (x :: found) rest
  | '\\' :: c :: rest => (shortEscape? c).bind fun x => readBasic (x :: found) rest
  | c :: rest => if isPlain c then readBasic (c :: found) rest else none

def lineEndsHere (cs : List Char) : Bool :=
  match skipBlank cs with
  | '\n' :: _ => true
  | '\r' :: '\n' :: _ => true
  | _ => false

/-- The rest of a string in three double quotes. A backslash at the end of a line drops all
blanks and line ends up to the next character; `dropping` says that this is under way. -/
def readLongBasic (dropping : Bool) (found : List Char) : Reader String
  | [] => none
  | '"' :: '"' :: '"' :: '"' :: '"' :: rest =>
    some (String.ofList ('"' :: '"' :: found).reverse, rest)
  | '"' :: '"' :: '"' :: '"' :: rest => some (String.ofList ('"' :: found).reverse, rest)
  | '"' :: '"' :: '"' :: rest => some (String.ofList found.reverse, rest)
  | '\\' :: 'u' :: a :: b :: c :: d :: rest =>
    (charOfHex? [a, b, c, d]).bind fun x => readLongBasic false (x :: found) rest
  | '\\' :: 'U' :: a :: b :: c :: d :: e :: f :: g :: h :: rest =>
    (charOfHex? [a, b, c, d, e, f, g, h]).bind fun x => readLongBasic false (x :: found) rest
  | '\r' :: '\n' :: rest =>
    readLongBasic dropping (if dropping then found else '\n' :: found) rest
  | '\n' :: rest => readLongBasic dropping (if dropping then found else '\n' :: found) rest
  | '\\' :: c :: rest =>
    if lineEndsHere (c :: rest) then readLongBasic true found (c :: rest)
    else (shortEscape? c).bind fun x => readLongBasic false (x :: found) rest
  | c :: rest =>
    if dropping && isBlank c then readLongBasic true found rest
    else if isPlain c then readLongBasic false (c :: found) rest
    else none

def readLiteral (found : List Char) : Reader String
  | [] => none
  | c :: rest =>
    if c = '\x27' then some (String.ofList found.reverse, rest)
    else if isPlain c then readLiteral (c :: found) rest
    else none

def readLongLiteral (found : List Char) : Reader String
  | [] => none
  | '\x27' :: '\x27' :: '\x27' :: '\x27' :: '\x27' :: rest =>
    some (String.ofList ('\x27' :: '\x27' :: found).reverse, rest)
  | '\x27' :: '\x27' :: '\x27' :: '\x27' :: rest =>
    some (String.ofList ('\x27' :: found).reverse, rest)
  | '\x27' :: '\x27' :: '\x27' :: rest => some (String.ofList found.reverse, rest)
  | '\r' :: '\n' :: rest => readLongLiteral ('\n' :: found) rest
  | '\n' :: rest => readLongLiteral ('\n' :: found) rest
  | c :: rest => if isPlain c then readLongLiteral (c :: found) rest else none

def skipFirstLineEnd : List Char → List Char
  | '\n' :: rest => rest
  | '\r' :: '\n' :: rest => rest
  | cs => cs

def isBareKeyChar (c : Char) : Bool := c.isAlphanum || c == '_' || c == '-'

def readKey : Reader String
  | '"' :: rest => readBasic [] rest
  | '\x27' :: rest => readLiteral [] rest
  | cs =>
    let name := cs.takeWhile isBareKeyChar
    if name.isEmpty then none else some (String.ofList name, cs.dropWhile isBareKeyChar)

def readKeys : Nat → Reader (List String)
  | 0, _ => none
  | n + 1, cs => do
    let (first, rest) ← readKey (skipBlank cs)
    match skipBlank rest with
    | '.' :: rest =>
      let (others, rest) ← readKeys n rest
      some (first :: others, rest)
    | rest => some ([first], rest)

def keyLimit : Nat := 79

end DecisionWalk.Toml
