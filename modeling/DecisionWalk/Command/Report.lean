import DecisionWalk.Text
import DecisionWalk.Walk

/-!
# Reports of chunks

The chunks of a file as lines of text, or as a JSON list of objects.
-/

set_option autoImplicit false

namespace DecisionWalk.Command.Report

def flags (optional appendable : Bool) : String :=
  match optional, appendable with
  | true, true => "optional, appendable"
  | true, false => "optional"
  | false, true => "appendable"
  | false, false => ""

def wideRange (s : Span) : String :=
  Text.padLeft 6 (toString s.start) ++ ".." ++ Text.padRight 6 (toString s.stop)

def chunkLine (c : ChunkSummary) : String :=
  wideRange c.file ++ " decisions " ++ wideRange c.decisions ++ " " ++ c.name ++ " " ++
    flags c.optional c.appendable ++ "\n"

def lines (chunks : List ChunkSummary) : String := String.join (chunks.map chunkLine)

def jsonChar (c : Char) : List Char :=
  if c = '"' then ['\\', '"']
  else if c = '\\' then ['\\', '\\']
  else if c = '\n' then ['\\', 'n']
  else if c = '\r' then ['\\', 'r']
  else if c = '\t' then ['\\', 't']
  else if c.toNat = 8 then ['\\', 'b']
  else if c.toNat = 12 then ['\\', 'f']
  else if c.toNat < 32 then
    ['\\', 'u', '0', '0', Text.hexDigit (c.toNat / 16), Text.hexDigit (c.toNat % 16)]
  else [c]

def jsonString (s : String) : String :=
  "\"" ++ String.ofList (s.toList.flatMap jsonChar) ++ "\""

def jsonFields (c : ChunkSummary) : List (String × String) :=
  [("name", jsonString c.name), ("kind", jsonString c.kind),
    ("file_start", toString c.file.start), ("file_end", toString c.file.stop),
    ("decision_start", toString c.decisions.start), ("decision_end", toString c.decisions.stop),
    ("optional", toString c.optional), ("appendable", toString c.appendable)]

def jsonObject (fields : List (String × String)) : String :=
  "  \x7b\n" ++
    String.intercalate ",\n" (fields.map fun (k, v) => "    " ++ jsonString k ++ ": " ++ v) ++
    "\n  \x7d"

def json (chunks : List ChunkSummary) : String :=
  if chunks.isEmpty then "[]\n"
  else
    "[\n" ++ String.intercalate ",\n" (chunks.map fun c => jsonObject (jsonFields c)) ++ "\n]\n"

end DecisionWalk.Command.Report
