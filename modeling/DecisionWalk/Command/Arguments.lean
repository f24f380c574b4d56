import DecisionWalk.Text

/-!
# Command lines

A command line names a command with its operands and options. The options that
every command shares may stand before or after its name; behind it they win.
Reading goes from left to right, and the first fault ends it. The values of an
option are looked at when the next option or operand comes, so a request for
help behind the command's name is heard before a fault in the last option in
front of it.
-/

set_option autoImplicit false

namespace DecisionWalk.Command

open Text (number?)

inductive FormatName where
  | png
  | riff
  deriving DecidableEq, Repr

inductive Action where
  | fuzz (count : Option Nat) (outDir : Option String) (seed : Option Nat) (seeds : List String)
  | generate (decisions output : String)
  | parse (file : String) (decisions : Option String) (json : Bool)
  | replace (target : String) (first last : Nat) (donor : String) (donorFirst donorLast : Nat)
      (output : String)
  | delete (target : String) (first last : Nat) (output : String)
  | insert (target : String) (position : Nat) (donor : String) (donorFirst donorLast : Nat)
      (output : String)
  | abstract (target : String) (first last : Nat) (output : String)
  | swap (target : String) (first₁ last₁ first₂ last₂ : Nat) (output : String)
  deriving DecidableEq, Repr

structure Invocation where
  format : FormatName
  config : Option String
  logLevel : String
  action : Action
  deriving DecidableEq, Repr

inductive Request where
  | run (invocation : Invocation)
  | version
  | help
  | misuse
  deriving DecidableEq, Repr

inductive Arity where
  | none
  | one
  | several
  deriving DecidableEq, Repr

structure OptionSpec where
  name : String
  short : Option Char
  arity : Arity
  deriving DecidableEq, Repr

def sharedOptions : List OptionSpec :=
  [⟨"format", none, .one⟩, ⟨"config", some 'c', .one⟩, ⟨"log-level", none, .one⟩,
    ⟨"help", some 'h', .none⟩]

def leadingOptions : List OptionSpec := sharedOptions ++ [⟨"version", some 'V', .none⟩]

inductive OperandKind where
  | path
  | number
  deriving DecidableEq, Repr

structure CommandSpec where
  name : String
  options : List OptionSpec
  operands : List OperandKind
  deriving DecidableEq, Repr

def commands : List CommandSpec :=
  [⟨"fuzz",
      sharedOptions ++ [⟨"count", some 'n', .one⟩, ⟨"out-dir", some 'o', .one⟩,
        ⟨"seed", none, .one⟩, ⟨"seeds", none, .several⟩],
      []⟩,
    ⟨"generate", sharedOptions, [.path, .path]⟩,
    ⟨"parse", sharedOptions ++ [⟨"decisions", none, .one⟩, ⟨"json", none, .none⟩], [.path]⟩,
    ⟨"replace", sharedOptions, [.path, .number, .number, .path, .number, .number, .path]⟩,
    ⟨"delete", sharedOptions, [.path, .number, .number, .path]⟩,
    ⟨"insert", sharedOptions, [.path, .number, .path, .number, .number, .path]⟩,
    ⟨"abstract", sharedOptions, [.path, .number, .number, .path]⟩,
    ⟨"swap", sharedOptions, [.path, .number, .number, .number, .number, .path]⟩]

def commandNamed? (name : String) : Option CommandSpec := commands.find? (·.name == name)

def looksLikeOption (s : String) : Bool := s.startsWith "-" && s != "-"

/-- The option that an argument names, and the value attached to it. A short option without
values ends the scan, so that nothing behind it on its argument counts. -/
def splitOption (known : List OptionSpec) (s : String) : Option (OptionSpec × Option String) :=
  match s.toList with
  | '-' :: '-' :: name =>
    let key := name.takeWhile (· != '=')
    let attached := match name.dropWhile (· != '=') with
      | '=' :: value => some (String.ofList value)
      | _ => none
    (known.find? (·.name == String.ofList key)).map (·, attached)
  | '-' :: c :: rest =>
    let attached := match rest with
      | [] => none
      | '=' :: value => some (String.ofList value)
      | value => some (String.ofList value)
    (known.find? (·.short == some c)).map fun o =>
      (o, if o.arity = .none then none else attached)
  | _ => none

def path? (s : String) : Option String := if s.isEmpty then none else some s

def acceptable (name value : String) : Bool :=
  match name with
  | "format" => value == "png" || value == "riff"
  | "config" | "out-dir" | "decisions" | "seeds" => (path? value).isSome
  | "count" | "seed" => (number? value).isSome
  | _ => true

def OperandKind.accepts (kind : OperandKind) (s : String) : Bool :=
  match kind with
  | .path => (path? s).isSome
  | .number => (number? s).isSome

structure Given where
  option : OptionSpec
  values : List String
  deriving DecidableEq, Repr

structure Reading where
  given : List Given := []
  operands : List String := []
  pending : Option Given := none
  deriving DecidableEq, Repr

namespace Reading

def add (r : Reading) (g : Given) : Option Reading :=
  if !g.values.all (acceptable g.option.name) then none
  else if g.option.arity ≠ .none ∧ g.values.isEmpty then none
  else if g.option.arity ≠ .several ∧ r.given.any (·.option.name == g.option.name) then none
  else some { r with given := r.given ++ [g] }

def settle (r : Reading) : Option Reading :=
  match r.pending with
  | none => some r
  | some g => { r with pending := none }.add g

def taking? (r : Reading) : Option Given :=
  r.pending.filter fun g => g.option.arity = .several ∨ g.values.isEmpty

def addOperand (kinds : List OperandKind) (r : Reading) (s : String) : Option Reading :=
  if (kinds[r.operands.length]?).any (·.accepts s) then
    some { r with operands := r.operands ++ [s] }
  else none

end Reading

inductive Scan where
  | done (reading : Reading)
  | command (reading : Reading) (name : String) (rest : List String)
  | version
  | help
  | misuse
  deriving DecidableEq, Repr

def scanOption (known : List OptionSpec) (r : Reading) (arg : String) (next : Reading → Scan) :
    Scan :=
  match splitOption known arg, r.settle with
  | none, _ | _, none => .misuse
  | some (o, attached), some r =>
    match o.arity, attached with
    | .none, some _ => .misuse
    | .none, none =>
      if o.name = "help" then .help
      else if o.name = "version" then .version
      else (r.add ⟨o, []⟩).elim .misuse next
    | _, some value => (r.add ⟨o, [value]⟩).elim .misuse next
    | _, none => next { r with pending := some ⟨o, []⟩ }

def scanLeading (r : Reading) : List String → Scan
  | [] => .misuse
  | arg :: rest =>
    if arg = "--" then .misuse
    else if looksLikeOption arg then
      scanOption leadingOptions r arg fun r => scanLeading r rest
    else match r.taking? with
      | some g => scanLeading { r with pending := some ⟨g.option, g.values ++ [arg]⟩ } rest
      | none => .command r arg rest

def scanCommand (spec : CommandSpec) (r : Reading) : List String → Scan
  | [] => r.settle.elim .misuse .done
  | arg :: rest =>
    if arg = "--" then
      (r.settle.bind fun r => rest.foldlM (Reading.addOperand spec.operands) r).elim .misuse .done
    else if looksLikeOption arg then
      scanOption spec.options r arg fun r => scanCommand spec r rest
    else match r.taking? with
      | some g =>
        scanCommand spec { r with pending := some ⟨g.option, g.values ++ [arg]⟩ } rest
      | none =>
        match r.settle.bind fun r => r.addOperand spec.operands arg with
        | some r => scanCommand spec r rest
        | none => .misuse

def valueOf (given : List Given) (name : String) : Option String :=
  (given.find? (·.option.name == name)).bind (·.values.head?)

def action? (name : String) (given : List Given) : List String → Option Action
  | [] =>
    if name = "fuzz" then
      let seeds := (given.filter (·.option.name == "seeds")).flatMap (·.values)
      some (.fuzz ((valueOf given "count").bind number?) (valueOf given "out-dir")
        ((valueOf given "seed").bind number?) seeds)
    else none
  | [file] =>
    if name = "parse" then
      some (.parse file (valueOf given "decisions") (given.any (·.option.name == "json")))
    else none
  | [decisions, output] => if name = "generate" then some (.generate decisions output) else none
  | [target, first, last, output] => do
    let first ← number? first
    let last ← number? last
    if name = "delete" then some (.delete target first last output)
    else if name = "abstract" then some (.abstract target first last output)
    else none
  | [target, a, b, c, d, output] => do
    if name = "insert" then
      some (.insert target (← number? a) b (← number? c) (← number? d) output)
    else if name = "swap" then
      some (.swap target (← number? a) (← number? b) (← number? c) (← number? d) output)
    else none
  | [target, first, last, donor, donorFirst, donorLast, output] =>
    if name = "replace" then do
      some (.replace target (← number? first) (← number? last) donor
        (← number? donorFirst) (← number? donorLast) output)
    else none
  | _ => none

def formatNamed : Option String → FormatName
  | some "riff" => .riff
  | _ => .png

def isHelpTopic : List String → Bool
  | [] => true
  | [name] => name == "help" || (commandNamed? name).isSome
  | _ => false

def invocation? (name : String) (before behind : Reading) : Option Invocation := do
  let before ← before.settle
  let action ← action? name behind.given behind.operands
  let shared (option : String) := (valueOf behind.given option).or (valueOf before.given option)
  some ⟨formatNamed (shared "format"), shared "config", (shared "log-level").getD "info", action⟩

def request (args : List String) : Request :=
  match scanLeading {} args with
  | .misuse | .done _ => .misuse
  | .help => .help
  | .version => .version
  | .command before name rest =>
    if name = "help" then if isHelpTopic rest then .help else .misuse
    else match commandNamed? name with
      | none => .misuse
      | some spec =>
        match scanCommand spec {} rest with
        | .help => .help
        | .done behind => (invocation? name before behind).elim .misuse .run
        | _ => .misuse

end DecisionWalk.Command
