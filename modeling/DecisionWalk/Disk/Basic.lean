import DecisionWalk.Text

/-!
# Disks

A disk holds files and directories under path names. Commands are written
against this interface, so that they run on a real file system and can be
reasoned about on a `FileTree`.
-/

set_option autoImplicit false

namespace DecisionWalk

inductive DiskError where
  | notFound
  | alreadyExists
  | notADirectory
  | isADirectory
  | nameTooLong
  | noSpace
  | zeroInName
  | notText
  | other (reason : String)
  deriving DecidableEq, Repr

def DiskError.message : DiskError → String
  | .notFound => "No such file or directory (os error 2)"
  | .alreadyExists => "File exists (os error 17)"
  | .notADirectory => "Not a directory (os error 20)"
  | .isADirectory => "Is a directory (os error 21)"
  | .noSpace => "No space left on device (os error 28)"
  | .nameTooLong => "File name too long (os error 36)"
  | .zeroInName => "file name contained an unexpected NUL byte"
  | .notText => "stream did not contain valid UTF-8"
  | .other reason => reason

class Disk (m : Type → Type) where
  read : String → m (Except DiskError Bytes)
  write : String → Bytes → m (Except DiskError Unit)
  makeDir : String → m (Except DiskError Unit)
  isFile : String → m Bool
  isDir : String → m Bool
  holds : String → m Bool
  children : String → m (Except DiskError (List String))

namespace Disk

def join (dir name : String) : String :=
  if dir.isEmpty then name
  else if dir.endsWith "/" then dir ++ name
  else dir ++ "/" ++ name

def namesOf (path : String) : List String := (path.toList.splitOn '/').map String.ofList

def leadingTo (path : String) : List String :=
  let names := (namesOf path).filter fun name => name ≠ "" ∧ name ≠ "."
  let above := (List.range names.length).reverse.map fun n =>
    String.intercalate "/" (names.take n)
  if path.startsWith "/" then above.map ("/" ++ ·) else above.filter (!·.isEmpty)

variable {m : Type → Type} [Monad m] [Disk m]

def ensureDir (path : String) : m (Except DiskError Unit) := do
  match ← makeDir path with
  | .error .alreadyExists =>
    if ← isDir path then pure (.ok ()) else pure (.error .alreadyExists)
  | result => pure result

def ensureDirs : List String → m (Except DiskError Unit)
  | [] => pure (.ok ())
  | path :: above => do
    match ← ensureDir path with
    | .error .notFound =>
      match ← ensureDirs above with
      | .error e => pure (.error e)
      | .ok () => ensureDir path
    | result => pure result

def createDirs (path : String) : m (Except DiskError Unit) :=
  if path.isEmpty then pure (.ok ()) else ensureDirs (path :: leadingTo path)

end Disk

end DecisionWalk
