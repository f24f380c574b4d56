import DecisionWalk.Command.Run

/-!
# The command line

Runs a command on the file system. What it printed goes to the output once it is
done, and the message of a failure goes to the error output.
-/

set_option autoImplicit false

namespace DecisionWalk

def DiskError.ofIO : IO.Error → DiskError
  | .noFileOrDirectory .. => .notFound
  | .alreadyExists .. => .alreadyExists
  | .inappropriateType _ code details => ofCode code details
  | .invalidArgument _ code details => ofCode code details
  | .resourceExhausted _ code details => ofCode code details
  | e => .other (toString e)
where
  ofCode (code : UInt32) (details : String) : DiskError :=
    if code = 20 ∨ 0 - code = 20 then .notADirectory
    else if code = 21 ∨ 0 - code = 21 then .isADirectory
    else if code = 28 ∨ 0 - code = 28 then .noSpace
    else if code = 36 ∨ 0 - code = 36 then .nameTooLong
    else .other details

def attempt {α : Type} (x : IO α) : IO (Except DiskError α) := do
  match ← x.toBaseIO with
  | .ok a => pure (.ok a)
  | .error e => pure (.error (.ofIO e))

def isRealDir (path : String) : IO Bool := do
  match ← attempt (do (← IO.FS.realPath path).isDir) with
  | .ok b => pure b
  | .error _ => pure false

def existsThere (path : String) : IO Bool := do
  match ← attempt (do (← IO.FS.realPath path).pathExists) with
  | .ok b => pure b
  | .error _ => pure false

instance : Disk IO where
  read path := attempt do
    let data ← IO.FS.readBinFile path
    pure data.data.toList
  write path bytes := attempt (IO.FS.writeBinFile path ⟨bytes.toArray⟩)
  makeDir path := attempt (IO.FS.createDir path)
  isFile path := do pure ((← existsThere path) && !(← isRealDir path))
  isDir := isRealDir
  holds := existsThere
  children path := attempt do
    let entries ← (← IO.FS.realPath path).readDir
    pure (entries.toList.map (·.fileName))

end DecisionWalk

open DecisionWalk

def main (args : List String) : IO UInt32 := do
  let start ← IO.monoNanosNow
  let entropy := leValue (← IO.getRandomBytes 8).data.toList
  let elapsed : IO String := do pure (Text.duration ((← IO.monoNanosNow) - start))
  let outcome ← Command.run ⟨entropy, elapsed⟩ args
  IO.print outcome.output
  if let some message := outcome.message then IO.eprintln ("ERROR " ++ message)
  pure (UInt32.ofNat outcome.status)
