import DecisionWalk.Corpus.Basic
import DecisionWalk.Disk.Basic
import DecisionWalk.Mutation.Basic

/-!
# Why a command fails
-/

set_option autoImplicit false

namespace DecisionWalk.Command

inductive Failure where
  | read (path : String) (error : DiskError)
  | write (path : String) (error : DiskError)
  | createDirs (path : String) (error : DiskError)
  | readSettings (path : String) (error : DiskError)
  | malformedSettings (path : String)
  | invalidFile (path format : String) (error : WalkError)
  | invalidDecisions (path : String) (error : WalkError)
  | mutation (error : MutationError)
  | corpus (error : CorpusError)
  | noSeed (paths : List String) (format : String)
  deriving DecidableEq, Repr

namespace Failure

def message : Failure → String
  | .read path error => "Failed to read " ++ Text.quoted path ++ ": " ++ error.message
  | .write path error => "Failed to write " ++ Text.quoted path ++ ": " ++ error.message
  | .createDirs path error =>
    "Failed to create output directory " ++ Text.quoted path ++ ": " ++ error.message
  | .readSettings path error =>
    "Failed to read config file at " ++ Text.quoted path ++ ": " ++ error.message
  | .malformedSettings path => "Failed to parse TOML from config file " ++ Text.quoted path
  | .invalidFile path format error =>
    Text.quoted path ++ " is not a valid " ++ format ++ " file: " ++ error.message
  | .invalidDecisions path error =>
    "Failed to generate from " ++ Text.quoted path ++ ": " ++ error.message
  | .mutation (.walk error) => (MutationError.walk error).message ++ ": " ++ error.message
  | .mutation error => error.message
  | .corpus error => error.message
  | .noSeed paths format =>
    "no seed file under [" ++ String.intercalate ", " (paths.map Text.quoted) ++
      "] is a valid " ++ format ++ " file"

def exitCode : Failure → Int
  | .mutation error => error.exitCode
  | .invalidFile _ _ error => error.exitCode
  | .invalidDecisions _ error => error.exitCode
  | _ => -1

end Failure

end DecisionWalk.Command
