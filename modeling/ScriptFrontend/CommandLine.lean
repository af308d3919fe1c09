import ScriptFrontend.Diagnostic
import ScriptFrontend.FrontEnd

/-!
The command line: one argument, the path of a source.

What the command does is said for any host that can read a file and hear of a phase, so it does not
depend on how a host keeps time or files.
-/

namespace ScriptFrontend.CommandLine

def programName : String :=
  "quack"

inductive ReadFailure
  | missing
  | denied
  | notDirectory
  | isDirectory
  | notText
  | other (reason : String)
  deriving DecidableEq, Repr

def ReadFailure.message : ReadFailure → String
  | missing => "No such file or directory (os error 2)"
  | denied => "Permission denied (os error 13)"
  | notDirectory => "Not a directory (os error 20)"
  | isDirectory => "Is a directory (os error 21)"
  | notText => "stream did not contain valid UTF-8"
  | other reason => reason

/-- What the command needs from its surroundings. -/
structure Host (m : Type → Type) where
  read : String → m (Except ReadFailure String)
  done : Phase → m Unit

/-- What the command leaves behind, apart from what the host wrote of the phases. -/
structure Response where
  status : UInt32
  out : String := ""
  err : String := ""
  deriving DecidableEq, Repr

/-- The lines in which a host gives the time that the work took, up to the time. -/
def timingLabels : Phase → List String
  | .tokenized => ["Tokenized in"]
  | .parsed => ["Parsed in"]
  | .analyzed => ["Analyzed in", "Total time:"]

/-- The last name in a path, or the whole path if that is no name. -/
def fileName (path : String) : String :=
  match (path.splitOn "/").reverse.find? fun name => name ≠ "" && name ≠ "." with
  | some ".." => path
  | some name => name
  | none => path

def run {m : Type → Type} [Monad m] (host : Host m) (arguments : List String) : m Response := do
  match arguments with
  | [path] =>
    match ← host.read path with
    | .error failure =>
      return ⟨1, "", "Failed to read " ++ path ++ ": " ++ failure.message ++ "\n"⟩
    | .ok source =>
      match ← frontEnd host.done source (fileName path) with
      | .error d => return ⟨1, d.report path, ""⟩
      | .ok text => return ⟨0, text, ""⟩
  | _ => return ⟨2, "", "Usage: " ++ programName ++ " <file>\n"⟩

end ScriptFrontend.CommandLine
