import ScriptFrontend.CommandLine

/-!
The executable: the command line on a real file system and a real clock.
-/

namespace ScriptFrontend.Executable

open CommandLine

/-- A number of thousandths as a decimal without trailing zeros. -/
def thousandths (n : Nat) : String :=
  let digits := (toString (1000 + n % 1000)).toList.tail
  match (digits.reverse.dropWhile (· = '0')).reverse with
  | [] => toString (n / 1000)
  | fraction => toString (n / 1000) ++ "." ++ String.ofList fraction

def duration (nanoseconds : Nat) : String :=
  if nanoseconds < 1000 then
    toString nanoseconds ++ "ns"
  else if nanoseconds < 1000000 then
    thousandths nanoseconds ++ "µs"
  else if nanoseconds < 1000000000 then
    thousandths (nanoseconds / 1000) ++ "ms"
  else
    thousandths (nanoseconds / 1000000) ++ "s"

def isDirectoryCode : UInt32 :=
  21

def readFailure : IO.Error → ReadFailure
  | .noFileOrDirectory _ _ _ => .missing
  | .permissionDenied _ _ _ => .denied
  | .inappropriateType _ code _ => if code = isDirectoryCode then .isDirectory else .notDirectory
  | .userError _ => .notText
  | e => .other e.toString

def readSource (path : String) : IO (Except ReadFailure String) := do
  try
    return .ok (← IO.FS.readFile path)
  catch e =>
    return .error (readFailure e)

/-- Prints the time since the phase before, and behind the last phase the time since the start. -/
def printTiming (start : Nat) (last : IO.Ref Nat) (phase : Phase) : IO Unit := do
  let now ← IO.monoNanosNow
  let since := [now - (← last.get), now - start]
  for (label, time) in (timingLabels phase).zip since do
    IO.println (label ++ " " ++ duration time)
  last.set now

end ScriptFrontend.Executable

open ScriptFrontend CommandLine Executable in
def main (arguments : List String) : IO UInt32 := do
  let start ← IO.monoNanosNow
  let last ← IO.mkRef start
  let response ← run ⟨readSource, printTiming start last⟩ arguments
  IO.print response.out
  IO.eprint response.err
  return response.status
