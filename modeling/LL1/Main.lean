/-
# The program

The program reads its arguments, the grammar file and, where the sentences have no seed, a random
seed. Everything else is decided by `Options.response`.
-/
import LL1.Command.Response

namespace LL1

/-- The wording of an error of the operating system, with its number. -/
def osErrorMessage (details : String) (code : UInt32) : String :=
  details ++ " (os error " ++ toString code ++ ")"

/-- The failure that an error of the operating system stands for. -/
def readFailureOf : IO.Error → ReadFailure
  | .noFileOrDirectory _ code details => ⟨.notFound, osErrorMessage details code⟩
  | .permissionDenied _ code details => ⟨.other, osErrorMessage details code⟩
  | .inappropriateType _ code details => ⟨.other, osErrorMessage details code⟩
  | e => ⟨.other, toString e⟩

/-- The bytes of a file. -/
def readBytes (path : String) : IO (Except ReadFailure (List UInt8)) := do
  try
    let bytes ← IO.FS.readBinFile path
    return .ok bytes.toList
  catch e =>
    return .error (readFailureOf e)

/-- A seed that cannot be foreseen. -/
def randomSeed : IO UInt64 := do
  let bytes ← IO.getRandomBytes 8
  return bytes.toList.foldl (fun n b => n * 256 + b.toUInt64) 0

/-- Prints a response. -/
def Response.print (r : Response) : IO Unit := do
  (← IO.getStdout).putStr (textOfLines r.output)
  (← IO.getStderr).putStr (textOfLines r.errors)

end LL1

/-- Runs the program. -/
def main (args : List String) : IO UInt32 := do
  match LL1.Request.ofArguments args with
  | .error e =>
    IO.eprintln ("error: " ++ e.message)
    return LL1.usageExitCode
  | .ok .version =>
    IO.println LL1.versionLine
    return 0
  | .ok (.work options) =>
    let contents ← LL1.readBytes options.file
    let response := options.response contents (← LL1.randomSeed)
    response.print
    return response.exitCode
