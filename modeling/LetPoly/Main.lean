import LetPoly.CommandLine

/-!
# The program — reads a file, runs it, and writes the outcome
-/

namespace LetPoly

/-- More levels than any stack holds. -/
def stackFuel : Nat := 1000000000000000000

def readSource (path : String) : IO (Except CommandLine.ReadError String) := do
  try
    let bytes ← IO.FS.readBinFile path
    match String.fromUTF8? bytes with
    | some source => return .ok source
    | none => return .error .notUtf8
  catch
    | .noFileOrDirectory _ _ _ => return .error .missing
    | .permissionDenied _ _ _ => return .error (.system "Permission denied" 13)
    | .inappropriateType _ _ _ => return .error (.system "Is a directory" 21)
    | e => return .error (.system (toString e) 5)

end LetPoly

def main (args : List String) : IO UInt32 := do
  match LetPoly.CommandLine.Command.ofArguments args with
  | .version =>
    IO.print LetPoly.CommandLine.versionText
    return 0
  | .help =>
    IO.print LetPoly.CommandLine.helpText
    return 0
  | .misuse =>
    IO.eprint LetPoly.CommandLine.helpText
    return 2
  | .run options =>
    let content ← LetPoly.readSource options.file
    match options.run LetPoly.stackFuel content with
    | some outcome =>
      IO.print outcome.stdout
      IO.eprint outcome.stderr
      return outcome.code.toUInt32
    | none =>
      IO.eprintln "Error: evaluation nests too deep"
      return 1
