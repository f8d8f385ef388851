import LetPoly.Session.Log

/-!
# Command line — arguments, and what a run writes

The arguments are read from left to right: what cannot be read, a repeated option and a request for
the version take effect where they stand.  A run is a function of the options and of what reading
the file gave; it has an exit code and two texts.
-/

namespace LetPoly

namespace CommandLine

/-- What the arguments ask for. -/
structure Options where
  file : String
  /-- Whether to list the inferred schemes. -/
  types : Bool := false
  /-- Whether to evaluate without inference. -/
  noCheck : Bool := false
  entry : String := defaultEntry
  level : LogLevel := .silent

inductive Command where
  | run (options : Options)
  | version
  | help
  /-- The arguments cannot be read. -/
  | misuse

/-! ## Arguments -/

/-- The arguments read so far. -/
structure Arguments where
  file : Option String := none
  types : Bool := false
  noCheck : Bool := false
  entry : Option String := none
  verbosity : Nat := 0

namespace Arguments

def finish (a : Arguments) : Command :=
  match a.file with
  | none => .misuse
  | some file =>
    .run {
      file
      types := a.types
      noCheck := a.noCheck
      entry := a.entry.getD defaultEntry
      level := match a.verbosity with | 0 => .silent | 1 => .debug | _ => .trace }

/-- The file; there is only one, and its name is not empty. -/
def withFile (a : Arguments) (file : String) : Option Arguments :=
  if a.file.isSome || file.isEmpty then none else some { a with file := some file }

/-- The definition to start from, given once. -/
def withEntry (a : Arguments) (entry : String) : Option Arguments :=
  if a.entry.isSome then none else some { a with entry := some entry }

/-- Arguments that are not options, whatever they look like. -/
def readPlain (a : Arguments) : List String → Command
  | [] => a.finish
  | arg :: rest =>
    match a.withFile arg with
    | some a => a.readPlain rest
    | none => .misuse

/-- One-letter options behind a dash: the arguments after them, or another command. -/
def readLetters (a : Arguments) : List Char → Except Command Arguments
  | [] => .ok a
  | 'v' :: cs => readLetters { a with verbosity := a.verbosity + 1 } cs
  | 'V' :: _ => .error .version
  | 'h' :: _ => .error .help
  | _ => .error .misuse

/-- Whether an argument is an option rather than a value. -/
def isOption (arg : String) : Bool := arg.startsWith "-" && arg != "-"

/-- An option, or the file.  The option `--entry` without a value in it is not read here. -/
def readOne (a : Arguments) (arg : String) : Except Command Arguments :=
  let given : Option Arguments → Except Command Arguments
    | some a => .ok a
    | none => .error .misuse
  if arg = "--version" then .error .version
  else if arg = "--help" then .error .help
  else if arg = "--types" then given (if a.types then none else some { a with types := true })
  else if arg = "--no-check" then
    given (if a.noCheck then none else some { a with noCheck := true })
  else if arg = "--verbose" then .ok { a with verbosity := a.verbosity + 1 }
  else if arg.startsWith "--entry=" then given (a.withEntry (arg.drop 8).toString)
  else if arg.startsWith "--" then .error .misuse
  else if isOption arg then a.readLetters (arg.toList.drop 1)
  else given (a.withFile arg)

def read (a : Arguments) : List String → Command
  | [] => a.finish
  | "--" :: rest => a.readPlain rest
  | ["--entry"] => .misuse
  | "--entry" :: value :: rest =>
    if isOption value then .misuse
    else
      match a.withEntry value with
      | some a => a.read rest
      | none => .misuse
  | arg :: rest =>
    match a.readOne arg with
    | .ok a => a.read rest
    | .error command => command

end Arguments

def Command.ofArguments (args : List String) : Command := Arguments.read {} args

/-! ## Running -/

/-- Why the source file could not be read. -/
inductive ReadError where
  /-- The system refused, with a reason and its number. -/
  | system (reason : String) (code : Nat)
  | notUtf8

namespace ReadError

def missing : ReadError := system "No such file or directory" 2

def message : ReadError → String
  | system reason code => reason ++ " (os error " ++ toString code ++ ")"
  | notUtf8 => "stream did not contain valid UTF-8"

end ReadError

/-- What a run leaves behind. -/
structure Outcome where
  code : Nat
  stdout : String
  stderr : String

/-- The last lines of a failed run: what went wrong and, if it is known, what caused it. -/
def failureText (message : String) (cause : Option String) : String :=
  "Error: " ++ message ++
    (match cause with
      | some cause => "\n\nCaused by:\n    " ++ "\n    ".intercalate (cause.splitOn "\n")
      | none => "") ++ "\n"

/-- A failure of a stage, named with the stage; a runtime error is also its own cause. -/
def stageFailureText (e : Error) : String :=
  failureText e.message <|
    match e with
    | .runtime e => some e.message
    | _ => none

/-- Each line with its end. -/
def unlines (lines : List String) : String := String.join (lines.map (· ++ "\n"))

/-- Runs a program that was read, in a session with the standard builtins. -/
def Options.runProgram (o : Options) (fuel : Nat) (p : Program) : Option Outcome := do
  let session := Session.start.install .standard
  let steps : SessionM (List (String × Scheme)) := if o.noCheck then pure [] else Session.check p
  let (checked, afterCheck) ← steps.run.run session
  let log (events : List Event) : String :=
    unlines (o.level.lines (installEvents .standard ++ events))
  match checked with
  | .error e =>
    return ⟨1, "", log (session.checkEvents p) ++ failureText e.reason none⟩
  | .ok schemes =>
    let listing := if o.types then unlines (schemes.map fun s => s.1 ++ " : " ++ s.2.text) else ""
    let events :=
      if o.level = .silent then []
      else
        (if o.noCheck then [] else session.checkEvents p) ++
          afterCheck.evaluateEvents fuel p o.entry
    let (result, _) ← (Session.evaluate fuel p o.entry).run.run afterCheck
    match result with
    | .ok v => return ⟨0, listing ++ v.text ++ "\n", log events⟩
    | .error e =>
      let failure := if o.noCheck then stageFailureText e else failureText e.reason none
      return ⟨1, listing, log events ++ failure⟩

/-- Runs what the file holds, or fails if it could not be read. -/
def Options.run (o : Options) (fuel : Nat) (content : Except ReadError String) : Option Outcome :=
  match content with
  | .error e => some ⟨1, "", failureText ("failed to read " ++ o.file) (some e.message)⟩
  | .ok source =>
    match parseProgram source with
    | .error e => some ⟨1, "", stageFailureText e⟩
    | .ok p => o.runProgram fuel p

def versionText : String := "hindley 0.1.0\n"

def helpText : String :=
  "Run a program with Hindley-Milner type inference\n\n" ++
    "Usage: hindley [OPTIONS] <FILE>\n\n" ++
    "Arguments:\n  <FILE>  Source file to run\n\n" ++
    "Options:\n" ++
    "      --types          Print the inferred scheme of every binding\n" ++
    "      --no-check       Evaluate without type checking\n" ++
    "      --entry <ENTRY>  Binding to start evaluation from [default: main]\n" ++
    "  -v, --verbose...     Increase log verbosity (-v debug, -vv trace)\n" ++
    "  -h, --help           Print help\n" ++
    "  -V, --version        Print version\n"

end CommandLine

end LetPoly
