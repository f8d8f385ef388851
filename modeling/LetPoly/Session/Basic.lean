import LetPoly.Parse.Grammar
import LetPoly.Prelude
import LetPoly.Source.Lexing
import LetPoly.Ty.Inference

/-!
# Sessions — programs checked and run against one context and one store

Inference takes the definitions of a program in order, each in the context of those before it.
Whatever a step changes before it fails stays changed: schemes found before a type error, and names
bound before a runtime error.
-/

namespace LetPoly

/-- Any failure on the way from source text to a value. -/
inductive Error where
  | lex (e : LexError)
  | parse (e : ParseError)
  | infer (e : InferError)
  | runtime (e : RuntimeError)

namespace Error

/-- The text of the failure itself. -/
def reason : Error → String
  | lex e => e.message
  | parse e => e.text
  | infer e => e.message
  | runtime e => e.message

/-- The text of the failure with the stage at which it arose. -/
def message : Error → String
  | lex e => "lexing failed: " ++ e.message
  | parse e => e.text
  | infer e => "type error: " ++ e.message
  | runtime e => "runtime error: " ++ e.message

end Error

/-- The program in a source text. -/
def parseProgram (source : String) : Except Error Program := do
  let tokens ← (lex source).mapError .lex
  let bindings ← (Grammar.program.run (.ofTokens tokens)).1.mapError .parse
  (Program.ofBindings bindings).mapError fun name => .runtime (.duplicateBinding name)

/-- Infers definitions in order, and adds the scheme of each to the context of the next. -/
def inferAll (Γ : Context) : List Binding → Except InferError (List (String × Scheme)) × Context
  | [] => (.ok [], Γ)
  | b :: bs =>
    match infer Γ b.term with
    | .error e => (.error e, Γ)
    | .ok σ =>
      let (schemes, Γ') := inferAll (Γ.insert b.name σ) bs
      (schemes.map ((b.name, σ) :: ·), Γ')

/-- The definition that a program starts from unless told otherwise. -/
def defaultEntry : String := "main"

/-- A context and a store that grow together. -/
structure Session where
  context : Context := ∅
  store : Store
  /-- The scope in which programs bind their names. -/
  global : ScopeId

/-- A step of a session: out of fuel, or a result or an error with the session left behind. -/
abbrev SessionM := ExceptT Error (StateT Session Option)

namespace Session

/-- A session without any names. -/
def start : Session := { store := Store.addScope {} none, global := 0 }

def install (s : Session) (bs : Builtins) : Session :=
  { s with context := bs.declareIn s.context, store := bs.installIn s.global s.store }

/-- Infers a program and keeps its schemes in the context. -/
def check (p : Program) : SessionM (List (String × Scheme)) := do
  let s ← get
  let (schemes, Γ) := inferAll s.context p.bindings
  set { s with context := Γ }
  MonadExcept.ofExcept (schemes.mapError .infer)

/-- Evaluates a program from the definition of `entry`, without inference. -/
def evaluate (fuel : Nat) (p : Program) (entry : String) : SessionM Value := do
  let s ← get
  match (p.eval fuel s.global entry).runFrom s.store with
  | none => fun _ => none
  | some (result, store) =>
    set { s with store }
    MonadExcept.ofExcept (result.mapError .runtime)

/-- Infers a program and then evaluates it from the definition of `entry`. -/
def run (fuel : Nat) (p : Program) (entry : String) : SessionM Value := do
  let _ ← check p
  evaluate fuel p entry

/-- Reads, infers and evaluates a program. -/
def runSource (fuel : Nat) (source : String) : SessionM Value := do
  let p ← parseProgram source
  run fuel p defaultEntry

end Session

end LetPoly
