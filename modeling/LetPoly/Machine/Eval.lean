import LetPoly.Machine.Store
import LetPoly.Term.Program

/-!
# Evaluation — strict, with scopes that closures share

A `let` binds its name in a new scope.  A lambda makes a new scope for its parameter once, and every
application of that closure binds the parameter there, so applications of one closure share it.  In
an application the function comes first, and is refused before the argument is evaluated if it
cannot be called.

Evaluation may go on for ever: `eval` takes a bound on the depth of the recursion, and gives `none`
when it is reached.  A run that fails keeps what it changed in the store.
-/

namespace LetPoly

/-- A step of evaluation: out of fuel, or a value or an error with the store left behind. -/
abbrev EvalM := ExceptT RuntimeError (StateT Store Option)

namespace EvalM

variable {α : Type}

/-- The bound on the depth was reached. -/
def outOfFuel : EvalM α := fun _ => none

/-- The outcome of a step from a given store. -/
def runFrom (step : EvalM α) (st : Store) : Option (Except RuntimeError α × Store) :=
  step.run.run st

/-- A new scope inside `parent`, or a new root. -/
def newScope (parent : Option ScopeId) : EvalM ScopeId :=
  modifyGet fun st => (st.nextScope, st.addScope parent)

def define (ρ : ScopeId) (name : String) (v : Value) : EvalM Unit :=
  modify (·.define ρ name v)

def lookup (ρ : ScopeId) (name : String) : EvalM Value := do
  match (← get).lookup? ρ name with
  | some v => pure v
  | none => throw (.unbound name)

/-- A value for a host function, with a number of its own. -/
def newNative (fn : Native Value) : EvalM Value :=
  modifyGet fun st => (.native st.natives fn, { st with natives := st.natives + 1 })

end EvalM

open EvalM

/-- Applies a host function. -/
def Native.call (fn : Native Value) (arg : Value) : EvalM Value :=
  match fn with
  | binary op => do newNative (.binaryWith op (← arg.asNum))
  | binaryWith op first => do return op.eval first (← arg.asNum)
  | not => do return .bool !(← arg.asBool)
  | isNonpositive => do return .bool ((← arg.asNum) ≤ 0)
  | isZero => do return .bool ((← arg.asNum) == 0)
  | decrement => do return .num ((← arg.asNum) - 1)
  | increment => do return .num ((← arg.asNum) + 1)
  | same => return arg
  | double => do return .num ((← arg.asNum) * 2)
  | const => newNative (.always arg)
  | always v => return v
  | reject => throw (.notABool arg.text)

/-- Applies a value to an argument; `run` evaluates the bodies of closures. -/
def applyWith (run : ScopeId → Term → EvalM Value) (fn arg : Value) : EvalM Value :=
  match fn with
  | .closure param body ρ => do
    define ρ param arg
    run ρ body
  | .native _ f => f.call arg
  | v => throw (.notCallable v.text)

/-- Evaluates a term in a scope, to a depth of at most `fuel`. -/
def eval : (fuel : Nat) → ScopeId → Term → EvalM Value
  | 0, _, _ => outOfFuel
  | fuel + 1, ρ, e =>
    match e with
    | .num v => return .num v
    | .bool b => return .bool b
    | .var x => lookup ρ x
    | .ite cond thn els => do
      match ← eval fuel ρ cond with
      | .bool true => eval fuel ρ thn
      | .bool false => eval fuel ρ els
      | v => throw (.notABool v.text)
    | .letIn x definition body => do
      -- the definition does not see its own name
      let v ← eval fuel ρ definition
      let inner ← newScope (some ρ)
      define inner x v
      eval fuel inner body
    | .lam x body => return .closure x body (← newScope (some ρ))
    | .app fn arg => do
      let f ← eval fuel ρ fn
      if f.isCallable then
        let a ← eval fuel ρ arg
        applyWith (eval fuel) f a
      else
        throw (.notCallable f.text)

/-- Applies a value to an argument, to a depth of at most `fuel`. -/
def apply (fuel : Nat) (fn arg : Value) : EvalM Value := applyWith (eval fuel) fn arg

/-! ## Programs -/

/-- Evaluates the definitions in order, except the one of `entry`, and binds each in the scope `ρ`
before the next. -/
def defineAll (fuel : Nat) (ρ : ScopeId) (entry : String) : List Binding → EvalM Unit
  | [] => pure ()
  | b :: bs => do
    if b.name ≠ entry then
      let v ← eval fuel ρ b.term
      define ρ b.name v
    defineAll fuel ρ entry bs

/-- Evaluates a program from the definition of `entry`, once all others are bound in `ρ`. -/
def Program.eval (p : Program) (fuel : Nat) (ρ : ScopeId) (entry : String) : EvalM Value :=
  match p.get? entry with
  | none => throw (.missingEntry entry)
  | some main => do
    defineAll fuel ρ entry p.bindings
    LetPoly.eval fuel ρ main

end LetPoly
