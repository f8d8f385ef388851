import LetPoly.Map.Sorted
import LetPoly.Term.Basic

/-!
# Values — what terms evaluate to

A closure holds the scope in which its parameter is bound, and no two closures hold the same one, so
closures are told apart by their scope.  Natives are functions of the host; each one made has a
number of its own.
-/

namespace LetPoly

/-- Why evaluation stops without a value.  Values are named by their text. -/
inductive RuntimeError where
  | unbound (name : String)
  | notABool (found : String)
  | notCallable (found : String)
  | typeMismatch (expected found : String)
  | missingEntry (name : String)
  | duplicateBinding (name : String)
deriving DecidableEq

def RuntimeError.message : RuntimeError → String
  | unbound x => "LookupError: variable " ++ x ++ " is not defined"
  | notABool v => "RuntimeError: condition " ++ v ++ " is not a Bool"
  | notCallable v => "RuntimeError: " ++ v ++ " is not a function"
  | typeMismatch t v => "RuntimeError: expected a " ++ t ++ ", found " ++ v
  | missingEntry x => "RuntimeError: no binding for " ++ x ++ " defined"
  | duplicateBinding x => "DuplicateBindingError: multiple definitions for '" ++ x ++ "'"

/-- The number of a scope in the store. -/
abbrev ScopeId := Nat

/-- An operation on two numbers, one taken after the other. -/
inductive NumOp where
  | add | sub | mul | div | eq | lt | le
deriving DecidableEq

/-- A function of the host, over the values that it may hold. -/
inductive Native (α : Type) where
  /-- Takes the first number of an operation. -/
  | binary (op : NumOp)
  /-- Takes the second number of an operation. -/
  | binaryWith (op : NumOp) (first : Float)
  | not
  | isNonpositive
  | isZero
  | decrement
  | increment
  /-- Gives back its argument. -/
  | same
  | double
  /-- Takes the value that the resulting native always gives. -/
  | const
  /-- Gives `value` whatever its argument. -/
  | always (value : α)
  /-- Fails as if its argument were a condition. -/
  | reject

/-- A value. -/
inductive Value where
  | num (value : Float)
  | bool (value : Bool)
  | closure (param : String) (body : Term) (scope : ScopeId)
  | native (id : Nat) (fn : Native Value)

namespace Value

def text : Value → String
  | num v => Number.text v
  | bool b => boolText b
  | closure x _ _ => "<function \\" ++ x ++ ">"
  | native _ _ => "<native>"

def isCallable : Value → Bool
  | closure _ _ _ | native _ _ => true
  | _ => false

def asNum : Value → Except RuntimeError Float
  | num v => .ok v
  | v => .error (.typeMismatch "Num" v.text)

def asBool : Value → Except RuntimeError Bool
  | bool b => .ok b
  | v => .error (.typeMismatch "Bool" v.text)

/-- Numbers and truth values are compared as such, functions by identity. -/
def agrees : Value → Value → Bool
  | num v, num w => v == w
  | bool b, bool c => b == c
  | closure _ _ ρ, closure _ _ ρ' => ρ == ρ'
  | native i _, native j _ => i == j
  | _, _ => false

end Value

/-- The result of an operation on two numbers. -/
def NumOp.eval : NumOp → Float → Float → Value
  | add, a, b => .num (a + b)
  | sub, a, b => .num (a - b)
  | mul, a, b => .num (a * b)
  | div, a, b => .num (a / b)
  | eq, a, b => .bool (a == b)
  | lt, a, b => .bool (a < b)
  | le, a, b => .bool (a ≤ b)

end LetPoly
