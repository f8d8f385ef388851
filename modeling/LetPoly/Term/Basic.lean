import LetPoly.Number.Text

/-!
# Terms — the expressions of the language

Functions take one parameter and application associates to the left.  `Term.text` writes a term on
one line: operands that are not a name or a literal stand in parentheses, except that an application
on the left of another needs none.
-/

namespace LetPoly

/-- An expression. -/
inductive Term where
  | var (name : String)
  | num (value : Float)
  | bool (value : Bool)
  | ite (cond thn els : Term)
  | letIn (name : String) (definition body : Term)
  | lam (param : String) (body : Term)
  | app (fn arg : Term)
deriving DecidableEq, Inhabited

/-- The text of a truth value. -/
def boolText (b : Bool) : String := if b then "True" else "False"

namespace Term

/-- `fn` applied to every argument in turn. -/
def applyAll (fn : Term) (args : List Term) : Term := args.foldl .app fn

/-- Whether a term is a name or a literal. -/
def isAtom : Term → Bool
  | var _ | num _ | bool _ => true
  | _ => false

def isApp : Term → Bool
  | app _ _ => true
  | _ => false

def text : Term → String
  | var x => x
  | num v => Number.text v
  | bool b => boolText b
  | ite c t e => "if " ++ c.text ++ " then " ++ t.text ++ " else " ++ e.text
  | letIn x d b => "let " ++ x ++ " = " ++ d.text ++ " in " ++ b.text
  | lam x b => "\\" ++ x ++ ". " ++ b.text
  | app f a =>
    (if f.isApp || f.isAtom then f.text else "(" ++ f.text ++ ")") ++
      if a.isAtom then " " ++ a.text else " (" ++ a.text ++ ")"

/-- Equality of terms in which numbers are compared as numbers: `0` equals `-0`, and a number that
is no number does not equal itself. -/
def agrees : Term → Term → Bool
  | var x, var y => x == y
  | num v, num w => v == w
  | bool b, bool c => b == c
  | ite c t e, ite c' t' e' => c.agrees c' && t.agrees t' && e.agrees e'
  | letIn x d b, letIn y d' b' => x == y && d.agrees d' && b.agrees b'
  | lam x b, lam y b' => x == y && b.agrees b'
  | app f a, app f' a' => f.agrees f' && a.agrees a'
  | _, _ => false

end Term

end LetPoly
