/-!
# Types — variables, constructors and functions

`Ty.vars` lists the variables of a type as they are met from left to right, with repetitions;
`Ty.varsInOrder` keeps the first occurrence of each.  `Ty.text` writes a type with as few
parentheses as its arrows need: only an arrow on the left of another one has them.
-/

namespace LetPoly

/-- A type.  Variables are numbered; constructors are known by name. -/
inductive Ty where
  | var (id : Nat)
  | con (name : String)
  | arrow (dom cod : Ty)
deriving DecidableEq, Inhabited

namespace Ty

/-- The type of numbers. -/
def num : Ty := .con "Num"

/-- The type of truth values. -/
def bool : Ty := .con "Bool"

/-- The number of constructors in a type. -/
def size : Ty → Nat
  | var _ | con _ => 1
  | arrow a b => a.size + b.size + 1

def isArrow : Ty → Bool
  | arrow _ _ => true
  | _ => false

/-! ## Variables -/

/-- Every occurrence of a variable, from left to right. -/
def vars : Ty → List Nat
  | var v => [v]
  | con _ => []
  | arrow a b => a.vars ++ b.vars

/-- The variables of a type in the order in which they first occur. -/
def varsInOrder (t : Ty) : List Nat := t.vars.eraseDups

/-- Whether the variable `v` occurs in a type. -/
def occurs (v : Nat) : Ty → Bool
  | var w => v == w
  | con _ => false
  | arrow a b => a.occurs v || b.occurs v

theorem occurs_iff_mem_vars {v : Nat} {t : Ty} : t.occurs v = true ↔ v ∈ t.vars := by
  induction t with
  | var w => simp [occurs, vars]
  | con c => simp [occurs, vars]
  | arrow a b iha ihb => simp [occurs, vars, iha, ihb]

@[simp]
theorem mem_varsInOrder {v : Nat} {t : Ty} : v ∈ t.varsInOrder ↔ v ∈ t.vars :=
  List.mem_eraseDups

/-! ## Text -/

/-- The text of a variable: `t` and its number. -/
def varText (v : Nat) : String := "t" ++ toString v

def text : Ty → String
  | var v => varText v
  | con c => c
  | arrow a b => (if a.isArrow then "(" ++ a.text ++ ")" else a.text) ++ " -> " ++ b.text

end Ty

end LetPoly
