import LetPoly.Machine.Eval
import LetPoly.Ty.Scheme

/-!
# Builtins — host functions with the schemes that inference assumes for them

Installing builtins binds each name twice: to a new native in a scope and to its scheme in a
context.
-/

namespace LetPoly

/-- A host function under a name, with its scheme. -/
structure Builtin where
  name : String
  scheme : Scheme
  fn : Native Value

/-- Builtins in the order in which they were defined, no name twice. -/
abbrev Builtins := List Builtin

namespace Builtins

/-- Adds a builtin at the end; an earlier one of the same name goes away. -/
def define (bs : Builtins) (b : Builtin) : Builtins := bs.filter (·.name != b.name) ++ [b]

def scheme? (bs : Builtins) (name : String) : Option Scheme :=
  (bs.find? (·.name == name)).map (·.scheme)

/-- Binds every builtin to a new native in the scope `ρ`. -/
def installIn (bs : Builtins) (ρ : ScopeId) (st : Store) : Store :=
  bs.foldl (fun st b =>
    { st.define ρ b.name (.native st.natives b.fn) with natives := st.natives + 1 }) st

/-- The context with the schemes of the builtins. -/
def declareIn (bs : Builtins) (Γ : Context) : Context :=
  bs.foldl (fun Γ b => Γ.insert b.name b.scheme) Γ

/-- Arithmetic and comparison of numbers, and negation. -/
def standard : Builtins :=
  let onNums (t : Ty) : Scheme := .mono (.arrow .num (.arrow .num t))
  let onNum (t : Ty) : Scheme := .mono (.arrow .num t)
  [⟨"add", onNums .num, .binary .add⟩,
    ⟨"sub", onNums .num, .binary .sub⟩,
    ⟨"mul", onNums .num, .binary .mul⟩,
    ⟨"div", onNums .num, .binary .div⟩,
    ⟨"eq", onNums .bool, .binary .eq⟩,
    ⟨"lt", onNums .bool, .binary .lt⟩,
    ⟨"le", onNums .bool, .binary .le⟩,
    ⟨"not", .mono (.arrow .bool .bool), .not⟩,
    ⟨"le0", onNum .bool, .isNonpositive⟩,
    ⟨"eq0", onNum .bool, .isZero⟩,
    ⟨"decr", onNum .num, .decrement⟩,
    ⟨"incr", onNum .num, .increment⟩]

end Builtins

end LetPoly
