import LetPoly.Ty.Subst

/-!
# Type schemes — types with quantified variables, and contexts of them

A scheme quantifies the variables in `vars`; any other variable of its body is free.  `vars` may
repeat an id or hold one that does not occur: `Scheme.instantiate` gives every entry a variable of
its own, and `Scheme.compact` drops what does not occur.  No renaming is done to avoid capture.
-/

namespace LetPoly

/-- The type `body` with the variables `vars` quantified. -/
structure Scheme where
  vars : List Nat
  body : Ty
deriving DecidableEq, Inhabited

/-- The schemes of the names in scope. -/
abbrev Context := SortedMap String Scheme

namespace Scheme

/-- A type without quantified variables. -/
def mono (t : Ty) : Scheme := ⟨[], t⟩

/-- The occurrences of variables that are not quantified. -/
def freeVars (σ : Scheme) : List Nat := σ.body.vars.filter fun v => !σ.vars.contains v

/-- Applies `s` to the free variables of the body. -/
def apply (s : Subst) (σ : Scheme) : Scheme := ⟨σ.vars, (s.without σ.vars).apply σ.body⟩

def text (σ : Scheme) : String :=
  if σ.vars.isEmpty then σ.body.text
  else "forall " ++ " ".intercalate (σ.vars.map Ty.varText) ++ ". " ++ σ.body.text

end Scheme

namespace Context

/-- The occurrences of free variables in the schemes of a context. -/
def freeVars (Γ : Context) : List Nat := Γ.values.flatMap Scheme.freeVars

def apply (s : Subst) (Γ : Context) : Context := Γ.mapVal (Scheme.apply s)

/-- The least id above every free variable of a context. -/
def nextVar (Γ : Context) : Nat := Γ.freeVars.foldr (fun v n => max (v + 1) n) 0

end Context

namespace Scheme

/-- Quantifies the variables of `t` that are not free in `Γ`, in increasing order. -/
def generalize (Γ : Context) (t : Ty) : Scheme :=
  let free := Γ.freeVars
  ⟨SortedMap.increasing (t.vars.filter fun v => !free.contains v), t⟩

/-- The substitution that sends the quantified variables, in order, to the ids from `next` on; of a
repeated variable the last one counts. -/
def instantiation (σ : Scheme) (next : Nat) : Subst :=
  .ofList ((σ.vars.zipIdx next).map fun p => (p.1, .var p.2))

/-- The body with a new variable for each entry of `vars`, numbered from `next` on. -/
def instantiate (σ : Scheme) (next : Nat) : Ty := (σ.instantiation next).apply σ.body

/-- The `k` smallest ids outside `avoid`.  Of the first `k + avoid.length` ids no more than
`avoid.length` are lost. -/
def smallestUnused (avoid : List Nat) (k : Nat) : List Nat :=
  ((List.range (k + avoid.length)).filter fun v => !avoid.contains v).take k

/-- The quantified variables that occur in the body, in the order in which they first do. -/
def occurring (σ : Scheme) : List Nat := σ.body.varsInOrder.filter σ.vars.contains

/-- Renumbers the quantified variables with the smallest ids that are not free in the scheme, in the
order in which they occur. -/
def compact (σ : Scheme) : Scheme :=
  let old := σ.occurring
  let new := smallestUnused (SortedMap.increasing σ.freeVars) old.length
  ⟨new, Subst.apply (.ofList (old.zip (new.map .var))) σ.body⟩

end Scheme

end LetPoly
