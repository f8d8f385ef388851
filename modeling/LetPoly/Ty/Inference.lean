import LetPoly.Term.Basic
import LetPoly.Ty.Scheme
import LetPoly.Ty.Unifier

/-!
# Type inference — principal schemes of terms

`inferTerm` returns the type of a term with the substitution found on the way; each later step works
in the context under the substitution of the earlier ones.  The state of a run survives a failure:
it holds the next unused variable and the equations posed so far.  `infer` runs it above the free
variables of the context and quantifies what the context does not fix.
-/

namespace LetPoly

/-- Why a term has no type. -/
inductive InferError where
  | unbound (name : String)
  | conditionNotBool (found : Ty)
  | branchesDiffer (thn els : Ty)
  | cannotUnify (left right : Ty)
  | infiniteType (var : Nat) (ty : Ty)
deriving DecidableEq

namespace InferError

def ofUnify : UnifyError → InferError
  | .mismatch l r => cannotUnify l r
  | .occurs v t => infiniteType v t

def message : InferError → String
  | unbound x => "unbound variable '" ++ x ++ "'"
  | conditionNotBool t => "if condition must be Bool, found " ++ t.text
  | branchesDiffer t e => "if branches have different types: " ++ t.text ++ " and " ++ e.text
  | cannotUnify l r => "cannot unify " ++ l.text ++ " with " ++ r.text
  | infiniteType v t => "cannot construct infinite type: " ++ Ty.varText v ++ " = " ++ t.text

end InferError

/-! ## Runs -/

/-- The state of an inference run. -/
structure InferState where
  /-- The next unused type variable. -/
  next : Nat := 0
  /-- The pairs of types that were to be made equal, in order. -/
  posed : Array (Ty × Ty) := #[]

/-- A step of an inference run.  The state is kept also when the step fails. -/
abbrev InferM := ExceptT InferError (StateM InferState)

/-- A run whose variables lie above every free variable of `Γ`. -/
def InferState.above (Γ : Context) : InferState := { next := Γ.nextVar }

/-- A new type variable. -/
def freshVar : InferM Ty :=
  modifyGet fun st => (.var st.next, { st with next := st.next + 1 })

/-- A copy of a scheme's body with new variables for the quantified ones. -/
def freshInstance (σ : Scheme) : InferM Ty :=
  modifyGet fun st => (σ.instantiate st.next, { st with next := st.next + σ.vars.length })

/-- Makes two types equal, or fails with what `blame` says of the reason. -/
def equate (t u : Ty) (blame : UnifyError → InferError) : InferM Subst := do
  modify fun st => { st with posed := st.posed.push (t, u) }
  match unify t u with
  | .ok s => pure s
  | .error e => throw (blame e)

/-! ## Inference -/

/-- The type of a term and the substitution that its parts demand. -/
def inferTerm (Γ : Context) : Term → InferM (Ty × Subst)
  | .num _ => pure (.num, ∅)
  | .bool _ => pure (.bool, ∅)
  | .var x =>
    match Γ.get? x with
    | some σ => return (← freshInstance σ, ∅)
    | none => throw (.unbound x)
  | .ite cond thn els => do
    let (condTy, s₁) ← inferTerm Γ cond
    let s₂ ← equate condTy .bool fun _ => .conditionNotBool (s₁.apply condTy)
    let s := s₂.compose s₁
    let (thnTy, s₃) ← inferTerm (Γ.apply s) thn
    let s := s₃.compose s
    let (elsTy, s₄) ← inferTerm (Γ.apply s) els
    let s := s₄.compose s
    let thnTy := s.apply thnTy
    let elsTy := s.apply elsTy
    let s₅ ← equate thnTy elsTy fun _ => .branchesDiffer thnTy elsTy
    let s := s₅.compose s
    return (s.apply thnTy, s)
  | .letIn x definition body => do
    let (defTy, s₁) ← inferTerm Γ definition
    -- a shadowed binding of `x` does not hold back what is generalized
    let Γ₁ := Context.apply s₁ (Γ.erase x)
    let (bodyTy, s₂) ← inferTerm (Γ₁.insert x (.generalize Γ₁ (s₁.apply defTy))) body
    return (bodyTy, s₂.compose s₁)
  | .lam x body => do
    let paramTy ← freshVar
    let (bodyTy, s) ← inferTerm (Γ.insert x (.mono paramTy)) body
    return (.arrow (s.apply paramTy) bodyTy, s)
  | .app fn arg => do
    -- the variable of the result is older than those of the two parts
    let resultTy ← freshVar
    let (fnTy, s₁) ← inferTerm Γ fn
    let (argTy, s₂) ← inferTerm (Γ.apply s₁) arg
    let s₃ ← equate (s₂.apply fnTy) (.arrow argTy resultTy) .ofUnify
    return (s₃.apply resultTy, (s₃.compose s₂).compose s₁)

/-- The principal scheme of a term in a context, its quantified variables renumbered. -/
def infer (Γ : Context) (e : Term) : Except InferError Scheme :=
  ((inferTerm Γ e).run.run (.above Γ)).1.map fun r =>
    (Scheme.generalize (Γ.apply r.2) (r.2.apply r.1)).compact

/-- The equations that inference of a term poses, in order, up to the first that fails. -/
def posedEquations (Γ : Context) (e : Term) : List (Ty × Ty) :=
  ((inferTerm Γ e).run.run (.above Γ)).2.posed.toList

end LetPoly
