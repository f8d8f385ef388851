import LetPoly.Proofs.Machine.Outcome

/-!
# Evaluation under other rules for the scopes of functions

`Scoping.eval` is evaluation with two decisions left open: which scope a function holds, and in
which scope its body is evaluated.  With `Scoping.shared` it is `eval`: a function holds a scope
made for its parameter, and all its applications bind the parameter there.  With `Scoping.fresh` a
function holds the scope in which it was made, and each application has a scope of its own inside
that one.

`Scoping.once` is `Scoping.shared` without an outcome where a function is applied whose parameter is
already bound in its scope, so it tells whether that happens on the way.
-/

namespace LetPoly

open EvalM

/-- Which scope a function holds, and in which its body is evaluated. -/
structure Scoping where
  /-- The scope that a function made in the given one holds. -/
  capture : ScopeId → EvalM ScopeId
  /-- Binds the parameter of a function that holds the given scope, and tells the scope for the
  body. -/
  enter : ScopeId → String → Value → EvalM ScopeId

namespace Scoping

/-- Applies a value to an argument; `run` evaluates the bodies of closures. -/
def applyWith (k : Scoping) (run : ScopeId → Term → EvalM Value) (fn arg : Value) : EvalM Value :=
  match fn with
  | .closure param body ρ => do
    let inner ← k.enter ρ param arg
    run inner body
  | .native _ f => f.call arg
  | v => throw (.notCallable v.text)

/-- Evaluates a term in a scope, to a depth of at most `fuel`. -/
def eval (k : Scoping) : (fuel : Nat) → ScopeId → Term → EvalM Value
  | 0, _, _ => outOfFuel
  | fuel + 1, ρ, e =>
    match e with
    | .num v => return .num v
    | .bool b => return .bool b
    | .var x => lookup ρ x
    | .ite cond thn els => do
      match ← k.eval fuel ρ cond with
      | .bool true => k.eval fuel ρ thn
      | .bool false => k.eval fuel ρ els
      | v => throw (.notABool v.text)
    | .letIn x definition body => do
      let v ← k.eval fuel ρ definition
      let inner ← newScope (some ρ)
      define inner x v
      k.eval fuel inner body
    | .lam x body => return .closure x body (← k.capture ρ)
    | .app fn arg => do
      let f ← k.eval fuel ρ fn
      if f.isCallable then
        let a ← k.eval fuel ρ arg
        k.applyWith (k.eval fuel) f a
      else
        throw (.notCallable f.text)

/-- A function holds a scope for its parameter, which its applications share. -/
def shared : Scoping where
  capture ρ := newScope (some ρ)
  enter ρ x v := do
    define ρ x v
    return ρ

/-- A function holds a scope for its parameter, and is applied only while that does not bind it. -/
def once : Scoping where
  capture ρ := newScope (some ρ)
  enter ρ x v := do
    if (← get).defines ρ x then
      outOfFuel
    else
      define ρ x v
      return ρ

/-- A function holds the scope in which it was made, and each application binds the parameter in a
new scope inside that one. -/
def fresh : Scoping where
  capture ρ := return ρ
  enter ρ x v := do
    let inner ← newScope (some ρ)
    define inner x v
    return inner

/-! ## Shared scopes -/

theorem applyWith_shared (run : ScopeId → Term → EvalM Value) (fn arg : Value) :
    shared.applyWith run fn arg = LetPoly.applyWith run fn arg := by
  cases fn with
  | num | bool | native => rfl
  | closure x body ρ =>
    show ((define ρ x arg >>= fun _ => pure ρ) >>= fun inner => run inner body) =
      define ρ x arg >>= fun _ => run ρ body
    rw [bind_assoc]
    simp only [pure_bind]

theorem eval_shared (fuel : Nat) : ∀ ρ e, shared.eval fuel ρ e = LetPoly.eval fuel ρ e := by
  induction fuel with
  | zero => exact fun _ _ => rfl
  | succ fuel ih =>
    have hrun : shared.eval fuel = LetPoly.eval fuel := funext fun ρ => funext (ih ρ)
    intro ρ e
    cases e with
    | num | bool | var => rfl
    | ite c a b =>
      refine (congrArg (· >>= _) (ih ρ c)).trans (bind_congr fun v => ?_)
      cases v with
      | bool q =>
        cases q with
        | true => exact ih ρ a
        | false => exact ih ρ b
      | num | closure | native => rfl
    | letIn => simp only [eval, LetPoly.eval, hrun]
    | lam => rfl
    | app => simp only [eval, LetPoly.eval, hrun, applyWith_shared]

/-! ## Fewer outcomes -/

/-- All outcomes of the first step are outcomes of the second. -/
def Refines {α : Type} (m m' : EvalM α) : Prop :=
  ∀ st o, m.runFrom st = some o → m'.runFrom st = some o

namespace Refines

variable {α β : Type} {m m' : EvalM α} {f f' : α → EvalM β}

theorem refl (m : EvalM α) : Refines m m := fun _ _ h => h

theorem bind (hm : Refines m m') (hf : ∀ a, Refines (f a) (f' a)) :
    Refines (m >>= f) (m' >>= f') := by
  intro st o h
  rw [runFrom_bind] at h ⊢
  split at h
  · cases h
  · next heq =>
    rw [hm _ _ heq]
    exact h
  · next a st₁ heq =>
    rw [hm _ _ heq]
    exact hf a st₁ o h

end Refines

variable {k k' : Scoping}

theorem eval_refines (hcapture : ∀ ρ, Refines (k.capture ρ) (k'.capture ρ))
    (henter : ∀ ρ x v, Refines (k.enter ρ x v) (k'.enter ρ x v)) (fuel : Nat) :
    ∀ ρ e, Refines (k.eval fuel ρ e) (k'.eval fuel ρ e) := by
  induction fuel with
  | zero => exact fun _ _ => .refl _
  | succ fuel ih =>
    intro ρ e
    cases e with
    | num | bool | var => exact .refl _
    | ite c a b =>
      refine (ih ρ c).bind fun v => ?_
      split
      · exact ih ρ a
      · exact ih ρ b
      · exact .refl _
    | letIn x d b =>
      refine (ih ρ d).bind fun v => (Refines.refl _).bind fun inner => ?_
      exact (Refines.refl _).bind fun _ => ih inner b
    | lam x b => exact (hcapture ρ).bind fun _ => .refl _
    | app f a =>
      refine (ih ρ f).bind fun v => ?_
      split
      · refine (ih ρ a).bind fun w => ?_
        unfold applyWith
        split
        · next x body inner _ => exact (henter inner x w).bind fun _ => ih _ body
        · exact .refl _
        · exact .refl _
      · exact .refl _

theorem runFrom_enter_once (st : Store) (ρ : ScopeId) (x : String) (v : Value) :
    (once.enter ρ x v).runFrom st =
      if st.defines ρ x then none else some (.ok ρ, st.define ρ x v) := by
  show EvalM.runFrom (get >>= fun st => _) st = _
  rw [runFrom_bind]
  show EvalM.runFrom (if st.defines ρ x then _ else _) st = _
  split <;> rfl

/-- Where functions are applied once only, evaluation is what it is with shared scopes. -/
theorem eval_once_refines (fuel : Nat) (ρ : ScopeId) (e : Term) :
    Refines (once.eval fuel ρ e) (LetPoly.eval fuel ρ e) := by
  have hcapture : ∀ ρ, Refines (once.capture ρ) (shared.capture ρ) := fun _ => .refl _
  have henter : ∀ ρ x v, Refines (once.enter ρ x v) (shared.enter ρ x v) := by
    intro ρ x v st o h
    rw [runFrom_enter_once] at h
    split at h
    · cases h
    · exact h
  rw [← eval_shared]
  exact eval_refines hcapture henter fuel ρ e

end Scoping

end LetPoly
