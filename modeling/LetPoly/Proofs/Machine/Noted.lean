import LetPoly.Proofs.Machine.Outcome
import LetPoly.Proofs.Typing.Simple

/-!
# Evaluation that keeps notes

A store shows what a parameter is bound to now, but not what it was bound to before, nor which
function of the term a scope belongs to.  `evalNoted` evaluates a term and notes both: the place of
the function that made a scope, and every value that a parameter is bound to.  The notes are kept
whatever becomes of the evaluation, also when it runs out of fuel.

Without the notes it is the evaluation that `eval` does (`evalNoted_erases`).
-/

namespace LetPoly

open EvalM

/-- A parameter was bound to a value, in the scope of its function. -/
structure Note where
  scope : ScopeId
  param : String
  value : Value

/-- A store, and what was noted on the way to it. -/
structure Noted where
  store : Store
  /-- The place of the function that a scope was made for. -/
  origin : ScopeId → Option Path := fun _ => none
  /-- All bindings of parameters, the last one first. -/
  bound : List Note := []

/-- A step of evaluation with notes: out of fuel, or a value or an error. -/
abbrev NotedM := ExceptT RuntimeError (OptionT (StateM Noted))

namespace NotedM

variable {α β : Type}

/-- The outcome of a step, and the notes after it. -/
def runFrom (m : NotedM α) (s : Noted) : Option (Except RuntimeError α) × Noted := m.run.run.run s

def outOfFuel : NotedM α := fun s => (none, s)

/-- A step that nothing is noted of. -/
def ofEval (m : EvalM α) : NotedM α := fun s =>
  match m.runFrom s.store with
  | none => (none, s)
  | some (r, st) => (some r, { s with store := st })

/-- Notes that the scope belongs to the function at the place. -/
def noteMade (ρ : ScopeId) (p : Path) : NotedM Unit :=
  modify fun s => { s with origin := fun ρ' => if ρ' = ρ then some p else s.origin ρ' }

/-- Notes that a parameter is bound to a value. -/
def noteBound (note : Note) : NotedM Unit := modify fun s => { s with bound := note :: s.bound }

theorem runFrom_bind (m : NotedM α) (f : α → NotedM β) (s : Noted) :
    (m >>= f).runFrom s = match m.runFrom s with
      | (none, s') => (none, s')
      | (some (.error e), s') => (some (.error e), s')
      | (some (.ok a), s') => (f a).runFrom s' := by
  unfold runFrom
  rw [ExceptT.run_bind, OptionT.run_bind, Option.elimM, StateT.run_bind]
  rcases m.run.run.run s with ⟨_ | _ | a, s'⟩ <;> rfl

theorem runFrom_bind_of_ok {m : NotedM α} {f : α → NotedM β} {s s' : Noted} {a : α}
    (h : m.runFrom s = (some (.ok a), s')) : (m >>= f).runFrom s = (f a).runFrom s' := by
  rw [runFrom_bind, h]

theorem runFrom_ofEval_of_none {m : EvalM α} {s : Noted} (h : m.runFrom s.store = none) :
    (ofEval m).runFrom s = (none, s) := by
  unfold runFrom ofEval
  simp only [ExceptT.run, OptionT.run, StateT.run, h]

theorem runFrom_ofEval_of_some {m : EvalM α} {s : Noted} {r : Except RuntimeError α} {st : Store}
    (h : m.runFrom s.store = some (r, st)) :
    (ofEval m).runFrom s = (some r, { s with store := st }) := by
  unfold runFrom ofEval
  simp only [ExceptT.run, OptionT.run, StateT.run, h]

end NotedM

open NotedM

/-- Applies a value to an argument; `run` evaluates the bodies of closures, at their places. -/
def applyNoted (run : ScopeId → Path → Term → NotedM Value) (fn arg : Value) : NotedM Value :=
  match fn with
  | .closure param body ρ => do
    ofEval (define ρ param arg)
    noteBound ⟨ρ, param, arg⟩
    let made := (← get).origin ρ
    run ρ (.lamBody :: made.getD []) body
  | .native _ f => ofEval (f.call arg)
  | v => throw (.notCallable v.text)

/-- Evaluates the term at a place in a scope, to a depth of at most `fuel`. -/
def evalNoted : (fuel : Nat) → ScopeId → Path → Term → NotedM Value
  | 0, _, _, _ => NotedM.outOfFuel
  | fuel + 1, ρ, p, e =>
    match e with
    | .num v => return .num v
    | .bool b => return .bool b
    | .var x => ofEval (lookup ρ x)
    | .ite cond thn els => do
      match ← evalNoted fuel ρ (.cond :: p) cond with
      | .bool true => evalNoted fuel ρ (.thn :: p) thn
      | .bool false => evalNoted fuel ρ (.els :: p) els
      | v => throw (.notABool v.text)
    | .letIn x definition body => do
      let v ← evalNoted fuel ρ (.definition :: p) definition
      let inner ← ofEval (newScope (some ρ))
      ofEval (define inner x v)
      evalNoted fuel inner (.letBody :: p) body
    | .lam x body => do
      let inner ← ofEval (newScope (some ρ))
      noteMade inner p
      return .closure x body inner
    | .app fn arg => do
      let f ← evalNoted fuel ρ (.fn :: p) fn
      if f.isCallable then
        let a ← evalNoted fuel ρ (.arg :: p) arg
        applyNoted (evalNoted fuel) f a
      else
        throw (.notCallable f.text)

/-! ## Without the notes -/

/-- Without its notes the first step is the second one. -/
def Erases {α : Type} (m : NotedM α) (m' : EvalM α) : Prop :=
  ∀ s, m'.runFrom s.store = (m.runFrom s).1.map fun r => (r, (m.runFrom s).2.store)

namespace Erases

variable {α β : Type} {m : NotedM α} {m' : EvalM α} {f : α → NotedM β} {f' : α → EvalM β}

theorem pure (a : α) : Erases (Pure.pure a) (Pure.pure a) := fun _ => rfl

theorem throw (e : RuntimeError) : Erases (α := α) (MonadExcept.throw e) (MonadExcept.throw e) :=
  fun _ => rfl

theorem ofEval (m' : EvalM α) : Erases (NotedM.ofEval m') m' := by
  intro s
  rcases h : m'.runFrom s.store with _ | ⟨r, st⟩
  · rw [runFrom_ofEval_of_none h]
    rfl
  · rw [runFrom_ofEval_of_some h]
    rfl

theorem bind (hm : Erases m m') (hf : ∀ a, Erases (f a) (f' a)) :
    Erases (m >>= f) (m' >>= f') := by
  intro s
  rw [EvalM.runFrom_bind, NotedM.runFrom_bind, hm s]
  rcases m.runFrom s with ⟨_ | e | a, s'⟩
  · rfl
  · rfl
  · exact hf a s'

-- A step that only reads or writes notes is not seen.
theorem bind_of_silent {m' : EvalM β}
    (hm : ∀ s, ∃ a s', m.runFrom s = (some (.ok a), s') ∧ s'.store = s.store)
    (hf : ∀ a, Erases (f a) m') : Erases (m >>= f) m' := by
  intro s
  obtain ⟨a, s', hrun, hstore⟩ := hm s
  rw [NotedM.runFrom_bind_of_ok hrun, ← hstore]
  exact hf a s'

end Erases

theorem applyNoted_erases {run : ScopeId → Path → Term → NotedM Value}
    {run' : ScopeId → Term → EvalM Value} (hrun : ∀ ρ p e, Erases (run ρ p e) (run' ρ e))
    (fn arg : Value) : Erases (applyNoted run fn arg) (applyWith run' fn arg) := by
  cases fn with
  | num | bool => exact .throw _
  | closure x body ρ =>
    exact (Erases.ofEval _).bind fun _ => .bind_of_silent (fun _ => ⟨_, _, rfl, rfl⟩) fun _ =>
      .bind_of_silent (fun _ => ⟨_, _, rfl, rfl⟩) fun _ => hrun _ _ _
  | native id fn => exact .ofEval _

/-- Without its notes, evaluation with notes is evaluation. -/
theorem evalNoted_erases (fuel : Nat) :
    ∀ ρ p e, Erases (evalNoted fuel ρ p e) (eval fuel ρ e) := by
  induction fuel with
  | zero => exact fun _ _ _ _ => rfl
  | succ fuel ih =>
    intro ρ p e
    cases e with
    | num | bool => exact .pure _
    | var x => exact .ofEval _
    | ite c a b =>
      refine (ih ρ _ c).bind fun v => ?_
      cases v with
      | bool q => cases q <;> exact ih ρ _ _
      | num | closure | native => exact .throw _
    | letIn x d b =>
      exact (ih ρ _ d).bind fun v => (Erases.ofEval _).bind fun inner =>
        (Erases.ofEval _).bind fun _ => ih inner _ b
    | lam x b =>
      exact (Erases.ofEval _).bind fun inner =>
        .bind_of_silent (fun _ => ⟨_, _, rfl, rfl⟩) fun _ => .pure _
    | app f a =>
      refine (ih ρ _ f).bind fun v => ?_
      split
      · exact (ih ρ _ a).bind fun w => applyNoted_erases ih v w
      · exact .throw _

end LetPoly
