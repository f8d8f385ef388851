import LetPoly.Proofs.Machine.StoreTyping

/-!
# Runs that keep to lexical scoping

Applications of a closure share the scope of its parameter, and a global name may be bound again, so
a look-up may find another value than the one that the name had where the term stands.
`evalLexical` carries those values along: a term is evaluated in a scope and in an environment, and
a scope is kept together with the environment in which it was made.  It has no outcome where a
look-up finds a value unlike the one of the environment, and otherwise does what `eval` does
(`evalLexical_refines`).

A definition of a program has the environment of its turn, the entry too, although it is evaluated
last.
-/

namespace LetPoly

/-- Either may stand for the other: they are the same closure, or show the same type. -/
def Value.alike : Value → Value → Bool
  | .closure x body ρ, .closure x' body' ρ' => x = x' ∧ body = body' ∧ ρ = ρ'
  | v, w => v.ty?.isSome && v.ty? = w.ty?

/-- The values that names have by lexical scoping. -/
abbrev Env := SortedMap String Value

/-- A store, with the environments in which its scopes were made. -/
structure LexicalStore where
  store : Store
  around : ScopeId → Env := fun _ => ∅

/-- Adds a scope inside another, with the environment there. -/
def LexicalStore.addScope (s : LexicalStore) (parent : ScopeId) (env : Env) : LexicalStore where
  store := s.store.addScope (some parent)
  around := Function.update s.around s.store.nextScope env

/-- A step of evaluation: no outcome, or a value or an error with the store left behind. -/
abbrev LexicalM := ExceptT RuntimeError (StateT LexicalStore Option)

namespace LexicalM

variable {α β : Type}

/-- The outcome of a step from a given store. -/
def runFrom (m : LexicalM α) (s : LexicalStore) :
    Option (Except RuntimeError α × LexicalStore) := m.run.run s

/-- The bound on the depth was reached, or a look-up found a value unlike the expected one. -/
def noOutcome : LexicalM α := fun _ => none

/-- A step that makes no scope. -/
def ofEval (m : EvalM α) : LexicalM α := fun s =>
  (m.runFrom s.store).map fun r => (r.1, { s with store := r.2 })

def newScope (parent : ScopeId) (env : Env) : LexicalM ScopeId :=
  modifyGet fun s => (s.store.nextScope, s.addScope parent env)

def define (ρ : ScopeId) (x : String) (v : Value) : LexicalM Unit := ofEval (EvalM.define ρ x v)

def lookup (ρ : ScopeId) (env : Env) (x : String) : LexicalM Value := do
  let v ← ofEval (EvalM.lookup ρ x)
  if (env.get? x).any v.alike then return v else noOutcome

theorem runFrom_bind (m : LexicalM α) (f : α → LexicalM β) (s : LexicalStore) :
    (m >>= f).runFrom s = match m.runFrom s with
      | none => none
      | some (.error e, s') => some (.error e, s')
      | some (.ok a, s') => (f a).runFrom s' := by
  unfold runFrom
  rw [ExceptT.run_bind, StateT.run_bind]
  rcases m.run.run s with _ | ⟨_ | a, s'⟩ <;> rfl

end LexicalM

open LexicalM

/-- Applies a value to an argument; `run` evaluates the bodies of closures. -/
def applyLexical (run : ScopeId → Env → Term → LexicalM Value) (fn arg : Value) : LexicalM Value :=
  match fn with
  | .closure param body ρ => do
    define ρ param arg
    run ρ (((← get).around ρ).insert param arg) body
  | .native _ f => ofEval (f.call arg)
  | v => throw (.notCallable v.text)

/-- Evaluates a term in a scope and an environment, to a depth of at most `fuel`. -/
def evalLexical : (fuel : Nat) → ScopeId → Env → Term → LexicalM Value
  | 0, _, _, _ => noOutcome
  | fuel + 1, ρ, env, e =>
    match e with
    | .num v => return .num v
    | .bool b => return .bool b
    | .var x => LexicalM.lookup ρ env x
    | .ite cond thn els => do
      match ← evalLexical fuel ρ env cond with
      | .bool true => evalLexical fuel ρ env thn
      | .bool false => evalLexical fuel ρ env els
      | v => throw (.notABool v.text)
    | .letIn x definition body => do
      let v ← evalLexical fuel ρ env definition
      let inner ← newScope ρ env
      define inner x v
      evalLexical fuel inner (env.insert x v) body
    | .lam x body => return .closure x body (← newScope ρ env)
    | .app fn arg => do
      let f ← evalLexical fuel ρ env fn
      if f.isCallable then
        let a ← evalLexical fuel ρ env arg
        applyLexical (evalLexical fuel) f a
      else
        throw (.notCallable f.text)

/-- Evaluates the definitions in order, except the one of `entry`, and gives the environment when
the turn of `entry` comes, or at the end. -/
def defineAllLexical (fuel : Nat) (ρ : ScopeId) (entry : String) :
    Env → List Binding → LexicalM Env
  | env, [] => return env
  | env, b :: bs => do
    if b.name ≠ entry then
      let v ← evalLexical fuel ρ env b.term
      define ρ b.name v
      defineAllLexical fuel ρ entry (env.insert b.name v) bs
    else
      let _ ← defineAllLexical fuel ρ entry env bs
      return env

/-- Evaluates a program from the definition of `entry`, once all others are bound in `ρ`; at first
its names have the values of `env`. -/
def Program.evalLexical (p : Program) (fuel : Nat) (ρ : ScopeId) (env : Env) (entry : String) :
    LexicalM Value :=
  match p.get? entry with
  | none => throw (.missingEntry entry)
  | some main => do
    let env ← defineAllLexical fuel ρ entry env p.bindings
    LetPoly.evalLexical fuel ρ env main

/-! ## Without the environments -/

/-- Without the environments, every outcome of the first step is one of the second, up to `g`. -/
def Refines {α β : Type} (m : LexicalM α) (m' : EvalM β) (g : α → β) : Prop :=
  ∀ s r s', m.runFrom s = some (r, s') → m'.runFrom s.store = some (r.map g, s'.store)

namespace Refines

variable {α β γ δ : Type} {m : LexicalM α} {m' : EvalM β} {g : α → β} {f : α → LexicalM γ}
  {f' : β → EvalM δ} {h : γ → δ}

theorem pure {a : α} {b : β} (h : g a = b) : Refines (Pure.pure a) (Pure.pure b) g := by
  intro s r s' heq
  cases heq
  cases h
  rfl

theorem throw (e : RuntimeError) : Refines (MonadExcept.throw e) (MonadExcept.throw e) g := by
  intro s r s' heq
  cases heq
  rfl

theorem ofEval (m' : EvalM α) : Refines (LexicalM.ofEval m') m' id := by
  intro s r s' heq
  obtain ⟨⟨r', st⟩, hrun, heq⟩ := Option.map_eq_some_iff.1 heq
  cases heq
  rw [hrun]
  cases r' <;> rfl

theorem newScope (ρ : ScopeId) (env : Env) :
    Refines (LexicalM.newScope ρ env) (EvalM.newScope (some ρ)) id := by
  intro s r s' heq
  cases heq
  rfl

theorem bind (hm : Refines m m' g) (hf : ∀ a, Refines (f a) (f' (g a)) h) :
    Refines (m >>= f) (m' >>= f') h := by
  intro s r s' heq
  rw [LexicalM.runFrom_bind] at heq
  rw [EvalM.runFrom_bind]
  split at heq
  · cases heq
  · next e s₁ hrun =>
    cases heq
    rw [hm _ _ _ hrun]
    rfl
  · next a s₁ hrun =>
    rw [hm _ _ _ hrun]
    exact hf a _ _ _ heq

-- A step after which nothing changes, or that leaves no outcome, is not seen.
theorem bind_silent {f : α → LexicalM γ} {h : γ → β} (hm : Refines m m' g)
    (hf : ∀ a s r s', (f a).runFrom s = some (r, s') → ∃ c, r = .ok c ∧ h c = g a ∧ s' = s) :
    Refines (m >>= f) m' h := by
  intro s r s' heq
  rw [LexicalM.runFrom_bind] at heq
  split at heq
  · cases heq
  · next e s₁ hrun =>
    cases heq
    exact hm _ _ _ hrun
  · next a s₁ hrun =>
    obtain ⟨c, rfl, hc, rfl⟩ := hf a _ _ _ heq
    rw [hm _ _ _ hrun, Except.map, Except.map, hc]

theorem lookup (ρ : ScopeId) (env : Env) (x : String) :
    Refines (LexicalM.lookup ρ env x) (EvalM.lookup ρ x) id := by
  refine (Refines.ofEval _).bind_silent fun v s r s' heq => ?_
  split at heq
  · cases heq
    exact ⟨v, rfl, rfl, rfl⟩
  · cases heq

end Refines

theorem applyLexical_refines {run : ScopeId → Env → Term → LexicalM Value}
    {run' : ScopeId → Term → EvalM Value} (hrun : ∀ ρ env e, Refines (run ρ env e) (run' ρ e) id)
    (fn arg : Value) : Refines (applyLexical run fn arg) (applyWith run' fn arg) id := by
  cases fn with
  | num | bool => exact .throw _
  | closure x body ρ => exact (Refines.ofEval _).bind fun _ s r s' heq => hrun _ _ body s r s' heq
  | native id fn => exact .ofEval _

/-- Without the environments, a run that keeps to them is a run. -/
theorem evalLexical_refines (fuel : Nat) :
    ∀ ρ env e, Refines (evalLexical fuel ρ env e) (eval fuel ρ e) id := by
  induction fuel with
  | zero => exact fun _ _ _ _ _ _ h => nomatch h
  | succ fuel ih =>
    intro ρ env e
    cases e with
    | num | bool => exact .pure rfl
    | var x => exact .lookup ρ env x
    | ite c a b =>
      refine (ih ρ env c).bind fun v => ?_
      cases v with
      | bool q => cases q <;> exact ih ρ env _
      | num | closure | native => exact .throw _
    | letIn x d b =>
      exact (ih ρ env d).bind fun v => (Refines.newScope ρ env).bind fun inner =>
        (Refines.ofEval _).bind fun _ => ih inner _ b
    | lam x b => exact (Refines.newScope ρ env).bind fun inner => .pure rfl
    | app f a =>
      refine (ih ρ env f).bind fun v => ?_
      dsimp only [id]
      split
      · exact (ih ρ env a).bind fun w => applyLexical_refines ih v w
      · exact .throw _

theorem defineAllLexical_refines (fuel : Nat) (ρ : ScopeId) (entry : String) (bs : List Binding) :
    ∀ env, Refines (defineAllLexical fuel ρ entry env bs) (defineAll fuel ρ entry bs)
      fun _ => () := by
  induction bs with
  | nil => exact fun env => .pure rfl
  | cons b bs ih =>
    intro env
    rw [defineAllLexical, defineAll]
    split
    · exact (evalLexical_refines fuel ρ env b.term).bind fun v => (Refines.ofEval _).bind fun _ =>
        ih _
    · refine (ih env).bind_silent fun env' s r s' heq => ?_
      cases heq
      exact ⟨env, rfl, rfl, rfl⟩

theorem Program.evalLexical_refines (p : Program) (fuel : Nat) (ρ : ScopeId) (env : Env)
    (entry : String) : Refines (p.evalLexical fuel ρ env entry) (p.eval fuel ρ entry) id := by
  unfold Program.evalLexical Program.eval
  cases p.get? entry with
  | none => exact .throw _
  | some main =>
    exact (defineAllLexical_refines fuel ρ entry p.bindings env).bind fun env' =>
      LetPoly.evalLexical_refines fuel ρ env' main

end LetPoly
