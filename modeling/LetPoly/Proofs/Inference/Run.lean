import LetPoly.Proofs.Map.Lookup
import LetPoly.Ty.Inference

/-!
# Successful runs of inference

`Infers keep Γ n e t s n'` is a run of inference on `e` that starts at the variable `n`, returns the
type `t` with the substitution `s`, and leaves the next unused variable at `n'`.  It has one rule
for each kind of term, so that what a run does is read off once.

The runs of `inferTerm` are those with `keep = false`.  With `keep = true` a `let` generalizes
against the whole context in which its definition was typed, the entry of its own name included.
-/

namespace LetPoly

/-- The context that holds back what a `let` of `x` generalizes. -/
def letScope (keep : Bool) (Γ : Context) (x : String) : Context := if keep then Γ else Γ.erase x

/-- A successful run of inference. -/
inductive Infers (keep : Bool) : Context → Nat → Term → Ty → Subst → Nat → Prop
  | num {Γ n v} : Infers keep Γ n (.num v) .num ∅ n
  | bool {Γ n b} : Infers keep Γ n (.bool b) .bool ∅ n
  | var {Γ n x σ} : Γ.get? x = some σ →
      Infers keep Γ n (.var x) (σ.instantiate n) ∅ (n + σ.vars.length)
  | ite {Γ n c a b t₁ s₁ n₁ s₂ t₃ s₃ n₃ t₄ s₄ n₄ s₅ s} : Infers keep Γ n c t₁ s₁ n₁ →
      unify t₁ .bool = .ok s₂ →
      Infers keep (Γ.apply (s₂.compose s₁)) n₁ a t₃ s₃ n₃ →
      Infers keep (Γ.apply (s₃.compose (s₂.compose s₁))) n₃ b t₄ s₄ n₄ →
      s = s₄.compose (s₃.compose (s₂.compose s₁)) →
      unify (s.apply t₃) (s.apply t₄) = .ok s₅ →
      Infers keep Γ n (.ite c a b) ((s₅.compose s).apply (s.apply t₃)) (s₅.compose s) n₄
  | letIn {Γ n x d b t₁ s₁ n₁ t₂ s₂ n₂} : Infers keep Γ n d t₁ s₁ n₁ →
      Infers keep ((Γ.apply s₁).insert x
        (.generalize ((letScope keep Γ x).apply s₁) (s₁.apply t₁))) n₁ b t₂ s₂ n₂ →
      Infers keep Γ n (.letIn x d b) t₂ (s₂.compose s₁) n₂
  | lam {Γ n x b t s n'} : Infers keep (Γ.insert x (.mono (.var n))) (n + 1) b t s n' →
      Infers keep Γ n (.lam x b) (.arrow (s.apply (.var n)) t) s n'
  | app {Γ n f a t₁ s₁ n₁ t₂ s₂ n₂ s₃} : Infers keep Γ (n + 1) f t₁ s₁ n₁ →
      Infers keep (Γ.apply s₁) n₁ a t₂ s₂ n₂ →
      unify (s₂.apply t₁) (.arrow t₂ (.var n)) = .ok s₃ →
      Infers keep Γ n (.app f a) (s₃.apply (.var n)) ((s₃.compose s₂).compose s₁) n₂

/-- A successful run with the generalization that follows it: the scheme of a whole term. -/
def InfersScheme (keep : Bool) (Γ : Context) (e : Term) (σ : Scheme) : Prop :=
  ∃ t s n, Infers keep Γ Γ.nextVar e t s n ∧ σ = (Scheme.generalize (Γ.apply s) (s.apply t)).compact

/-! ## Steps that return -/

/-- The step `m` returns `a` and takes the state `st` to `st'`. -/
def Returns {α : Type} (m : InferM α) (st : InferState) (a : α) (st' : InferState) : Prop :=
  m.run.run st = (.ok a, st')

section Returns

variable {α β : Type} {st st' : InferState}

theorem run_bind_of_returns {m : InferM α} {f : α → InferM β} {a : α} (h : Returns m st a st') :
    (m >>= f).run.run st = (f a).run.run st' := by
  rw [ExceptT.run_bind, StateT.run_bind, h]
  rfl

theorem run_bind_of_error {m : InferM α} {f : α → InferM β} {e : InferError}
    (h : m.run.run st = (.error e, st')) : (m >>= f).run.run st = (.error e, st') := by
  rw [ExceptT.run_bind, StateT.run_bind, h]
  rfl

theorem returns_bind {m : InferM α} {f : α → InferM β} {b : β} :
    Returns (m >>= f) st b st' ↔ ∃ a st₁, Returns m st a st₁ ∧ Returns (f a) st₁ b st' := by
  constructor
  · intro h
    rcases hm : m.run.run st with ⟨e | a, st₁⟩
    · cases (run_bind_of_error hm).symm.trans h
    · exact ⟨a, st₁, hm, (run_bind_of_returns hm).symm.trans h⟩
  · rintro ⟨a, st₁, hm, hf⟩
    exact (run_bind_of_returns hm).trans hf

theorem returns_pure {a b : α} : Returns (pure a) st b st' ↔ a = b ∧ st = st' := by
  show ((Except.ok a : Except InferError α), st) = (.ok b, st') ↔ _
  simp

theorem returns_throw {e : InferError} {a : α} : ¬ Returns (throw e) st a st' := by
  intro h
  have h : ((Except.error e : Except InferError α), st) = (.ok a, st') := h
  simp at h

theorem returns_freshVar {t : Ty} :
    Returns freshVar st t st' ↔ .var st.next = t ∧ { st with next := st.next + 1 } = st' := by
  show ((Except.ok (.var st.next) : Except InferError Ty), { st with next := st.next + 1 }) =
    (.ok t, st') ↔ _
  simp

theorem returns_freshInstance {σ : Scheme} {t : Ty} :
    Returns (freshInstance σ) st t st' ↔
      σ.instantiate st.next = t ∧ { st with next := st.next + σ.vars.length } = st' := by
  show ((Except.ok (σ.instantiate st.next) : Except InferError Ty),
    { st with next := st.next + σ.vars.length }) = (.ok t, st') ↔ _
  simp

theorem run_equate (t u : Ty) (blame : UnifyError → InferError) (st : InferState) :
    (equate t u blame).run.run st =
      ((unify t u).mapError blame, { st with posed := st.posed.push (t, u) }) := by
  have hmod : Returns (modify fun st => { st with posed := st.posed.push (t, u) } : InferM PUnit) st
      ⟨⟩ { st with posed := st.posed.push (t, u) } := rfl
  rw [equate, run_bind_of_returns hmod]
  cases unify t u <;> rfl

theorem returns_equate {t u : Ty} {blame : UnifyError → InferError} {s : Subst} :
    Returns (equate t u blame) st s st' ↔
      unify t u = .ok s ∧ { st with posed := st.posed.push (t, u) } = st' := by
  unfold Returns
  rw [run_equate]
  cases unify t u with
  | error e =>
    constructor
    · intro h
      cases h
    · rintro ⟨h, -⟩
      cases h
  | ok s' =>
    show ((Except.ok s' : Except InferError Subst), _) = (.ok s, st') ↔ _
    simp

end Returns

/-! ## Runs of `inferTerm` -/

-- Taking the old entry out before a new one is put in makes no difference.
theorem insert_apply_erase (Γ : Context) (s : Subst) (x : String) (σ : Scheme) :
    (Context.apply s (Γ.erase x)).insert x σ = (Γ.apply s).insert x σ := by
  refine SortedMap.ext_get? fun y => ?_
  by_cases hy : y = x
  · subst hy
    rw [SortedMap.get?_insert_self, SortedMap.get?_insert_self]
  · rw [SortedMap.get?_insert_of_ne _ _ hy, SortedMap.get?_insert_of_ne _ _ hy,
      Context.apply, Context.apply, SortedMap.get?_mapVal, SortedMap.get?_mapVal,
      SortedMap.get?_erase_of_ne _ hy]

theorem infers_of_returns {e : Term} : ∀ {Γ : Context} {st st' : InferState} {t : Ty} {s : Subst},
    Returns (inferTerm Γ e) st (t, s) st' → Infers false Γ st.next e t s st'.next := by
  induction e with
  | num v =>
    intro Γ st st' t s h
    obtain ⟨heq, rfl⟩ := returns_pure.1 h
    cases heq
    exact .num
  | bool b =>
    intro Γ st st' t s h
    obtain ⟨heq, rfl⟩ := returns_pure.1 h
    cases heq
    exact .bool
  | var x =>
    intro Γ st st' t s h
    rw [inferTerm] at h
    cases hx : Γ.get? x with
    | none =>
      simp only [hx] at h
      exact absurd h returns_throw
    | some σ =>
      simp only [hx] at h
      obtain ⟨u, st₁, hu, h⟩ := returns_bind.1 h
      obtain ⟨rfl, rfl⟩ := returns_freshInstance.1 hu
      obtain ⟨heq, rfl⟩ := returns_pure.1 h
      cases heq
      exact .var hx
  | ite c a b ihc iha ihb =>
    intro Γ st st' t s h
    obtain ⟨⟨t₁, s₁⟩, st₁, h₁, h⟩ := returns_bind.1 h
    obtain ⟨s₂, st₂, h₂, h⟩ := returns_bind.1 h
    obtain ⟨hu, rfl⟩ := returns_equate.1 h₂
    obtain ⟨⟨t₃, s₃⟩, st₃, h₃, h⟩ := returns_bind.1 h
    obtain ⟨⟨t₄, s₄⟩, st₄, h₄, h⟩ := returns_bind.1 h
    obtain ⟨s₅, st₅, h₅, h⟩ := returns_bind.1 h
    obtain ⟨hu', rfl⟩ := returns_equate.1 h₅
    obtain ⟨heq, rfl⟩ := returns_pure.1 h
    cases heq
    have hc := ihc h₁
    have ha := iha h₃
    have hb := ihb h₄
    exact .ite hc hu ha hb rfl hu'
  | letIn x d b ihd ihb =>
    intro Γ st st' t s h
    obtain ⟨⟨t₁, s₁⟩, st₁, h₁, h⟩ := returns_bind.1 h
    obtain ⟨⟨t₂, s₂⟩, st₂, h₂, h⟩ := returns_bind.1 h
    obtain ⟨heq, rfl⟩ := returns_pure.1 h
    cases heq
    refine .letIn (ihd h₁) ?_
    -- the run relation does not take the old entry out, since the new one replaces it
    rw [← insert_apply_erase]
    exact ihb h₂
  | lam x b ih =>
    intro Γ st st' t s h
    obtain ⟨u, st₁, hu, h⟩ := returns_bind.1 h
    obtain ⟨rfl, rfl⟩ := returns_freshVar.1 hu
    obtain ⟨⟨t₁, s₁⟩, st₂, h₁, h⟩ := returns_bind.1 h
    obtain ⟨heq, rfl⟩ := returns_pure.1 h
    cases heq
    exact .lam (ih h₁)
  | app f a ihf iha =>
    intro Γ st st' t s h
    obtain ⟨u, st₀, hu, h⟩ := returns_bind.1 h
    obtain ⟨rfl, rfl⟩ := returns_freshVar.1 hu
    obtain ⟨⟨t₁, s₁⟩, st₁, h₁, h⟩ := returns_bind.1 h
    obtain ⟨⟨t₂, s₂⟩, st₂, h₂, h⟩ := returns_bind.1 h
    obtain ⟨s₃, st₃, h₃, h⟩ := returns_bind.1 h
    obtain ⟨hunify, rfl⟩ := returns_equate.1 h₃
    obtain ⟨heq, rfl⟩ := returns_pure.1 h
    cases heq
    have hf := ihf h₁
    have ha := iha h₂
    exact .app hf ha hunify

-- The equations posed on the way are only recorded: a run returns whatever they are at its start.
theorem Infers.returns {Γ : Context} {n n' : Nat} {e : Term} {t : Ty} {s : Subst}
    (h : Infers false Γ n e t s n') :
    ∀ posed, ∃ posed', Returns (inferTerm Γ e) ⟨n, posed⟩ (t, s) ⟨n', posed'⟩ := by
  induction h with
  | num => exact fun posed => ⟨posed, rfl⟩
  | bool => exact fun posed => ⟨posed, rfl⟩
  | var hx =>
    intro posed
    refine ⟨posed, ?_⟩
    simp only [inferTerm, hx]
    exact returns_bind.2 ⟨_, _, returns_freshInstance.2 ⟨rfl, rfl⟩, returns_pure.2 ⟨rfl, rfl⟩⟩
  | @ite _ _ _ _ _ t₁ _ _ _ t₃ _ _ t₄ _ _ _ s _ hu _ _ hs hu' ihc iha ihb =>
    intro posed
    obtain ⟨posed₁, h₁⟩ := ihc posed
    obtain ⟨posed₃, h₃⟩ := iha (posed₁.push (t₁, .bool))
    obtain ⟨posed₄, h₄⟩ := ihb posed₃
    refine ⟨posed₄.push (s.apply t₃, s.apply t₄), returns_bind.2 ⟨_, _, h₁, ?_⟩⟩
    subst hs
    refine returns_bind.2 ⟨_, _, returns_equate.2 ⟨hu, rfl⟩, ?_⟩
    refine returns_bind.2 ⟨_, _, h₃, returns_bind.2 ⟨_, _, h₄, ?_⟩⟩
    exact returns_bind.2 ⟨_, _, returns_equate.2 ⟨hu', rfl⟩, returns_pure.2 ⟨rfl, rfl⟩⟩
  | letIn _ _ ihd ihb =>
    intro posed
    obtain ⟨posed₁, h₁⟩ := ihd posed
    obtain ⟨posed₂, h₂⟩ := ihb posed₁
    rw [← insert_apply_erase] at h₂
    refine ⟨posed₂, returns_bind.2 ⟨_, _, h₁, ?_⟩⟩
    exact returns_bind.2 ⟨_, _, h₂, returns_pure.2 ⟨rfl, rfl⟩⟩
  | lam _ ih =>
    intro posed
    obtain ⟨posed₁, h₁⟩ := ih posed
    refine ⟨posed₁, returns_bind.2 ⟨_, _, returns_freshVar.2 ⟨rfl, rfl⟩, ?_⟩⟩
    exact returns_bind.2 ⟨_, _, h₁, returns_pure.2 ⟨rfl, rfl⟩⟩
  | @app _ n _ _ t₁ _ _ t₂ s₂ _ _ _ _ hu ihf iha =>
    intro posed
    obtain ⟨posed₁, h₁⟩ := ihf posed
    obtain ⟨posed₂, h₂⟩ := iha posed₁
    refine ⟨posed₂.push (s₂.apply t₁, .arrow t₂ (.var n)), ?_⟩
    refine returns_bind.2 ⟨_, _, returns_freshVar.2 ⟨rfl, rfl⟩, ?_⟩
    refine returns_bind.2 ⟨_, _, h₁, returns_bind.2 ⟨_, _, h₂, ?_⟩⟩
    exact returns_bind.2 ⟨_, _, returns_equate.2 ⟨hu, rfl⟩, returns_pure.2 ⟨rfl, rfl⟩⟩

/-- What `infer` answers is what a run and the generalization after it give. -/
theorem infer_eq_ok_iff {Γ : Context} {e : Term} {σ : Scheme} :
    infer Γ e = .ok σ ↔ InfersScheme false Γ e σ := by
  unfold infer InfersScheme
  constructor
  · intro h
    rcases hrun : (inferTerm Γ e).run.run (.above Γ) with ⟨err | ⟨t, s⟩, st⟩
    · rw [hrun] at h
      cases h
    · rw [hrun] at h
      cases h
      exact ⟨t, s, st.next, infers_of_returns hrun, rfl⟩
  · rintro ⟨t, s, n, h, rfl⟩
    obtain ⟨posed, hrun⟩ := h.returns #[]
    have hrun : (inferTerm Γ e).run.run (.above Γ) = (.ok (t, s), ⟨n, posed⟩) := hrun
    rw [hrun]
    rfl

end LetPoly
