import Mathlib
import LetPoly.Proofs.Inference.Unmentioned
import LetPoly.Proofs.Typing.Canonical

/-!
# A name for a term

Inference of `let x = e in x` takes a way round: the type of `e` is generalized and stored under
`x`, the body is a copy of that scheme with new variables, and the copy is generalized once more.
The way leads back to the scheme of `e`.  The copy has only new variables where the scheme
quantifies, and the run on `e` has left nothing to do for its substitution in the rest.

The context may have free variables and may capture some of them.  Only `x` itself must not have any
before, since its old entry does not hold back what is generalized for it.
-/

namespace LetPoly

theorem Subst.empty_compose (s : Subst) : Subst.compose ∅ s = s := by
  refine SortedMap.ext_get? fun v => ?_
  rw [Subst.get?_compose, SortedMap.get?_empty]
  cases s.get? v with
  | none => rfl
  | some t => simp

-- Without a closed entry the context has the same free variables.
theorem Context.ClosedAt.sameFor_erase {Γ : Context} {x : String} (h : Γ.ClosedAt x) :
    Context.SameFor (Γ.erase x) [] Γ := by
  intro y
  by_cases hy : y = x
  · subst hy
    refine .inr ⟨List.not_mem_nil, fun σ hσ => ?_, h⟩
    rw [SortedMap.get?_erase_self] at hσ
    cases hσ
  · exact .inl (SortedMap.get?_erase_of_ne _ hy)

-- A copy of the generalized type is made of variables that the run leaves alone.
theorem RunSpec.apply_instantiate {Γ : Context} {names : List String} {n n' : Nat} {t : Ty}
    {s : Subst} (h : RunSpec Γ names n t s n') (hΓ : Γ.Below n) (Δ : Context) :
    s.apply ((Scheme.generalize Δ t).instantiate n') = (Scheme.generalize Δ t).instantiate n' := by
  refine Subst.apply_eq_self fun v hv => ?_
  rcases Scheme.mem_vars_instantiate hv with hfree | ⟨hnew, -⟩
  · exact Subst.image_eq_of_apply_eq h.resolved (Scheme.mem_freeVars_generalize.1 hfree).1
  · refine h.within.image_eq fun hz => ?_
    have hlt := hz.lt hΓ h.le
    omega

/-- A run on a term goes on to one on the term with a name, with the same substitution and a type
that generalizes to the same scheme. -/
theorem Infers.letIn_self {Γ : Context} {x : String} {n n' : Nat} {e : Term} {t : Ty} {s : Subst}
    (h : Infers false Γ n e t s n') (hΓ : Γ.Below n) (hx : Γ.ClosedAt x) :
    ∃ t' n'', Infers false Γ n (.letIn x e (.var x)) t' s n'' ∧
      (Scheme.generalize (Γ.apply s) (s.apply t')).compact =
        (Scheme.generalize (Γ.apply s) (s.apply t)).compact := by
  have hspec := h.spec hΓ
  -- the scheme that is stored under the name is the one of the term
  have hstored : Scheme.generalize ((letScope false Γ x).apply s) (s.apply t) =
      .generalize (Γ.apply s) t := by
    rw [hspec.resolved]
    exact (hx.sameFor_erase.apply s).generalize_eq t
  have hbody : Infers false ((Γ.apply s).insert x
      (.generalize ((letScope false Γ x).apply s) (s.apply t))) n' (.var x) _ ∅ _ :=
    .var (SortedMap.get?_insert_self _ _ _)
  have hrun := Infers.letIn h hbody
  rw [hstored, Subst.empty_compose] at hrun
  refine ⟨_, _, hrun, ?_⟩
  rw [hspec.apply_instantiate hΓ, hspec.resolved]
  refine (Scheme.compact_eq_iff_alphaEq.2 (Scheme.alphaEq_generalize_instantiate ?_ ?_)).symm
  · exact fun v hv => (Scheme.mem_freeVars_generalize.1 hv).2
  · exact hΓ.apply hspec.within hspec.le

-- The definition is looked at first, and what is wrong with it is the answer.
theorem infer_letIn_of_error {Γ : Context} {d : Term} {err : InferError}
    (h : infer Γ d = .error err) (x : String) (b : Term) : infer Γ (.letIn x d b) = .error err := by
  unfold infer at h ⊢
  rcases hrun : (inferTerm Γ d).run.run (.above Γ) with ⟨err' | r, st⟩
  · rw [hrun] at h
    cases h
    rw [inferTerm, run_bind_of_error hrun]
    rfl
  · rw [hrun] at h
    cases h

/-- A term and the term under a name that has no open scheme before have the same scheme, or fail
with the same error. -/
theorem infer_letIn_self {Γ : Context} {x : String} (hx : Γ.ClosedAt x) (e : Term) :
    infer Γ (.letIn x e (.var x)) = infer Γ e := by
  cases h : infer Γ e with
  | error err => exact infer_letIn_of_error h x (.var x)
  | ok σ =>
    obtain ⟨t, s, n, hrun, rfl⟩ := infer_eq_ok_iff.1 h
    obtain ⟨t', n', hrun', hscheme⟩ := hrun.letIn_self (Context.below_nextVar Γ) hx
    exact infer_eq_ok_iff.2 ⟨t', s, n', hrun', hscheme.symm⟩

/-! ## A sample context -/

/-- The identity, and a name of an unknown type whose variable the identity quantifies. -/
def identityAndUnknown : Context :=
  .ofList [("x", ⟨[0], .arrow (.var 0) (.var 0)⟩), ("y", .mono (.var 0))]

theorem identityAndUnknown_closedAt : identityAndUnknown.ClosedAt "x" := by
  intro σ hσ
  have hx : identityAndUnknown.get? "x" = some ⟨[0], .arrow (.var 0) (.var 0)⟩ := by decide
  cases hx.symm.trans hσ
  decide

/-- The name is bound before, and the term under it mentions it.  The first term makes a function of
the unknown type, so that its scheme has new free variables beside a quantified one; the second has
no type. -/
theorem infer_letIn_self_rebound :
    infer identityAndUnknown (.letIn "x"
        (.lam "z" (.lam "w" (.app (.var "x") (.app (.var "y") (.var "z"))))) (.var "x")) =
      .ok ⟨[0], .arrow (.var 1) (.arrow (.var 0) (.var 3))⟩ ∧
    infer identityAndUnknown (.letIn "x"
        (.app (.var "x") (.app (.var "y") (.var "y"))) (.var "x")) =
      .error (.infiniteType 0 (.arrow (.var 0) (.var 3))) := by
  constructor
  · rw [infer_letIn_self identityAndUnknown_closedAt]
    cbv
  · rw [infer_letIn_self identityAndUnknown_closedAt]
    cbv

end LetPoly
