import LetPoly.Proofs.Inference.Resolved
import LetPoly.Proofs.Typing.Compact

/-!
# Free variables of inferred schemes

A run treats the free variables of its context as it treats its own: it may bind one of them to a
type with new variables, or to a new variable alone.  So what is free in the scheme of a term is
free in the context *under the substitution of the run*.  A variable of the context that is left in
the type keeps its id and stays free; a new variable is free in the scheme if it stands in the place
of a variable of the context.
-/

namespace LetPoly

namespace RunSpec

variable {Γ : Context} {names : List String} {n n' : Nat} {t : Ty} {s : Subst} {v : Nat}

theorem mem_freeVars_apply (h : RunSpec Γ names n t s n') (hv : v ∈ t.vars)
    (hfree : v ∈ Γ.freeVars) : v ∈ (Γ.apply s).freeVars := by
  obtain ⟨x, σ, hx, hσ⟩ := Context.mem_freeVars.1 hfree
  have hstay : v ∈ (s.image v).vars := by
    rw [Subst.image_eq_of_apply_eq h.resolved hv]
    exact List.mem_singleton.2 rfl
  exact Context.mem_freeVars.2 ⟨x, σ.apply s, Context.get?_apply_some.2 ⟨σ, hx, rfl⟩,
    Scheme.mem_freeVars_apply.2 ⟨(Scheme.mem_freeVars.1 hσ).2, v, hσ, hstay⟩⟩

-- What is new in the context has come in for a variable that the names of the term reach.
theorem replaces (hΓ : Γ.Below n) (h : RunSpec Γ names n t s n') (hv : v ∈ (Γ.apply s).freeVars) :
    v ∈ Γ.freeVars ∨ n ≤ v ∧ ∃ u ∈ s.keys, Γ.Reaches names u ∧ v ∈ (s.image u).vars := by
  obtain ⟨u, hu, hmem⟩ := Context.mem_freeVars_apply hv
  have hlt := hΓ u hu
  rcases h.within u with hfix | ⟨hzu, hzone⟩
  · rw [hfix, Ty.vars, List.mem_singleton] at hmem
    exact .inl (hmem ▸ hu)
  · rcases hzone v hmem with hz | ⟨hle, -⟩
    · exact .inl hz.mem_freeVars
    · have hreach : Γ.Reaches names u := hzu.resolve_right (by omega)
      refine .inr ⟨hle, u, ?_, hreach, hmem⟩
      cases hget : s.get? u with
      | some w => exact SortedMap.mem_keys_iff.2 ⟨w, hget⟩
      | none =>
        -- a variable without a binding stays, and `v` is another one
        rw [Subst.image, hget, Option.getD_none, Ty.vars, List.mem_singleton] at hmem
        omega

end RunSpec

/-- The free variables of the scheme that a run leads to are those of the type that are free in the
context under the run's substitution.  Variables of the context that are left in the type are among
them, under their ids.  Any other is new, and stands in the place of a variable of the context that
the run has bound.  So the scheme has free variables of the context only, exactly if no new variable
of the type has got into the context. -/
theorem infer_freeVars {Γ : Context} {e : Term} {σ : Scheme} (h : infer Γ e = .ok σ) :
    ∃ t s st, (inferTerm Γ e).run.run (.above Γ) = (.ok (t, s), st) ∧
      (∀ v, v ∈ σ.freeVars ↔ v ∈ t.vars ∧ v ∈ (Γ.apply s).freeVars) ∧
      (∀ v ∈ Γ.freeVars, v ∈ t.vars → v ∈ σ.freeVars) ∧
      (∀ v ∈ σ.freeVars, v ∈ Γ.freeVars ∨ Γ.nextVar ≤ v ∧
        ∃ u ∈ s.keys, Γ.Reaches e.freeNames u ∧ v ∈ (s.image u).vars) ∧
      ((∀ v ∈ σ.freeVars, v ∈ Γ.freeVars) ↔
        ∀ v ∈ t.vars, Γ.nextVar ≤ v → v ∉ (Γ.apply s).freeVars) := by
  obtain ⟨t, s, n, hrun, rfl⟩ := infer_eq_ok_iff.1 h
  obtain ⟨posed, hreturns⟩ := hrun.returns #[]
  have hspec := hrun.spec (Context.below_nextVar Γ)
  have hfree : ∀ v, v ∈ (Scheme.generalize (Γ.apply s) (s.apply t)).compact.freeVars ↔
      v ∈ t.vars ∧ v ∈ (Γ.apply s).freeVars := by
    intro v
    rw [Scheme.mem_freeVars_compact, Scheme.mem_freeVars_generalize, hspec.resolved]
  refine ⟨t, s, _, hreturns, hfree, fun v hv hvt => ?_, fun v hv => ?_,
    fun hold v hvt hnew hv => ?_, fun hnew v hv => ?_⟩
  · exact (hfree v).2 ⟨hvt, hspec.mem_freeVars_apply hvt hv⟩
  · exact hspec.replaces (Context.below_nextVar Γ) ((hfree v).1 hv).2
  · have hlt := Context.lt_nextVar (hold v ((hfree v).2 ⟨hvt, hv⟩))
    omega
  · obtain ⟨hvt, hv⟩ := (hfree v).1 hv
    rcases hspec.vars v hvt with hz | ⟨hle, -⟩
    · exact hz.mem_freeVars
    · exact absurd hv (hnew v hvt hle)

/-! ## Sample contexts -/

/-- Two names of unknown types. -/
def unknowns : Context := .ofList [("x", .mono (.var 0)), ("z", .mono (.var 1))]

/-- Makes the two types equal. -/
def chooseUnknown : Term := .lam "y" (.ite (.var "y") (.var "x") (.var "z"))

/-- One variable of the context is bound to the other, which keeps its id. -/
theorem infer_freeVars_chosen_unknown :
    infer unknowns chooseUnknown = .ok (.mono (.arrow .bool (.var 1))) ∧
      ∀ v ∈ (Scheme.mono (.arrow .bool (.var 1))).freeVars, v ∈ unknowns.freeVars := by
  have hinfer : infer unknowns chooseUnknown = .ok (.mono (.arrow .bool (.var 1))) := by cbv
  obtain ⟨s', st', hrun', -, -⟩ : ∃ s st, (inferTerm unknowns chooseUnknown).run.run
      (.above unknowns) = (.ok (.arrow .bool (.var 1), s), st) ∧ s.keys = [0, 2] ∧ st.next = 3 :=
    exists_run_eq (by cbv)
  obtain ⟨t, s, st, hrun, -, -, -, hiff⟩ := infer_freeVars hinfer
  cases hrun'.symm.trans hrun
  refine ⟨hinfer, hiff.2 fun v hv hnew => ?_⟩
  have hnext : unknowns.nextVar = 2 := by decide
  have hone : v = 1 := List.mem_singleton.1 hv
  omega

/-- A name of an unknown type. -/
def unknown : Context := .ofList [("x", .mono (.var 0))]

/-- The type of a name of the context comes back under a new id, which is free in the scheme and not
in the context; the name alone keeps the id. -/
theorem infer_replaces_context_variable :
    infer unknown (.var "x") = .ok (.mono (.var 0)) ∧
      infer unknown (.app (.lam "y" (.var "x")) (.bool true)) = .ok (.mono (.var 1)) ∧
      1 ∈ (Scheme.mono (.var 1)).freeVars ∧ 1 ∉ unknown.freeVars :=
  ⟨by cbv, by cbv, by decide, by decide⟩

end LetPoly
