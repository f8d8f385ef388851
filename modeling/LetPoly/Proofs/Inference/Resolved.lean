import Mathlib
import LetPoly.Proofs.Inference.Locality

/-!
# What a run returns is resolved

No binding of a run's substitution is idle, that is, none sends a variable to itself
(`Subst.Moves`).  Together with idempotence this keeps the bound variables out of everything that
the run returns: out of the types that others are bound to, out of the type of the term, and out of
the context under the substitution.
-/

namespace LetPoly

namespace Subst

/-- Every binding moves its variable. -/
def Moves (s : Subst) : Prop := ∀ v t, s.get? v = some t → t ≠ .var v

theorem moves_empty : Subst.Moves ∅ := by
  intro v t h
  rw [SortedMap.get?_empty] at h
  cases h

theorem image_of_get? {s : Subst} {v : Nat} {t : Ty} (h : s.get? v = some t) : s.image v = t := by
  simp [image, h]

-- A variable that comes out of a later substitution is not one that the earlier one binds.
theorem Moves.compose {s s' : Subst} (h' : s'.Moves) (h : s.Moves) (hs : s'.Follows s) :
    (s'.compose s).Moves := by
  intro v t hv
  obtain ⟨hidem, W, hW, hfix⟩ := hs
  rw [get?_compose] at hv
  cases hs : s.get? v with
  | none =>
    rw [hs] at hv
    exact h' v t hv
  | some u =>
    rw [hs] at hv
    have ht : s'.apply u = t := by simpa using hv
    have himage : s.image v = u := image_of_get? hs
    intro hc
    have hmem : v ∈ (s'.apply u).vars := by simp [ht, hc, Ty.vars]
    -- `s` would have to leave `v` alone, which it binds
    have hstay : s.image v = .var v := by
      rcases hW.of_mem_apply hmem with hvu | hvW
      · exact hidem.image_of_mem (himage ▸ hvu)
      · exact hfix v hvW
    exact h v u hs (himage.symm.trans hstay)

section Keys

variable {s : Subst} {k : Nat}

theorem Moves.notMem_keys (h : s.Moves) (hk : s.image k = .var k) : k ∉ s.keys := by
  intro hmem
  obtain ⟨t, ht⟩ := SortedMap.mem_keys_iff.1 hmem
  exact h k t ht ((image_of_get? ht).symm.trans hk)

theorem Moves.notMem_image (h : s.Moves) (hidem : s.Idempotent) (hk : k ∈ s.keys) (v : Nat) :
    k ∉ (s.image v).vars := fun hc => h.notMem_keys (hidem.image_of_mem hc) hk

-- A bound variable and the variables of its type lie where the substitution is confined to.
theorem Moves.within_keys {W : Nat → Prop} (h : s.Moves) (hs : s.Within W) {t : Ty}
    (hk : s.get? k = some t) : W k ∧ ∀ v ∈ t.vars, W v := by
  have himage : s.image k = t := image_of_get? hk
  rcases hs k with hc | hc
  · exact absurd (himage.symm.trans hc) (h k t hk)
  · exact himage ▸ hc

end Keys

end Subst

/-! ## Unifiers -/

theorem bindVar_moves {v : Nat} {t : Ty} {s : Subst} (h : bindVar v t = .ok s) : s.Moves := by
  rcases bindVar_ok h with ⟨-, rfl⟩ | ⟨hnot, rfl⟩
  · exact Subst.moves_empty
  · intro w u hw
    rw [SortedMap.get?_singleton] at hw
    split at hw
    · next hwv =>
      cases hw
      intro hc
      rw [hc, Ty.vars, List.mem_singleton] at hnot
      exact hnot (SortedMap.compare_eq_iff.1 hwv).symm
    · cases hw

theorem unify_moves (t u : Ty) : ∀ s, unify t u = .ok s → s.Moves := by
  induction t, u using unify_induction with
  | var_left v u =>
    intro s h
    rw [unify_var_left] at h
    exact bindVar_moves h
  | var_right t v ht =>
    intro s h
    rw [unify_var_right v ht] at h
    exact bindVar_moves h
  | con c =>
    intro s h
    rw [unify_con_self] at h
    cases h
    exact Subst.moves_empty
  | clash t u hclash => exact fun s h => absurd h (hclash.unify_ne_ok s)
  | arrow a b c d ih₁ ih₂ =>
    intro s h
    obtain ⟨s₁, s₂, h₁, h₂, rfl⟩ := unify_arrow_ok h
    have hidem := unify_idempotent h₁
    exact (ih₂ s₁ h₁ s₂ h₂).compose (ih₁ s₁ h₁)
      ⟨hidem, unify_after h₂ (hidem.apply_apply b) (hidem.apply_apply d)⟩

/-! ## Runs -/

theorem Infers.moves {keep : Bool} {Γ : Context} {n n' : Nat} {e : Term} {t : Ty} {s : Subst}
    (h : Infers keep Γ n e t s n') : Γ.Below n → s.Moves := by
  induction h with
  | num | bool | var => exact fun _ => Subst.moves_empty
  | ite hc hu ha hb hs hu' ihc iha ihb =>
    intro hΓ
    -- one substitution after the other, each of them after all those before it
    obtain ⟨h₂, h₃, h₄, h₅, hΓ₁, hΓ₃⟩ := hc.ite_follows hΓ hu ha hb hs hu'
    have hthn := (iha hΓ₁).compose ((unify_moves _ _ _ hu).compose (ihc hΓ) h₂) h₃
    exact (unify_moves _ _ _ hu').compose (hs ▸ (ihb hΓ₃).compose hthn h₄) h₅
  | letIn hd hb ihd ihb =>
    intro hΓ
    have hds := hd.spec hΓ
    exact (ihb (hΓ.letIn hds _)).compose (ihd hΓ) ⟨hds.idempotent,
      _, (hb.spec (hΓ.letIn hds _)).within, fun _ hv => hv.image_eq_of_letIn hΓ hds⟩
  | lam hb ih =>
    intro hΓ
    exact ih (hΓ.lam _)
  | app hf ha hu ihf iha =>
    intro hΓ
    obtain ⟨h₃, h₂, hΓ₁⟩ := hf.app_follows hΓ ha hu
    exact ((unify_moves _ _ _ hu).compose (iha hΓ₁) h₃).compose (ihf hΓ.succ) h₂

/-- A run of inference above the free variables of its context returns a type and a substitution
without unfinished business: no bound variable is left in the types that others are bound to, in the
type of the term or in the context, and all variables are free in the context or new. -/
theorem inferTerm_resolved {Γ : Context} {e : Term} {st st' : InferState} {t : Ty} {s : Subst}
    (hΓ : ∀ v ∈ Γ.freeVars, v < st.next)
    (hrun : (inferTerm Γ e).run.run st = (.ok (t, s), st')) :
    st.next ≤ st'.next ∧ (∀ k ∈ s.keys, ∀ u ∈ s.values, k ∉ u.vars) ∧ s.apply t = t ∧
      (∀ k ∈ s.keys, k ∉ (Γ.apply s).freeVars) ∧
      ∀ v, (v ∈ t.vars ∨ v ∈ s.keys ∨ ∃ u ∈ s.values, v ∈ u.vars) →
        v ∈ Γ.freeVars ∨ st.next ≤ v ∧ v < st'.next := by
  have hinfers := infers_of_returns hrun
  have hspec := hinfers.spec hΓ
  have hmoves := hinfers.moves hΓ
  have hzone : ∀ v, Zone Γ e.freeNames st.next st'.next v →
      v ∈ Γ.freeVars ∨ st.next ≤ v ∧ v < st'.next := fun v hv => hv.imp_left (·.mem_freeVars)
  refine ⟨hspec.le, fun k hk u hu => ?_, hspec.resolved, fun k hk hfree => ?_, fun v hv => ?_⟩
  · obtain ⟨w, hw⟩ := SortedMap.mem_values_iff.1 hu
    rw [← Subst.image_of_get? hw]
    exact hmoves.notMem_image hspec.idempotent hk w
  · obtain ⟨w, -, hmem⟩ := Context.mem_freeVars_apply hfree
    exact hmoves.notMem_image hspec.idempotent hk w hmem
  · refine hzone v ?_
    rcases hv with hv | hv | ⟨u, hu, hv⟩
    · exact hspec.vars v hv
    · obtain ⟨u, hu⟩ := SortedMap.mem_keys_iff.1 hv
      exact (hmoves.within_keys hspec.within hu).1
    · obtain ⟨k, hk⟩ := SortedMap.mem_values_iff.1 hu
      exact (hmoves.within_keys hspec.within hk).2 v hv

/-! ## A sample run -/

-- an evaluated run shows its type, the bound variables and the next unused one
theorem exists_run_eq {m : InferM (Ty × Subst)} {st : InferState} {t : Ty} {keys : List Nat}
    {next : Nat} (h : ((m.run.run st).1.toOption.map fun r => (r.1, r.2.keys),
      (m.run.run st).2.next) = (some (t, keys), next)) :
    ∃ s st', m.run.run st = (.ok (t, s), st') ∧ s.keys = keys ∧ st'.next = next := by
  rcases hrun : m.run.run st with ⟨e | ⟨u, s⟩, st'⟩
  · rw [hrun] at h
    cases h
  · rw [hrun] at h
    cases h
    exact ⟨s, st', rfl, rfl, rfl⟩

/-- A name of an unknown type, and a function with a result of the same type. -/
def openContext : Context :=
  .ofList [("f", ⟨[1], .arrow (.var 1) (.var 0)⟩), ("p", .mono (.var 0))]

/-- A condition of the unknown type, and branches that apply the function. -/
def openTerm : Term :=
  .lam "x" (.ite (.var "p") (.app (.var "f") (.var "x"))
    (.letIn "y" (.app (.var "f") (.var "p")) (.var "y")))

/-- The condition fixes the unknown type, and of the new variables only the parameter's is left. -/
theorem inferTerm_resolved_open_context :
    ∃ s st', (inferTerm openContext openTerm).run.run { next := 3 } =
        (.ok (.arrow (.var 3) .bool, s), st') ∧ s.keys = [0, 4, 5, 6, 7] ∧ st'.next = 8 ∧
      (∀ k ∈ s.keys, ∀ u ∈ s.values, k ∉ u.vars) ∧
      ∀ k ∈ s.keys, k ∉ (openContext.apply s).freeVars := by
  have hrun : ∃ s st', (inferTerm openContext openTerm).run.run { next := 3 } =
      (.ok (.arrow (.var 3) .bool, s), st') ∧ s.keys = [0, 4, 5, 6, 7] ∧ st'.next = 8 :=
    exists_run_eq (by cbv)
  obtain ⟨s, st', hrun, hkeys, hnext⟩ := hrun
  obtain ⟨-, hvalues, -, hfree, -⟩ := inferTerm_resolved (by decide) hrun
  exact ⟨s, st', hrun, hkeys, hnext, hvalues, hfree⟩

end LetPoly
