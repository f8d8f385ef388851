import Mathlib.Data.Option.Basic
import LetPoly.Proofs.Typing.Unification

/-!
# What the answers of unification mean

A unifier that `unify` returns is most general, and an error names two types that the equation of
the arguments forces to be equal although no substitution can make them so.  There is then no
substitution that makes the arguments equal, so "forced" has to be said without one: the two types
are related in every equivalence that relates the arguments and relates arrows by their parts
(`Equates`), whether it comes from a substitution or not.
-/

namespace LetPoly

namespace UnifyError

/-- The two types that cannot be made equal. -/
def sides : UnifyError → Ty × Ty
  | mismatch l r => (l, r)
  | occurs v t => (.var v, t)

/-- The two types differ in their heads, or one is a variable inside the other. -/
def Stuck : UnifyError → Prop
  | mismatch l r => HeadsClash l r
  | occurs v t => v ∈ t.vars ∧ t ≠ .var v

end UnifyError

theorem bindVar_error {v : Nat} {t : Ty} {e : UnifyError} (h : bindVar v t = .error e) :
    e = .occurs v t ∧ e.Stuck := by
  unfold bindVar at h
  split at h
  · cases h
  · next ht =>
    split at h
    · next hocc =>
      cases h
      exact ⟨rfl, Ty.occurs_iff_mem_vars.1 hocc, ht⟩
    · cases h

-- Either the argument types fail, or the result types do under the unifier of the former.
theorem unify_arrow_error {a b c d : Ty} {e : UnifyError}
    (h : unify (.arrow a b) (.arrow c d) = .error e) :
    unify a c = .error e ∨ ∃ s, unify a c = .ok s ∧ unify (s.apply b) (s.apply d) = .error e := by
  rw [unify_arrow_arrow] at h
  cases h₁ : unify a c with
  | error e₁ =>
    rw [h₁] at h
    cases h
    exact .inl rfl
  | ok s =>
    rw [h₁] at h
    cases h₂ : unify (s.apply b) (s.apply d) with
    | error e₂ =>
      simp only [Except.bind, h₂] at h
      cases h
      exact .inr ⟨s, rfl, h₂⟩
    | ok s₂ =>
      simp only [Except.bind, h₂] at h
      cases h

theorem unify_error_stuck (t u : Ty) : ∀ e, unify t u = .error e → e.Stuck := by
  induction t, u using unify_induction with
  | var_left v u =>
    intro e h
    rw [unify_var_left] at h
    exact (bindVar_error h).2
  | var_right t v ht =>
    intro e h
    rw [unify_var_right v ht] at h
    exact (bindVar_error h).2
  | con c =>
    intro e h
    rw [unify_con_self] at h
    cases h
  | clash t u hclash =>
    intro e h
    rw [hclash.unify_eq] at h
    cases h
    exact hclash
  | arrow a b c d ih₁ ih₂ =>
    intro e h
    rcases unify_arrow_error h with h₁ | ⟨s, h₁, h₂⟩
    · exact ih₁ e h₁
    · exact ih₂ s h₁ e h₂

/-- The two types of an error are related by whatever follows from the equation of the arguments. -/
theorem unify_error_related {R : Ty → Ty → Prop} (hR : Equates R) (t u : Ty) :
    ∀ e, unify t u = .error e → R t u → R e.sides.1 e.sides.2 := by
  induction t, u using unify_induction with
  | var_left v u =>
    intro e h htu
    rw [unify_var_left] at h
    obtain ⟨rfl, -⟩ := bindVar_error h
    exact htu
  | var_right t v ht =>
    intro e h htu
    rw [unify_var_right v ht] at h
    obtain ⟨rfl, -⟩ := bindVar_error h
    exact hR.equivalence.symm htu
  | con c =>
    intro e h
    rw [unify_con_self] at h
    cases h
  | clash t u hclash =>
    intro e h htu
    rw [hclash.unify_eq] at h
    cases h
    exact htu
  | arrow a b c d ih₁ ih₂ =>
    intro e h htu
    obtain ⟨hac, hbd⟩ := hR.arrow_iff.1 htu
    rcases unify_arrow_error h with h₁ | ⟨s, h₁, h₂⟩
    · exact ih₁ e h₁ hac
    · -- the result types are met under a unifier that the relation respects
      exact ih₂ s h₁ e h₂ (hR.results (unify_related hR a c s h₁ hac) hbd)

/-! ## Substitutions -/

theorem Equates.of_subst (θ : Subst) : Equates fun t u => θ.apply t = θ.apply u := by
  simp only [Subst.apply_eq_bind]
  exact .of_bind θ.image

theorem unify_absorbed {t u : Ty} {s θ : Subst} (h : unify t u = .ok s)
    (hθ : θ.apply t = θ.apply u) (r : Ty) : θ.apply (s.apply r) = θ.apply r :=
  (Equates.of_subst θ).apply (unify_related (.of_subst θ) t u s h hθ) r

theorem exists_error_iff_no_unifier (t u : Ty) :
    (∃ e, unify t u = .error e) ↔ ¬ ∃ θ : Subst, θ.apply t = θ.apply u := by
  constructor
  · rintro ⟨e, he⟩ ⟨θ, hθ⟩
    rw [Subst.apply_eq_bind, Subst.apply_eq_bind] at hθ
    obtain ⟨s, hs⟩ := unify_complete t u θ.image hθ
    rw [hs] at he
    cases he
  · intro hnone
    cases h : unify t u with
    | ok s => exact absurd ⟨s, unify_sound t u s h⟩ hnone
    | error e => exact ⟨e, rfl⟩

/-- A unifier makes the two types equal, and every substitution that does so absorbs it.  Of the two
types that an error names, neither side of a mismatch is a variable and their heads clash; the
variable of a failed occurs check stands inside the other type.  Both are forced to be equal by the
equation of the arguments.  An error is returned exactly if there is no unifier. -/
theorem unify_mostGeneral (t u : Ty) :
    (∀ s, unify t u = .ok s → s.apply t = s.apply u ∧
      ∀ θ : Subst, θ.apply t = θ.apply u → ∀ r, θ.apply (s.apply r) = θ.apply r) ∧
    (∀ l r, unify t u = .error (.mismatch l r) →
      (∀ v, l ≠ .var v ∧ r ≠ .var v) ∧ HeadsClash l r ∧
      (∀ θ : Subst, θ.apply t = θ.apply u → θ.apply l = θ.apply r) ∧
      ∀ R, Equates R → R t u → R l r) ∧
    (∀ v r, unify t u = .error (.occurs v r) →
      v ∈ r.vars ∧ r ≠ .var v ∧
      (∀ θ : Subst, θ.apply t = θ.apply u → θ.apply (.var v) = θ.apply r) ∧
      ∀ R, Equates R → R t u → R (.var v) r) ∧
    ((∃ e, unify t u = .error e) ↔ ¬ ∃ θ : Subst, θ.apply t = θ.apply u) := by
  refine ⟨fun s h => ⟨unify_sound t u s h, fun θ hθ r => unify_absorbed h hθ r⟩,
    fun l r h => ?_, fun v r h => ?_, exists_error_iff_no_unifier t u⟩
  · have hclash : HeadsClash l r := unify_error_stuck t u _ h
    exact ⟨hclash.ne_var, hclash, fun θ => unify_error_related (.of_subst θ) t u _ h,
      fun R hR => unify_error_related hR t u _ h⟩
  · obtain ⟨hmem, hne⟩ : v ∈ r.vars ∧ r ≠ .var v := unify_error_stuck t u _ h
    exact ⟨hmem, hne, fun θ => unify_error_related (.of_subst θ) t u _ h,
      fun R hR => unify_error_related hR t u _ h⟩

/-- The type with all leaves made the same. -/
def Ty.shape : Ty → Ty
  | var _ | con _ => con ""
  | arrow a b => arrow a.shape b.shape

theorem Equates.of_shape : Equates fun t u => t.shape = u.shape where
  equivalence := ⟨fun _ => rfl, Eq.symm, Eq.trans⟩
  arrow_iff := by
    intro a b c d
    rw [Ty.shape, Ty.shape, Ty.arrow.injEq]

/-- Both errors show only in the result types, once the argument types are unified: `t0` has become
`Num` in the first, and `t1` in the second.  No substitution makes the first two types equal, but
their shapes are, so those of `Num` and `Bool` have to be. -/
theorem unify_mostGeneral_results :
    (unify (.arrow (.var 0) (.var 0)) (.arrow .num .bool) = .error (.mismatch .num .bool) ∧
      HeadsClash .num .bool ∧ (Ty.arrow (.var 0) (.var 0)).shape = (Ty.arrow .num .bool).shape ∧
      Ty.num.shape = Ty.bool.shape) ∧
    unify (.arrow (.var 0) (.var 0)) (.arrow (.var 1) (.arrow (.var 1) .num)) =
      .error (.occurs 1 (.arrow (.var 1) .num)) ∧
    ¬ ∃ θ : Subst, θ.apply (.arrow (.var 0) (.var 0)) =
      θ.apply (.arrow (.var 1) (.arrow (.var 1) .num)) := by
  have hmismatch : unify (.arrow (.var 0) (.var 0)) (.arrow .num .bool) =
      .error (.mismatch .num .bool) := by cbv
  have hoccurs : unify (.arrow (.var 0) (.var 0)) (.arrow (.var 1) (.arrow (.var 1) .num)) =
      .error (.occurs 1 (.arrow (.var 1) .num)) := by cbv
  have hshape : (Ty.arrow (.var 0) (.var 0)).shape = (Ty.arrow .num .bool).shape := rfl
  obtain ⟨-, hclash, hforced⟩ :=
    (unify_mostGeneral (.arrow (.var 0) (.var 0)) (.arrow .num .bool)).2.1 _ _ hmismatch
  exact ⟨⟨hmismatch, hclash, hshape, hforced.2 _ .of_shape hshape⟩, hoccurs,
    (unify_mostGeneral _ _).2.2.2.1 ⟨_, hoccurs⟩⟩

end LetPoly
