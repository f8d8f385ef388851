import Mathlib.Data.Finset.Card
import LetPoly.Proofs.Inference.Resolved

/-!
# Unification descends

A unifier deals with the variables of its arguments only, and a variable that it binds is left in
nothing that it is applied to (`unify_resolved`).  So if it binds any variable at all, the types it
is applied to lose one and get none from outside.  That is why unification of two arrows ends: the
result types may grow under the unifier of the argument types, but then they have fewer variables.

`UnifyCall` are the calls that one call makes, and `UnifyRun` are the runs of unification read off
its clauses, with nothing assumed about their end.
-/

namespace LetPoly

/-! ## Bound variables -/

namespace Subst

variable {s : Subst} {k : Nat}

theorem Moves.notMem_apply (h : s.Moves) (hidem : s.Idempotent) (hk : k ∈ s.keys) (t : Ty) :
    k ∉ (s.apply t).vars := by
  rw [apply_eq_bind, Ty.mem_vars_bind]
  rintro ⟨v, -, hv⟩
  exact h.notMem_image hidem hk v hv

theorem eq_empty_or_exists_key (s : Subst) : s = ∅ ∨ ∃ k, k ∈ s.keys := by
  rcases hkeys : s.keys with _ | ⟨k, ks⟩
  · refine .inl (SortedMap.ext_get? fun k => ?_)
    cases hk : s.get? k with
    | none => rfl
    | some t =>
      have hmem : k ∈ s.keys := SortedMap.mem_keys_iff.2 ⟨t, hk⟩
      rw [hkeys] at hmem
      cases hmem
  · exact .inr ⟨k, List.mem_cons_self⟩

end Subst

/-- The variables that a unifier binds, and those of the types it binds them to, are variables of
its arguments.  No variable that it binds is left in those types, so applying it a second time
changes nothing. -/
theorem unify_resolved {t u : Ty} {s : Subst} (h : unify t u = .ok s) :
    (∀ k ∈ s.keys, k ∈ t.vars ∨ k ∈ u.vars) ∧
    (∀ r ∈ s.values, ∀ v ∈ r.vars, v ∈ t.vars ∨ v ∈ u.vars) ∧
    (∀ k ∈ s.keys, ∀ r ∈ s.values, k ∉ r.vars) ∧
    ∀ r, s.apply (s.apply r) = s.apply r := by
  have hidem := unify_idempotent h
  have hmoves := unify_moves t u s h
  have hwithin := unify_within t u s h
  refine ⟨fun k hk => ?_, fun r hr => ?_, fun k hk r hr => ?_, hidem.apply_apply⟩
  · obtain ⟨r, hr⟩ := SortedMap.mem_keys_iff.1 hk
    exact (hmoves.within_keys hwithin hr).1
  · obtain ⟨k, hk⟩ := SortedMap.mem_values_iff.1 hr
    exact (hmoves.within_keys hwithin hk).2
  · obtain ⟨v, hv⟩ := SortedMap.mem_values_iff.1 hr
    rw [← Subst.image_of_get? hv]
    exact hmoves.notMem_image hidem hk v

/-- `t0` is first bound to `t1`, which is itself bound later on: none of the two is left. -/
theorem unify_resolved_chain :
    ∃ s, unify (.arrow (.var 0) (.arrow (.var 1) (.var 0)))
        (.arrow (.var 1) (.arrow (.arrow (.var 2) .num) (.var 3))) = .ok s ∧
      s.entries = [(0, .arrow (.var 2) .num), (1, .arrow (.var 2) .num),
        (3, .arrow (.var 2) .num)] ∧
      (∀ k ∈ s.keys, ∀ r ∈ s.values, k ∉ r.vars) ∧ ∀ r, s.apply (s.apply r) = s.apply r := by
  have hunify : unify (.arrow (.var 0) (.arrow (.var 1) (.var 0)))
      (.arrow (.var 1) (.arrow (.arrow (.var 2) .num) (.var 3))) =
        .ok (.ofList [(0, .arrow (.var 2) .num), (1, .arrow (.var 2) .num),
          (3, .arrow (.var 2) .num)]) := by cbv
  exact ⟨_, hunify, by decide, (unify_resolved hunify).2.2⟩

/-! ## The variables of two types -/

/-- The variables that occur in one of two types. -/
def pairVars (t u : Ty) : Finset Nat := (t.vars ++ u.vars).toFinset

theorem mem_pairVars {t u : Ty} {v : Nat} : v ∈ pairVars t u ↔ v ∈ t.vars ∨ v ∈ u.vars := by
  rw [pairVars, List.mem_toFinset, List.mem_append]

section Arrows

variable {a b c d : Ty} {s : Subst}

theorem pairVars_results_subset (h : unify a c = .ok s) :
    pairVars (s.apply b) (s.apply d) ⊆ pairVars (.arrow a b) (.arrow c d) := by
  intro v hv
  have hwithin := unify_within a c s h
  simp only [mem_pairVars, Ty.vars, List.mem_append]
  rcases mem_pairVars.1 hv with hv | hv
  · rcases hwithin.of_mem_apply hv with hv | hv | hv <;> simp [hv]
  · rcases hwithin.of_mem_apply hv with hv | hv | hv <;> simp [hv]

-- Every variable that is bound is one of the arrows and is gone from the result types.
theorem pairVars_results_ssubset (h : unify a c = .ok s) {k : Nat} (hk : k ∈ s.keys) :
    pairVars (s.apply b) (s.apply d) ⊂ pairVars (.arrow a b) (.arrow c d) := by
  refine (Finset.ssubset_iff_of_subset (pairVars_results_subset h)).2 ⟨k, ?_, fun hc => ?_⟩
  · simp only [mem_pairVars, Ty.vars, List.mem_append]
    obtain ⟨r, hr⟩ := SortedMap.mem_keys_iff.1 hk
    rcases ((unify_moves a c s h).within_keys (unify_within a c s h) hr).1 with hk | hk <;>
      simp [hk]
  · have hgone := (unify_moves a c s h).notMem_apply (unify_idempotent h) hk
    exact (mem_pairVars.1 hc).elim (hgone b) (hgone d)

theorem results_untouched_or_ssubset (h : unify a c = .ok s) :
    s = ∅ ∧ s.apply b = b ∧ s.apply d = d ∨
      pairVars (s.apply b) (s.apply d) ⊂ pairVars (.arrow a b) (.arrow c d) := by
  rcases s.eq_empty_or_exists_key with rfl | ⟨k, hk⟩
  · exact .inl ⟨rfl, Subst.apply_empty b, Subst.apply_empty d⟩
  · exact .inr (pairVars_results_ssubset h hk)

end Arrows

/-! ## Calls and runs -/

/-- The pairs that unification is called on in turn: the argument types of two arrows, and their
result types under the unifier of the argument types. -/
inductive UnifyCall : Ty × Ty → Ty × Ty → Prop
  | args {a b c d} : UnifyCall (a, c) (.arrow a b, .arrow c d)
  | results {a b c d s} : unify a c = .ok s →
      UnifyCall (s.apply b, s.apply d) (.arrow a b, .arrow c d)

/-- The runs of unification, clause by clause. -/
inductive UnifyRun : Ty → Ty → Except UnifyError Subst → Prop
  | var_left {v u} : UnifyRun (.var v) u (bindVar v u)
  | var_right {t v} : (∀ w, t ≠ .var w) → UnifyRun t (.var v) (bindVar v t)
  | con {c} : UnifyRun (.con c) (.con c) (.ok ∅)
  | clash {t u} : HeadsClash t u → UnifyRun t u (.error (.mismatch t u))
  | args {a b c d e} : UnifyRun a c (.error e) → UnifyRun (.arrow a b) (.arrow c d) (.error e)
  | results {a b c d s r} : UnifyRun a c (.ok s) → UnifyRun (s.apply b) (s.apply d) r →
      UnifyRun (.arrow a b) (.arrow c d) (r.map (·.compose s))

theorem UnifyCall.descends {p q : Ty × Ty} (h : UnifyCall p q) : Descends p.1 p.2 q.1 q.2 := by
  cases h with
  | args => exact descends_args _ _ _ _
  | results hs => exact descends_results (.of_unify hs)

theorem wellFounded_unifyCall : WellFounded UnifyCall := by
  have hlex : WellFounded (Prod.Lex (· < · : Nat → Nat → Prop) (· < · : Nat → Nat → Prop)) :=
    WellFounded.prod_lex Nat.lt_wfRel.wf Nat.lt_wfRel.wf
  have hdescends : WellFounded fun p q : Ty × Ty => Descends p.1 p.2 q.1 q.2 :=
    InvImage.wf (fun p : Ty × Ty => (varCount p.1 p.2, p.1.size + p.2.size)) hlex
  exact Subrelation.wf UnifyCall.descends hdescends

theorem UnifyRun.unify_eq {t u : Ty} {r : Except UnifyError Subst} (h : UnifyRun t u r) :
    unify t u = r := by
  induction h with
  | var_left => exact unify_var_left _ _
  | var_right ht => exact unify_var_right _ ht
  | con => exact unify_con_self _
  | clash hclash => exact hclash.unify_eq
  | args _ ih =>
    rw [unify_arrow_arrow, ih]
    rfl
  | results _ _ ih₁ ih₂ =>
    rw [unify_arrow_arrow, ih₁, ← ih₂]
    rfl

/-- Every pair of types has a run to the end. -/
theorem unifyRun_unify (t u : Ty) : UnifyRun t u (unify t u) := by
  induction t, u using unify_induction with
  | var_left v u =>
    rw [unify_var_left]
    exact .var_left
  | var_right t v ht =>
    rw [unify_var_right v ht]
    exact .var_right ht
  | con c =>
    rw [unify_con_self]
    exact .con
  | clash t u hclash =>
    rw [hclash.unify_eq]
    exact .clash hclash
  | arrow a b c d ih₁ ih₂ =>
    rw [unify_arrow_arrow]
    cases h : unify a c with
    | error e => exact .args (h ▸ ih₁)
    | ok s => exact .results (h ▸ ih₁) (ih₂ s h)

/-- Of the two calls that unification of two arrows makes, the first is on smaller types with no
other variables.  The second is on the result types as they were, or it is on types that have lost a
variable and may have grown.  So no chain of calls goes on for ever, and from every pair of types
there is a run to the end. -/
theorem unify_terminates :
    (∀ a b c d s, unify a c = .ok s →
      s = ∅ ∧ s.apply b = b ∧ s.apply d = d ∨
        pairVars (s.apply b) (s.apply d) ⊂ pairVars (.arrow a b) (.arrow c d)) ∧
    (∀ p q, UnifyCall p q → Descends p.1 p.2 q.1 q.2) ∧
    WellFounded UnifyCall ∧
    (∀ t u r, UnifyRun t u r ↔ unify t u = r) ∧
    ∃ a b c d s, unify a c = .ok s ∧
      (Ty.arrow a b).size + (Ty.arrow c d).size < (s.apply b).size + (s.apply d).size := by
  refine ⟨fun a b c d s h => results_untouched_or_ssubset h, fun p q h => h.descends,
    wellFounded_unifyCall, fun t u r => ⟨UnifyRun.unify_eq, fun h => h ▸ unifyRun_unify t u⟩, ?_⟩
  -- `t0` becomes `t1 -> t1` twice in each of the result types
  exact ⟨.var 0, .arrow (.var 0) (.var 0), .arrow (.var 1) (.var 1), .arrow (.var 0) (.var 0),
    .singleton 0 (.arrow (.var 1) (.var 1)), by rw [unify_var_left]; decide, by decide⟩

/-- The result types `t0 -> t0` grow to `(t1 -> t1) -> t1 -> t1`, and lose the variable `t0`. -/
theorem unify_terminates_grown :
    unify (.var 0) (.arrow (.var 1) (.var 1)) = .ok (.singleton 0 (.arrow (.var 1) (.var 1))) ∧
    pairVars (Subst.apply (.singleton 0 (.arrow (.var 1) (.var 1))) (.arrow (.var 0) (.var 0)))
        (Subst.apply (.singleton 0 (.arrow (.var 1) (.var 1))) (.arrow (.var 0) (.var 0))) ⊂
      pairVars (.arrow (.var 0) (.arrow (.var 0) (.var 0)))
        (.arrow (.arrow (.var 1) (.var 1)) (.arrow (.var 0) (.var 0))) := by
  have hunify : unify (.var 0) (.arrow (.var 1) (.var 1)) =
      .ok (.singleton 0 (.arrow (.var 1) (.var 1))) := by
    rw [unify_var_left]
    decide
  exact ⟨hunify, (unify_terminates.1 _ _ _ _ _ hunify).resolve_left (by decide)⟩

end LetPoly
