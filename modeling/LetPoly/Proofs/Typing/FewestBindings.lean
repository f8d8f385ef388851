import Mathlib.Combinatorics.Enumerative.DoubleCounting
import LetPoly.Proofs.Inference.Resolved
import LetPoly.Proofs.Typing.MostGeneral

/-!
# A most general unifier binds the fewest variables

Generality alone says nothing about the number of bindings, since another unifier may leave alone
variables that the most general one binds.  But for each of those it has to bind another variable in
exchange: if `s` binds `v` and `θ` does not, then `s` puts a variable in the place of `v` which `θ`
sends back to `v`.  Different variables are exchanged for different ones, and none of those is bound
by `s`.
-/

namespace LetPoly

/-! ## Maps with as many keys -/

namespace SortedMap

variable {κ α β : Type} [Ord κ]

-- A map is no larger than another if its keys can be paired with different keys of the other.
theorem size_le_of_pairing [Std.LawfulEqOrd κ] [DecidableEq κ] {m : SortedMap κ α}
    {n : SortedMap κ β} (r : κ → κ → Prop) (hr : ∀ k ∈ m.keys, ∃ k' ∈ n.keys, r k k')
    (hinj : ∀ k₁ ∈ m.keys, ∀ k₂ ∈ m.keys, ∀ k', r k₁ k' → r k₂ k' → k₁ = k₂) :
    m.size ≤ n.size := by
  rw [← length_keys, ← length_keys, ← List.toFinset_card_of_nodup m.nodup_keys,
    ← List.toFinset_card_of_nodup n.nodup_keys]
  refine Finset.card_le_card_of_forall_subsingleton r (fun k hk => ?_) fun k' _ => ?_
  · obtain ⟨k', hk', hrel⟩ := hr k (List.mem_toFinset.1 hk)
    exact ⟨k', List.mem_toFinset.2 hk', hrel⟩
  · intro k₁ h₁ k₂ h₂
    exact hinj k₁ (List.mem_toFinset.1 h₁.1) k₂ (List.mem_toFinset.1 h₂.1) k' h₁.2 h₂.2

end SortedMap

/-! ## Variables in exchange -/

namespace Subst

variable {s θ : Subst} {v : Nat}

theorem image_of_notMem_keys (h : v ∉ s.keys) : s.image v = .var v := by
  unfold image
  cases hv : s.get? v with
  | none => rfl
  | some t => exact absurd (SortedMap.mem_keys_iff.2 ⟨t, hv⟩) h

/-- `θ` has the variable `w` for the variable `v` that `s` binds: the same one, or one that `s` does
not bind and that `θ` sends to `v`. -/
def Exchanges (θ s : Subst) (v w : Nat) : Prop := w = v ∨ w ∉ s.keys ∧ θ.image w = .var v

theorem Exchanges.unique {v₁ v₂ w : Nat} (h₁ : θ.Exchanges s v₁ w) (h₂ : θ.Exchanges s v₂ w)
    (hv₁ : v₁ ∈ s.keys) (hv₂ : v₂ ∈ s.keys) : v₁ = v₂ := by
  rcases h₁ with rfl | ⟨hnot, hw₁⟩
  · rcases h₂ with heq | ⟨hnot, -⟩
    · exact heq
    · exact absurd hv₁ hnot
  · rcases h₂ with rfl | ⟨-, hw₂⟩
    · exact absurd hv₂ hnot
    · rw [hw₁] at hw₂
      exact Ty.var.inj hw₂

-- Only a variable can become one under a substitution.
theorem exists_var_of_apply_eq_var {t : Ty} (h : θ.apply t = .var v) : ∃ w, t = .var w := by
  cases t with
  | var w => exact ⟨w, rfl⟩
  | con c => cases h
  | arrow a b => cases h

theorem exists_exchanges (hidem : s.Idempotent) (hmoves : s.Moves)
    (habs : θ.apply (s.image v) = θ.image v) (hv : v ∈ s.keys) :
    ∃ w ∈ θ.keys, θ.Exchanges s v w := by
  by_cases hvθ : v ∈ θ.keys
  · exact ⟨v, hvθ, .inl rfl⟩
  · rw [image_of_notMem_keys hvθ] at habs
    obtain ⟨w, hw⟩ := exists_var_of_apply_eq_var habs
    rw [hw, apply_var] at habs
    -- what an idempotent substitution puts in, it does not bind
    have hmem : w ∈ (s.image v).vars := by
      rw [hw]
      exact List.mem_singleton.2 rfl
    have hnot : w ∉ s.keys := hmoves.notMem_keys (hidem.image_of_mem hmem)
    refine ⟨w, ?_, .inr ⟨hnot, habs⟩⟩
    by_contra hwθ
    rw [image_of_notMem_keys hwθ] at habs
    exact hnot (Ty.var.inj habs ▸ hv)

end Subst

/-- If any substitution makes two types equal, they have a unifier, and it binds no more variables
than that substitution does. -/
theorem unify_binds_fewest {t u : Ty} {θ : Subst} (hθ : θ.apply t = θ.apply u) :
    (∃ s, unify t u = .ok s) ∧ ∀ s, unify t u = .ok s → s.size ≤ θ.size := by
  refine ⟨?_, fun s h => ?_⟩
  · rw [Subst.apply_eq_bind, Subst.apply_eq_bind] at hθ
    exact unify_complete t u θ.image hθ
  · refine SortedMap.size_le_of_pairing (θ.Exchanges s) (fun v hv => ?_) ?_
    · exact Subst.exists_exchanges (unify_idempotent h) (unify_moves t u s h)
        (unify_absorbed h hθ (.var v)) hv
    · intro v₁ hv₁ v₂ hv₂ w h₁ h₂
      exact h₁.unique h₂ hv₁ hv₂

/-- The unifier binds `t0` and `t1`; the other substitution leaves `t0` alone and binds `t2` for it.
-/
theorem unify_binds_fewest_exchanged :
    unify (.arrow (.var 0) (.var 1)) (.arrow (.var 1) (.var 2)) =
      .ok (.ofList [(0, .var 2), (1, .var 2)]) ∧
    Subst.apply (.ofList [(1, .var 0), (2, .var 0)]) (.arrow (.var 0) (.var 1)) =
      Subst.apply (.ofList [(1, .var 0), (2, .var 0)]) (.arrow (.var 1) (.var 2)) ∧
    SortedMap.size (.ofList [(0, Ty.var 2), (1, .var 2)]) ≤
      SortedMap.size (.ofList [(1, Ty.var 0), (2, .var 0)]) := by
  have hunify : unify (.arrow (.var 0) (.var 1)) (.arrow (.var 1) (.var 2)) =
      .ok (.ofList [(0, .var 2), (1, .var 2)]) := by cbv
  have hequal : Subst.apply (.ofList [(1, .var 0), (2, .var 0)]) (.arrow (.var 0) (.var 1)) =
      Subst.apply (.ofList [(1, .var 0), (2, .var 0)]) (.arrow (.var 1) (.var 2)) := by decide
  exact ⟨hunify, hequal, (unify_binds_fewest hequal).2 _ hunify⟩

end LetPoly
