import LetPoly.Proofs.Typing.Instance
import LetPoly.Term.Basic

/-!
# The typing rules

`HasType Γ e t` is the let-polymorphic type system: a name has any instance of its scheme, a
parameter has one type in the body of its function, and a `let` gives its name all the types that
its definition has by replacing variables that are not free in the context.

Typings are kept when the context changes to one that offers at least as much (`HasType.bind`).
-/

namespace LetPoly

/-- The term `e` has type `t` in the context `Γ`. -/
inductive HasType : Context → Term → Ty → Prop
  | num {Γ v} : HasType Γ (.num v) .num
  | bool {Γ b} : HasType Γ (.bool b) .bool
  | var {Γ x σ t} : Γ.get? x = some σ → σ.HasInstance t → HasType Γ (.var x) t
  | ite {Γ c a b t} : HasType Γ c .bool → HasType Γ a t → HasType Γ b t → HasType Γ (.ite c a b) t
  | letIn {Γ x d b u t} : HasType Γ d u → HasType (Γ.insert x (.generalize Γ u)) b t →
      HasType Γ (.letIn x d b) t
  | lam {Γ x b u t} : HasType (Γ.insert x (.mono u)) b t → HasType Γ (.lam x b) (.arrow u t)
  | app {Γ f a u t} : HasType Γ f (.arrow u t) → HasType Γ a u → HasType Γ (.app f a) t

/-! ## Contexts that offer more -/

/-- Whatever `Γ` offers for a name, sent through `f`, is an instance of what `Δ` offers. -/
def Covers (f : Nat → Ty) (Γ Δ : Context) : Prop :=
  ∀ x σ, Γ.get? x = some σ → ∃ σ', Δ.get? x = some σ' ∧ ∀ t, σ.InstanceUnder f t → σ'.HasInstance t

namespace Covers

variable {f g : Nat → Ty} {Γ Δ : Context}

theorem congr (h : Covers f Γ Δ) (hfg : ∀ v ∈ Γ.freeVars, f v = g v) : Covers g Γ Δ := by
  intro x σ hx
  obtain ⟨σ', hx', hinst⟩ := h x σ hx
  refine ⟨σ', hx', fun t ht => hinst t (ht.congr fun v hv => ?_)⟩
  exact (hfg v (Context.mem_freeVars.2 ⟨x, σ, hx, hv⟩)).symm

theorem insert (h : Covers f Γ Δ) {x : String} {σ σ' : Scheme}
    (hσ : ∀ t, σ.InstanceUnder f t → σ'.HasInstance t) :
    Covers f (Γ.insert x σ) (Δ.insert x σ') := by
  intro y τ hy
  rcases SortedMap.get?_insert_eq_some hy with ⟨rfl, rfl⟩ | ⟨hyx, hy⟩
  · exact ⟨σ', SortedMap.get?_insert_self _ _ _, hσ⟩
  · rw [SortedMap.get?_insert_of_ne _ _ hyx]
    exact h y τ hy

theorem refl (Γ : Context) : Covers .var Γ Γ := fun _ σ hx => ⟨σ, hx, fun _ ht => ht⟩

theorem of_closed (h : Γ.Closed) (f : Nat → Ty) : Covers f Γ Γ := fun x σ hx =>
  ⟨σ, hx, fun _ ht => (h x σ hx).hasInstance ht⟩

-- Substitution without capture covers what was there before.
theorem of_apply {s : Subst} (h : ∀ x σ, Γ.get? x = some σ → σ.NoCapture s) :
    Covers s.image Γ (Γ.apply s) := by
  intro x σ hx
  refine ⟨σ.apply s, Context.get?_apply_some.2 ⟨σ, hx, rfl⟩, fun t ht => ?_⟩
  rw [Scheme.HasInstance, Scheme.instanceUnder_apply (h x σ hx)]
  exact ht.congr fun v _ => (Ty.bind_var _).symm

end Covers

-- A bound above all members of a list.
theorem exists_bound (l : List Nat) : ∃ n, ∀ v ∈ l, v < n := by
  induction l with
  | nil => exact ⟨0, by simp⟩
  | cons w rest ih =>
    obtain ⟨n, hn⟩ := ih
    refine ⟨max (w + 1) n, fun v hv => ?_⟩
    rcases List.mem_cons.1 hv with rfl | hv
    · omega
    · have := hn v hv
      omega

/-- Acts as `f` on the free variables of `Γ` and moves all others up by `n`. -/
def keepApart (Γ : Context) (f : Nat → Ty) (n v : Nat) : Ty :=
  if v ∈ Γ.freeVars then f v else .var (v + n)

/-- The types that `f` gives to a generalized type are instances of the generalization of a copy
whose quantified variables are kept apart, above `n`, from all others. -/
theorem generalize_covers {f : Nat → Ty} {Γ Δ : Context} {u : Ty} {n : Nat}
    (hΔ : ∀ v ∈ Δ.freeVars, v < n) (hf : ∀ v ∈ u.vars, ∀ w ∈ (f v).vars, w < n) {t : Ty}
    (ht : (Scheme.generalize Γ u).InstanceUnder f t) :
    (Scheme.generalize Δ (u.bind (keepApart Γ f n))).HasInstance t := by
  obtain ⟨g, hg, rfl⟩ := ht
  refine ⟨fun w => if w < n then .var w else g (w - n), fun w hw => ?_, ?_⟩
  · exact if_pos (hΔ w (Scheme.mem_freeVars_generalize.1 hw).2)
  · show (u.bind _).bind _ = u.bind g
    rw [Ty.bind_bind]
    refine Ty.bind_congr fun v hv => ?_
    unfold keepApart
    by_cases hfree : v ∈ Γ.freeVars
    · rw [if_pos hfree, hg v (Scheme.mem_freeVars_generalize.2 ⟨hv, hfree⟩)]
      exact Ty.bind_eq_self fun w hw => if_pos (hf v hv w hw)
    · rw [if_neg hfree, Ty.bind, if_neg (by omega), show v + n - n = v by omega]

theorem HasType.bind {Γ : Context} {e : Term} {t : Ty} (h : HasType Γ e t) :
    ∀ {f : Nat → Ty} {Δ : Context}, Covers f Γ Δ → HasType Δ e (t.bind f) := by
  induction h with
  | num => exact fun _ => .num
  | bool => exact fun _ => .bool
  | var hx ht =>
    intro f Δ hΔ
    obtain ⟨σ', hx', hinst⟩ := hΔ _ _ hx
    exact .var hx' (hinst _ (ht.bind f))
  | ite _ _ _ ihc iha ihb => exact fun hΔ => .ite (ihc hΔ) (iha hΔ) (ihb hΔ)
  | @letIn Γ x d b u t _ _ ihd ihb =>
    intro f Δ hΔ
    -- the definition is typed anew, with its quantified variables out of the way of `Δ` and `f`
    obtain ⟨n, hn⟩ := exists_bound (Δ.freeVars ++ u.vars.flatMap fun v => (f v).vars)
    have hΔn : ∀ v ∈ Δ.freeVars, v < n := fun v hv => hn v (List.mem_append_left _ hv)
    have hfn : ∀ v ∈ u.vars, ∀ w ∈ (f v).vars, w < n := fun v hv w hw =>
      hn w (List.mem_append_right _ (List.mem_flatMap.2 ⟨v, hv, hw⟩))
    have hapart : Covers (keepApart Γ f n) Γ Δ := hΔ.congr fun v hv => (if_pos hv).symm
    exact .letIn (ihd hapart) (ihb (hΔ.insert fun t ht => generalize_covers hΔn hfn ht))
  | @lam Γ x b u t _ ih =>
    intro f Δ hΔ
    refine .lam (ih (hΔ.insert fun t ht => ?_))
    rw [Scheme.instanceUnder_mono] at ht
    exact Scheme.hasInstance_mono.2 ht
  | app _ _ ihf iha => exact fun hΔ => .app (ihf hΔ) (iha hΔ)

-- A context with at least the same instances types at least the same terms.
theorem HasType.weaken {Γ Δ : Context} {e : Term} {t : Ty} (h : HasType Γ e t)
    (hΔ : Covers .var Γ Δ) : HasType Δ e t := by
  rw [← Ty.bind_var t]
  exact h.bind hΔ

-- What a `let` gives to its name are types of the definition.
theorem HasType.of_generalize {Γ : Context} {e : Term} {u t : Ty} (h : HasType Γ e u)
    (ht : (Scheme.generalize Γ u).HasInstance t) : HasType Γ e t := by
  obtain ⟨g, hg, rfl⟩ := ht
  -- the variables of the context are left alone
  have hcovers : Covers (fun v => if v ∈ Γ.freeVars then .var v else g v) Γ Γ :=
    (Covers.refl Γ).congr fun v hv => (if_pos hv).symm
  have hsame : u.bind g = u.bind fun v => if v ∈ Γ.freeVars then .var v else g v := by
    refine Ty.bind_congr fun v hv => ?_
    split
    · next hfree => exact hg v (Scheme.mem_freeVars_generalize.2 ⟨hv, hfree⟩)
    · rfl
  show HasType Γ e (u.bind g)
  rw [hsame]
  exact h.bind hcovers

end LetPoly
