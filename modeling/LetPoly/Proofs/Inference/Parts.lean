import LetPoly.Proofs.Inference.Locality
import LetPoly.Proofs.Typing.Compact
import LetPoly.Proofs.Typing.Simple

/-!
# The types that inference finds for parameters

A run of inference on a term comes to each part of it with some context and some next unused
variable (`Visits`).  To the parameter of a function it gives the next unused variable, and the type
of the parameter is what the substitution of the whole run makes of that variable (`ParamTy`).

In a term without `let`, and a context without quantifiers, the types found in this way for the
parameters are part of a simple typing of the term (`Infers.typedAt`).
-/

namespace LetPoly

/-- The run on the term comes to the part at the place with this context and next variable. -/
inductive Visits (Γ₀ : Context) (n₀ : Nat) (e₀ : Term) : Path → Context → Nat → Term → Prop
  | here : Visits Γ₀ n₀ e₀ [] Γ₀ n₀ e₀
  | cond {p Γ n c a b} : Visits Γ₀ n₀ e₀ p Γ n (.ite c a b) → Visits Γ₀ n₀ e₀ (.cond :: p) Γ n c
  | thn {p Γ n c a b t₁ s₁ n₁ s₂} : Visits Γ₀ n₀ e₀ p Γ n (.ite c a b) →
      Infers false Γ n c t₁ s₁ n₁ → unify t₁ .bool = .ok s₂ →
      Visits Γ₀ n₀ e₀ (.thn :: p) (Γ.apply (s₂.compose s₁)) n₁ a
  | els {p Γ n c a b t₁ s₁ n₁ s₂ t₃ s₃ n₃} : Visits Γ₀ n₀ e₀ p Γ n (.ite c a b) →
      Infers false Γ n c t₁ s₁ n₁ → unify t₁ .bool = .ok s₂ →
      Infers false (Γ.apply (s₂.compose s₁)) n₁ a t₃ s₃ n₃ →
      Visits Γ₀ n₀ e₀ (.els :: p) (Γ.apply (s₃.compose (s₂.compose s₁))) n₃ b
  | definition {p Γ n x d b} : Visits Γ₀ n₀ e₀ p Γ n (.letIn x d b) →
      Visits Γ₀ n₀ e₀ (.definition :: p) Γ n d
  | letBody {p Γ n x d b t₁ s₁ n₁} : Visits Γ₀ n₀ e₀ p Γ n (.letIn x d b) →
      Infers false Γ n d t₁ s₁ n₁ →
      Visits Γ₀ n₀ e₀ (.letBody :: p) ((Γ.apply s₁).insert x
        (.generalize ((letScope false Γ x).apply s₁) (s₁.apply t₁))) n₁ b
  | lamBody {p Γ n x b} : Visits Γ₀ n₀ e₀ p Γ n (.lam x b) →
      Visits Γ₀ n₀ e₀ (.lamBody :: p) (Γ.insert x (.mono (.var n))) (n + 1) b
  | fn {p Γ n f a} : Visits Γ₀ n₀ e₀ p Γ n (.app f a) → Visits Γ₀ n₀ e₀ (.fn :: p) Γ (n + 1) f
  | arg {p Γ n f a t₁ s₁ n₁} : Visits Γ₀ n₀ e₀ p Γ n (.app f a) →
      Infers false Γ (n + 1) f t₁ s₁ n₁ → Visits Γ₀ n₀ e₀ (.arg :: p) (Γ.apply s₁) n₁ a

/-- The function at the place has the parameter `x`, and `θ` the type `u` for its variable. -/
def ParamUnder (θ : Nat → Ty) (Γ : Context) (n : Nat) (e : Term) (p : Path) (x : String) (u : Ty) :
    Prop :=
  ∃ Γ' n' b, Visits Γ n e p Γ' n' (.lam x b) ∧ θ n' = u

/-- Inference on the term finds the type `u` for the parameter `x` of the function at the place. -/
def ParamTy (Γ : Context) (e : Term) (p : Path) (x : String) (u : Ty) : Prop :=
  ∃ t s n, Infers false Γ Γ.nextVar e t s n ∧ ParamUnder s.image Γ Γ.nextVar e p x u

/-! ## One type for each parameter -/

theorem Infers.unique {Γ : Context} {n m m' : Nat} {e : Term} {t t' : Ty} {s s' : Subst}
    (h : Infers false Γ n e t s m) (h' : Infers false Γ n e t' s' m') :
    t = t' ∧ s = s' ∧ m = m' := by
  obtain ⟨posed, hrun⟩ := h.returns #[]
  obtain ⟨posed', hrun'⟩ := h'.returns #[]
  rw [Returns] at hrun hrun'
  rw [hrun] at hrun'
  cases hrun'
  exact ⟨rfl, rfl, rfl⟩

/-- A run comes to a place in one way only. -/
theorem Visits.unique {Γ₀ : Context} {n₀ : Nat} {e₀ : Term} {p : Path} {Γ : Context} {n : Nat}
    {e : Term} (h : Visits Γ₀ n₀ e₀ p Γ n e) :
    ∀ {Γ' n' e'}, Visits Γ₀ n₀ e₀ p Γ' n' e' → Γ = Γ' ∧ n = n' ∧ e = e' := by
  induction h with
  | here =>
    intro Γ' n' e' h'
    cases h'
    exact ⟨rfl, rfl, rfl⟩
  | cond _ ih =>
    intro Γ' n' e' h'
    cases h' with
    | cond hp =>
      obtain ⟨rfl, rfl, heq⟩ := ih hp
      cases heq
      exact ⟨rfl, rfl, rfl⟩
  | thn _ hc hu ih =>
    intro Γ' n' e' h'
    cases h' with
    | thn hp hc' hu' =>
      obtain ⟨rfl, rfl, heq⟩ := ih hp
      cases heq
      obtain ⟨rfl, rfl, rfl⟩ := hc.unique hc'
      cases hu.symm.trans hu'
      exact ⟨rfl, rfl, rfl⟩
  | els _ hc hu ha ih =>
    intro Γ' n' e' h'
    cases h' with
    | els hp hc' hu' ha' =>
      obtain ⟨rfl, rfl, heq⟩ := ih hp
      cases heq
      obtain ⟨rfl, rfl, rfl⟩ := hc.unique hc'
      cases hu.symm.trans hu'
      obtain ⟨rfl, rfl, rfl⟩ := ha.unique ha'
      exact ⟨rfl, rfl, rfl⟩
  | definition _ ih =>
    intro Γ' n' e' h'
    cases h' with
    | definition hp =>
      obtain ⟨rfl, rfl, heq⟩ := ih hp
      cases heq
      exact ⟨rfl, rfl, rfl⟩
  | letBody _ hd ih =>
    intro Γ' n' e' h'
    cases h' with
    | letBody hp hd' =>
      obtain ⟨rfl, rfl, heq⟩ := ih hp
      cases heq
      obtain ⟨rfl, rfl, rfl⟩ := hd.unique hd'
      exact ⟨rfl, rfl, rfl⟩
  | lamBody _ ih =>
    intro Γ' n' e' h'
    cases h' with
    | lamBody hp =>
      obtain ⟨rfl, rfl, heq⟩ := ih hp
      cases heq
      exact ⟨rfl, rfl, rfl⟩
  | fn _ ih =>
    intro Γ' n' e' h'
    cases h' with
    | fn hp =>
      obtain ⟨rfl, rfl, heq⟩ := ih hp
      cases heq
      exact ⟨rfl, rfl, rfl⟩
  | arg _ hf ih =>
    intro Γ' n' e' h'
    cases h' with
    | arg hp hf' =>
      obtain ⟨rfl, rfl, heq⟩ := ih hp
      cases heq
      obtain ⟨rfl, rfl, rfl⟩ := hf.unique hf'
      exact ⟨rfl, rfl, rfl⟩

/-- Inference finds one parameter and one type for each place. -/
theorem ParamTy.unique {Γ : Context} {e : Term} {p : Path} {x x' : String} {u u' : Ty}
    (h : ParamTy Γ e p x u) (h' : ParamTy Γ e p x' u') : x = x' ∧ u = u' := by
  obtain ⟨t, s, n, hrun, Γ₁, n₁, b, hvisits, rfl⟩ := h
  obtain ⟨t', s', n', hrun', Γ₁', n₁', b', hvisits', rfl⟩ := h'
  obtain ⟨-, rfl, -⟩ := hrun.unique hrun'
  obtain ⟨-, rfl, hlam⟩ := hvisits.unique hvisits'
  cases hlam
  exact ⟨rfl, rfl⟩

/-! ## Contexts without quantifiers -/

theorem Scheme.instantiate_mono (t : Ty) (n : Nat) : (mono t).instantiate n = t :=
  Subst.apply_empty t

namespace Context

/-- No scheme of the context quantifies a variable. -/
def Monomorphic (Γ : Context) : Prop := ∀ x σ, Γ.get? x = some σ → ∃ t, σ = .mono t

/-- The types of the names under a function on variables. -/
def typesUnder (θ : Nat → Ty) (Γ : Context) : SimpleContext := fun x =>
  (Γ.get? x).map fun σ => σ.body.bind θ

section

variable {Γ : Context} {θ : Nat → Ty} {s : Subst}

theorem Monomorphic.insert (h : Γ.Monomorphic) (x : String) (t : Ty) :
    Context.Monomorphic (Γ.insert x (.mono t)) := by
  intro y σ hy
  rcases SortedMap.get?_insert_eq_some hy with ⟨-, rfl⟩ | ⟨-, hy⟩
  · exact ⟨t, rfl⟩
  · exact h y σ hy

theorem Monomorphic.apply (h : Γ.Monomorphic) (s : Subst) : (Γ.apply s).Monomorphic := by
  intro x σ hx
  obtain ⟨σ', hx', rfl⟩ := get?_apply_some.1 hx
  obtain ⟨t, rfl⟩ := h x σ' hx'
  exact ⟨s.apply t, Scheme.apply_mono s t⟩

theorem typesUnder_insert (θ : Nat → Ty) (Γ : Context) (x : String) (t : Ty) :
    typesUnder θ (Γ.insert x (.mono t)) = Function.update (Γ.typesUnder θ) x (some (t.bind θ)) := by
  funext y
  unfold typesUnder
  by_cases hy : y = x
  · subst hy
    rw [SortedMap.get?_insert_self, Function.update_self]
    rfl
  · rw [SortedMap.get?_insert_of_ne _ _ hy, Function.update_of_ne hy]

-- Substituting first makes no difference to what absorbs the substitution.
theorem typesUnder_apply (h : Γ.Monomorphic) (hθ : Absorbs θ s) :
    (Γ.apply s).typesUnder θ = Γ.typesUnder θ := by
  funext x
  unfold typesUnder
  rw [get?_apply]
  cases hx : Γ.get? x with
  | none => rfl
  | some σ =>
    obtain ⟨t, rfl⟩ := h x σ hx
    rw [Option.map_some, Option.map_some, Option.map_some, Scheme.apply_mono]
    exact congrArg some (hθ.bind_apply t)

end

end Context

/-! ## Terms without `let` -/

/-- No `let` stands in the term. -/
def Term.letFree : Term → Bool
  | var _ | num _ | bool _ => true
  | ite c a b => c.letFree && a.letFree && b.letFree
  | letIn _ _ _ => false
  | lam _ b => b.letFree
  | app f a => f.letFree && a.letFree

/-- A run of inference is a simple typing under whatever absorbs its substitution, with the types of
the parameters that the run has found. -/
theorem Infers.typedAt {θ : Nat → Ty} {Γ₀ : Context} {n₀ : Nat} {e₀ : Term} {Γ : Context}
    {n m : Nat} {e : Term} {t : Ty} {s : Subst} (h : Infers false Γ n e t s m) :
    ∀ {p}, e.letFree → Γ.Monomorphic → Γ.Below n → Absorbs θ s → Visits Γ₀ n₀ e₀ p Γ n e →
      TypedAt (ParamUnder θ Γ₀ n₀ e₀) (Γ.typesUnder θ) p e (t.bind θ) := by
  induction h with
  | num => exact fun _ _ _ _ _ => .num
  | bool => exact fun _ _ _ _ _ => .bool
  | @var Γ n x σ hx =>
    intro p _ hmono _ _ _
    obtain ⟨t, rfl⟩ := hmono x σ hx
    rw [Scheme.instantiate_mono]
    exact .var (by rw [Context.typesUnder, hx]; rfl)
  | @ite Γ n c a b t₁ s₁ n₁ s₂ t₃ s₃ n₃ t₄ s₄ n₄ s₅ s hc hu ha hb hs hu' ihc iha ihb =>
    intro p hfree hmono hΓ hθ hp
    simp only [Term.letFree, Bool.and_eq_true] at hfree
    obtain ⟨⟨hcfree, hafree⟩, hbfree⟩ := hfree
    -- what absorbs the last substitution absorbs each of those on the way
    obtain ⟨h₂, h₃, h₄, h₅, hΓ₁, hΓ₃⟩ := hc.ite_follows hΓ hu ha hb hs hu'
    obtain ⟨hθ, hθ₅⟩ := hθ.of_compose h₅
    obtain ⟨hθ₃₂₁, hθ₄⟩ := (hs ▸ hθ).of_compose h₄
    obtain ⟨hθ₂₁, hθ₃⟩ := hθ₃₂₁.of_compose h₃
    obtain ⟨hθ₁, hθ₂⟩ := hθ₂₁.of_compose h₂
    have hcond : t₁.bind θ = .bool := by
      rw [← hθ₂.bind_apply, unify_sound _ _ _ hu]
      rfl
    have hbranches : t₄.bind θ = t₃.bind θ := by
      rw [← hθ.bind_apply t₄, ← hθ₅.bind_apply, ← unify_sound _ _ _ hu', hθ₅.bind_apply,
        hθ.bind_apply]
    have hresult : ((s₅.compose s).apply (s.apply t₃)).bind θ = t₃.bind θ := by
      rw [(hθ₅.compose hθ).bind_apply, hθ.bind_apply]
    have hcond' := ihc hcfree hmono hΓ hθ₁ hp.cond
    have hthn := iha hafree (hmono.apply _) hΓ₁ hθ₃ (hp.thn hc hu)
    have hels := ihb hbfree (hmono.apply _) hΓ₃ hθ₄ (hp.els hc hu ha)
    rw [hcond] at hcond'
    rw [Context.typesUnder_apply hmono hθ₂₁] at hthn
    rw [Context.typesUnder_apply hmono hθ₃₂₁, hbranches] at hels
    rw [hresult]
    exact .ite hcond' hthn hels
  | letIn => exact fun hfree => nomatch hfree
  | @lam Γ n x b t s n' hb ih =>
    intro p hfree hmono hΓ hθ hp
    have hbody := ih hfree (hmono.insert x _) (hΓ.lam x) hθ hp.lamBody
    rw [Context.typesUnder_insert] at hbody
    have hparam : (s.apply (.var n)).bind θ = θ n := hθ n
    rw [Ty.bind, hparam]
    exact .lam ⟨Γ, n, b, hp, rfl⟩ hbody
  | @app Γ n f a t₁ s₁ n₁ t₂ s₂ n₂ s₃ hf ha hu ihf iha =>
    intro p hfree hmono hΓ hθ hp
    rw [Term.letFree, Bool.and_eq_true] at hfree
    obtain ⟨h₃, h₂, hΓ₁⟩ := hf.app_follows hΓ ha hu
    obtain ⟨hθ₁, hθ₃₂⟩ := hθ.of_compose h₂
    obtain ⟨hθ₂, hθ₃⟩ := hθ₃₂.of_compose h₃
    have hfn : t₁.bind θ = .arrow (t₂.bind θ) ((s₃.apply (.var n)).bind θ) := by
      rw [← hθ₂.bind_apply, ← hθ₃.bind_apply, unify_sound _ _ _ hu, hθ₃.bind_apply, hθ₃.bind_apply]
      rfl
    have hfn' := ihf hfree.1 hmono hΓ.succ hθ₁ hp.fn
    have harg := iha hfree.2 (hmono.apply _) hΓ₁ hθ₂ (hp.arg hf)
    rw [hfn] at hfn'
    rw [Context.typesUnder_apply hmono hθ₁] at harg
    exact .app hfn' harg

/-- An accepted term without `let` has a simple typing with the types that inference finds for its
parameters, at an instance of its scheme. -/
theorem infer_typedAt {Γ : Context} {e : Term} {σ : Scheme} (hΓ : Γ.Monomorphic) (he : e.letFree)
    (hσ : infer Γ e = .ok σ) :
    ∃ θ t, TypedAt (ParamTy Γ e) (Γ.typesUnder θ) [] e t ∧ σ.HasInstance t := by
  obtain ⟨t, s, n, hrun, rfl⟩ := infer_eq_ok_iff.1 hσ
  have hspec := hrun.spec Γ.below_nextVar
  have htyped := hrun.typedAt he hΓ Γ.below_nextVar hspec.idempotent.absorbs .here
  have hparams : ∀ p x u, ParamUnder s.image Γ Γ.nextVar e p x u → ParamTy Γ e p x u :=
    fun p x u hu => ⟨t, s, n, hrun, hu⟩
  rw [← Subst.apply_eq_bind] at htyped
  exact ⟨s.image, s.apply t, htyped.imp hparams, (Scheme.hasInstance_generalize _ _).compact⟩

end LetPoly
