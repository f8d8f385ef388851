import Mathlib.Logic.Function.Basic
import LetPoly.Proofs.Inference.Tidy
import LetPoly.Proofs.Typing.Compact

/-!
# Inference finds every type

If a term has a type by the typing rules, then inference returns a scheme of which that type is an
instance.  The induction is on the typing derivation: a run starts in a context that offers at least
what the derivation's context offers (`Subsumes`), and what is left to choose after the run can be
chosen so that the derivation's type comes out (`Factors`).
-/

namespace LetPoly

/-! ## Contexts that offer at least as much -/

/-- All instances of `σ'` are instances of `σ`, with `f` for its free variables. -/
def Scheme.Subsumes (f : Nat → Ty) (σ σ' : Scheme) : Prop :=
  ∀ t, σ'.HasInstance t → σ.InstanceUnder f t

-- An instance that uses no quantified variable shows what `f` can send a free variable to.
theorem Scheme.Subsumes.mem_freeVars {f : Nat → Ty} {σ σ' : Scheme} (h : σ.Subsumes f σ')
    {v w : Nat} (hv : v ∈ σ.freeVars) (hw : w ∈ (f v).vars) : w ∈ σ'.freeVars := by
  obtain ⟨g, hg, hbody⟩ := h (σ'.body.bind fun u => if u ∈ σ'.vars then .num else .var u)
    ⟨_, fun u hu => if_neg (Scheme.mem_freeVars.1 hu).2, rfl⟩
  have hw' : w ∈ (σ.body.bind g).vars :=
    Ty.mem_vars_bind.2 ⟨v, (Scheme.mem_freeVars.1 hv).1, by rwa [hg v hv]⟩
  rw [hbody] at hw'
  obtain ⟨u, hu, hmem⟩ := Ty.mem_vars_bind.1 hw'
  split at hmem
  · cases hmem
  · rw [Ty.vars, List.mem_singleton] at hmem
    exact hmem ▸ Scheme.mem_freeVars.2 ⟨hu, by assumption⟩

/-- The two contexts bind the same names, and `Γ` offers for each at least what `Δ` does. -/
def Context.Subsumes (f : Nat → Ty) (Γ Δ : Context) : Prop :=
  ∀ x, Option.Rel (Scheme.Subsumes f) (Γ.get? x) (Δ.get? x)

namespace Context.Subsumes

variable {f g : Nat → Ty} {Γ Δ : Context}

theorem refl (Γ : Context) : Γ.Subsumes .var Γ := by
  intro x
  cases Γ.get? x with
  | none => exact .none
  | some σ => exact .some fun t ht => ht

theorem cases (h : Γ.Subsumes f Δ) (x : String) :
    Γ.get? x = none ∧ Δ.get? x = none ∨
      ∃ σ σ', Γ.get? x = some σ ∧ Δ.get? x = some σ' ∧ σ.Subsumes f σ' := by
  have hx := h x
  generalize Γ.get? x = a, Δ.get? x = b at hx
  cases hx with
  | none => exact .inl ⟨rfl, rfl⟩
  | some hσ => exact .inr ⟨_, _, rfl, rfl, hσ⟩

theorem congr (h : Γ.Subsumes f Δ) (hfg : ∀ v ∈ Γ.freeVars, f v = g v) : Γ.Subsumes g Δ := by
  intro x
  rcases h.cases x with ⟨hΓ, hΔ⟩ | ⟨σ, σ', hΓ, hΔ, hσ⟩ <;> rw [hΓ, hΔ]
  · exact .none
  · refine .some fun t ht => (hσ t ht).congr fun v hv => ?_
    exact hfg v (Context.mem_freeVars.2 ⟨x, σ, hΓ, hv⟩)

theorem insert (h : Γ.Subsumes f Δ) (x : String) {σ σ' : Scheme} (hσ : σ.Subsumes f σ') :
    Context.Subsumes f (Γ.insert x σ) (Δ.insert x σ') := by
  intro y
  by_cases hyx : y = x
  · subst hyx
    rw [SortedMap.get?_insert_self, SortedMap.get?_insert_self]
    exact .some hσ
  · rw [SortedMap.get?_insert_of_ne _ _ hyx, SortedMap.get?_insert_of_ne _ _ hyx]
    exact h y

theorem apply {s : Subst} (h : Γ.Subsumes f Δ) (hf : Absorbs f s)
    (hs : ∀ x σ, Γ.get? x = some σ → σ.NoCapture s) : (Γ.apply s).Subsumes f Δ := by
  intro x
  rw [Context.get?_apply]
  rcases h.cases x with ⟨hΓ, hΔ⟩ | ⟨σ, σ', hΓ, hΔ, hσ⟩ <;> rw [hΓ, hΔ]
  · exact .none
  · refine .some fun t ht => (Scheme.instanceUnder_apply (hs x σ hΓ)).2 ?_
    exact (hσ t ht).congr fun v _ => (hf v).symm

theorem mem_freeVars (h : Γ.Subsumes f Δ) {v w : Nat} (hv : v ∈ Γ.freeVars)
    (hw : w ∈ (f v).vars) : w ∈ Δ.freeVars := by
  obtain ⟨x, τ, hx, hmem⟩ := Context.mem_freeVars.1 hv
  rcases h.cases x with ⟨hΓ, hΔ⟩ | ⟨σ, σ', hΓ, hΔ, hσ⟩ <;> rw [hΓ] at hx <;> cases hx
  exact Context.mem_freeVars.2 ⟨x, σ', hΔ, hσ.mem_freeVars hmem hw⟩

-- Generalization keeps the order, whatever part of the context holds it back.
theorem generalize (h : Γ.Subsumes f Δ) (Γ' : Context) (hΓ' : ∀ v ∈ Γ'.freeVars, v ∈ Γ.freeVars)
    (t : Ty) : (Scheme.generalize Γ' t).Subsumes f (.generalize Δ (t.bind f)) := by
  rintro u ⟨g, hg, rfl⟩
  refine ⟨fun v => (f v).bind g, fun v hv => ?_, (Ty.bind_bind f g t).symm⟩
  obtain ⟨ht, hfree⟩ := Scheme.mem_freeVars_generalize.1 hv
  refine Ty.bind_eq_self fun w hw => hg w (Scheme.mem_freeVars_generalize.2 ⟨?_, ?_⟩)
  · exact Ty.mem_vars_bind.2 ⟨v, ht, hw⟩
  · exact h.mem_freeVars (hΓ' v hfree) hw

end Context.Subsumes

/-! ## Runs that leave a type possible -/

theorem Absorbs.congr {f g : Nat → Ty} {s : Subst} {W : Nat → Prop} (h : Absorbs f s)
    (hs : s.Within W) (hfg : ∀ v, W v → g v = f v) : Absorbs g s := by
  intro v
  rcases hs v with hv | ⟨hv, hw⟩
  · rw [hv, Ty.bind]
  · rw [Ty.bind_congr fun w hmem => hfg w (hw w hmem), h v, hfg v hv]

/-- Some `f'` that agrees with `f` below `n` absorbs `s` and sends `t` to `τ`. -/
def Factors (f : Nat → Ty) (n : Nat) (t : Ty) (s : Subst) (τ : Ty) : Prop :=
  ∃ f', (∀ v < n, f' v = f v) ∧ Absorbs f' s ∧ t.bind f' = τ

section Steps

variable {Γ Δ : Context} {names : List String} {n n₁ : Nat} {s : Subst} {f f₁ : Nat → Ty}

-- After a run the context still offers enough.
theorem Context.Subsumes.after (h : Γ.Subsumes f Δ) (hΓ : Γ.Tidy n)
    (hs : s.Within (Zone Γ names n n₁)) (hf₁ : ∀ v < n, f₁ v = f v) (ha : Absorbs f₁ s) :
    (Γ.apply s).Subsumes f₁ Δ :=
  (h.congr fun v hv => (hf₁ v (hΓ.below v hv)).symm).apply ha fun _ _ hx => hΓ.noCapture hs hx

-- A choice for later variables does not disturb what an earlier run settled.
theorem Absorbs.later (h : Absorbs f s) (hΓ : Γ.Below n) (hs : s.Within (Zone Γ names n n₁))
    (hn : n ≤ n₁) (hf₁ : ∀ v < n₁, f₁ v = f v) : Absorbs f₁ s :=
  h.congr hs fun v hv => hf₁ v (hv.lt hΓ hn)

end Steps

theorem Ty.bind_later {Γ : Context} {names : List String} {n n₁ : Nat} {t : Ty} {s : Subst}
    {f f₁ : Nat → Ty} (h : RunSpec Γ names n t s n₁) (hΓ : Γ.Below n)
    (hf₁ : ∀ v < n₁, f₁ v = f v) : t.bind f₁ = t.bind f :=
  Ty.bind_congr fun v hv => hf₁ v ((h.vars v hv).lt hΓ h.le)

theorem unify_factors {t u : Ty} {f : Nat → Ty} (h : t.bind f = u.bind f) :
    ∃ s, unify t u = .ok s ∧ Absorbs f s := by
  obtain ⟨s, hs⟩ := unify_complete t u f h
  exact ⟨s, hs, unify_absorbs t u f s hs h⟩

/-! ## The induction -/

theorem Factors.num {f : Nat → Ty} {n : Nat} : Factors f n .num ∅ .num :=
  ⟨f, fun _ _ => rfl, .empty f, rfl⟩

theorem Factors.bool {f : Nat → Ty} {n : Nat} : Factors f n .bool ∅ .bool :=
  ⟨f, fun _ _ => rfl, .empty f, rfl⟩

/-- Every typing is found by a run, with either rule for `let`: the one that forgets the entry of
the name generalizes at least as much. -/
theorem HasType.infers {Δ : Context} {e : Term} {τ : Ty} (keep : Bool) (h : HasType Δ e τ) :
    ∀ {Γ : Context} {n : Nat} {f : Nat → Ty}, Γ.Tidy n → Γ.Subsumes f Δ →
      ∃ t s n', Infers keep Γ n e t s n' ∧ Factors f n t s τ := by
  induction h with
  | num => exact fun _ _ => ⟨_, _, _, .num, .num⟩
  | bool => exact fun _ _ => ⟨_, _, _, .bool, .bool⟩
  | @var Δ x σ' τ hx hτ =>
    intro Γ n f hΓ hsub
    rcases hsub.cases x with ⟨-, hΔ⟩ | ⟨σ, σ', hσ, hΔ, hle⟩ <;> rw [hΔ] at hx <;> cases hx
    -- the new variables of the copy are sent where the instance has the quantified ones
    obtain ⟨f', hf', hbody⟩ := Scheme.InstanceUnder.of_instantiate (hle τ hτ) fun v hv =>
      hΓ.below v (Context.mem_freeVars.2 ⟨x, σ, hσ, hv⟩)
    exact ⟨_, _, _, .var hσ, f', hf', .empty f', hbody⟩
  | @ite Δ c a b τ _ _ _ ihc iha ihb =>
    intro Γ n f hΓ hsub
    obtain ⟨t₁, s₁, n₁, hc, f₁, hf₁, habs₁, ht₁⟩ := ihc hΓ hsub
    have hcs := hc.spec hΓ.below
    obtain ⟨s₂, hu, habs₂⟩ := unify_factors (u := .bool) ht₁
    obtain ⟨hwithin, hidem⟩ := hcs.unify_bool hu
    have habs₂₁ := habs₂.compose habs₁
    -- the choice made for the condition is kept while the branches extend it
    obtain ⟨t₃, s₃, n₃, ha, f₃, hf₃, habs₃, ht₃⟩ :=
      iha (hΓ.apply hwithin hcs.le) (hsub.after hΓ hwithin hf₁ habs₂₁)
    have hca := RunSpec.compose hΓ.below hwithin hidem hcs.le
      (ha.spec (hΓ.apply hwithin hcs.le).below)
    have habs₃₁ := habs₃.compose (habs₂₁.later hΓ.below hwithin hcs.le hf₃)
    have hf₃₁ : ∀ v < n, f₃ v = f v := fun v hv => by
      rw [hf₃ v (Nat.lt_of_lt_of_le hv hcs.le), hf₁ v hv]
    obtain ⟨t₄, s₄, n₄, hb, f₄, hf₄, habs₄, ht₄⟩ :=
      ihb (hΓ.apply hca.within hca.le) (hsub.after hΓ hca.within hf₃₁ habs₃₁)
    have habs := habs₄.compose (habs₃₁.later hΓ.below hca.within hca.le hf₄)
    have ht₃' : t₃.bind f₄ = τ := by rw [Ty.bind_later hca hΓ.below hf₄, ht₃]
    -- both branches come out as `τ`, so their types unify
    obtain ⟨s₅, hu', habs₅⟩ := unify_factors (f := f₄) (t := (_ : Subst).apply t₃)
      (u := (_ : Subst).apply t₄) (by rw [habs.bind_apply, habs.bind_apply, ht₃', ht₄])
    refine ⟨_, _, _, .ite hc hu ha hb rfl hu', f₄, fun v hv => ?_, habs₅.compose habs, ?_⟩
    · rw [hf₄ v (Nat.lt_of_lt_of_le hv hca.le), hf₃₁ v hv]
    · rw [(habs₅.compose habs).bind_apply, habs.bind_apply, ht₃']
  | @letIn Δ x d b u τ _ _ ihd ihb =>
    intro Γ n f hΓ hsub
    obtain ⟨t₁, s₁, n₁, hd, f₁, hf₁, habs₁, rfl⟩ := ihd hΓ hsub
    have hds := hd.spec hΓ.below
    have hsub₁ := hsub.after hΓ hds.within hf₁ habs₁
    -- the run's scheme offers at least what the derivation's scheme does
    have hgen := hsub₁.generalize ((letScope keep Γ x).apply s₁)
      (fun v hv => mem_freeVars_apply_of_letScope hv) (s₁.apply t₁)
    rw [habs₁.bind_apply] at hgen
    obtain ⟨t₂, s₂, n₂, hb, f₂, hf₂, habs₂, ht₂⟩ :=
      ihb (hΓ.insert_generalize hds keep x) (hsub₁.insert x hgen)
    refine ⟨_, _, _, .letIn hd hb, f₂, fun v hv => ?_, habs₂.compose ?_, ht₂⟩
    · rw [hf₂ v (Nat.lt_of_lt_of_le hv hds.le), hf₁ v hv]
    · exact habs₁.later hΓ.below hds.within hds.le hf₂
  | @lam Δ x b u τ _ ih =>
    intro Γ n f hΓ hsub
    -- the parameter's variable stands for the type that the derivation gives the parameter
    have hn : ∀ v < n, Function.update f n u v = f v := fun v hv =>
      Function.update_of_ne (by omega) u f
    have hparam : (Scheme.mono (.var n)).Subsumes (Function.update f n u) (.mono u) := by
      intro t ht
      rw [Scheme.instanceUnder_mono, Ty.bind, Function.update_self]
      exact Scheme.hasInstance_mono.1 ht
    have hsub' := (hsub.congr fun v hv => (hn v (hΓ.below v hv)).symm).insert x hparam
    obtain ⟨t, s, n', hb, f', hf', habs, rfl⟩ := ih (hΓ.insert_mono x) hsub'
    refine ⟨_, _, _, .lam hb, f', fun v hv => ?_, habs, ?_⟩
    · rw [hf' v (by omega), hn v hv]
    · rw [Ty.bind, habs.bind_apply, Ty.bind, hf' n (by omega), Function.update_self]
  | @app Δ g a u τ _ _ ihf iha =>
    intro Γ n f hΓ hsub
    -- so does the variable of the result
    have hn : ∀ v < n, Function.update f n τ v = f v := fun v hv =>
      Function.update_of_ne (by omega) τ f
    have hsub' := hsub.congr fun v hv => (hn v (hΓ.below v hv)).symm
    obtain ⟨t₁, s₁, n₁, hg, f₁, hf₁, habs₁, ht₁⟩ := ihf hΓ.succ hsub'
    have hgs := hg.spec hΓ.succ.below
    obtain ⟨t₂, s₂, n₂, ha, f₂, hf₂, habs₂, rfl⟩ :=
      iha (hΓ.succ.apply hgs.within hgs.le) (hsub'.after hΓ.succ hgs.within hf₁ habs₁)
    have hle := hgs.le
    have hres : f₂ n = τ := by rw [hf₂ n (by omega), hf₁ n (by omega), Function.update_self]
    have harrow : (s₂.apply t₁).bind f₂ = (Ty.arrow t₂ (.var n)).bind f₂ := by
      rw [habs₂.bind_apply, Ty.bind_later hgs hΓ.succ.below hf₂, ht₁, Ty.bind, Ty.bind, hres]
    obtain ⟨s₃, hu, habs₃⟩ := unify_factors harrow
    refine ⟨_, _, _, .app hg ha hu, f₂, fun v hv => ?_, ?_, ?_⟩
    · rw [hf₂ v (by omega), hf₁ v (by omega), hn v hv]
    · exact (habs₃.compose habs₂).compose (habs₁.later hΓ.succ.below hgs.within hgs.le hf₂)
    · rw [habs₃.bind_apply, Ty.bind, hres]

-- In a closed context, whatever type a term has is an instance of the scheme of some run.
theorem HasType.infersScheme {Γ : Context} {e : Term} {τ : Ty} (keep : Bool) (hΓ : Γ.Closed)
    (h : HasType Γ e τ) : ∃ σ, InfersScheme keep Γ e σ ∧ σ.HasInstance τ := by
  obtain ⟨t, s, n, hrun, f, -, habs, rfl⟩ := h.infers keep (.of_closed hΓ Γ.nextVar) (.refl Γ)
  refine ⟨_, ⟨t, s, n, hrun, rfl⟩, Scheme.HasInstance.compact ⟨f, fun v hv => ?_, ?_⟩⟩
  · rw [hΓ.apply_eq] at hv
    exact absurd (Scheme.mem_freeVars_generalize.1 hv).2 (hΓ.notMem_freeVars v)
  · exact habs.bind_apply t

/-- Inference is complete: it accepts every term that has a type in a closed context, with a scheme
of which that type is an instance. -/
theorem infer_principal {Γ : Context} {e : Term} {τ : Ty} (hΓ : Γ.Closed) (h : HasType Γ e τ) :
    ∃ σ, infer Γ e = .ok σ ∧ σ.HasInstance τ := by
  obtain ⟨σ, hσ, hτ⟩ := h.infersScheme false hΓ
  exact ⟨σ, infer_eq_ok_iff.2 hσ, hτ⟩

/-- One identity serves as a function on numbers and as one on booleans. -/
theorem infer_principal_shared_identity :
    ∃ σ, infer ((∅ : Context).insert "k" ⟨[0, 1], .arrow (.var 0) (.arrow (.var 1) (.var 0))⟩)
      (.letIn "i" (.lam "x" (.var "x"))
        (.app (.app (.var "k") (.var "i")) (.app (.var "i") (.bool true)))) = .ok σ ∧
      σ.HasInstance (.arrow .num .num) := by
  have hk : Scheme.Closed ⟨[0, 1], .arrow (.var 0) (.arrow (.var 1) (.var 0))⟩ := by decide
  have hid : Scheme.Closed ⟨[0], .arrow (.var 0) (.var 0)⟩ := by decide
  refine infer_principal (Context.closed_empty.insert hk "k") ?_
  refine .letIn (u := .arrow (.var 0) (.var 0))
    (.lam (.var rfl (Scheme.hasInstance_mono.2 rfl))) ?_
  refine .app (u := .bool) (.app (u := .arrow .num .num) (.var rfl ?_) (.var rfl ?_))
    (.app (u := .bool) (.var rfl ?_) .bool)
  · exact hk.hasInstance_bind fun v => if v = 0 then .arrow .num .num else .bool
  · exact hid.hasInstance_bind fun _ => .num
  · exact hid.hasInstance_bind fun _ => .bool

end LetPoly
