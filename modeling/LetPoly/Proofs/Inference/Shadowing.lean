import LetPoly.Proofs.Inference.Tidy

/-!
# Names that a `let` may hide

A `let` takes its own name out of the context before it generalizes, although its definition was
typed with the name in place.  This makes a difference only if the name had a scheme with free
variables and the definition mentions it.  Where no `let` does so, generalizing against the whole
context gives the same runs (`Infers.change_keep`).
-/

namespace LetPoly

namespace Term

/-- No `let` of the term binds a name of `bound`, or of a function or a `let` around it. -/
def LetsFresh : List String → Term → Prop
  | _, var _ | _, num _ | _, bool _ => True
  | bound, ite c a b => c.LetsFresh bound ∧ a.LetsFresh bound ∧ b.LetsFresh bound
  | bound, letIn x d b => x ∉ bound ∧ d.LetsFresh bound ∧ b.LetsFresh (x :: bound)
  | bound, lam x b => b.LetsFresh (x :: bound)
  | bound, app f a => f.LetsFresh bound ∧ a.LetsFresh bound

/-- The open names in the body of a `let`: its own name is open if the definition mentions an open
one. -/
def openInBody (opened : List String) (x : String) (d : Term) : List String :=
  if d.freeNames.any opened.contains then x :: opened else opened.filter (· != x)

/-- No `let` of the term binds an open name that its own definition mentions. -/
def NoOpenRebind : List String → Term → Prop
  | _, var _ | _, num _ | _, bool _ => True
  | opened, ite c a b => c.NoOpenRebind opened ∧ a.NoOpenRebind opened ∧ b.NoOpenRebind opened
  | opened, letIn x d b => (x ∈ opened → x ∉ d.freeNames) ∧ d.NoOpenRebind opened ∧
      b.NoOpenRebind (openInBody opened x d)
  | opened, lam x b => b.NoOpenRebind (x :: opened)
  | opened, app f a => f.NoOpenRebind opened ∧ a.NoOpenRebind opened

instance decidableLetsFresh : (bound : List String) → (e : Term) → Decidable (e.LetsFresh bound)
  | _, var _ | _, num _ | _, bool _ => .isTrue trivial
  | bound, ite c a b =>
    have := c.decidableLetsFresh bound
    have := a.decidableLetsFresh bound
    have := b.decidableLetsFresh bound
    inferInstanceAs (Decidable (_ ∧ _ ∧ _))
  | bound, letIn x d b =>
    have := d.decidableLetsFresh bound
    have := b.decidableLetsFresh (x :: bound)
    inferInstanceAs (Decidable (_ ∧ _ ∧ _))
  | bound, lam x b => b.decidableLetsFresh (x :: bound)
  | bound, app f a =>
    have := f.decidableLetsFresh bound
    have := a.decidableLetsFresh bound
    inferInstanceAs (Decidable (_ ∧ _))

instance decidableNoOpenRebind :
    (opened : List String) → (e : Term) → Decidable (e.NoOpenRebind opened)
  | _, var _ | _, num _ | _, bool _ => .isTrue trivial
  | opened, ite c a b =>
    have := c.decidableNoOpenRebind opened
    have := a.decidableNoOpenRebind opened
    have := b.decidableNoOpenRebind opened
    inferInstanceAs (Decidable (_ ∧ _ ∧ _))
  | opened, letIn x d b =>
    have := d.decidableNoOpenRebind opened
    have := b.decidableNoOpenRebind (openInBody opened x d)
    inferInstanceAs (Decidable (_ ∧ _ ∧ _))
  | opened, lam x b => b.decidableNoOpenRebind (x :: opened)
  | opened, app f a =>
    have := f.decidableNoOpenRebind opened
    have := a.decidableNoOpenRebind opened
    inferInstanceAs (Decidable (_ ∧ _))

theorem mem_openInBody {opened : List String} {x y : String} {d : Term}
    (h : y ∈ openInBody opened x d) : y = x ∨ y ∈ opened := by
  unfold openInBody at h
  split at h
  · exact List.mem_cons.1 h
  · exact .inr (List.mem_filter.1 h).1

-- Open names are bound names, so fresh names are no open ones.
theorem LetsFresh.noOpenRebind {e : Term} : ∀ {bound opened : List String}, e.LetsFresh bound →
    (∀ x ∈ opened, x ∈ bound) → e.NoOpenRebind opened := by
  induction e with
  | var | num | bool => exact fun _ _ => trivial
  | ite c a b ihc iha ihb =>
    rintro bound opened ⟨hc, ha, hb⟩ hsub
    exact ⟨ihc hc hsub, iha ha hsub, ihb hb hsub⟩
  | letIn x d b ihd ihb =>
    rintro bound opened ⟨hx, hd, hb⟩ hsub
    refine ⟨fun hc => absurd (hsub x hc) hx, ihd hd hsub, ihb hb fun y hy => ?_⟩
    rcases mem_openInBody hy with rfl | hy
    · exact List.mem_cons_self
    · exact List.mem_cons_of_mem _ (hsub y hy)
  | lam x b ih =>
    exact fun hb hsub => ih hb fun y hy => List.mem_cons.2 ((List.mem_cons.1 hy).imp_right (hsub y))
  | app f a ihf iha =>
    rintro bound opened ⟨hf, ha⟩ hsub
    exact ⟨ihf hf hsub, iha ha hsub⟩

end Term

/-- The names that are not in `opened` have closed schemes. -/
def Context.OpenOnlyAt (Γ : Context) (opened : List String) : Prop :=
  ∀ x σ, Γ.get? x = some σ → x ∉ opened → σ.Closed

namespace Context.OpenOnlyAt

variable {Γ : Context} {opened : List String}

theorem of_closed (h : Γ.Closed) (opened : List String) : Γ.OpenOnlyAt opened := fun x σ hx _ =>
  h x σ hx

theorem apply (h : Γ.OpenOnlyAt opened) (s : Subst) : (Γ.apply s).OpenOnlyAt opened := by
  intro x σ hx hnot
  obtain ⟨σ', hx', rfl⟩ := Context.get?_apply_some.1 hx
  have hclosed := h x σ' hx' hnot
  rwa [hclosed.apply_eq]

theorem insert (h : Γ.OpenOnlyAt opened) (x : String) (σ : Scheme) :
    Context.OpenOnlyAt (Γ.insert x σ) (x :: opened) := by
  intro y σ' hy hnot
  rw [List.mem_cons, not_or] at hnot
  rw [SortedMap.get?_insert_of_ne _ _ hnot.1] at hy
  exact h y σ' hy hnot.2

theorem not_reaches (h : Γ.OpenOnlyAt opened) {names : List String}
    (hnames : ∀ x ∈ names, x ∉ opened) (v : Nat) : ¬ Γ.Reaches names v := by
  rintro ⟨x, hx, σ, hσ, hv⟩
  exact Scheme.closed_iff.1 (h x σ hσ (hnames x hx)) v hv

end Context.OpenOnlyAt

/-! ## The two rules for `let` -/

section LetIn

variable {Γ : Context} {opened : List String} {x : String} {n n₁ : Nat} {t : Ty} {s : Subst}

-- Taking out the name of a `let` takes out no variable of the definition's type.
theorem mem_freeVars_letScope_iff {names : List String} (hΓ : Γ.Tidy n)
    (h : RunSpec Γ names n t s n₁) (hopen : Γ.OpenOnlyAt opened) (hx : x ∈ opened → x ∉ names)
    (keep : Bool) {v : Nat} (hv : v ∈ t.vars) :
    v ∈ ((letScope keep Γ x).apply s).freeVars ↔ v ∈ (Γ.apply s).freeVars := by
  refine ⟨mem_freeVars_apply_of_letScope, fun hfree => ?_⟩
  obtain ⟨y, hy, σ, hσ, hmem⟩ := (h.mem_freeVars_iff_reaches hΓ hv).1 hfree
  by_cases hyx : y = x
  · -- the definition mentions the name, so the name is not open
    subst hyx
    have hclosed := hopen.apply s y σ hσ fun hc => hx hc hy
    exact absurd hmem (Scheme.closed_iff.1 hclosed v)
  · obtain ⟨σ', hy', rfl⟩ := Context.get?_apply_some.1 hσ
    rw [← get?_letScope_of_ne keep hyx] at hy'
    exact Context.mem_freeVars.2 ⟨y, _, Context.get?_apply_some.2 ⟨σ', hy', rfl⟩, hmem⟩

-- A definition that mentions no open name gets a closed scheme.
theorem Context.OpenOnlyAt.insert_generalize {d : Term} {Δ : Context} (hΓ : Γ.Tidy n)
    (h : RunSpec Γ d.freeNames n t s n₁) (hopen : Γ.OpenOnlyAt opened)
    (hΔ : ∀ v ∈ Δ.freeVars, v ∈ (Γ.apply s).freeVars) :
    Context.OpenOnlyAt ((Γ.apply s).insert x (.generalize Δ t)) (Term.openInBody opened x d) := by
  unfold Term.openInBody
  split
  case isTrue => exact (hopen.apply s).insert x _
  case isFalse hnone =>
    intro y σ hy hnot
    rcases SortedMap.get?_insert_eq_some hy with ⟨-, rfl⟩ | ⟨hyx, hy⟩
    · -- a variable of the type that is free in the context is reached from an open name
      refine Scheme.closed_iff.2 fun v hv => ?_
      obtain ⟨hmem, hfree⟩ := Scheme.mem_freeVars_generalize.1 hv
      refine (hopen.apply s).not_reaches (fun z hz hc => hnone ?_) v
        ((h.mem_freeVars_iff_reaches hΓ hmem).1 (hΔ v hfree))
      exact List.any_eq_true.2 ⟨z, hz, List.contains_iff_mem.2 hc⟩
    · exact hopen.apply s y σ hy fun hc => hnot (List.mem_filter.2 ⟨hc, by simpa using hyx⟩)

end LetIn

/-- The two rules have the same runs on a term in which no `let` rebinds an open name. -/
theorem Infers.change_keep {keep : Bool} (keep' : Bool) {Γ : Context} {n n' : Nat} {e : Term}
    {t : Ty} {s : Subst} (h : Infers keep Γ n e t s n') : ∀ {opened : List String}, Γ.Tidy n →
      Γ.OpenOnlyAt opened → e.NoOpenRebind opened → Infers keep' Γ n e t s n' := by
  induction h with
  | num => exact fun _ _ _ => .num
  | bool => exact fun _ _ _ => .bool
  | var hx => exact fun _ _ _ => .var hx
  | ite hc hu ha _ hs hu' ihc iha ihb =>
    rintro opened hΓ hopen ⟨hc', ha', hb'⟩
    have hcs := hc.spec hΓ.below
    obtain ⟨hwithin, hidem⟩ := hcs.unify_bool hu
    have hΓ₁ := hΓ.apply hwithin hcs.le
    have hcas := RunSpec.compose hΓ.below hwithin hidem hcs.le (ha.spec hΓ₁.below)
    exact .ite (ihc hΓ hopen hc') hu (iha hΓ₁ (hopen.apply _) ha')
      (ihb (hΓ.apply hcas.within hcas.le) (hopen.apply _) hb') hs hu'
  | @letIn Γ n x d b t₁ s₁ n₁ t₂ s₂ n₂ hd _ ihd ihb =>
    rintro opened hΓ hopen ⟨hx, hd', hb'⟩
    have hds := hd.spec hΓ.below
    have hb := ihb (hΓ.insert_generalize hds keep x) (hopen.insert_generalize hΓ
      (hds.resolved.symm ▸ hds) fun v hv => mem_freeVars_apply_of_letScope hv) hb'
    have hgen : Scheme.generalize ((letScope keep Γ x).apply s₁) (s₁.apply t₁) =
        .generalize ((letScope keep' Γ x).apply s₁) (s₁.apply t₁) := by
      rw [hds.resolved]
      exact Scheme.generalize_congr fun v hv =>
        (mem_freeVars_letScope_iff hΓ hds hopen hx keep hv).trans
          (mem_freeVars_letScope_iff hΓ hds hopen hx keep' hv).symm
    rw [hgen] at hb
    exact .letIn (ihd hΓ hopen hd') hb
  | lam _ ih =>
    exact fun hΓ hopen hb => .lam (ih (hΓ.insert_mono _) (hopen.insert _ _) hb)
  | app hf _ hu ihf iha =>
    rintro opened hΓ hopen ⟨hf', ha'⟩
    have hfs := hf.spec hΓ.succ.below
    exact .app (ihf hΓ.succ hopen hf')
      (iha (hΓ.succ.apply hfs.within hfs.le) (hopen.apply _) ha') hu

theorem InfersScheme.change_keep {keep : Bool} (keep' : Bool) {Γ : Context} {e : Term} {σ : Scheme}
    {opened : List String} (h : InfersScheme keep Γ e σ) (hΓ : Γ.Tidy Γ.nextVar)
    (hopen : Γ.OpenOnlyAt opened) (he : e.NoOpenRebind opened) : InfersScheme keep' Γ e σ := by
  obtain ⟨t, s, n, hrun, rfl⟩ := h
  exact ⟨t, s, n, hrun.change_keep keep' hΓ hopen he, rfl⟩

end LetPoly
