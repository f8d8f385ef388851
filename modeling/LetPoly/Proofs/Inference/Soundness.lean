import Mathlib
import LetPoly.Proofs.Inference.Shadowing
import LetPoly.Proofs.Typing.Compact

/-!
# What inference returns is a typing

The typing rules follow a run step by step: each subterm is typed in the context as its own run left
it, and the substitutions of the later runs are then put on top (`HasType.extend`).  At a `let` the
quantified variables of the definition are out of the reach of the run on the body, so that its
scheme under that run's substitution still offers nothing but what the rules allow.
-/

namespace LetPoly

-- A typing found by one run, seen after the next one.
theorem HasType.extend {Γ : Context} {e : Term} {t : Ty} {s r : Subst} {names names' : List String}
    {n n₁ n₂ : Nat} (h : HasType (Γ.apply s) e t) (hΓ : Γ.Tidy n)
    (hs : s.Within (Zone Γ names n n₁)) (hr : r.Within (Zone Γ names' n n₂)) :
    HasType (Γ.apply (r.compose s)) e (r.apply t) := by
  rw [hΓ.apply_compose hs, Subst.apply_eq_bind]
  exact h.bind (hΓ.covers_apply s hr)

/-! ## The scheme of a `let` under the substitution of its body -/

section LetIn

variable {Γ : Context} {x : String} {names names' : List String} {n n₁ n₂ : Nat} {t : Ty}
  {s r : Subst}

-- The quantified variables of a definition are out of the reach of the run on the body.
theorem not_zone_of_mem_vars_generalize (hΓ : Γ.Below n) (h : RunSpec Γ names n t s n₁) {a : Nat}
    (ha : a ∈ (Scheme.generalize (Γ.apply s) t).vars) :
    ¬ Zone ((Γ.apply s).insert x (.generalize (Γ.apply s) t)) names' n₁ n₂ a := by
  obtain ⟨hmem, hnot⟩ := Scheme.mem_vars_generalize.1 ha
  rintro (hz | hz)
  · rcases Context.mem_freeVars_insert hz.mem_freeVars with hc | hc
    · exact hnot (Scheme.mem_freeVars_generalize.1 hc).2
    · exact hnot hc
  · have := (h.vars a hmem).lt hΓ h.le
    omega

theorem hasInstance_generalize_apply (hΓ : Γ.Tidy n) (h : RunSpec Γ names n t s n₁)
    (hr : r.Within (Zone ((Γ.apply s).insert x (.generalize (Γ.apply s) t)) names' n₁ n₂)) {u : Ty}
    (hu : ((Scheme.generalize (Γ.apply s) t).apply r).HasInstance u) :
    (Scheme.generalize (Γ.apply (r.compose s)) (r.apply t)).HasInstance u := by
  have hout : ∀ {a : Nat}, a ∈ (Scheme.generalize (Γ.apply s) t).vars →
      ¬ Zone ((Γ.apply s).insert x (.generalize (Γ.apply s) t)) names' n₁ n₂ a := fun ha =>
    not_zone_of_mem_vars_generalize hΓ.below h ha
  have hbody : ((Scheme.generalize (Γ.apply s) t).apply r).body = r.apply t := by
    rw [Scheme.body_apply, Subst.apply_eq_bind]
    refine Ty.bind_congr fun v _ => ?_
    by_cases hv : v ∈ (Scheme.generalize (Γ.apply s) t).vars
    · rw [if_pos hv, hr.image_eq (hout hv)]
    · rw [if_neg hv]
  obtain ⟨g, hg, rfl⟩ := hu
  refine ⟨g, fun w hw => hg w (Scheme.mem_freeVars.2 ⟨?_, fun hc => ?_⟩), ?_⟩
  · rw [hbody]
    exact (Scheme.mem_freeVars_generalize.1 hw).1
  · have hfree := (Scheme.mem_freeVars_generalize.1 hw).2
    rw [hΓ.apply_compose h.within] at hfree
    obtain ⟨v, hv, hmem⟩ := Context.mem_freeVars_apply hfree
    rcases hr.of_mem_image hmem with rfl | hz
    · exact (Scheme.mem_vars_generalize.1 hc).2 hv
    · exact hout hc hz
  · rw [hbody]
    rfl

end LetIn

/-! ## Typings from the runs on the parts of a term -/

section Steps

variable {Γ : Context} {n n₁ n₂ n₃ n₄ : Nat} {t₁ t₂ t₃ t₄ : Ty} {s s₁ s₂ s₃ s₄ s₅ : Subst}

theorem HasType.ite_of_runs {c a b : Term} (hΓ : Γ.Tidy n) (hcs : RunSpec Γ c.freeNames n t₁ s₁ n₁)
    (hu : unify t₁ .bool = .ok s₂)
    (has : RunSpec (Γ.apply (s₂.compose s₁)) a.freeNames n₁ t₃ s₃ n₃)
    (hbs : RunSpec (Γ.apply (s₃.compose (s₂.compose s₁))) b.freeNames n₃ t₄ s₄ n₄)
    (hs : s = s₄.compose (s₃.compose (s₂.compose s₁)))
    (hu' : unify (s.apply t₃) (s.apply t₄) = .ok s₅) (hcond : HasType (Γ.apply s₁) c t₁)
    (hthen : HasType ((Γ.apply (s₂.compose s₁)).apply s₃) a t₃)
    (helse : HasType ((Γ.apply (s₃.compose (s₂.compose s₁))).apply s₄) b t₄) :
    HasType (Γ.apply (s₅.compose s)) (.ite c a b) ((s₅.compose s).apply (s.apply t₃)) := by
  obtain ⟨hwithin, hidem⟩ := hcs.unify_bool hu
  have hcas := RunSpec.compose hΓ.below hwithin hidem hcs.le has
  have hcabs : RunSpec Γ (c.freeNames ++ a.freeNames ++ b.freeNames) n t₄ s n₄ :=
    hs ▸ .compose hΓ.below hcas.within hcas.idempotent hcas.le hbs
  -- each substitution stays in a zone of the context from which the first run starts
  have hs₂ : s₂.Within (Zone Γ c.freeNames n n₁) :=
    (unify_within _ _ s₂ hu).mono fun v hv => hv.elim (hcs.vars v) (by simp [Ty.bool, Ty.vars])
  have hs₃ := has.within.mono fun v hv => hv.of_apply hwithin hcs.le has.le
  have hs₄ := hbs.within.mono fun v hv => hv.of_apply hcas.within hcas.le hbs.le
  have hs₅ : s₅.Within (Zone Γ (c.freeNames ++ a.freeNames ++ b.freeNames) n n₄) := by
    refine (unify_within _ _ s₅ hu').mono fun v hv => hv.elim (hcabs.apply_vars ?_ v)
      (hcabs.apply_vars hcabs.vars v)
    exact fun v hv => (hcas.vars v hv).append_left hbs.le
  have hcond₂ := hcond.extend hΓ hcs.within hs₂
  rw [unify_sound _ _ _ hu] at hcond₂
  rw [← hΓ.apply_compose hwithin] at hthen
  rw [← hΓ.apply_compose hcas.within, ← hs] at helse
  -- seen after the second branch, then after the last unifier
  have hcond₄ := (hcond₂.extend hΓ hwithin hs₃).extend hΓ hcas.within hs₄
  have hthen₄ := hthen.extend hΓ hcas.within hs₄
  rw [← hs] at hcond₄ hthen₄
  have ht₃ : s.apply t₃ = s₄.apply t₃ := by rw [hs, Subst.apply_compose, hcas.resolved]
  rw [Subst.apply_compose, hcabs.idempotent.apply_apply]
  refine .ite (hcond₄.extend hΓ hcabs.within hs₅) ?_ ?_
  · rw [ht₃]
    exact hthen₄.extend hΓ hcabs.within hs₅
  · rw [unify_sound _ _ _ hu', hcabs.resolved]
    exact helse.extend hΓ hcabs.within hs₅

theorem HasType.letIn_of_runs {x : String} {d b : Term} (hΓ : Γ.Tidy n)
    (hds : RunSpec Γ d.freeNames n t₁ s₁ n₁)
    (hbs : RunSpec ((Γ.apply s₁).insert x (.generalize (Γ.apply s₁) (s₁.apply t₁))) b.freeNames
      n₁ t₂ s₂ n₂) (hd : HasType (Γ.apply s₁) d t₁)
    (hb : HasType (Context.apply s₂ ((Γ.apply s₁).insert x
      (.generalize (Γ.apply s₁) (s₁.apply t₁)))) b t₂) :
    HasType (Γ.apply (s₂.compose s₁)) (.letIn x d b) t₂ := by
  have hs₂ := hbs.within.mono fun v hv => hv.before_letIn hds hbs.le
  have hwithin := hbs.within
  rw [hds.resolved] at hb hwithin
  rw [Context.apply_insert, ← hΓ.apply_compose hds.within] at hb
  refine .letIn (hd.extend hΓ hds.within hs₂) ?_
  -- the rules generalize the definition's type only now, after the body's run
  refine hb.weaken (Covers.insert (.refl _) fun u hu => ?_)
  exact hasInstance_generalize_apply hΓ hds hwithin hu

theorem HasType.app_of_runs {f a : Term} (hΓ : Γ.Tidy n)
    (hfs : RunSpec Γ f.freeNames (n + 1) t₁ s₁ n₁)
    (has : RunSpec (Γ.apply s₁) a.freeNames n₁ t₂ s₂ n₂)
    (hu : unify (s₂.apply t₁) (.arrow t₂ (.var n)) = .ok s₃) (hf : HasType (Γ.apply s₁) f t₁)
    (ha : HasType ((Γ.apply s₁).apply s₂) a t₂) :
    HasType (Γ.apply ((s₃.compose s₂).compose s₁)) (.app f a) (s₃.apply (.var n)) := by
  have hs₁ : s₁.Within (Zone Γ (f.freeNames ++ a.freeNames) n n₂) :=
    hfs.within.mono fun v hv => hv.of_function has.le
  have hs₂ : s₂.Within (Zone Γ (f.freeNames ++ a.freeNames) n n₂) :=
    has.within.mono fun v hv => AppZone.zone (.inl hv) hfs has.le
  have hs₃ : s₃.Within (Zone Γ (f.freeNames ++ a.freeNames) n n₂) :=
    (unify_within _ _ s₃ hu).mono fun v hv => (AppZone.of_unified has hv).zone hfs has.le
  have hfun := (hf.extend hΓ hs₁ hs₂).extend hΓ (hs₂.compose hs₁) hs₃
  rw [← hΓ.apply_compose hs₁] at ha
  have harg := ha.extend hΓ (hs₂.compose hs₁) hs₃
  rw [unify_sound _ _ _ hu] at hfun
  rw [Subst.compose_assoc]
  exact .app hfun harg

end Steps

/-- Where a `let` generalizes against its whole context, a run is a typing in the context under its
substitution. -/
theorem Infers.hasType {Γ : Context} {n n' : Nat} {e : Term} {t : Ty} {s : Subst}
    (h : Infers true Γ n e t s n') : Γ.Tidy n → HasType (Γ.apply s) e t := by
  induction h with
  | num => exact fun _ => .num
  | bool => exact fun _ => .bool
  | @var Γ n x σ hx =>
    intro _
    rw [Context.apply_empty]
    exact .var hx (Scheme.hasInstance_instantiate σ n)
  | ite hc hu ha hb hs hu' ihc iha ihb =>
    intro hΓ
    have hcs := hc.spec hΓ.below
    obtain ⟨hwithin, hidem⟩ := hcs.unify_bool hu
    have hΓ₁ := hΓ.apply hwithin hcs.le
    have has := ha.spec hΓ₁.below
    have hcas := RunSpec.compose hΓ.below hwithin hidem hcs.le has
    have hΓ₃ := hΓ.apply hcas.within hcas.le
    exact .ite_of_runs hΓ hcs hu has (hb.spec hΓ₃.below) hs hu' (ihc hΓ) (iha hΓ₁) (ihb hΓ₃)
  | @letIn Γ n x d b t₁ s₁ n₁ t₂ s₂ n₂ hd hb ihd ihb =>
    intro hΓ
    have hds := hd.spec hΓ.below
    have hΓ₁ := hΓ.insert_generalize hds true x
    exact .letIn_of_runs hΓ hds (hb.spec hΓ₁.below) (ihd hΓ) (ihb hΓ₁)
  | @lam Γ n x b t s n' _ ih =>
    intro hΓ
    have hbody := ih (hΓ.insert_mono x)
    rw [Context.apply_insert, Scheme.apply_mono] at hbody
    exact .lam hbody
  | app hf ha hu ihf iha =>
    intro hΓ
    have hfs := hf.spec hΓ.succ.below
    have hΓ₁ := hΓ.succ.apply hfs.within hfs.le
    exact .app_of_runs hΓ hfs (ha.spec hΓ₁.below) hu (ihf hΓ.succ) (iha hΓ₁)

/-! ## Whole terms -/

-- Where no `let` rebinds an open name, every instance of the scheme that a run in a closed context
-- gives to a term is a type of the term.
theorem InfersScheme.hasType {keep : Bool} {Γ : Context} {e : Term} {σ : Scheme} (hΓ : Γ.Closed)
    (he : e.NoOpenRebind []) (h : InfersScheme keep Γ e σ) {τ : Ty} (hτ : σ.HasInstance τ) :
    HasType Γ e τ := by
  obtain ⟨t, s, n, hrun, rfl⟩ :=
    h.change_keep true (.of_closed hΓ _) (.of_closed hΓ []) he
  have hspec := hrun.spec Γ.below_nextVar
  have htyped := hrun.hasType (.of_closed hΓ _)
  obtain ⟨g, -, hg⟩ := hτ.of_compact
  rw [hΓ.apply_eq] at htyped
  rw [← hg]
  show HasType Γ e ((s.apply t).bind g)
  rw [hspec.resolved]
  exact htyped.bind (.of_closed hΓ g)

/-- Inference is sound: every instance of the scheme that it returns is a type of the term, in a
closed context and for a term in which no `let` binds a name bound around it. -/
theorem infer_sound {Γ : Context} {e : Term} {σ : Scheme} (hΓ : Γ.Closed) (he : e.LetsFresh [])
    (h : infer Γ e = .ok σ) : ∀ τ, σ.HasInstance τ → HasType Γ e τ := fun _ hτ =>
  (infer_eq_ok_iff.1 h).hasType hΓ (he.noOpenRebind fun _ hx => hx) hτ

/-- The type of the parameter stays out of the scheme of a definition that mentions it. -/
theorem infer_sound_parameter_in_definition :
    HasType ((∅ : Context).insert "k" ⟨[0, 1], .arrow (.var 0) (.arrow (.var 1) (.var 0))⟩)
      (.lam "x" (.letIn "y" (.app (.var "k") (.var "x")) (.app (.var "y") (.bool true))))
      (.arrow .num .num) := by
  have hk : Scheme.Closed ⟨[0, 1], .arrow (.var 0) (.arrow (.var 1) (.var 0))⟩ := by decide
  have hσ : Scheme.Closed ⟨[0], .arrow (.var 0) (.var 0)⟩ := by decide
  exact infer_sound (Context.closed_empty.insert hk "k") (by decide) (by cbv) _
    (hσ.hasInstance_bind fun _ => .num)

end LetPoly
