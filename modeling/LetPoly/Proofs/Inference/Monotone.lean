import Mathlib
import LetPoly.Proofs.Inference.Completeness

/-!
# A more general context serves as well

If inference succeeds in a closed context, then it succeeds in every one that gives the same names
at least as general schemes, with a scheme that is at least as general.

The typing rules do not give this, since inference accepts terms that have no type by them (a `let`
that binds an open name which its own definition mentions).  So two runs are compared step by step:
what the run in the more general context leaves open can be chosen so that its type becomes the type
that the other run found, and its context still offers at least what the other one does.
-/

namespace LetPoly

/-! ## Choices under a substitution -/

/-- The types that `f` chooses, under a substitution that was found later. -/
def Subst.comp (s : Subst) (f : Nat → Ty) (v : Nat) : Ty := s.apply (f v)

theorem Ty.bind_comp (s : Subst) (f : Nat → Ty) (t : Ty) :
    t.bind (s.comp f) = s.apply (t.bind f) := by
  rw [Subst.apply_eq_bind, Ty.bind_bind]
  exact Ty.bind_congr fun v _ => Subst.apply_eq_bind s (f v)

theorem Subst.comp_compose (r s : Subst) (f : Nat → Ty) :
    (r.compose s).comp f = r.comp (s.comp f) :=
  funext fun v => Subst.apply_compose r s (f v)

-- Choices that follow `s` on the variables below `n`, and later choices that follow `r`.
theorem Subst.comp_chain {f g g' : Nat → Ty} {r s : Subst} {n n₁ : Nat} (hn : n ≤ n₁)
    (hg : ∀ v < n, g v = s.comp f v) (hg' : ∀ v < n₁, g' v = r.comp g v) :
    ∀ v < n, g' v = (r.compose s).comp f v := by
  intro v hv
  rw [hg' v (Nat.lt_of_lt_of_le hv hn), Subst.comp_compose]
  exact congrArg r.apply (hg v hv)

theorem Absorbs.comp {f : Nat → Ty} {s : Subst} (h : Absorbs f s) (r : Subst) :
    Absorbs (r.comp f) s := fun v => by
  rw [Ty.bind_comp, h v]
  rfl

/-! ## Contexts that offer at least as much, under substitutions on both sides -/

theorem Scheme.Subsumes.apply_right {f : Nat → Ty} {σ σ' : Scheme} {s : Subst}
    (h : σ.Subsumes f σ') (hs : σ'.NoCapture s) : σ.Subsumes (s.comp f) (σ'.apply s) := by
  intro t ht
  obtain ⟨g, hg, rfl⟩ := (Scheme.instanceUnder_apply hs).1 ht
  obtain ⟨n, hn⟩ := exists_bound σ'.freeVars
  -- in this instance the quantified variables are kept apart from the free ones
  obtain ⟨k, hk, hbody⟩ := h (σ'.body.bind fun u => if u ∈ σ'.vars then .var (u + n) else .var u)
    ⟨_, fun u hu => if_neg (Scheme.mem_freeVars.1 hu).2, rfl⟩
  refine ⟨fun v => (k v).bind fun w => if w < n then s.image w else g (w - n), fun v hv => ?_, ?_⟩
  · show (k v).bind _ = s.apply (f v)
    rw [hk v hv, Subst.apply_eq_bind]
    exact Ty.bind_congr fun w hw => if_pos (hn w (h.mem_freeVars hv hw))
  · rw [← Ty.bind_bind, hbody, Ty.bind_bind]
    refine Ty.bind_congr fun u hu => ?_
    by_cases hvs : u ∈ σ'.vars
    · rw [if_pos hvs, Ty.bind, if_neg (by omega), show u + n - n = u by omega]
    · have hfree : u ∈ σ'.freeVars := Scheme.mem_freeVars.2 ⟨hu, hvs⟩
      rw [if_neg hvs, Ty.bind, if_pos (hn u hfree), hg u hfree]
      exact (Ty.bind_var _).symm

namespace Context.Subsumes

variable {f g : Nat → Ty} {Γ Δ : Context} {s s' : Subst} {names names' : List String}
  {n n₁ m m₁ : Nat}

theorem apply_right (h : Γ.Subsumes f Δ) (hs : ∀ x σ, Δ.get? x = some σ → σ.NoCapture s) :
    Γ.Subsumes (s.comp f) (Δ.apply s) := by
  intro x
  rw [Context.get?_apply]
  rcases h.cases x with ⟨hΓ, hΔ⟩ | ⟨σ, σ', hΓ, hΔ, hσ⟩ <;> rw [hΓ, hΔ]
  · exact .none
  · exact .some (hσ.apply_right (hs x σ' hΔ))

theorem letScope (h : Γ.Subsumes f Δ) (keep : Bool) (x : String) :
    (LetPoly.letScope keep Γ x).Subsumes f (LetPoly.letScope keep Δ x) := by
  cases keep with
  | true => exact h
  | false =>
    intro y
    by_cases hyx : y = x
    · subst hyx
      show Option.Rel _ (SortedMap.get? (Γ.erase y) y) (SortedMap.get? (Δ.erase y) y)
      rw [SortedMap.get?_erase_self, SortedMap.get?_erase_self]
      exact .none
    · rw [get?_letScope_of_ne false hyx, get?_letScope_of_ne false hyx]
      exact h y

-- After a run on either side.
theorem after_both (h : Γ.Subsumes f Δ) (hΓ : Γ.Tidy n) (hΔ : Δ.Tidy m)
    (hs' : s'.Within (Zone Γ names n n₁)) (hs : s.Within (Zone Δ names' m m₁))
    (hg : ∀ v < n, g v = s.comp f v) (ha : Absorbs g s') : (Γ.apply s').Subsumes g (Δ.apply s) :=
  (h.apply_right fun _ _ hx => hΔ.noCapture hs hx).after hΓ hs' hg ha

-- The same for what holds back the generalization in a `let`.
theorem letScope_after_both (h : Γ.Subsumes f Δ) (hΓ : Γ.Tidy n) (hΔ : Δ.Tidy m)
    (hs' : s'.Within (Zone Γ names n n₁)) (hs : s.Within (Zone Δ names' m m₁))
    (hg : ∀ v < n, g v = s.comp f v) (ha : Absorbs g s') (keep : Bool) (x : String) :
    ((LetPoly.letScope keep Γ x).apply s').Subsumes g ((LetPoly.letScope keep Δ x).apply s) := by
  have hsub := (h.letScope keep x).apply_right fun _ _ hy =>
    hΔ.noCapture hs (get?_of_get?_letScope hy)
  refine (hsub.congr fun v hv => ?_).apply ha fun _ _ hy =>
    hΓ.noCapture hs' (get?_of_get?_letScope hy)
  obtain ⟨y, σ, hy, hv⟩ := Context.mem_freeVars.1 hv
  exact (hg v (hΓ.below v (Context.mem_freeVars.2 ⟨y, σ, get?_of_get?_letScope hy, hv⟩))).symm

end Context.Subsumes

/-! ## The two runs -/

/-- A run in a context is matched by one in every context that offers at least as much. -/
theorem Infers.matched {keep : Bool} {Δ : Context} {m m' : Nat} {e : Term} {t : Ty} {s : Subst}
    (h : Infers keep Δ m e t s m') : ∀ {Γ : Context} {n : Nat} {f : Nat → Ty}, Γ.Tidy n →
      Δ.Tidy m → Γ.Subsumes f Δ →
      ∃ t' s' n', Infers keep Γ n e t' s' n' ∧ Factors (s.comp f) n t' s' t := by
  induction h with
  | num => exact fun _ _ _ => ⟨_, _, _, .num, .num⟩
  | bool => exact fun _ _ _ => ⟨_, _, _, .bool, .bool⟩
  | @var Δ m x σ' hx =>
    intro Γ n f hΓ _ hsub
    rcases hsub.cases x with ⟨-, hΔ⟩ | ⟨σ, σ', hσ, hΔ, hle⟩ <;> rw [hΔ] at hx <;> cases hx
    obtain ⟨g, hg, hbody⟩ := (hle _ (σ'.hasInstance_instantiate m)).of_instantiate fun v hv =>
      hΓ.below v (Context.mem_freeVars.2 ⟨x, σ, hσ, hv⟩)
    exact ⟨_, _, _, .var hσ, g, fun v hv => (hg v hv).trans (Subst.apply_empty _).symm, .empty g,
      hbody⟩
  | @ite Δ m c a b t₁ s₁ m₁ s₂ t₃ s₃ m₃ t₄ s₄ m₄ s₅ s hc hu ha hb hs hu' ihc iha ihb =>
    intro Γ n f hΓ hΔ hsub
    obtain ⟨t₁', s₁', n₁, hc', g₁, hg₁, habs₁, ht₁⟩ := ihc hΓ hΔ hsub
    have hcs := hc.spec hΔ.below
    have hcs' := hc'.spec hΓ.below
    -- the condition of the other run becomes `Bool`, so this one can
    obtain ⟨s₂', hu₂', habs₂⟩ := unify_factors (t := t₁') (u := .bool) (f := s₂.comp g₁) (by
      rw [Ty.bind_comp, ht₁]
      exact unify_sound _ _ _ hu)
    obtain ⟨hwithin, hidem⟩ := hcs.unify_bool hu
    obtain ⟨hwithin', hidem'⟩ := hcs'.unify_bool hu₂'
    have hg₂ : ∀ v < n, s₂.comp g₁ v = (s₂.compose s₁).comp f v :=
      Subst.comp_chain (Nat.le_refl n) hg₁ fun _ _ => rfl
    have habs₂₁ := habs₂.compose (habs₁.comp s₂)
    have hΔ₁ := hΔ.apply hwithin hcs.le
    have hΓ₁ := hΓ.apply hwithin' hcs'.le
    obtain ⟨t₃', s₃', n₃, ha', g₃, hg₃, habs₃, ht₃⟩ :=
      iha hΓ₁ hΔ₁ (hsub.after_both hΓ hΔ hwithin' hwithin hg₂ habs₂₁)
    have hcas := RunSpec.compose hΔ.below hwithin hidem hcs.le (ha.spec hΔ₁.below)
    have hcas' := RunSpec.compose hΓ.below hwithin' hidem' hcs'.le (ha'.spec hΓ₁.below)
    have habs₃₁ := habs₃.compose ((habs₂₁.comp s₃).later hΓ.below hwithin' hcs'.le hg₃)
    have hg₃₁ := Subst.comp_chain hcs'.le hg₂ hg₃
    have hΔ₃ := hΔ.apply hcas.within hcas.le
    obtain ⟨t₄', s₄', n₄, hb', g₄, hg₄, habs₄, ht₄⟩ := ihb (hΓ.apply hcas'.within hcas'.le) hΔ₃
      (hsub.after_both hΓ hΔ hcas'.within hcas.within hg₃₁ habs₃₁)
    have hcabs := RunSpec.compose hΔ.below hcas.within hcas.idempotent hcas.le (hb.spec hΔ₃.below)
    rw [← hs] at hcabs
    have habs := habs₄.compose ((habs₃₁.comp s₄).later hΓ.below hcas'.within hcas'.le hg₄)
    -- the types of the branches become those of the other run
    have ht₃' : t₃'.bind g₄ = s.apply t₃ := by
      rw [Ty.bind_later hcas' hΓ.below hg₄, Ty.bind_comp, ht₃, hs, Subst.apply_compose,
        hcas.resolved]
    have ht₄' : t₄'.bind g₄ = s.apply t₄ := ht₄.trans hcabs.resolved.symm
    obtain ⟨s₅', hu₅', habs₅⟩ := unify_factors (t := (_ : Subst).apply t₃')
      (u := (_ : Subst).apply t₄') (f := s₅.comp g₄) (by
        rw [Ty.bind_comp, Ty.bind_comp, habs.bind_apply, habs.bind_apply, ht₃', ht₄']
        exact unify_sound _ _ _ hu')
    have habs₅₄ := habs₅.compose (habs.comp s₅)
    refine ⟨_, _, _, .ite hc' hu₂' ha' hb' rfl hu₅', s₅.comp g₄, ?_, habs₅₄, ?_⟩
    · rw [hs]
      exact Subst.comp_chain (Nat.le_refl n) (Subst.comp_chain hcas'.le hg₃₁ hg₄) fun _ _ => rfl
    · rw [habs₅₄.bind_apply, (habs.comp s₅).bind_apply, Ty.bind_comp, ht₃', Subst.apply_compose,
        hcabs.idempotent.apply_apply]
  | @letIn Δ m x d b t₁ s₁ m₁ t₂ s₂ m₂ hd hb ihd ihb =>
    intro Γ n f hΓ hΔ hsub
    obtain ⟨t₁', s₁', n₁, hd', g₁, hg₁, habs₁, ht₁⟩ := ihd hΓ hΔ hsub
    have hds := hd.spec hΔ.below
    have hds' := hd'.spec hΓ.below
    have hsub₁ := hsub.after_both hΓ hΔ hds'.within hds.within hg₁ habs₁
    -- both schemes are generalized against contexts that are in the same order
    have hgen := (hsub.letScope_after_both hΓ hΔ hds'.within hds.within hg₁ habs₁ keep x).generalize
      _ (fun _ hv => hv) (s₁'.apply t₁')
    rw [habs₁.bind_apply, ht₁, ← hds.resolved] at hgen
    obtain ⟨t₂', s₂', n₂, hb', g₂, hg₂, habs₂, ht₂⟩ := ihb (hΓ.insert_generalize hds' keep x)
      (hΔ.insert_generalize hds keep x) (hsub₁.insert x hgen)
    refine ⟨_, _, _, .letIn hd' hb', g₂, Subst.comp_chain hds'.le hg₁ hg₂, habs₂.compose ?_, ht₂⟩
    exact (habs₁.comp s₂).later hΓ.below hds'.within hds'.le hg₂
  | @lam Δ m x b t s m' _ ih =>
    intro Γ n f hΓ hΔ hsub
    -- the parameters' variables stand for each other
    have hn : ∀ v < n, Function.update f n (.var m) v = f v := fun v hv =>
      Function.update_of_ne (by omega) _ f
    have hparam : (Scheme.mono (.var n)).Subsumes (Function.update f n (.var m))
        (.mono (.var m)) := by
      intro t ht
      rw [Scheme.instanceUnder_mono, Ty.bind, Function.update_self]
      exact Scheme.hasInstance_mono.1 ht
    have hsub' := (hsub.congr fun v hv => (hn v (hΓ.below v hv)).symm).insert x hparam
    obtain ⟨t', s', n', hb, g, hg, habs, ht⟩ := ih (hΓ.insert_mono x) (hΔ.insert_mono x) hsub'
    refine ⟨_, _, _, .lam hb, g, fun v hv => ?_, habs, ?_⟩
    · rw [hg v (by omega), Subst.comp, hn v hv]
      rfl
    · rw [Ty.bind, habs.bind_apply, Ty.bind, hg n (by omega), Subst.comp, Function.update_self, ht]
  | @app Δ m fn a t₁ s₁ m₁ t₂ s₂ m₂ s₃ hf ha hu ihf iha =>
    intro Γ n f hΓ hΔ hsub
    -- so do the variables of the results
    have hn : ∀ v < n, Function.update f n (.var m) v = f v := fun v hv =>
      Function.update_of_ne (by omega) _ f
    have hsub' := hsub.congr fun v hv => (hn v (hΓ.below v hv)).symm
    obtain ⟨t₁', s₁', n₁, hf', g₁, hg₁, habs₁, ht₁⟩ := ihf hΓ.succ hΔ.succ hsub'
    have hfs := hf.spec hΔ.succ.below
    have hfs' := hf'.spec hΓ.succ.below
    have hΔ₁ := hΔ.succ.apply hfs.within hfs.le
    obtain ⟨t₂', s₂', n₂, ha', g₂, hg₂, habs₂, ht₂⟩ :=
      iha (hΓ.succ.apply hfs'.within hfs'.le) hΔ₁
        (hsub'.after_both hΓ.succ hΔ.succ hfs'.within hfs.within hg₁ habs₁)
    have hle := hfs'.le
    have hres : g₂ n = .var m := by
      have h₁ := hfs.within.image_eq (Zone.not_self hΔ.below (Nat.lt_succ_self m))
      have h₂ := (ha.spec hΔ₁.below).within.image_eq (hfs.not_zone_result hΔ.below)
      rw [hg₂ n (by omega), Subst.comp, hg₁ n (by omega), Subst.comp, Function.update_self,
        Subst.apply_var, h₁, Subst.apply_var, h₂]
    have hfun : t₁'.bind g₂ = s₂.apply t₁ := by
      rw [Ty.bind_later hfs' hΓ.succ.below hg₂, Ty.bind_comp, ht₁]
    have harrow : (s₂'.apply t₁').bind (s₃.comp g₂) =
        (Ty.arrow t₂' (.var n)).bind (s₃.comp g₂) := by
      rw [Ty.bind_comp, Ty.bind_comp, habs₂.bind_apply, hfun, Ty.bind, ht₂, Ty.bind, hres]
      exact unify_sound _ _ _ hu
    obtain ⟨s₃', hu', habs₃⟩ := unify_factors harrow
    have hg₁' : ∀ v < n, g₁ v = s₁.comp f v := fun v hv => by
      rw [hg₁ v (by omega), Subst.comp, hn v hv]
      rfl
    have hg₃ : ∀ v < n₁, s₃.comp g₂ v = (s₃.compose s₂).comp g₁ v :=
      Subst.comp_chain (Nat.le_refl n₁) hg₂ fun _ _ => rfl
    refine ⟨_, _, _, .app hf' ha' hu', s₃.comp g₂, ?_, ?_, ?_⟩
    · exact Subst.comp_chain (by omega) hg₁' hg₃
    · exact (habs₃.compose (habs₂.comp s₃)).compose
        (((habs₁.comp s₂).later hΓ.succ.below hfs'.within hfs'.le hg₂).comp s₃)
    · rw [habs₃.bind_apply, Ty.bind, Subst.comp, hres]

/-! ## Whole terms -/

/-- Every instance of `σ` is an instance of `σ'`. -/
def Scheme.MoreGeneral (σ' σ : Scheme) : Prop := ∀ t, σ.HasInstance t → σ'.HasInstance t

/-- Inference is monotone: in a closed context that gives the same names at least as general
schemes, it succeeds where it did before, with a scheme that is at least as general. -/
theorem infer_mono {Γ Γ' : Context} (hΓ : Γ.Closed) (hΓ' : Γ'.Closed)
    (hle : ∀ x, Option.Rel Scheme.MoreGeneral (Γ'.get? x) (Γ.get? x)) {e : Term} {σ : Scheme}
    (h : infer Γ e = .ok σ) : ∃ σ', infer Γ' e = .ok σ' ∧ σ'.MoreGeneral σ := by
  obtain ⟨t, s, m, hrun, rfl⟩ := infer_eq_ok_iff.1 h
  have hsub : Γ'.Subsumes .var Γ := hle
  obtain ⟨t', s', n, hrun', g, -, habs, ht⟩ := hrun.matched (.of_closed hΓ' Γ'.nextVar)
    (.of_closed hΓ _) hsub
  refine ⟨_, infer_eq_ok_iff.2 ⟨t', s', n, hrun', rfl⟩, fun u hu => .compact ?_⟩
  -- closed contexts hold back nothing, whatever is chosen for variables
  have hgen := (hsub.congr (g := g) fun v hv => absurd hv (hΓ'.notMem_freeVars v)).generalize Γ'
    (fun _ hv => hv) (s'.apply t')
  rw [habs.bind_apply, ht, ← (hrun.spec Γ.below_nextVar).resolved] at hgen
  rw [hΓ.apply_eq] at hu
  rw [hΓ'.apply_eq]
  refine (hgen u hu.of_compact).congr fun v hv => ?_
  exact absurd (Scheme.mem_freeVars_generalize.1 hv).2 (hΓ'.notMem_freeVars v)

/-- A function on numbers that becomes one on all types frees its users with it. -/
theorem infer_mono_identity :
    infer ((∅ : Context).insert "f" (.mono (.arrow .num .num)))
        (.lam "x" (.letIn "y" (.app (.var "f") (.var "x")) (.app (.var "f") (.var "y")))) =
          .ok (.mono (.arrow .num .num)) ∧
      ∃ σ', infer ((∅ : Context).insert "f" ⟨[0], .arrow (.var 0) (.var 0)⟩)
        (.lam "x" (.letIn "y" (.app (.var "f") (.var "x")) (.app (.var "f") (.var "y")))) = .ok σ' ∧
          σ'.MoreGeneral (.mono (.arrow .num .num)) := by
  have hnum : (Scheme.mono (.arrow .num .num)).Closed := by decide
  have hid : Scheme.Closed ⟨[0], .arrow (.var 0) (.var 0)⟩ := by decide
  have hrun : infer ((∅ : Context).insert "f" (.mono (.arrow .num .num)))
      (.lam "x" (.letIn "y" (.app (.var "f") (.var "x")) (.app (.var "f") (.var "y")))) =
        .ok (.mono (.arrow .num .num)) := by cbv
  refine ⟨hrun, infer_mono (Context.closed_empty.insert hnum "f")
    (Context.closed_empty.insert hid "f") (fun x => ?_) hrun⟩
  by_cases hx : x = "f"
  · subst hx
    refine .some fun t ht => ?_
    rw [← Scheme.hasInstance_mono.1 ht]
    exact hid.hasInstance_bind fun _ => .num
  · rw [SortedMap.get?_insert_of_ne _ _ hx, SortedMap.get?_insert_of_ne _ _ hx]
    exact .none

end LetPoly
