import LetPoly.Proofs.Typing.Instance

/-!
# Composition of substitutions

Composition is associative on the maps themselves, and not only in what they do to types: a variable
that is bound to itself stays bound, however the composition is bracketed.

On a scheme the two steps may do less than the composition.  If the first step brings a quantified
variable in, the second one takes it for the quantified one and leaves it alone, while in the
composition it has been replaced already.  `Scheme.apply_compose_iff` says when this happens.
-/

namespace LetPoly

theorem Subst.compose_assoc (a b c : Subst) :
    (a.compose b).compose c = a.compose (b.compose c) := by
  refine SortedMap.ext_get? fun v => ?_
  rw [get?_compose, get?_compose, get?_compose, get?_compose]
  cases c.get? v with
  | none => rfl
  | some t => exact congrArg some (apply_compose a b t)

/-! ## Schemes -/

namespace Scheme

variable {r s : Subst} {σ : Scheme}

theorem body_apply_compose (r s : Subst) (σ : Scheme) :
    (σ.apply (r.compose s)).body =
      σ.body.bind fun v => if v ∈ σ.vars then .var v else (s.image v).bind r.image := by
  rw [body_apply]
  refine Ty.bind_congr fun v _ => ?_
  rw [Subst.image_compose, Subst.apply_eq_bind]

theorem body_apply_apply (r s : Subst) (σ : Scheme) :
    ((σ.apply s).apply r).body = σ.body.bind fun v => if v ∈ σ.vars then .var v else
      (s.image v).bind fun w => if w ∈ σ.vars then .var w else r.image w := by
  rw [body_apply, body_apply, Ty.bind_bind, vars_apply]
  refine Ty.bind_congr fun v _ => ?_
  by_cases hvs : v ∈ σ.vars
  · rw [if_pos hvs, if_pos hvs, Ty.bind, if_pos hvs]
  · rw [if_neg hvs, if_neg hvs]

/-- Two substitutions one after the other act on a scheme as their composition exactly if the second
one leaves alone every quantified variable that the first one brings in. -/
theorem apply_compose_iff :
    σ.apply (r.compose s) = (σ.apply s).apply r ↔
      ∀ v ∈ σ.freeVars, ∀ w ∈ (s.image v).vars, w ∈ σ.vars → r.image w = .var w := by
  constructor
  · intro h v hv w hw hws
    obtain ⟨hmem, hvs⟩ := mem_freeVars.1 hv
    have hbody := congrArg Scheme.body h
    rw [body_apply_compose, body_apply_apply] at hbody
    -- both sides agree in the place of `v`, and there in the place of `w`
    have himage := Ty.eq_of_bind_eq hbody v hmem
    rw [if_neg hvs, if_neg hvs] at himage
    exact (Ty.eq_of_bind_eq himage w hw).trans (if_pos hws)
  · intro h
    have hbody : (σ.apply (r.compose s)).body = ((σ.apply s).apply r).body := by
      rw [body_apply_compose, body_apply_apply]
      refine Ty.bind_congr fun v hv => ?_
      by_cases hvs : v ∈ σ.vars
      · rw [if_pos hvs, if_pos hvs]
      · rw [if_neg hvs, if_neg hvs]
        refine Ty.bind_congr fun w hw => ?_
        by_cases hws : w ∈ σ.vars
        · rw [if_pos hws, h v (mem_freeVars.2 ⟨hv, hvs⟩) w hw hws]
        · rw [if_neg hws]
    exact congrArg (Scheme.mk σ.vars) hbody

-- Without capture, two substitutions one after the other act as their composition.
theorem apply_compose (hs : σ.NoCapture s) (r : Subst) :
    σ.apply (r.compose s) = (σ.apply s).apply r :=
  apply_compose_iff.2 fun v hv w hw hws => absurd hws (hs v hv w hw)

-- A substitution that moves a captured variable tells the composition from the two steps.
theorem noCapture_of_apply_compose (h : ∀ r : Subst, σ.apply (r.compose s) = (σ.apply s).apply r) :
    σ.NoCapture s := by
  intro v hv w hw hws
  have hstays := apply_compose_iff.1 (h (.singleton w .num)) v hv w hw hws
  have hmoves : Subst.image (.singleton w .num) w = .num := by simp [Subst.image]
  rw [hmoves] at hstays
  cases hstays

-- A free variable that is not bound stays in its place, so only the bindings can capture.
theorem noCapture_iff_get? :
    σ.NoCapture s ↔ ∀ v ∈ σ.freeVars, ∀ t ∈ s.get? v, ∀ w ∈ t.vars, w ∉ σ.vars := by
  constructor
  · intro h v hv t ht w hw
    refine h v hv w ?_
    rwa [Subst.image, Option.mem_def.1 ht]
  · intro h v hv w hw
    cases ht : s.get? v with
    | some t =>
      rw [Subst.image, ht] at hw
      exact h v hv t ht w hw
    | none =>
      rw [Subst.image, ht] at hw
      exact List.mem_singleton.1 hw ▸ (mem_freeVars.1 hv).2

end Scheme

theorem Context.apply_compose {Γ : Context} {s : Subst}
    (hs : ∀ x σ, Γ.get? x = some σ → σ.NoCapture s) (r : Subst) :
    Γ.apply (r.compose s) = (Γ.apply s).apply r := by
  refine SortedMap.ext_get? fun x => ?_
  rw [get?_apply, get?_apply, get?_apply]
  cases hx : Γ.get? x with
  | none => rfl
  | some σ => exact congrArg some (Scheme.apply_compose (hs x σ hx) r)

/-! ## The laws together -/

namespace Subst

/-- Composition acts on types as `b` and then `a`, and it is associative as an operation on maps.
On a scheme it acts as `b` and then whatever comes after it, exactly if no quantified variable
occurs in a type that `b` binds a free variable of the scheme to. -/
theorem compose_laws (a b c : Subst) (t : Ty) (σ : Scheme) :
    (a.compose b).apply t = a.apply (b.apply t) ∧
    (a.compose b).compose c = a.compose (b.compose c) ∧
    ((∀ v ∈ σ.freeVars, ∀ u ∈ b.get? v, ∀ w ∈ u.vars, w ∉ σ.vars) ↔
      ∀ r : Subst, σ.apply (r.compose b) = (σ.apply b).apply r) := by
  refine ⟨apply_compose a b t, compose_assoc a b c, ?_⟩
  rw [← Scheme.noCapture_iff_get?]
  exact ⟨Scheme.apply_compose, Scheme.noCapture_of_apply_compose⟩

/-- Exchanges `t0` and `t1`. -/
def exchanging : Subst := .ofList [(0, .var 1), (1, .var 0), (3, .bool)]

/-- Binds `t0` to a type in which it occurs, and `t5` to itself. -/
def growing : Subst := .ofList [(0, .arrow (.var 1) (.var 0)), (5, .var 5)]

/-- The binding of `t5` to itself is kept.  The quantified `t3` stays, though it is bound; the
quantified `t1` is brought in for `t0`, and there the law fails. -/
theorem compose_laws_growing :
    (exchanging.compose growing).apply (.var 0) = .arrow (.var 0) (.var 1) ∧
    exchanging.compose (growing.compose growing) = .ofList
      [(0, .arrow (.var 0) (.arrow (.var 0) (.var 1))), (1, .var 0), (3, .bool), (5, .var 5)] ∧
    Scheme.apply (exchanging.compose growing) ⟨[3], .arrow (.var 0) (.var 3)⟩ =
      .apply exchanging (.apply growing ⟨[3], .arrow (.var 0) (.var 3)⟩) ∧
    ¬ ∀ r : Subst, Scheme.apply (r.compose growing) ⟨[1], .var 0⟩ =
      .apply r (.apply growing ⟨[1], .var 0⟩) := by
  obtain ⟨happly, hassoc, hscheme⟩ :=
    compose_laws exchanging growing growing (.var 0) ⟨[3], .arrow (.var 0) (.var 3)⟩
  have hcaptured := (compose_laws exchanging growing growing (.var 0) ⟨[1], .var 0⟩).2.2
  refine ⟨happly.trans (by decide), hassoc.symm.trans (by decide), ?_, ?_⟩
  · exact hscheme.1 (by decide) exchanging
  · exact fun h => absurd (hcaptured.2 h) (by decide)

end Subst

end LetPoly
