import LetPoly.Proofs.Typing.Instance
import LetPoly.Ty.Unifier

/-!
# Most general unifiers

A function `f` on variables *absorbs* a substitution when applying the substitution first makes no
difference to `f`.  `unify` returns a substitution that makes its arguments equal (`unify_sound`)
and that every function making them equal absorbs (`unify_absorbs`); if there is such a function it
returns one (`unify_complete`).  All the variables it deals with are variables of its arguments
(`unify_within`).

Functions are not needed for absorption: a unifier only does what follows from the equation of its
arguments in any equivalence that relates arrows by their parts (`Equates`, `unify_related`).
-/

namespace LetPoly

/-! ## Absorption -/

/-- Applying `s` before `f` gives the same as `f`. -/
def Absorbs (f : Nat → Ty) (s : Subst) : Prop := ∀ v, (s.image v).bind f = f v

namespace Absorbs

variable {f : Nat → Ty} {s s' : Subst}

theorem empty (f : Nat → Ty) : Absorbs f ∅ := fun _ => rfl

theorem bind_apply (h : Absorbs f s) (t : Ty) : (s.apply t).bind f = t.bind f := by
  rw [Subst.apply_eq_bind, Ty.bind_bind]
  exact Ty.bind_congr fun v _ => h v

theorem compose (h' : Absorbs f s') (h : Absorbs f s) : Absorbs f (s'.compose s) := fun v => by
  rw [Subst.image_compose, h'.bind_apply, h v]

end Absorbs

/-! ## Substitutions confined to a set of variables -/

namespace Subst

/-- `s` moves only variables in `W`, and to types over `W`. -/
def Within (s : Subst) (W : Nat → Prop) : Prop :=
  ∀ v, s.image v = .var v ∨ W v ∧ ∀ w ∈ (s.image v).vars, W w

theorem within_empty (W : Nat → Prop) : Subst.Within ∅ W := fun _ => .inl rfl

namespace Within

variable {s s' : Subst} {W W' : Nat → Prop}

theorem mono (h : s.Within W) (hsub : ∀ v, W v → W' v) : s.Within W' := fun v =>
  (h v).imp_right fun ⟨hv, hw⟩ => ⟨hsub v hv, fun w hmem => hsub w (hw w hmem)⟩

theorem image_eq (h : s.Within W) {v : Nat} (hv : ¬ W v) : s.image v = .var v :=
  (h v).resolve_right fun hc => hv hc.1

theorem of_mem_image (h : s.Within W) {v w : Nat} (hw : w ∈ (s.image v).vars) : w = v ∨ W w := by
  rcases h v with hv | ⟨-, hv⟩
  · rw [hv, Ty.vars, List.mem_singleton] at hw
    exact .inl hw
  · exact .inr (hv w hw)

-- A variable of the result was there before or belongs to `W`.
theorem of_mem_apply (h : s.Within W) {t : Ty} {w : Nat} (hw : w ∈ (s.apply t).vars) :
    w ∈ t.vars ∨ W w := by
  rw [apply_eq_bind, Ty.mem_vars_bind] at hw
  obtain ⟨v, hv, hw⟩ := hw
  rcases h.of_mem_image hw with rfl | hw
  · exact .inl hv
  · exact .inr hw

theorem compose (h' : s'.Within W) (h : s.Within W) : (s'.compose s).Within W := fun v => by
  rw [image_compose]
  rcases h v with hv | ⟨hv, hvars⟩
  · rw [hv]
    exact h' v
  · refine .inr ⟨hv, fun w hw => ?_⟩
    rcases h'.of_mem_apply hw with hw | hw
    · exact hvars w hw
    · exact hw

end Within

/-- Applying `s` twice is applying it once. -/
def Idempotent (s : Subst) : Prop := ∀ v, s.apply (s.image v) = s.image v

theorem idempotent_empty : Subst.Idempotent ∅ := fun _ => rfl

theorem Idempotent.apply_apply {s : Subst} (h : s.Idempotent) (t : Ty) :
    s.apply (s.apply t) = s.apply t := by
  rw [apply_eq_bind s t, apply_eq_bind, Ty.bind_bind]
  exact Ty.bind_congr fun v _ => (apply_eq_bind s _).symm.trans (h v)

theorem apply_eq_self {s : Subst} {t : Ty} (h : ∀ v ∈ t.vars, s.image v = .var v) :
    s.apply t = t := by
  rw [apply_eq_bind]
  exact Ty.bind_eq_self h

theorem image_eq_of_apply_eq {s : Subst} {t : Ty} (h : s.apply t = t) {v : Nat} (hv : v ∈ t.vars) :
    s.image v = .var v := by
  rw [apply_eq_bind] at h
  exact Ty.eq_of_bind_eq (h.trans (Ty.bind_var t).symm) v hv

-- The variables of what an idempotent substitution puts in are not moved again.
theorem Idempotent.image_of_mem {s : Subst} (h : s.Idempotent) {v w : Nat}
    (hw : w ∈ (s.image v).vars) : s.image w = .var w :=
  image_eq_of_apply_eq (h v) hw

/-- `s'` deals only with variables that `s` leaves alone, as a substitution found after `s` does. -/
def After (s' s : Subst) : Prop :=
  ∃ W : Nat → Prop, s'.Within W ∧ ∀ v, W v → s.image v = .var v

-- A later substitution does not undo idempotence.
theorem Idempotent.compose {s s' : Subst} (h' : s'.Idempotent) (h : s.Idempotent)
    (hafter : s'.After s) : (s'.compose s).Idempotent := fun v => by
  obtain ⟨W, hW, hfix⟩ := hafter
  -- whatever comes out of `s'` is made of variables that `s` does not move
  have hstay : s.apply (s'.apply (s.image v)) = s'.apply (s.image v) :=
    apply_eq_self fun w hw => (hW.of_mem_apply hw).elim (h.image_of_mem ·) (hfix w)
  rw [image_compose, apply_compose, hstay, h'.apply_apply]

/-- `s'` can be put after `s`. -/
structure Follows (s' s : Subst) : Prop where
  idempotent : s.Idempotent
  after : s'.After s

theorem image_singleton (v w : Nat) (t : Ty) :
    Subst.image (.singleton v t) w = if w = v then t else .var w := by
  unfold image
  rw [SortedMap.get?_singleton]
  by_cases hw : w = v
  · rw [if_pos hw, if_pos (SortedMap.compare_eq_iff.2 hw)]
    rfl
  · rw [if_neg hw, if_neg fun hc => hw (SortedMap.compare_eq_iff.1 hc)]
    rfl

end Subst

-- What absorbs one substitution after the other absorbs both.
theorem Absorbs.of_compose {f : Nat → Ty} {s s' : Subst} (h : Absorbs f (s'.compose s))
    (hs : s'.Follows s) : Absorbs f s ∧ Absorbs f s' := by
  obtain ⟨hidem, W, hW, hfix⟩ := hs
  refine ⟨fun v => ?_, fun v => ?_⟩
  · have himage := h.bind_apply (s.image v)
    rwa [Subst.apply_compose, hidem v, ← Subst.image_compose, h v, eq_comm] at himage
  · rcases hW v with hv | ⟨hv, -⟩
    · rw [hv, Ty.bind]
    · have himage := h v
      rwa [Subst.image_compose, hfix v hv] at himage

theorem Subst.Idempotent.absorbs {s : Subst} (h : s.Idempotent) : Absorbs s.image s := fun v =>
  (Subst.apply_eq_bind s _).symm.trans (h v)

/-! ## Relations that follow from an equation -/

/-- An equivalence of types under which two arrows are related exactly if their parts are. -/
structure Equates (R : Ty → Ty → Prop) : Prop where
  equivalence : Equivalence R
  arrow_iff : ∀ {a b c d}, R (.arrow a b) (.arrow c d) ↔ R a c ∧ R b d

namespace Equates

variable {R : Ty → Ty → Prop} {s s' : Subst}

theorem of_bind (f : Nat → Ty) : Equates fun t u => t.bind f = u.bind f where
  equivalence := ⟨fun _ => rfl, Eq.symm, Eq.trans⟩
  arrow_iff := by
    intro a b c d
    rw [Ty.bind, Ty.bind, Ty.arrow.injEq]

theorem apply (hR : Equates R) (hs : ∀ v, R (s.image v) (.var v)) (t : Ty) : R (s.apply t) t := by
  induction t with
  | var v => exact hs v
  | con c => exact hR.equivalence.refl _
  | arrow a b iha ihb => exact hR.arrow_iff.2 ⟨iha, ihb⟩

theorem compose (hR : Equates R) (hs' : ∀ v, R (s'.image v) (.var v))
    (hs : ∀ v, R (s.image v) (.var v)) : ∀ v, R ((s'.compose s).image v) (.var v) := fun v => by
  rw [Subst.image_compose]
  exact hR.equivalence.trans (hR.apply hs' _) (hs v)

-- The result types of related arrows stay related when the unifier of the arguments is applied.
theorem results (hR : Equates R) (hs : ∀ v, R (s.image v) (.var v)) {b d : Ty} (h : R b d) :
    R (s.apply b) (s.apply d) :=
  hR.equivalence.trans (hR.apply hs b)
    (hR.equivalence.trans h (hR.equivalence.symm (hR.apply hs d)))

end Equates

/-! ## Binding a variable -/

theorem bindVar_ok {v : Nat} {t : Ty} {s : Subst} (h : bindVar v t = .ok s) :
    t = .var v ∧ s = ∅ ∨ v ∉ t.vars ∧ s = .singleton v t := by
  unfold bindVar at h
  split at h
  · next ht =>
    cases h
    exact .inl ⟨ht, rfl⟩
  · split at h
    · cases h
    · next hocc =>
      cases h
      exact .inr ⟨fun hv => hocc (Ty.occurs_iff_mem_vars.2 hv), rfl⟩

theorem bindVar_sound {v : Nat} {t : Ty} {s : Subst} (h : bindVar v t = .ok s) :
    s.image v = s.apply t := by
  rcases bindVar_ok h with ⟨rfl, rfl⟩ | ⟨hnot, rfl⟩
  · rfl
  · rw [Subst.image_singleton, if_pos rfl]
    refine (Subst.apply_eq_self fun w hw => ?_).symm
    have hne : w ≠ v := fun hc => hnot (hc ▸ hw)
    rw [Subst.image_singleton, if_neg hne]

theorem bindVar_within {v : Nat} {t : Ty} {s : Subst} (h : bindVar v t = .ok s) :
    s.Within fun w => w = v ∨ w ∈ t.vars := by
  rcases bindVar_ok h with ⟨rfl, rfl⟩ | ⟨hnot, rfl⟩
  · exact Subst.within_empty _
  · intro w
    rw [Subst.image_singleton]
    by_cases hw : w = v
    · rw [if_pos hw]
      exact .inr ⟨.inl hw, fun x hx => .inr hx⟩
    · rw [if_neg hw]
      exact .inl rfl

-- What relates a variable to a type relates all that binding the variable makes equal.
theorem bindVar_related {R : Ty → Ty → Prop} (hR : Equates R) {v : Nat} {t : Ty} {s : Subst}
    (h : bindVar v t = .ok s) (ht : R (.var v) t) : ∀ w, R (s.image w) (.var w) := by
  intro w
  rcases bindVar_ok h with ⟨rfl, rfl⟩ | ⟨-, rfl⟩
  · exact hR.equivalence.refl _
  · rw [Subst.image_singleton]
    by_cases hw : w = v
    · rw [if_pos hw, hw]
      exact hR.equivalence.symm ht
    · rw [if_neg hw]
      exact hR.equivalence.refl _

-- A type is at least as large as what stands in it under `f`.
theorem Ty.size_le_size_bind {v : Nat} {t : Ty} (f : Nat → Ty) (hv : v ∈ t.vars) :
    (f v).size ≤ (t.bind f).size := by
  induction t with
  | var w =>
    rw [vars, List.mem_singleton] at hv
    exact Nat.le_of_eq (by rw [bind, hv])
  | con c => cases hv
  | arrow a b iha ihb =>
    rw [bind, size]
    rcases List.mem_append.1 hv with hv | hv
    · have := iha hv
      omega
    · have := ihb hv
      omega

-- No function makes a variable equal to a larger type that contains it.
theorem bindVar_complete {v : Nat} {t : Ty} {f : Nat → Ty} (hf : f v = t.bind f) :
    ∃ s, bindVar v t = .ok s := by
  unfold bindVar
  by_cases ht : t = .var v
  · exact ⟨∅, if_pos ht⟩
  · rw [if_neg ht]
    by_cases hocc : t.occurs v = true
    · -- under `f` the type would be larger than itself
      exfalso
      have hv : v ∈ t.vars := Ty.occurs_iff_mem_vars.1 hocc
      cases t with
      | var w =>
        rw [Ty.vars, List.mem_singleton] at hv
        exact ht (by rw [hv])
      | con c => cases hv
      | arrow a b =>
        have hsize : (f v).size = ((Ty.arrow a b).bind f).size := by rw [hf]
        rw [Ty.bind, Ty.size] at hsize
        rcases List.mem_append.1 hv with hv | hv
        · have := Ty.size_le_size_bind f hv
          omega
        · have := Ty.size_le_size_bind f hv
          omega
    · exact ⟨.singleton v t, if_neg hocc⟩

/-! ## Unification -/

/-- Neither type is a variable, and they have different heads. -/
inductive HeadsClash : Ty → Ty → Prop
  | con {a b} : a ≠ b → HeadsClash (.con a) (.con b)
  | con_arrow {c a b} : HeadsClash (.con c) (.arrow a b)
  | arrow_con {a b c} : HeadsClash (.arrow a b) (.con c)

namespace HeadsClash

variable {t u : Ty}

theorem ne_var (h : HeadsClash t u) (v : Nat) : t ≠ .var v ∧ u ≠ .var v := by
  cases h <;> simp

theorem bind_ne (h : HeadsClash t u) (f : Nat → Ty) : t.bind f ≠ u.bind f := by
  cases h with
  | con hab => simpa [Ty.bind] using hab
  | con_arrow => simp [Ty.bind]
  | arrow_con => simp [Ty.bind]

theorem unify_eq (h : HeadsClash t u) : unify t u = .error (.mismatch t u) := by
  cases h with
  | con hab => rw [unify_con_con, if_neg hab]
  | con_arrow => exact unify_con_arrow _ _ _
  | arrow_con => exact unify_arrow_con _ _ _

theorem unify_ne_ok (h : HeadsClash t u) (s : Subst) : unify t u ≠ .ok s := by
  rw [h.unify_eq]
  simp

end HeadsClash

/-- Induction along the calls of `unify`: the pair of result types is met under the unifier of the
argument types. -/
theorem unify_induction {P : Ty → Ty → Prop} (var_left : ∀ v u, P (.var v) u)
    (var_right : ∀ t v, (∀ w, t ≠ .var w) → P t (.var v)) (con : ∀ c, P (.con c) (.con c))
    (clash : ∀ t u, HeadsClash t u → P t u)
    (arrow : ∀ a b c d, P a c → (∀ s, unify a c = .ok s → P (s.apply b) (s.apply d)) →
      P (.arrow a b) (.arrow c d)) (t u : Ty) : P t u := by
  match t, u with
  | .var v, u => exact var_left v u
  | .con c, .var v => exact var_right _ v (by simp)
  | .arrow a b, .var v => exact var_right _ v (by simp)
  | .con a, .con b =>
    by_cases hab : a = b
    · exact hab ▸ con a
    · exact clash _ _ (.con hab)
  | .con c, .arrow a b => exact clash _ _ .con_arrow
  | .arrow a b, .con c => exact clash _ _ .arrow_con
  | .arrow a b, .arrow c d =>
    refine arrow a b c d ?_ fun s hs => ?_
    · exact unify_induction var_left var_right con clash arrow a c
    · exact unify_induction var_left var_right con clash arrow _ _
termination_by (varCount t u, t.size + u.size)
decreasing_by
  · exact descends_args a b c d
  · exact descends_results (.of_unify hs)

theorem unify_con_self (c : String) : unify (.con c) (.con c) = .ok ∅ := by
  rw [unify_con_con, if_pos rfl]

theorem unify_arrow_ok {a b c d : Ty} {s : Subst} (h : unify (.arrow a b) (.arrow c d) = .ok s) :
    ∃ s₁ s₂, unify a c = .ok s₁ ∧ unify (s₁.apply b) (s₁.apply d) = .ok s₂ ∧
      s = s₂.compose s₁ := by
  rw [unify_arrow_arrow] at h
  cases h₁ : unify a c with
  | error e =>
    rw [h₁] at h
    cases h
  | ok s₁ =>
    rw [h₁] at h
    cases h₂ : unify (s₁.apply b) (s₁.apply d) with
    | error e =>
      simp only [Except.bind, h₂] at h
      cases h
    | ok s₂ =>
      simp only [Except.bind, h₂] at h
      cases h
      exact ⟨s₁, s₂, rfl, h₂, rfl⟩

theorem unify_sound (t u : Ty) : ∀ s, unify t u = .ok s → s.apply t = s.apply u := by
  induction t, u using unify_induction with
  | var_left v u =>
    intro s h
    rw [unify_var_left] at h
    exact bindVar_sound h
  | var_right t v ht =>
    intro s h
    rw [unify_var_right v ht] at h
    exact (bindVar_sound h).symm
  | con c => exact fun s _ => rfl
  | clash t u hclash => exact fun s h => absurd h (hclash.unify_ne_ok s)
  | arrow a b c d ih₁ ih₂ =>
    intro s h
    obtain ⟨s₁, s₂, h₁, h₂, rfl⟩ := unify_arrow_ok h
    rw [Subst.apply_arrow, Subst.apply_arrow, Subst.apply_compose, Subst.apply_compose,
      Subst.apply_compose, Subst.apply_compose, ih₁ s₁ h₁, ih₂ s₁ h₁ s₂ h₂]

/-- Whatever follows from an equation of two types is respected by their unifier. -/
theorem unify_related {R : Ty → Ty → Prop} (hR : Equates R) (t u : Ty) :
    ∀ s, unify t u = .ok s → R t u → ∀ v, R (s.image v) (.var v) := by
  induction t, u using unify_induction with
  | var_left v u =>
    intro s h htu
    rw [unify_var_left] at h
    exact bindVar_related hR h htu
  | var_right t v ht =>
    intro s h htu
    rw [unify_var_right v ht] at h
    exact bindVar_related hR h (hR.equivalence.symm htu)
  | con c =>
    intro s h _
    rw [unify_con_self] at h
    cases h
    exact fun v => hR.equivalence.refl _
  | clash t u hclash => exact fun s h => absurd h (hclash.unify_ne_ok s)
  | arrow a b c d ih₁ ih₂ =>
    intro s h htu
    obtain ⟨s₁, s₂, h₁, h₂, rfl⟩ := unify_arrow_ok h
    obtain ⟨hac, hbd⟩ := hR.arrow_iff.1 htu
    have hs₁ := ih₁ s₁ h₁ hac
    exact hR.compose (ih₂ s₁ h₁ s₂ h₂ (hR.results hs₁ hbd)) hs₁

/-- Whatever makes two types equal absorbs their unifier. -/
theorem unify_absorbs (t u : Ty) (f : Nat → Ty) :
    ∀ s, unify t u = .ok s → t.bind f = u.bind f → Absorbs f s :=
  unify_related (.of_bind f) t u

theorem unify_complete (t u : Ty) (f : Nat → Ty) :
    t.bind f = u.bind f → ∃ s, unify t u = .ok s := by
  induction t, u using unify_induction with
  | var_left v u =>
    intro hf
    rw [unify_var_left]
    exact bindVar_complete hf
  | var_right t v ht =>
    intro hf
    rw [unify_var_right v ht]
    exact bindVar_complete hf.symm
  | con c => exact fun _ => ⟨∅, unify_con_self c⟩
  | clash t u hclash => exact fun hf => absurd hf (hclash.bind_ne f)
  | arrow a b c d ih₁ ih₂ =>
    intro hf
    rw [Ty.bind, Ty.bind, Ty.arrow.injEq] at hf
    obtain ⟨s₁, h₁⟩ := ih₁ hf.1
    -- `f` absorbs the first unifier, so it still makes the result types equal
    have habs : Absorbs f s₁ := unify_absorbs a c f s₁ h₁ hf.1
    obtain ⟨s₂, h₂⟩ := ih₂ s₁ h₁ (by rw [habs.bind_apply, habs.bind_apply, hf.2])
    refine ⟨s₂.compose s₁, ?_⟩
    rw [unify_arrow_arrow, h₁]
    show (unify _ _).map _ = _
    rw [h₂]
    rfl

theorem unify_within (t u : Ty) :
    ∀ s, unify t u = .ok s → s.Within fun v => v ∈ t.vars ∨ v ∈ u.vars := by
  induction t, u using unify_induction with
  | var_left v u =>
    intro s h
    rw [unify_var_left] at h
    exact (bindVar_within h).mono fun w hw => hw.imp_left (by simp [Ty.vars, ·])
  | var_right t v ht =>
    intro s h
    rw [unify_var_right v ht] at h
    exact (bindVar_within h).mono fun w hw => hw.symm.imp_right (by simp [Ty.vars, ·])
  | con c =>
    intro s h
    rw [unify_con_self] at h
    cases h
    exact Subst.within_empty _
  | clash t u hclash => exact fun s h => absurd h (hclash.unify_ne_ok s)
  | arrow a b c d ih₁ ih₂ =>
    intro s h
    obtain ⟨s₁, s₂, h₁, h₂, rfl⟩ := unify_arrow_ok h
    -- the result types are over the same variables once the first unifier is applied
    have hs₁ : s₁.Within fun v => v ∈ (Ty.arrow a b).vars ∨ v ∈ (Ty.arrow c d).vars :=
      (ih₁ s₁ h₁).mono fun v hv => by
        simp only [Ty.vars, List.mem_append]
        exact hv.imp .inl .inl
    refine Subst.Within.compose ((ih₂ s₁ h₁ s₂ h₂).mono fun v hv => ?_) hs₁
    rcases hv with hv | hv
    · exact (hs₁.of_mem_apply hv).elim (fun h => .inl (by simp [Ty.vars, h])) id
    · exact (hs₁.of_mem_apply hv).elim (fun h => .inr (by simp [Ty.vars, h])) id

-- A unifier makes its own arguments equal, so it absorbs itself.
theorem unify_idempotent {t u : Ty} {s : Subst} (h : unify t u = .ok s) : s.Idempotent := by
  intro v
  have heq : t.bind s.image = u.bind s.image := by
    rw [← Subst.apply_eq_bind, ← Subst.apply_eq_bind]
    exact unify_sound t u s h
  rw [Subst.apply_eq_bind]
  exact unify_absorbs t u s.image s h heq v

-- The unifier of types that `s` does not change any more comes after `s`.
theorem unify_after {t u : Ty} {s s' : Subst} (h : unify t u = .ok s') (ht : s.apply t = t)
    (hu : s.apply u = u) : s'.After s :=
  ⟨_, unify_within t u s' h, fun _ hv =>
    hv.elim (Subst.image_eq_of_apply_eq ht) (Subst.image_eq_of_apply_eq hu)⟩

end LetPoly
