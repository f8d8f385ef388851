import LetPoly.Proofs.Map.Lookup
import LetPoly.Ty.Scheme

/-!
# Instances of schemes

`Ty.bind` replaces the variables of a type by the values of a function, and `Subst.apply` is the
case of a finite map.  A scheme has as instances the types got from its body by a function that
leaves the free variables alone (`Scheme.HasInstance`).  `Scheme.InstanceUnder f` are the instances
of a scheme whose free variables are first sent through `f`; stated this way, no renaming is needed
to keep the quantified variables apart from what `f` brings in.
-/

namespace LetPoly

namespace Ty

/-- Replaces every variable `v` of a type by `f v`. -/
def bind (f : Nat → Ty) : Ty → Ty
  | var v => f v
  | con c => con c
  | arrow a b => arrow (a.bind f) (b.bind f)

@[simp]
theorem bind_var (t : Ty) : t.bind var = t := by
  induction t with
  | var v => rfl
  | con c => rfl
  | arrow a b iha ihb => rw [bind, iha, ihb]

theorem bind_bind (f g : Nat → Ty) (t : Ty) : (t.bind f).bind g = t.bind fun v => (f v).bind g := by
  induction t with
  | var v => rfl
  | con c => rfl
  | arrow a b iha ihb => simp only [bind, iha, ihb]

theorem bind_congr {f g : Nat → Ty} {t : Ty} (h : ∀ v ∈ t.vars, f v = g v) :
    t.bind f = t.bind g := by
  induction t with
  | var v => exact h v (by simp [vars])
  | con c => rfl
  | arrow a b iha ihb =>
    rw [bind, bind, iha fun v hv => h v (by simp [vars, hv]),
      ihb fun v hv => h v (by simp [vars, hv])]

-- Functions that send a type to the same type agree on its variables.
theorem eq_of_bind_eq {f g : Nat → Ty} {t : Ty} (h : t.bind f = t.bind g) :
    ∀ v ∈ t.vars, f v = g v := by
  induction t with
  | var v =>
    intro w hw
    rw [vars, List.mem_singleton] at hw
    exact hw ▸ h
  | con c => simp [vars]
  | arrow a b iha ihb =>
    intro v hv
    rw [bind, bind, arrow.injEq] at h
    rcases List.mem_append.1 hv with hv | hv
    · exact iha h.1 v hv
    · exact ihb h.2 v hv

theorem bind_eq_self {f : Nat → Ty} {t : Ty} (h : ∀ v ∈ t.vars, f v = var v) : t.bind f = t := by
  rw [bind_congr h, bind_var]

theorem mem_vars_bind {f : Nat → Ty} {t : Ty} {w : Nat} :
    w ∈ (t.bind f).vars ↔ ∃ v ∈ t.vars, w ∈ (f v).vars := by
  induction t with
  | var v => simp [bind, vars]
  | con c => simp [bind, vars]
  | arrow a b iha ihb =>
    simp only [bind, vars, List.mem_append, iha, ihb]
    constructor
    · rintro (⟨v, hv, hw⟩ | ⟨v, hv, hw⟩)
      · exact ⟨v, .inl hv, hw⟩
      · exact ⟨v, .inr hv, hw⟩
    · rintro ⟨v, hv | hv, hw⟩
      · exact .inl ⟨v, hv, hw⟩
      · exact .inr ⟨v, hv, hw⟩

end Ty

namespace Subst

/-- What a substitution puts in the place of a variable. -/
def image (s : Subst) (v : Nat) : Ty := (s.get? v).getD (.var v)

theorem apply_eq_bind (s : Subst) (t : Ty) : s.apply t = t.bind s.image := by
  induction t with
  | var v => rfl
  | con c => rfl
  | arrow a b iha ihb => rw [apply, Ty.bind, iha, ihb]

@[simp]
theorem apply_var (s : Subst) (v : Nat) : s.apply (.var v) = s.image v := rfl

@[simp]
theorem apply_arrow (s : Subst) (a b : Ty) :
    s.apply (.arrow a b) = .arrow (s.apply a) (s.apply b) := rfl

theorem image_compose (a b : Subst) (v : Nat) : (a.compose b).image v = a.apply (b.image v) :=
  apply_compose a b (.var v)

theorem image_without (s : Subst) (vs : List Nat) (v : Nat) :
    (s.without vs).image v = if v ∈ vs then .var v else s.image v := by
  unfold image without
  rw [SortedMap.get?_filterKeys]
  by_cases hv : v ∈ vs <;> simp [hv]

end Subst

/-! ## Free variables -/

namespace Scheme

theorem mem_freeVars {σ : Scheme} {v : Nat} :
    v ∈ σ.freeVars ↔ v ∈ σ.body.vars ∧ v ∉ σ.vars := by
  simp [freeVars]

@[simp]
theorem freeVars_mono (t : Ty) : (mono t).freeVars = t.vars := by
  simp [freeVars, mono]

/-- A scheme without free variables. -/
def Closed (σ : Scheme) : Prop := σ.freeVars = []

instance (σ : Scheme) : Decidable σ.Closed := inferInstanceAs (Decidable (σ.freeVars = []))

theorem closed_iff {σ : Scheme} : σ.Closed ↔ ∀ v, v ∉ σ.freeVars :=
  List.eq_nil_iff_forall_not_mem

theorem body_apply (s : Subst) (σ : Scheme) :
    (σ.apply s).body = σ.body.bind fun v => if v ∈ σ.vars then .var v else s.image v := by
  rw [apply, Subst.apply_eq_bind]
  exact Ty.bind_congr fun v _ => Subst.image_without s σ.vars v

@[simp]
theorem vars_apply (s : Subst) (σ : Scheme) : (σ.apply s).vars = σ.vars := rfl

theorem mem_freeVars_apply {s : Subst} {σ : Scheme} {w : Nat} :
    w ∈ (σ.apply s).freeVars ↔ w ∉ σ.vars ∧ ∃ v ∈ σ.freeVars, w ∈ (s.image v).vars := by
  rw [mem_freeVars, body_apply, Ty.mem_vars_bind, vars_apply]
  constructor
  · rintro ⟨⟨v, hv, hw⟩, hnot⟩
    by_cases hvs : v ∈ σ.vars
    · -- a quantified variable is left in its place, where it is not free
      rw [if_pos hvs, Ty.vars, List.mem_singleton] at hw
      exact absurd (hw ▸ hvs) hnot
    · rw [if_neg hvs] at hw
      exact ⟨hnot, v, mem_freeVars.2 ⟨hv, hvs⟩, hw⟩
  · rintro ⟨hnot, v, hv, hw⟩
    obtain ⟨hv, hvs⟩ := mem_freeVars.1 hv
    exact ⟨⟨v, hv, by rwa [if_neg hvs]⟩, hnot⟩

-- Only the free variables matter to a substitution.
theorem apply_congr {s r : Subst} {σ : Scheme} (h : ∀ v ∈ σ.freeVars, s.image v = r.image v) :
    σ.apply s = σ.apply r := by
  have hbody : (σ.apply s).body = (σ.apply r).body := by
    rw [body_apply, body_apply]
    refine Ty.bind_congr fun v hv => ?_
    by_cases hvs : v ∈ σ.vars
    · rw [if_pos hvs, if_pos hvs]
    · rw [if_neg hvs, if_neg hvs, h v (mem_freeVars.2 ⟨hv, hvs⟩)]
  exact congrArg (Scheme.mk σ.vars) hbody

@[simp]
theorem apply_empty (σ : Scheme) : σ.apply ∅ = σ := by
  have hbody : (σ.apply ∅).body = σ.body := by
    rw [body_apply]
    exact Ty.bind_eq_self fun v _ => ite_self _
  exact congrArg (Scheme.mk σ.vars) hbody

@[simp]
theorem apply_mono (s : Subst) (t : Ty) : (mono t).apply s = mono (s.apply t) := by
  have hbody : ((mono t).apply s).body = s.apply t := by
    rw [body_apply, Subst.apply_eq_bind]
    simp [mono]
  exact congrArg (Scheme.mk []) hbody

theorem Closed.apply_eq {σ : Scheme} (h : σ.Closed) (s : Subst) : σ.apply s = σ := by
  rw [apply_congr fun v hv => absurd hv (closed_iff.1 h v), apply_empty]

end Scheme

namespace Context

theorem mem_freeVars {Γ : Context} {v : Nat} :
    v ∈ Γ.freeVars ↔ ∃ x σ, Γ.get? x = some σ ∧ v ∈ σ.freeVars := by
  unfold freeVars
  rw [List.mem_flatMap]
  constructor
  · rintro ⟨σ, hσ, hv⟩
    obtain ⟨x, hx⟩ := SortedMap.mem_values_iff.1 hσ
    exact ⟨x, σ, hx, hv⟩
  · rintro ⟨x, σ, hx, hv⟩
    exact ⟨σ, SortedMap.mem_values_iff.2 ⟨x, hx⟩, hv⟩

theorem get?_apply (s : Subst) (Γ : Context) (x : String) :
    (Γ.apply s).get? x = (Γ.get? x).map (Scheme.apply s) :=
  SortedMap.get?_mapVal _ _ _

theorem get?_apply_some {s : Subst} {Γ : Context} {x : String} {σ : Scheme} :
    (Γ.apply s).get? x = some σ ↔ ∃ σ', Γ.get? x = some σ' ∧ σ'.apply s = σ := by
  rw [get?_apply, Option.map_eq_some_iff]

-- Every free variable of a context lies below its next unused one.
theorem lt_nextVar {Γ : Context} {v : Nat} (h : v ∈ Γ.freeVars) : v < Γ.nextVar := by
  unfold nextVar
  generalize Γ.freeVars = l at h ⊢
  induction l with
  | nil => cases h
  | cons w rest ih =>
    rw [List.foldr_cons]
    rcases List.mem_cons.1 h with rfl | h
    · omega
    · have := ih h
      omega

theorem nextVar_le {Γ : Context} {n : Nat} (h : ∀ v ∈ Γ.freeVars, v < n) : Γ.nextVar ≤ n := by
  unfold nextVar
  generalize Γ.freeVars = l at h ⊢
  induction l with
  | nil => exact Nat.zero_le n
  | cons w rest ih =>
    rw [List.foldr_cons]
    exact Nat.max_le.2 ⟨h w List.mem_cons_self, ih fun v hv => h v (List.mem_cons_of_mem w hv)⟩

theorem nextVar_congr {Γ Δ : Context} (h : ∀ v, v ∈ Γ.freeVars ↔ v ∈ Δ.freeVars) :
    Γ.nextVar = Δ.nextVar := by
  refine Nat.le_antisymm (nextVar_le fun v hv => ?_) (nextVar_le fun v hv => ?_)
  · exact lt_nextVar ((h v).1 hv)
  · exact lt_nextVar ((h v).2 hv)

@[simp]
theorem apply_empty (Γ : Context) : Γ.apply ∅ = Γ := by
  refine SortedMap.ext_get? fun x => ?_
  rw [get?_apply]
  cases Γ.get? x with
  | none => rfl
  | some σ => exact congrArg some σ.apply_empty

theorem apply_insert (s : Subst) (Γ : Context) (x : String) (σ : Scheme) :
    Context.apply s (Γ.insert x σ) = (Γ.apply s).insert x (σ.apply s) :=
  SortedMap.mapVal_insert _ _ _ _

/-- A context of schemes without free variables. -/
def Closed (Γ : Context) : Prop := ∀ x σ, Γ.get? x = some σ → σ.Closed

theorem closed_empty : Context.Closed ∅ := fun _ _ h => by cases h

theorem Closed.insert {Γ : Context} (h : Γ.Closed) {σ : Scheme} (hσ : σ.Closed) (x : String) :
    Context.Closed (Γ.insert x σ) := by
  intro y τ hy
  rcases SortedMap.get?_insert_eq_some hy with ⟨-, rfl⟩ | ⟨-, hy⟩
  · exact hσ
  · exact h y τ hy

theorem Closed.notMem_freeVars {Γ : Context} (h : Γ.Closed) (v : Nat) : v ∉ Γ.freeVars := by
  intro hv
  obtain ⟨x, σ, hx, hv⟩ := mem_freeVars.1 hv
  exact Scheme.closed_iff.1 (h x σ hx) v hv

theorem Closed.apply_eq {Γ : Context} (h : Γ.Closed) (s : Subst) : Γ.apply s = Γ := by
  refine SortedMap.ext_get? fun x => ?_
  rw [get?_apply]
  cases hx : Γ.get? x with
  | none => rfl
  | some σ => exact congrArg some ((h x σ hx).apply_eq s)

end Context

/-! ## Instances -/

namespace Scheme

/-- `t` is the body under a function that agrees with `f` on the free variables. -/
def InstanceUnder (f : Nat → Ty) (σ : Scheme) (t : Ty) : Prop :=
  ∃ g : Nat → Ty, (∀ v ∈ σ.freeVars, g v = f v) ∧ σ.body.bind g = t

/-- `t` is the body with types in the places of the quantified variables. -/
def HasInstance (σ : Scheme) (t : Ty) : Prop := σ.InstanceUnder .var t

theorem InstanceUnder.congr {f f' : Nat → Ty} {σ : Scheme} {t : Ty} (h : σ.InstanceUnder f t)
    (hf : ∀ v ∈ σ.freeVars, f v = f' v) : σ.InstanceUnder f' t := by
  obtain ⟨g, hg, ht⟩ := h
  exact ⟨g, fun v hv => (hg v hv).trans (hf v hv), ht⟩

theorem instanceUnder_mono {f : Nat → Ty} {t u : Ty} :
    (mono t).InstanceUnder f u ↔ t.bind f = u := by
  constructor
  · rintro ⟨g, hg, rfl⟩
    exact (Ty.bind_congr fun v hv => hg v (by rwa [freeVars_mono])).symm
  · rintro rfl
    exact ⟨f, fun _ _ => rfl, rfl⟩

theorem hasInstance_mono {t u : Ty} : (mono t).HasInstance u ↔ t = u := by
  rw [HasInstance, instanceUnder_mono, Ty.bind_var]

-- Sending an instance through `f` gives an instance under `f`.
theorem HasInstance.bind {σ : Scheme} {t : Ty} (h : σ.HasInstance t) (f : Nat → Ty) :
    σ.InstanceUnder f (t.bind f) := by
  obtain ⟨g, hg, rfl⟩ := h
  refine ⟨fun v => (g v).bind f, fun v hv => ?_, (Ty.bind_bind g f _).symm⟩
  show (g v).bind f = f v
  rw [hg v hv]
  rfl

theorem Closed.hasInstance {σ : Scheme} (hσ : σ.Closed) {f : Nat → Ty} {t : Ty}
    (h : σ.InstanceUnder f t) : σ.HasInstance t :=
  h.congr fun v hv => absurd hv (closed_iff.1 hσ v)

theorem Closed.hasInstance_bind {σ : Scheme} (h : σ.Closed) (g : Nat → Ty) :
    σ.HasInstance (σ.body.bind g) :=
  ⟨g, fun v hv => absurd hv (closed_iff.1 h v), rfl⟩

/-- No quantified variable stands in what `s` puts in the place of a free one. -/
def NoCapture (s : Subst) (σ : Scheme) : Prop :=
  ∀ v ∈ σ.freeVars, ∀ w ∈ (s.image v).vars, w ∉ σ.vars

-- Without capture, the instances under `s` and then `f` are those of the substituted scheme.
theorem instanceUnder_apply {s : Subst} {σ : Scheme} (hs : σ.NoCapture s) {f : Nat → Ty} {t : Ty} :
    (σ.apply s).InstanceUnder f t ↔ σ.InstanceUnder (fun v => (s.image v).bind f) t := by
  constructor
  · rintro ⟨g, hg, rfl⟩
    -- a free variable takes both steps, `s` and then `g`
    refine ⟨fun v => if v ∈ σ.vars then g v else (s.image v).bind g, fun v hv => ?_, ?_⟩
    · refine (if_neg (mem_freeVars.1 hv).2).trans ?_
      exact Ty.bind_congr fun w hw => hg w (mem_freeVars_apply.2 ⟨hs v hv w hw, v, hv, hw⟩)
    · rw [body_apply, Ty.bind_bind]
      refine Ty.bind_congr fun v _ => ?_
      by_cases hvs : v ∈ σ.vars
      · rw [if_pos hvs, if_pos hvs]
        rfl
      · rw [if_neg hvs, if_neg hvs]
  · rintro ⟨g, hg, rfl⟩
    -- quantified variables go where `g` sends them, all others where `f` does
    refine ⟨fun w => if w ∈ σ.vars then g w else f w, fun w hw => ?_, ?_⟩
    · exact if_neg (mem_freeVars.1 hw).2
    · rw [body_apply, Ty.bind_bind]
      refine Ty.bind_congr fun v hv => ?_
      by_cases hvs : v ∈ σ.vars
      · rw [if_pos hvs]
        exact if_pos hvs
      · have hfree : v ∈ σ.freeVars := mem_freeVars.2 ⟨hv, hvs⟩
        rw [if_neg hvs, hg v hfree]
        exact Ty.bind_congr fun w hw => if_neg (hs v hfree w hw)

/-! ## Generalization and instantiation -/

theorem mem_vars_generalize {Γ : Context} {t : Ty} {v : Nat} :
    v ∈ (generalize Γ t).vars ↔ v ∈ t.vars ∧ v ∉ Γ.freeVars := by
  unfold generalize
  rw [SortedMap.mem_increasing_iff]
  simp

theorem mem_freeVars_generalize {Γ : Context} {t : Ty} {v : Nat} :
    v ∈ (generalize Γ t).freeVars ↔ v ∈ t.vars ∧ v ∈ Γ.freeVars := by
  rw [mem_freeVars, mem_vars_generalize]
  show v ∈ t.vars ∧ _ ↔ _
  constructor
  · rintro ⟨hv, hnot⟩
    exact ⟨hv, Decidable.byContradiction fun hc => hnot ⟨hv, hc⟩⟩
  · rintro ⟨hv, hfree⟩
    exact ⟨hv, fun hc => hc.2 hfree⟩

-- Only the free variables that stand in the type matter to generalization.
theorem generalize_congr {Γ Δ : Context} {t : Ty}
    (h : ∀ v ∈ t.vars, v ∈ Γ.freeVars ↔ v ∈ Δ.freeVars) : generalize Γ t = generalize Δ t := by
  have hfilter : t.vars.filter (fun v => !Γ.freeVars.contains v) =
      t.vars.filter fun v => !Δ.freeVars.contains v :=
    List.filter_congr fun v hv => by simp [h v hv]
  show Scheme.mk (SortedMap.increasing _) t = Scheme.mk (SortedMap.increasing _) t
  rw [hfilter]

theorem image_instantiation_of_notMem {σ : Scheme} {n v : Nat} (hv : v ∉ σ.vars) :
    (σ.instantiation n).image v = .var v := by
  unfold Subst.image instantiation
  rw [SortedMap.get?_ofList_eq_none]
  · rfl
  · intro e he hc
    obtain ⟨p, hp, rfl⟩ := List.mem_map.1 he
    exact hv (hc ▸ List.fst_mem_of_mem_zipIdx hp)

-- A quantified variable becomes the new variable of one of its places in the list.
theorem get?_instantiation_of_mem {σ : Scheme} {n v : Nat} (hv : v ∈ σ.vars) :
    ∃ i, σ.vars[i]? = some v ∧ (σ.instantiation n).get? v = some (.var (n + i)) := by
  obtain ⟨i, hi⟩ := List.mem_iff_getElem?.1 hv
  have hmem : (v, Ty.var (n + i)) ∈ (σ.vars.zipIdx n).map fun p => (p.1, Ty.var p.2) :=
    List.mem_map.2 ⟨(v, n + i), List.mk_add_mem_zipIdx_iff_getElem?.2 hi, rfl⟩
  -- a variable that is listed twice has the place that the map was built with last
  obtain ⟨t, ht⟩ := SortedMap.exists_get?_ofList hmem
  obtain ⟨⟨w, k⟩, hp, heq⟩ := List.mem_map.1 (SortedMap.mem_of_get?_ofList ht)
  obtain ⟨rfl, rfl⟩ := Prod.mk.inj heq
  obtain ⟨hle, hk⟩ := List.mk_mem_zipIdx_iff_le_and_getElem?_sub.1 hp
  refine ⟨k - n, hk, ?_⟩
  rw [show n + (k - n) = k by omega]
  exact ht

theorem image_instantiation_of_mem {σ : Scheme} {n v : Nat} (hv : v ∈ σ.vars) :
    ∃ i, σ.vars[i]? = some v ∧ (σ.instantiation n).image v = .var (n + i) := by
  obtain ⟨i, hi, hget⟩ := get?_instantiation_of_mem (n := n) hv
  exact ⟨i, hi, by rw [Subst.image, hget]; rfl⟩

theorem hasInstance_instantiate (σ : Scheme) (n : Nat) : σ.HasInstance (σ.instantiate n) :=
  ⟨(σ.instantiation n).image, fun _ hv => image_instantiation_of_notMem (mem_freeVars.1 hv).2,
    (Subst.apply_eq_bind _ _).symm⟩

theorem mem_vars_instantiate {σ : Scheme} {n w : Nat} (hw : w ∈ (σ.instantiate n).vars) :
    w ∈ σ.freeVars ∨ n ≤ w ∧ w < n + σ.vars.length := by
  rw [instantiate, Subst.apply_eq_bind, Ty.mem_vars_bind] at hw
  obtain ⟨v, hv, hw⟩ := hw
  by_cases hvs : v ∈ σ.vars
  · obtain ⟨i, hi, himage⟩ := image_instantiation_of_mem (n := n) hvs
    rw [himage, Ty.vars, List.mem_singleton] at hw
    have hlt : i < σ.vars.length := (List.getElem?_eq_some_iff.1 hi).1
    exact .inr (by omega)
  · rw [image_instantiation_of_notMem hvs, Ty.vars, List.mem_singleton] at hw
    exact .inl (hw ▸ mem_freeVars.2 ⟨hv, hvs⟩)

-- An instance of a scheme is an instance of its copy with new variables.
theorem InstanceUnder.of_instantiate {f : Nat → Ty} {σ : Scheme} {t : Ty} {n : Nat}
    (h : σ.InstanceUnder f t) (hn : ∀ v ∈ σ.freeVars, v < n) :
    ∃ f' : Nat → Ty, (∀ v, v < n → f' v = f v) ∧ (σ.instantiate n).bind f' = t := by
  obtain ⟨g, hg, rfl⟩ := h
  -- from `n` on, the copy of the variable at place `i` goes where `g` sends that variable
  refine ⟨fun w => if w < n then f w else ((σ.vars[w - n]?).map g).getD (.var w),
    fun v hv => if_pos hv, ?_⟩
  rw [instantiate, Subst.apply_eq_bind, Ty.bind_bind]
  refine Ty.bind_congr fun v hv => ?_
  by_cases hvs : v ∈ σ.vars
  · obtain ⟨i, hi, himage⟩ := image_instantiation_of_mem (n := n) hvs
    rw [himage, Ty.bind, if_neg (by omega), show n + i - n = i by omega, hi]
    rfl
  · have hfree : v ∈ σ.freeVars := mem_freeVars.2 ⟨hv, hvs⟩
    rw [image_instantiation_of_notMem hvs, Ty.bind, if_pos (hn v hfree), hg v hfree]

end Scheme

end LetPoly
