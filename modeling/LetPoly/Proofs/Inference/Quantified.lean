import Mathlib
import LetPoly.Proofs.Inference.Tidy

/-!
# Inference and the ids of quantified variables

Two contexts whose schemes differ in the ids of quantified variables only have the same runs, as
long as both are apart from what the runs draw.  Instances of the schemes are then the same types,
and since nothing is captured, the schemes still differ in quantified ids only when a substitution
has been applied.

A quantified id that is new to the run may capture a variable, so in general the ids do matter.
-/

namespace LetPoly

/-! ## Schemes -/

namespace Scheme

/-- The scheme with its quantified variables renamed by `f`. -/
def requantify (f : Nat → Nat) (σ : Scheme) : Scheme :=
  ⟨σ.vars.map f, σ.body.bind fun v => .var (if v ∈ σ.vars then f v else v)⟩

@[simp]
theorem vars_requantify (f : Nat → Nat) (σ : Scheme) : (σ.requantify f).vars = σ.vars.map f := rfl

theorem body_requantify (f : Nat → Nat) (σ : Scheme) : (σ.requantify f).body =
    σ.body.bind fun v => .var (if v ∈ σ.vars then f v else v) := rfl

/-- `f` keeps the quantified variables apart from each other and from the free ones. -/
structure Separates (f : Nat → Nat) (σ : Scheme) : Prop where
  inj : ∀ a ∈ σ.vars, ∀ b ∈ σ.vars, f a = f b → a = b
  notMem : ∀ a ∈ σ.vars, f a ∉ σ.freeVars

/-- The two schemes differ in the ids of quantified variables only. -/
def Requantified (σ σ' : Scheme) : Prop := ∃ f, Separates f σ ∧ σ' = σ.requantify f

namespace Separates

variable {f : Nat → Nat} {σ : Scheme} {v : Nat}

theorem notMem_map (h : Separates f σ) (hv : v ∈ σ.freeVars) : v ∉ σ.vars.map f := by
  intro hc
  obtain ⟨a, ha, rfl⟩ := List.mem_map.1 hc
  exact h.notMem a ha hv

theorem mem_freeVars (h : Separates f σ) : v ∈ (σ.requantify f).freeVars ↔ v ∈ σ.freeVars := by
  rw [Scheme.mem_freeVars, body_requantify, vars_requantify, Ty.mem_vars_bind]
  constructor
  · rintro ⟨⟨w, hw, hv⟩, hnot⟩
    rw [Ty.vars, List.mem_singleton] at hv
    by_cases hws : w ∈ σ.vars
    · rw [if_pos hws] at hv
      exact absurd (List.mem_map.2 ⟨w, hws, hv.symm⟩) hnot
    · rw [if_neg hws] at hv
      exact hv ▸ Scheme.mem_freeVars.2 ⟨hw, hws⟩
  · intro hv
    obtain ⟨hbody, hvs⟩ := Scheme.mem_freeVars.1 hv
    exact ⟨⟨v, hbody, by rw [if_neg hvs]; exact List.mem_singleton.2 rfl⟩, h.notMem_map hv⟩

-- The new ids stand in the places of the old ones.
theorem get?_instantiation (h : Separates f σ) (n : Nat) (hv : v ∈ σ.vars) :
    ((σ.requantify f).instantiation n).get? (f v) = (σ.instantiation n).get? v := by
  have hlist : ((σ.vars.map f).zipIdx n).map (fun p => (p.1, Ty.var p.2)) =
      ((σ.vars.zipIdx n).map fun p => (p.1, Ty.var p.2)).map fun e => (f e.1, e.2) := by
    rw [List.zipIdx_map, List.map_map, List.map_map]
    rfl
  unfold instantiation
  rw [vars_requantify, hlist]
  refine SortedMap.get?_ofList_mapKey fun e he heq => ?_
  obtain ⟨p, hp, rfl⟩ := List.mem_map.1 he
  exact h.inj _ (List.fst_mem_of_mem_zipIdx hp) v hv heq

theorem instantiate_eq (h : Separates f σ) (n : Nat) :
    (σ.requantify f).instantiate n = σ.instantiate n := by
  rw [instantiate, instantiate, Subst.apply_eq_bind, Subst.apply_eq_bind, body_requantify,
    Ty.bind_bind]
  refine Ty.bind_congr fun v hv => ?_
  rw [Ty.bind]
  by_cases hvs : v ∈ σ.vars
  · obtain ⟨i, -, hi⟩ := get?_instantiation_of_mem (n := n) hvs
    rw [if_pos hvs, Subst.image, Subst.image, h.get?_instantiation n hvs, hi]
    rfl
  · have hnot := h.notMem_map (Scheme.mem_freeVars.2 ⟨hv, hvs⟩)
    rw [if_neg hvs, image_instantiation_of_notMem hvs, image_instantiation_of_notMem hnot]

-- The way back: what `f` made of a quantified variable is turned into it again.
theorem inverse (h : Separates f σ) {g : Nat → Nat} (hg : ∀ a ∈ σ.vars, g (f a) = a) :
    Separates g (σ.requantify f) ∧ σ = (σ.requantify f).requantify g := by
  refine ⟨⟨?_, ?_⟩, ?_⟩
  · intro a' ha' b' hb' hab
    obtain ⟨a, ha, rfl⟩ := List.mem_map.1 ha'
    obtain ⟨b, hb, rfl⟩ := List.mem_map.1 hb'
    rw [hg a ha, hg b hb] at hab
    rw [hab]
  · intro a' ha' hfree
    obtain ⟨a, ha, rfl⟩ := List.mem_map.1 ha'
    rw [hg a ha, h.mem_freeVars] at hfree
    exact (Scheme.mem_freeVars.1 hfree).2 ha
  · have hvars : (σ.vars.map f).map g = σ.vars := by
      rw [List.map_map]
      exact (List.map_congr_left hg).trans (List.map_id σ.vars)
    have hbody : ((σ.requantify f).requantify g).body = σ.body := by
      rw [body_requantify, body_requantify, vars_requantify, Ty.bind_bind]
      refine Ty.bind_eq_self fun v hv => ?_
      rw [Ty.bind]
      by_cases hvs : v ∈ σ.vars
      · rw [if_pos hvs, if_pos (List.mem_map.2 ⟨v, hvs, rfl⟩), hg v hvs]
      · rw [if_neg hvs, if_neg (h.notMem_map (Scheme.mem_freeVars.2 ⟨hv, hvs⟩))]
    show σ = ⟨(σ.vars.map f).map g, ((σ.requantify f).requantify g).body⟩
    rw [hvars, hbody]

-- A substitution that is captured in neither scheme does the same to both.
theorem apply {s : Subst} (h : Separates f σ) (hs : σ.NoCapture s)
    (hs' : (σ.requantify f).NoCapture s) :
    Separates f (σ.apply s) ∧ (σ.requantify f).apply s = (σ.apply s).requantify f := by
  refine ⟨⟨h.inj, fun a ha hfree => ?_⟩, ?_⟩
  · obtain ⟨-, v, hv, hmem⟩ := Scheme.mem_freeVars_apply.1 hfree
    exact hs' v (h.mem_freeVars.2 hv) (f a) hmem (List.mem_map.2 ⟨a, ha, rfl⟩)
  · have hbody : ((σ.requantify f).apply s).body = ((σ.apply s).requantify f).body := by
      rw [body_apply, body_requantify, body_requantify, body_apply, vars_requantify, vars_apply,
        Ty.bind_bind, Ty.bind_bind]
      refine Ty.bind_congr fun v hv => ?_
      rw [Ty.bind]
      by_cases hvs : v ∈ σ.vars
      · rw [if_pos hvs, if_pos hvs, Ty.bind, if_pos hvs, if_pos (List.mem_map.2 ⟨v, hvs, rfl⟩)]
      · have hfree : v ∈ σ.freeVars := Scheme.mem_freeVars.2 ⟨hv, hvs⟩
        rw [if_neg hvs, if_neg hvs, if_neg (h.notMem_map hfree)]
        exact (Ty.bind_eq_self fun w hw => by rw [if_neg (hs v hfree w hw)]).symm
    exact congrArg (Scheme.mk (σ.vars.map f)) hbody

end Separates

namespace Requantified

variable {σ σ' : Scheme}

theorem refl (σ : Scheme) : σ.Requantified σ := by
  refine ⟨id, ⟨fun _ _ _ _ h => h, fun a ha hfree => (Scheme.mem_freeVars.1 hfree).2 ha⟩, ?_⟩
  have hbody : (σ.requantify id).body = σ.body :=
    Ty.bind_eq_self fun v _ => congrArg Ty.var (ite_self v)
  show σ = ⟨σ.vars.map id, (σ.requantify id).body⟩
  rw [List.map_id, hbody]

theorem symm (h : σ.Requantified σ') : σ'.Requantified σ := by
  obtain ⟨f, hf, rfl⟩ := h
  have hinj : Set.InjOn f {a | a ∈ σ.vars} := fun a ha b hb => hf.inj a ha b hb
  exact ⟨_, hf.inverse hinj.leftInvOn_invFunOn⟩

theorem mem_freeVars (h : σ.Requantified σ') {v : Nat} : v ∈ σ'.freeVars ↔ v ∈ σ.freeVars := by
  obtain ⟨f, hf, rfl⟩ := h
  exact hf.mem_freeVars

theorem instantiate_eq (h : σ.Requantified σ') (n : Nat) :
    σ'.instantiate n = σ.instantiate n ∧ σ'.vars.length = σ.vars.length := by
  obtain ⟨f, hf, rfl⟩ := h
  exact ⟨hf.instantiate_eq n, List.length_map f⟩

theorem apply {s : Subst} (h : σ.Requantified σ') (hs : σ.NoCapture s) (hs' : σ'.NoCapture s) :
    (σ.apply s).Requantified (σ'.apply s) := by
  obtain ⟨f, hf, rfl⟩ := h
  exact ⟨f, hf.apply hs hs'⟩

end Requantified

end Scheme

/-! ## Contexts -/

/-- The contexts have the same names, and their schemes differ in the ids of quantified variables
only. -/
def Context.Requantified (Γ Γ' : Context) : Prop :=
  ∀ x, Option.Rel Scheme.Requantified (Γ.get? x) (Γ'.get? x)

namespace Context.Requantified

variable {Γ Γ' : Context}

theorem get?_some (h : Γ.Requantified Γ') {x : String} {σ : Scheme} (hx : Γ.get? x = some σ) :
    ∃ σ', Γ'.get? x = some σ' ∧ σ.Requantified σ' := by
  rcases optionRel_cases (h x) with ⟨hnone, -⟩ | ⟨τ, σ', hτ, hσ', hrel⟩
  · exact absurd (hx.symm.trans hnone) (by simp)
  · cases hx.symm.trans hτ
    exact ⟨σ', hσ', hrel⟩

theorem symm (h : Γ.Requantified Γ') : Γ'.Requantified Γ := by
  intro x
  rcases optionRel_cases (h x) with ⟨hx, hx'⟩ | ⟨σ, σ', hx, hx', hσ⟩
  · rw [hx, hx']
    exact .none
  · rw [hx, hx']
    exact .some hσ.symm

theorem mem_freeVars_of_mem (h : Γ.Requantified Γ') {v : Nat} (hv : v ∈ Γ.freeVars) :
    v ∈ Γ'.freeVars := by
  obtain ⟨x, σ, hx, hv⟩ := Context.mem_freeVars.1 hv
  obtain ⟨σ', hx', hσ⟩ := h.get?_some hx
  exact Context.mem_freeVars.2 ⟨x, σ', hx', hσ.mem_freeVars.2 hv⟩

theorem mem_freeVars (h : Γ.Requantified Γ') {v : Nat} : v ∈ Γ.freeVars ↔ v ∈ Γ'.freeVars :=
  ⟨h.mem_freeVars_of_mem, h.symm.mem_freeVars_of_mem⟩

theorem nextVar_eq (h : Γ.Requantified Γ') : Γ.nextVar = Γ'.nextVar :=
  nextVar_congr fun _ => h.mem_freeVars

theorem generalize_eq (h : Γ.Requantified Γ') (t : Ty) :
    Scheme.generalize Γ t = .generalize Γ' t :=
  Scheme.generalize_congr fun _ _ => h.mem_freeVars

theorem insert (h : Γ.Requantified Γ') (x : String) {σ σ' : Scheme} (hσ : σ.Requantified σ') :
    Context.Requantified (Γ.insert x σ) (Γ'.insert x σ') := by
  intro y
  by_cases hy : y = x
  · subst hy
    rw [SortedMap.get?_insert_self, SortedMap.get?_insert_self]
    exact .some hσ
  · rw [SortedMap.get?_insert_of_ne _ _ hy, SortedMap.get?_insert_of_ne _ _ hy]
    exact h y

theorem letScope (h : Γ.Requantified Γ') (keep : Bool) (x : String) :
    (letScope keep Γ x).Requantified (letScope keep Γ' x) := by
  unfold LetPoly.letScope
  split
  · exact h
  · intro y
    by_cases hy : y = x
    · subst hy
      rw [SortedMap.get?_erase_self, SortedMap.get?_erase_self]
      exact .none
    · rw [SortedMap.get?_erase_of_ne _ hy, SortedMap.get?_erase_of_ne _ hy]
      exact h y

theorem apply {s : Subst} (h : Γ.Requantified Γ')
    (hs : ∀ x σ, Γ.get? x = some σ → σ.NoCapture s)
    (hs' : ∀ x σ, Γ'.get? x = some σ → σ.NoCapture s) :
    (Γ.apply s).Requantified (Γ'.apply s) := by
  intro x
  rw [Context.get?_apply, Context.get?_apply]
  rcases optionRel_cases (h x) with ⟨hx, hx'⟩ | ⟨σ, σ', hx, hx', hσ⟩
  · rw [hx, hx']
    exact .none
  · rw [hx, hx']
    exact .some (hσ.apply (hs x σ hx) (hs' x σ' hx'))

-- One run that is confined in both contexts.
theorem apply_of_apart {names names' : List String} {n n₁ N : Nat} {s : Subst}
    (h : Γ.Requantified Γ') (hΓ : Γ.Apart n N) (hΓ' : Γ'.Apart n N)
    (hs : s.Within (Zone Γ names n n₁)) (hs' : s.Within (Zone Γ' names' n n₁)) (hN : n₁ ≤ N) :
    (Γ.apply s).Requantified (Γ'.apply s) :=
  h.apply (fun _ _ => hΓ.noCapture hs hN) fun _ _ => hΓ'.noCapture hs' hN

theorem letScope_apply_of_apart {names names' : List String} {n n₁ N : Nat} {s : Subst}
    (h : Γ.Requantified Γ') (hΓ : Γ.Apart n N) (hΓ' : Γ'.Apart n N)
    (hs : s.Within (Zone Γ names n n₁)) (hs' : s.Within (Zone Γ' names' n n₁)) (hN : n₁ ≤ N)
    (keep : Bool) (x : String) : Context.Requantified (Context.apply s (LetPoly.letScope keep Γ x))
      (Context.apply s (LetPoly.letScope keep Γ' x)) :=
  (h.letScope keep x).apply (fun _ _ hy => hΓ.noCapture hs hN (get?_of_get?_letScope hy))
    fun _ _ hy => hΓ'.noCapture hs' hN (get?_of_get?_letScope hy)

end Context.Requantified

/-! ## The two runs -/

/-- In contexts that are apart from the run, quantified ids make no difference. -/
theorem Infers.requantify {keep : Bool} {Γ : Context} {n n' N : Nat} {e : Term} {t : Ty} {s : Subst}
    (h : Infers keep Γ n e t s n') : ∀ {Γ' : Context}, Γ.Requantified Γ' → Γ.Apart n N →
      Γ'.Apart n N → n' ≤ N → Infers keep Γ' n e t s n' := by
  induction h with
  | num => exact fun _ _ _ _ => .num
  | bool => exact fun _ _ _ _ => .bool
  | @var Γ n x σ hx =>
    intro Γ' hrel _ _ _
    obtain ⟨σ', hx', hσ⟩ := hrel.get?_some hx
    obtain ⟨hinst, hlength⟩ := hσ.instantiate_eq n
    rw [← hinst, ← hlength]
    exact .var hx'
  | ite hc hu ha hb hs hu' ihc iha ihb =>
    intro Γ' hrel hΓ hΓ' hN
    have hcs := hc.spec hΓ.below
    obtain ⟨hwithin, hidem⟩ := hcs.unify_bool hu
    have has := ha.spec (hΓ.below.apply hwithin hcs.le)
    have hcas := RunSpec.compose hΓ.below hwithin hidem hcs.le has
    have hbs := hb.spec (hΓ.below.apply hcas.within hcas.le)
    have hN₃ := Nat.le_trans hbs.le hN
    have hN₁ := Nat.le_trans has.le hN₃
    -- the other context is confined in the same way
    have hc' := ihc hrel hΓ hΓ' hN₁
    have hcs' := hc'.spec hΓ'.below
    obtain ⟨hwithin', -⟩ := hcs'.unify_bool hu
    have hrel₁ := hrel.apply_of_apart hΓ hΓ' hwithin hwithin' hN₁
    have ha' := iha hrel₁ (hΓ.apply hwithin hcs.le hN₁) (hΓ'.apply hwithin' hcs'.le hN₁) hN₃
    have hcas' := RunSpec.compose hΓ'.below hwithin' hidem hcs'.le
      (ha'.spec (hΓ'.below.apply hwithin' hcs'.le))
    have hrel₃ := hrel.apply_of_apart hΓ hΓ' hcas.within hcas'.within hN₃
    exact .ite hc' hu ha' (ihb hrel₃ (hΓ.apply hcas.within hcas.le hN₃)
      (hΓ'.apply hcas'.within hcas'.le hN₃) hN) hs hu'
  | @letIn Γ n x d b t₁ s₁ n₁ t₂ s₂ n₂ hd hb ihd ihb =>
    intro Γ' hrel hΓ hΓ' hN
    have hds := hd.spec hΓ.below
    have hN₁ := Nat.le_trans (hb.spec (hΓ.below.letIn hds _)).le hN
    have hd' := ihd hrel hΓ hΓ' hN₁
    have hds' := hd'.spec hΓ'.below
    have hgen : Scheme.generalize ((letScope keep Γ x).apply s₁) (s₁.apply t₁) =
        .generalize ((letScope keep Γ' x).apply s₁) (s₁.apply t₁) :=
      (hrel.letScope_apply_of_apart hΓ hΓ' hds.within hds'.within hN₁ keep x).generalize_eq _
    -- the two bodies are inferred with one scheme for the name
    refine .letIn hd' (ihb ?_ (hΓ.insert_generalize hds hN₁ keep x)
      (hΓ'.insert_generalize hds' hN₁ keep x) hN)
    rw [hgen]
    exact (hrel.apply_of_apart hΓ hΓ' hds.within hds'.within hN₁).insert x (.refl _)
  | lam hb ih =>
    intro Γ' hrel hΓ hΓ' hN
    have hlt := Nat.lt_of_lt_of_le (hb.spec (hΓ.below.lam _)).le hN
    exact .lam (ih (hrel.insert _ (.refl _)) (hΓ.insert_mono hlt _) (hΓ'.insert_mono hlt _) hN)
  | app hf ha hu ihf iha =>
    intro Γ' hrel hΓ hΓ' hN
    have hfs := hf.spec hΓ.succ.below
    have hN₁ := Nat.le_trans (ha.spec (hΓ.succ.below.apply hfs.within hfs.le)).le hN
    have hf' := ihf hrel hΓ.succ hΓ'.succ hN₁
    have hfs' := hf'.spec hΓ'.succ.below
    have hrel₁ := hrel.apply_of_apart hΓ.succ hΓ'.succ hfs.within hfs'.within hN₁
    exact .app hf' (iha hrel₁ (hΓ.succ.apply hfs.within hfs.le hN₁)
      (hΓ'.succ.apply hfs'.within hfs'.le hN₁) hN) hu

-- The scheme that the run leads to is the same as well.
theorem Context.Requantified.infer_eq_ok {Γ Γ' : Context} {e : Term} {N : Nat} {σ : Scheme}
    (h : Γ.Requantified Γ') (hΓ : Γ.Apart Γ.nextVar N) (hΓ' : Γ'.Apart Γ'.nextVar N)
    (hN : ((inferTerm Γ e).run.run (.above Γ)).2.next ≤ N) (hσ : infer Γ e = .ok σ) :
    infer Γ' e = .ok σ := by
  obtain ⟨t, s, n, hrun, rfl⟩ := infer_eq_ok_iff.1 hσ
  obtain ⟨posed, hreturns⟩ := hrun.returns #[]
  have hn : n ≤ N := by
    have hrun' : (inferTerm Γ e).run.run (.above Γ) = (.ok (t, s), ⟨n, posed⟩) := hreturns
    rwa [hrun'] at hN
  rw [← h.nextVar_eq] at hΓ'
  have hrun' := hrun.requantify h hΓ hΓ' hn
  have hgen := (h.apply_of_apart hΓ hΓ' (hrun.spec hΓ.below).within (hrun'.spec hΓ'.below).within
    hn).generalize_eq (s.apply t)
  rw [hgen]
  exact infer_eq_ok_iff.2 ⟨t, s, n, h.nextVar_eq ▸ hrun', rfl⟩

/-- Two contexts that differ in the ids of quantified variables only.  If their schemes with free
variables quantify no id that is free in the context or that inference of a term draws, then the
term has the same scheme in both, or none in either. -/
theorem infer_eq_of_requantified {Γ Γ' : Context} {e : Term} {N : Nat} (h : Γ.Requantified Γ')
    (hΓ : Γ.Apart Γ.nextVar N) (hΓ' : Γ'.Apart Γ'.nextVar N)
    (hN : ((inferTerm Γ e).run.run (.above Γ)).2.next ≤ N)
    (hN' : ((inferTerm Γ' e).run.run (.above Γ')).2.next ≤ N) :
    ∀ σ, infer Γ e = .ok σ ↔ infer Γ' e = .ok σ :=
  fun _ => ⟨h.infer_eq_ok hΓ hΓ' hN, h.symm.infer_eq_ok hΓ' hΓ hN'⟩

/-! ## Sample contexts -/

theorem Context.Apart.of_values {Γ : Context} {N : Nat} (h : ∀ σ ∈ Γ.values, ¬ σ.Closed →
    ∀ a ∈ σ.vars, (a < Γ.nextVar ∨ N ≤ a) ∧ a ∉ Γ.freeVars) : Γ.Apart Γ.nextVar N where
  below := Context.below_nextVar Γ
  apart x σ hx := h σ (SortedMap.mem_values_iff.2 ⟨x, hx⟩)

/-- A name of an unknown type, and a function with a result of the same type that quantifies `a`. -/
def contextQuantifying (a : Nat) : Context :=
  .ofList [("x", .mono (.var 0)), ("y", ⟨[a], .arrow (.var a) (.var 0)⟩)]

theorem contextQuantifying_requantified {a b : Nat} (ha : a ≠ 0) (hb : b ≠ 0) :
    (contextQuantifying a).Requantified (contextQuantifying b) := by
  have hempty : Context.Requantified ∅ ∅ := fun _ => .none
  refine (hempty.insert "x" (.refl _)).insert "y" ⟨fun _ => b, ⟨?_, ?_⟩, ?_⟩
  · intro v hv w hw _
    rw [List.mem_singleton.1 hv, List.mem_singleton.1 hw]
  · intro v _ hfree
    have hbody : b ∈ [a, 0] := (Scheme.mem_freeVars.1 hfree).1
    have hnot : b ∉ [a] := (Scheme.mem_freeVars.1 hfree).2
    rcases List.mem_cons.1 hbody with hba | hb0
    · exact hnot (List.mem_singleton.2 hba)
    · exact hb (List.mem_singleton.1 hb0)
  · simp [Scheme.requantify, Ty.bind, ha.symm]

/-- Applies the name of unknown type, and gives back the function. -/
def applyUnknown : Term := .letIn "u" (.app (.var "x") (.num 1)) (.var "y")

/-- Ids that the run does not draw are as good as each other. -/
theorem infer_eq_of_requantified_undrawn :
    ((inferTerm (contextQuantifying 7) applyUnknown).run.run
        (.above (contextQuantifying 7))).2.next = 3 ∧
      infer (contextQuantifying 7) applyUnknown =
        .ok ⟨[0], .arrow (.var 0) (.arrow .num (.var 1))⟩ := by
  have hnext : ((inferTerm (contextQuantifying 7) applyUnknown).run.run
      (.above (contextQuantifying 7))).2.next = 3 := by cbv
  have hnext' : ((inferTerm (contextQuantifying 9) applyUnknown).run.run
      (.above (contextQuantifying 9))).2.next = 3 := by cbv
  refine ⟨hnext, (infer_eq_of_requantified (N := 3)
    (contextQuantifying_requantified (by decide) (by decide)) (.of_values (by decide))
    (.of_values (by decide)) (Nat.le_of_eq hnext) (Nat.le_of_eq hnext') _).2 ?_⟩
  cbv

/-- The id `1` is the first that the run draws.  It becomes the result of the unknown function, and
the scheme that quantifies it captures that result. -/
theorem infer_depends_on_quantified_ids :
    (contextQuantifying 1).Requantified (contextQuantifying 9) ∧
      infer (contextQuantifying 1) applyUnknown =
        .ok ⟨[0], .arrow (.var 0) (.arrow .num (.var 0))⟩ ∧
      infer (contextQuantifying 9) applyUnknown =
        .ok ⟨[0], .arrow (.var 0) (.arrow .num (.var 1))⟩ :=
  ⟨contextQuantifying_requantified (by decide) (by decide), by cbv, by cbv⟩

end LetPoly
