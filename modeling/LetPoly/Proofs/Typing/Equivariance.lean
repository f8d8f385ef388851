import Mathlib.Data.List.Sort
import LetPoly.Proofs.Typing.Canonical
import LetPoly.Proofs.Typing.Unification

/-!
# Types with their variables renamed

Renaming commutes with every operation on types, substitutions, schemes and contexts.  For most of
them it is enough that distinct variables stay distinct.  `Scheme.generalize` lists the variables
that it quantifies in increasing order, so there the renaming has to keep the order as well.
-/

namespace LetPoly

theorem SortedMap.increasing_map {f : Nat → Nat} (hf : StrictMono f) (l : List Nat) :
    increasing (l.map f) = (increasing l).map f := by
  have hsorted : ∀ l : List Nat, (increasing l).Pairwise (· < ·) := fun l =>
    (pairwise_keys _).imp Nat.compare_eq_lt.1
  refine (hsorted _).eq_of_mem_iff ((hsorted l).map f fun _ _ h => hf h) fun v => ?_
  simp only [mem_increasing_iff, List.mem_map]

/-! ## Types -/

namespace Ty

variable {f : Nat → Nat}

theorem rename_rename (f g : Nat → Nat) (t : Ty) : (t.rename f).rename g = t.rename (g ∘ f) :=
  bind_rename f _ t

@[simp]
theorem rename_id (t : Ty) : t.rename id = t := bind_var t

theorem rename_congr {g : Nat → Nat} {t : Ty} (h : ∀ v ∈ t.vars, f v = g v) :
    t.rename f = t.rename g :=
  bind_congr fun v hv => congrArg var (h v hv)

theorem rename_injective (hf : f.Injective) : (rename f).Injective := by
  intro t u htu
  have hleft : f.invFun ∘ f = id := Function.invFun_comp hf
  have h := congrArg (rename f.invFun) htu
  rwa [rename_rename, rename_rename, hleft, rename_id, rename_id] at h

theorem rename_ne_var {t : Ty} (ht : ∀ w, t ≠ .var w) (w : Nat) : t.rename f ≠ .var w := by
  cases t with
  | var v => exact absurd rfl (ht v)
  | con c => simp [rename, bind]
  | arrow a b => simp [rename, bind]

theorem occurs_rename (hf : f.Injective) (v : Nat) (t : Ty) :
    (t.rename f).occurs (f v) = t.occurs v := by
  rw [Bool.eq_iff_iff, occurs_iff_mem_vars, occurs_iff_mem_vars, vars_rename,
    List.mem_map_of_injective hf]

end Ty

/-! ## Substitutions -/

namespace Subst

variable {f : Nat → Nat} {s : Subst}

/-- The substitution with the variables that it binds and those of their types renamed. -/
def rename (f : Nat → Nat) (s : Subst) : Subst :=
  .ofList (s.entries.map fun e => (f e.1, e.2.rename f))

@[simp]
theorem rename_id (s : Subst) : s.rename id = s := by
  have hentries : (s.entries.map fun e => (id e.1, e.2.rename id)) = s.entries := by
    simp
  rw [rename, hentries, SortedMap.ofList_entries]

-- A renaming that keeps the order keeps the places of the entries.
theorem entries_rename (hf : StrictMono f) (s : Subst) :
    (s.rename f).entries = s.entries.map fun e => (f e.1, e.2.rename f) := by
  have hsorted : (s.entries.map fun e => (f e.1, e.2.rename f)).Pairwise
      fun a b => compare a.1 b.1 = .lt :=
    s.sorted.map _ fun _ _ h => Nat.compare_eq_lt.2 (hf (Nat.compare_eq_lt.1 h))
  exact congrArg SortedMap.entries (SortedMap.ofList_entries ⟨_, hsorted⟩)

-- Where the second renaming sends two variables to one, the entry that counts is the same on both
-- sides because the first one keeps the order.
theorem rename_rename (hf : StrictMono f) (g : Nat → Nat) (s : Subst) :
    (s.rename f).rename g = s.rename (g ∘ f) := by
  rw [rename, entries_rename hf, rename, List.map_map]
  refine congrArg SortedMap.ofList (List.map_congr_left fun e _ => ?_)
  exact congrArg (Prod.mk _) (Ty.rename_rename f g e.2)

theorem get?_ofList_rename (hf : f.Injective) (l : List (Nat × Ty)) (v : Nat) :
    (SortedMap.ofList (l.map fun e => (f e.1, e.2.rename f))).get? (f v) =
      ((SortedMap.ofList l).get? v).map (Ty.rename f) := by
  have hmap : l.map (fun e => (f e.1, e.2.rename f)) =
      (l.map fun e => (e.1, e.2.rename f)).map fun e => (f e.1, e.2) := by
    rw [List.map_map]
    rfl
  rw [hmap, SortedMap.get?_ofList_mapKey fun e _ heq => hf heq, ← SortedMap.mapVal_ofList,
    SortedMap.get?_mapVal]

theorem get?_rename (hf : f.Injective) (s : Subst) (v : Nat) :
    (s.rename f).get? (f v) = (s.get? v).map (Ty.rename f) := by
  rw [rename, get?_ofList_rename hf, SortedMap.ofList_entries]

theorem get?_ofList_rename_eq_none {k : Nat} (hk : ∀ v, f v ≠ k) (l : List (Nat × Ty)) :
    (SortedMap.ofList (l.map fun e => (f e.1, e.2.rename f))).get? k = none := by
  refine SortedMap.get?_ofList_eq_none fun e he => ?_
  obtain ⟨e', -, rfl⟩ := List.mem_map.1 he
  exact hk e'.1

theorem rename_eq_of_get? {r : Subst} (hf : f.Injective)
    (hin : ∀ v, r.get? (f v) = (s.get? v).map (Ty.rename f))
    (hout : ∀ k, (∀ v, f v ≠ k) → r.get? k = none) : s.rename f = r := by
  refine SortedMap.ext_get? fun k => ?_
  by_cases hk : ∃ v, f v = k
  · obtain ⟨v, rfl⟩ := hk
    rw [get?_rename hf, hin]
  · have hk : ∀ v, f v ≠ k := fun v hv => hk ⟨v, hv⟩
    rw [rename, get?_ofList_rename_eq_none hk, hout k hk]

theorem rename_ofList (hf : f.Injective) (l : List (Nat × Ty)) :
    Subst.rename f (.ofList l) = .ofList (l.map fun e => (f e.1, e.2.rename f)) :=
  rename_eq_of_get? hf (get?_ofList_rename hf l) fun _ hk => get?_ofList_rename_eq_none hk l

theorem rename_singleton (hf : f.Injective) (v : Nat) (t : Ty) :
    Subst.rename f (.singleton v t) = .singleton (f v) (t.rename f) :=
  rename_ofList hf [(v, t)]

theorem image_rename (hf : f.Injective) (s : Subst) (v : Nat) :
    (s.rename f).image (f v) = (s.image v).rename f := by
  rw [image, image, get?_rename hf]
  cases s.get? v <;> rfl

theorem rename_apply (hf : f.Injective) (s : Subst) (t : Ty) :
    (s.apply t).rename f = (s.rename f).apply (t.rename f) := by
  rw [apply_eq_bind, apply_eq_bind, Ty.bind_rename, Ty.rename, Ty.bind_bind]
  exact Ty.bind_congr fun v _ => (image_rename hf s v).symm

theorem rename_compose (hf : f.Injective) (a b : Subst) :
    (a.compose b).rename f = (a.rename f).compose (b.rename f) := by
  refine rename_eq_of_get? hf (fun v => ?_) fun k hk => ?_
  · rw [get?_compose, get?_compose, get?_rename hf, get?_rename hf]
    cases b.get? v with
    | none => rfl
    | some t => exact congrArg some (rename_apply hf a t).symm
  · rw [get?_compose, rename, rename, get?_ofList_rename_eq_none hk, get?_ofList_rename_eq_none hk]
    rfl

end Subst

/-! ## Unification -/

namespace UnifyError

/-- The error with the variables of its types renamed. -/
def rename (f : Nat → Nat) : UnifyError → UnifyError
  | mismatch l r => mismatch (l.rename f) (r.rename f)
  | occurs v t => occurs (f v) (t.rename f)

end UnifyError

section Unify

variable {f : Nat → Nat}

/-- What unification answers, with the variables renamed. -/
def renameUnifier (f : Nat → Nat) (r : Except UnifyError Subst) : Except UnifyError Subst :=
  (r.map (Subst.rename f)).mapError (UnifyError.rename f)

theorem bindVar_rename (hf : f.Injective) (v : Nat) (t : Ty) :
    bindVar (f v) (t.rename f) = renameUnifier f (bindVar v t) := by
  have hself : t.rename f = .var (f v) ↔ t = .var v := (Ty.rename_injective hf).eq_iff (b := .var v)
  unfold bindVar
  rw [Ty.occurs_rename hf]
  simp only [hself]
  split
  · rfl
  · split
    · rfl
    · exact congrArg Except.ok (Subst.rename_singleton hf v t).symm

theorem HeadsClash.rename {t u : Ty} (h : HeadsClash t u) (f : Nat → Nat) :
    HeadsClash (t.rename f) (u.rename f) := by
  cases h with
  | con hab => exact .con hab
  | con_arrow => exact .con_arrow
  | arrow_con => exact .arrow_con

/-- Unification commutes with a renaming that keeps variables apart, also where it fails. -/
theorem unify_rename (hf : f.Injective) (t u : Ty) :
    unify (t.rename f) (u.rename f) = renameUnifier f (unify t u) := by
  induction t, u using unify_induction with
  | var_left v u =>
    rw [unify_var_left, ← bindVar_rename hf]
    exact unify_var_left (f v) _
  | var_right t v ht =>
    rw [unify_var_right v ht, ← bindVar_rename hf]
    exact unify_var_right (f v) (Ty.rename_ne_var ht)
  | con c =>
    rw [unify_con_self]
    exact unify_con_self c
  | clash t u h =>
    rw [h.unify_eq, (h.rename f).unify_eq]
    rfl
  | arrow a b c d ih ih' =>
    show unify (.arrow (a.rename f) (b.rename f)) (.arrow (c.rename f) (d.rename f)) = _
    rw [unify_arrow_arrow, unify_arrow_arrow, ih]
    cases hs : unify a c with
    | error e => rfl
    | ok s =>
      show (unify ((s.rename f).apply (b.rename f)) ((s.rename f).apply (d.rename f))).map _ =
        renameUnifier f ((unify (s.apply b) (s.apply d)).map _)
      rw [← Subst.rename_apply hf, ← Subst.rename_apply hf, ih' s hs]
      cases unify (s.apply b) (s.apply d) with
      | error e => rfl
      | ok s' => exact congrArg Except.ok (Subst.rename_compose hf s' s).symm

end Unify

/-! ## Schemes and contexts -/

namespace Scheme

variable {f : Nat → Nat}

/-- The scheme with all its variables renamed, the quantified ones too. -/
def rename (f : Nat → Nat) (σ : Scheme) : Scheme := ⟨σ.vars.map f, σ.body.rename f⟩

theorem rename_apply (hf : f.Injective) (s : Subst) (σ : Scheme) :
    (σ.apply s).rename f = (σ.rename f).apply (s.rename f) := by
  have hbody : (σ.apply s).body.rename f = ((σ.rename f).apply (s.rename f)).body := by
    rw [body_apply, body_apply, rename, Ty.bind_rename, Ty.rename, Ty.bind_bind]
    refine Ty.bind_congr fun v _ => ?_
    simp only [List.mem_map_of_injective hf]
    split
    · rfl
    · exact (Subst.image_rename hf s v).symm
  exact congrArg (Scheme.mk _) hbody

theorem freeVars_rename (hf : f.Injective) (σ : Scheme) :
    (σ.rename f).freeVars = σ.freeVars.map f := by
  rw [freeVars, freeVars, rename, Ty.vars_rename, List.filter_map]
  refine congrArg (List.map f) (List.filter_congr fun v _ => ?_)
  simp [hf.eq_iff]

end Scheme

namespace Context

variable {f : Nat → Nat}

def rename (f : Nat → Nat) (Γ : Context) : Context := Γ.mapVal (Scheme.rename f)

theorem get?_rename (f : Nat → Nat) (Γ : Context) (x : String) :
    (Γ.rename f).get? x = (Γ.get? x).map (Scheme.rename f) :=
  SortedMap.get?_mapVal _ _ _

theorem rename_apply (hf : f.Injective) (s : Subst) (Γ : Context) :
    (Γ.apply s).rename f = (Γ.rename f).apply (s.rename f) := by
  rw [rename, apply, apply, rename, SortedMap.mapVal_mapVal, SortedMap.mapVal_mapVal]
  exact congrArg Γ.mapVal (funext (Scheme.rename_apply hf s))

theorem rename_insert (f : Nat → Nat) (Γ : Context) (x : String) (σ : Scheme) :
    Context.rename f (Γ.insert x σ) = (Γ.rename f).insert x (σ.rename f) :=
  SortedMap.mapVal_insert _ _ _ _

theorem rename_erase (f : Nat → Nat) (Γ : Context) (x : String) :
    Context.rename f (Γ.erase x) = (Γ.rename f).erase x :=
  SortedMap.mapVal_erase _ _ _

theorem freeVars_rename (hf : f.Injective) (Γ : Context) :
    (Γ.rename f).freeVars = Γ.freeVars.map f := by
  have hvalues : (Γ.rename f).values = Γ.values.map (Scheme.rename f) := by
    simp [rename, SortedMap.values, SortedMap.mapVal]
  rw [freeVars, freeVars, hvalues, List.flatMap_map, List.map_flatMap]
  simp only [Scheme.freeVars_rename hf]

end Context

namespace Scheme

variable {f : Nat → Nat}

theorem rename_generalize (hf : StrictMono f) (Γ : Context) (t : Ty) :
    (generalize Γ t).rename f = generalize (Γ.rename f) (t.rename f) := by
  have hfree : (t.rename f).vars.filter (fun v => !(Γ.rename f).freeVars.contains v) =
      (t.vars.filter fun v => !Γ.freeVars.contains v).map f := by
    rw [Context.freeVars_rename hf.injective, Ty.vars_rename, List.filter_map]
    refine congrArg (List.map f) (List.filter_congr fun v _ => ?_)
    simp [hf.injective.eq_iff]
  show Scheme.mk ((SortedMap.increasing _).map f) (t.rename f) =
    Scheme.mk (SortedMap.increasing _) (t.rename f)
  rw [hfree, SortedMap.increasing_map hf]

-- The copies of the quantified variables are numbered in step.
theorem rename_instantiate (hf : f.Injective) {n n' : Nat} (hn : ∀ i, f (n + i) = n' + i)
    (σ : Scheme) : (σ.instantiate n).rename f = (σ.rename f).instantiate n' := by
  have hcopies : (σ.instantiation n).rename f = (σ.rename f).instantiation n' := by
    rw [instantiation, instantiation, Subst.rename_ofList hf, List.map_map]
    refine congrArg SortedMap.ofList (List.ext_getElem? fun i => ?_)
    simp [rename, Ty.rename, Ty.bind, Option.map_map, Function.comp_def, hn]
  rw [instantiate, instantiate, Subst.rename_apply hf, hcopies]
  rfl

end Scheme

end LetPoly
