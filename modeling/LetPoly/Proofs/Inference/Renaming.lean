import Mathlib
import LetPoly.Proofs.Inference.Shadowing

/-!
# Inference and the names of bound variables

Two terms that differ in bound names only have the same runs, where a `let` generalizes against its
whole context.  The contexts of the two runs hide different entries, but none of those is reached
from the definition, so what a `let` generalizes is the same.  With the rule that takes the name of
the `let` out first this fails, and it is restored for terms in which no `let` rebinds an open name.
-/

namespace LetPoly

/-- The two names are bound by the same binder, or are equal and bound by none; `ρ` lists the pairs
of binders from the inside out. -/
def Linked : List (String × String) → String → String → Prop
  | [], x, y => x = y
  | (a, b) :: ρ, x, y => x = a ∧ y = b ∨ x ≠ a ∧ y ≠ b ∧ Linked ρ x y

theorem Linked.symm {ρ : List (String × String)} {x y : String} (h : Linked ρ x y) :
    Linked (ρ.map Prod.swap) y x := by
  induction ρ with
  | nil => exact Eq.symm h
  | cons p ρ ih =>
    rcases h with ⟨hx, hy⟩ | ⟨hx, hy, h⟩
    · exact .inl ⟨hy, hx⟩
    · exact .inr ⟨hy, hx, ih h⟩

/-- Each of the names is linked to one of the others. -/
def LinkedNames (ρ : List (String × String)) (names names' : List String) : Prop :=
  ∀ x ∈ names, ∃ y ∈ names', Linked ρ x y

namespace LinkedNames

variable {ρ : List (String × String)} {a a' b b' : List String}

theorem append (ha : LinkedNames ρ a a') (hb : LinkedNames ρ b b') :
    LinkedNames ρ (a ++ b) (a' ++ b') := by
  intro x hx
  rcases List.mem_append.1 hx with hx | hx
  · obtain ⟨y, hy, hxy⟩ := ha x hx
    exact ⟨y, List.mem_append_left _ hy, hxy⟩
  · obtain ⟨y, hy, hxy⟩ := hb x hx
    exact ⟨y, List.mem_append_right _ hy, hxy⟩

theorem binder {x y : String} (h : LinkedNames ((x, y) :: ρ) b b') :
    LinkedNames ρ (b.filter (· != x)) (b'.filter (· != y)) := by
  intro z hz
  obtain ⟨hz, hne⟩ := List.mem_filter.1 hz
  obtain ⟨w, hw, ⟨hzx, -⟩ | ⟨-, hwy, hlink⟩⟩ := h z hz
  · exact absurd hzx (by simpa using hne)
  · exact ⟨w, List.mem_filter.2 ⟨hw, by simpa using hwy⟩, hlink⟩

end LinkedNames

/-- The two terms differ in bound names only. -/
inductive Term.Renamed : List (String × String) → Term → Term → Prop
  | var {ρ x y} : Linked ρ x y → Renamed ρ (.var x) (.var y)
  | num {ρ v} : Renamed ρ (.num v) (.num v)
  | bool {ρ b} : Renamed ρ (.bool b) (.bool b)
  | ite {ρ c c' a a' b b'} : Renamed ρ c c' → Renamed ρ a a' → Renamed ρ b b' →
      Renamed ρ (.ite c a b) (.ite c' a' b')
  | letIn {ρ x y d d' b b'} : Renamed ρ d d' → Renamed ((x, y) :: ρ) b b' →
      Renamed ρ (.letIn x d b) (.letIn y d' b')
  | lam {ρ x y b b'} : Renamed ((x, y) :: ρ) b b' → Renamed ρ (.lam x b) (.lam y b')
  | app {ρ f f' a a'} : Renamed ρ f f' → Renamed ρ a a' → Renamed ρ (.app f a) (.app f' a')

namespace Term.Renamed

variable {ρ : List (String × String)} {e e' : Term}

theorem symm (h : Renamed ρ e e') : Renamed (ρ.map Prod.swap) e' e := by
  induction h with
  | var hxy => exact .var hxy.symm
  | num => exact .num
  | bool => exact .bool
  | ite _ _ _ ihc iha ihb => exact .ite ihc iha ihb
  | letIn _ _ ihd ihb => exact .letIn ihd ihb
  | lam _ ih => exact .lam ih
  | app _ _ ihf iha => exact .app ihf iha

-- The names that one term takes from its context have partners in the other.
theorem linkedNames (h : Renamed ρ e e') : LinkedNames ρ e.freeNames e'.freeNames := by
  induction h with
  | var hxy => exact fun z hz => ⟨_, List.mem_singleton.2 rfl, (List.mem_singleton.1 hz).symm ▸ hxy⟩
  | num | bool => exact fun z hz => absurd hz List.not_mem_nil
  | ite _ _ _ ihc iha ihb => exact (ihc.append iha).append ihb
  | letIn _ _ ihd ihb => exact ihd.append ihb.binder
  | lam _ ih => exact ih.binder
  | app _ _ ihf iha => exact ihf.append iha

end Term.Renamed

/-! ## Contexts that agree on linked names -/

/-- Linked names have the same scheme in the two contexts. -/
def Agree (ρ : List (String × String)) (Γ Γ' : Context) : Prop :=
  ∀ x y, Linked ρ x y → Γ.get? x = Γ'.get? y

namespace Agree

variable {ρ : List (String × String)} {Γ Γ' : Context}

theorem refl (Γ : Context) : Agree [] Γ Γ := fun _ _ h => congrArg Γ.get? h

theorem symm (h : Agree ρ Γ Γ') : Agree (ρ.map Prod.swap) Γ' Γ := by
  intro x y hxy
  have hlink := hxy.symm
  rw [List.map_map, Prod.swap_swap_eq, List.map_id] at hlink
  exact (h y x hlink).symm

theorem apply (h : Agree ρ Γ Γ') (s : Subst) : Agree ρ (Γ.apply s) (Γ'.apply s) := by
  intro x y hxy
  rw [Context.get?_apply, Context.get?_apply, h x y hxy]

theorem insert (h : Agree ρ Γ Γ') (x y : String) (σ : Scheme) :
    Agree ((x, y) :: ρ) (Γ.insert x σ) (Γ'.insert y σ) := by
  rintro z w (⟨rfl, rfl⟩ | ⟨hz, hw, hlink⟩)
  · rw [SortedMap.get?_insert_self, SortedMap.get?_insert_self]
  · rw [SortedMap.get?_insert_of_ne _ _ hz, SortedMap.get?_insert_of_ne _ _ hw, h z w hlink]

theorem reaches {e e' : Term} (h : Agree ρ Γ Γ') (he : Term.Renamed ρ e e') {v : Nat}
    (hv : Γ.Reaches e.freeNames v) : Γ'.Reaches e'.freeNames v := by
  obtain ⟨x, hx, σ, hσ, hmem⟩ := hv
  obtain ⟨y, hy, hlink⟩ := he.linkedNames x hx
  exact ⟨y, hy, σ, (h x y hlink).symm.trans hσ, hmem⟩

end Agree

-- Linked contexts hold back the same variables of the type of a definition.
theorem generalize_renamed {ρ : List (String × String)} {Γ Γ' : Context} {d d' : Term} {n n₁ : Nat}
    {t : Ty} {s : Subst} (hagree : Agree ρ Γ Γ') (hd : Term.Renamed ρ d d') (hΓ : Γ.Tidy n)
    (hΓ' : Γ'.Tidy n) (h : RunSpec Γ d.freeNames n t s n₁) (h' : RunSpec Γ' d'.freeNames n t s n₁) :
    Scheme.generalize (Γ.apply s) t = .generalize (Γ'.apply s) t := by
  refine Scheme.generalize_congr fun v hv => ?_
  -- the contexts may differ in entries that the definitions do not mention
  rw [h.mem_freeVars_iff_reaches hΓ hv, h'.mem_freeVars_iff_reaches hΓ' hv]
  exact ⟨(hagree.apply s).reaches hd, (hagree.symm.apply s).reaches hd.symm⟩

/-! ## The two runs -/

/-- Where a `let` generalizes against its whole context, bound names make no difference. -/
theorem Infers.rename {Γ : Context} {n n' : Nat} {e : Term} {t : Ty} {s : Subst}
    (h : Infers true Γ n e t s n') : ∀ {ρ : List (String × String)} {Γ' : Context} {e' : Term},
      Term.Renamed ρ e e' → Agree ρ Γ Γ' → Γ.Tidy n → Γ'.Tidy n → Infers true Γ' n e' t s n' := by
  induction h with
  | num =>
    rintro ρ Γ' _ ⟨⟩ _ _ _
    exact .num
  | bool =>
    rintro ρ Γ' _ ⟨⟩ _ _ _
    exact .bool
  | var hx =>
    rintro ρ Γ' _ (hxy | _) hagree _ _
    exact .var ((hagree _ _ hxy).symm.trans hx)
  | ite hc hu ha _ hs hu' ihc iha ihb =>
    rintro ρ Γ' _ (_ | _ | _ | ⟨hcr, har, hbr⟩) hagree hΓ hΓ'
    have hc' := ihc hcr hagree hΓ hΓ'
    have hcs := hc.spec hΓ.below
    have hcs' := hc'.spec hΓ'.below
    obtain ⟨hwithin, hidem⟩ := hcs.unify_bool hu
    obtain ⟨hwithin', -⟩ := hcs'.unify_bool hu
    have hΓ₁ := hΓ.apply hwithin hcs.le
    have hΓ₁' := hΓ'.apply hwithin' hcs'.le
    have ha' := iha har (hagree.apply _) hΓ₁ hΓ₁'
    have hcas := RunSpec.compose hΓ.below hwithin hidem hcs.le (ha.spec hΓ₁.below)
    have hcas' := RunSpec.compose hΓ'.below hwithin' hidem hcs'.le (ha'.spec hΓ₁'.below)
    exact .ite hc' hu ha' (ihb hbr (hagree.apply _) (hΓ.apply hcas.within hcas.le)
      (hΓ'.apply hcas'.within hcas'.le)) hs hu'
  | @letIn Γ n x d b t₁ s₁ n₁ t₂ s₂ n₂ hd _ ihd ihb =>
    rintro ρ Γ' _ (_ | _ | _ | _ | @⟨_, _, y, _, _, _, _, hdr, hbr⟩) hagree hΓ hΓ'
    have hd' := ihd hdr hagree hΓ hΓ'
    have hds := hd.spec hΓ.below
    have hds' := hd'.spec hΓ'.below
    have hgen : Scheme.generalize ((letScope true Γ x).apply s₁) (s₁.apply t₁) =
        .generalize ((letScope true Γ' y).apply s₁) (s₁.apply t₁) := by
      rw [hds.resolved]
      exact generalize_renamed hagree hdr hΓ hΓ' hds hds'
    -- the two bodies are inferred with one scheme, under linked names
    refine .letIn hd' (ihb hbr ?_ (hΓ.insert_generalize hds true x)
      (hΓ'.insert_generalize hds' true y))
    rw [hgen]
    exact (hagree.apply s₁).insert x y _
  | lam _ ih =>
    rintro ρ Γ' _ (_ | _ | _ | _ | _ | hbr) hagree hΓ hΓ'
    exact .lam (ih hbr (hagree.insert _ _ _) (hΓ.insert_mono _) (hΓ'.insert_mono _))
  | app hf _ hu ihf iha =>
    rintro ρ Γ' _ (_ | _ | _ | _ | _ | _ | ⟨hfr, har⟩) hagree hΓ hΓ'
    have hf' := ihf hfr hagree hΓ.succ hΓ'.succ
    have hfs := hf.spec hΓ.succ.below
    have hfs' := hf'.spec hΓ'.succ.below
    exact .app hf' (iha har (hagree.apply _) (hΓ.succ.apply hfs.within hfs.le)
      (hΓ'.succ.apply hfs'.within hfs'.le)) hu

theorem InfersScheme.rename {Γ : Context} {e e' : Term} {σ : Scheme} (h : InfersScheme true Γ e σ)
    (he : Term.Renamed [] e e') (hΓ : Γ.Tidy Γ.nextVar) : InfersScheme true Γ e' σ := by
  obtain ⟨t, s, n, hrun, rfl⟩ := h
  exact ⟨t, s, n, hrun.rename he (.refl Γ) hΓ hΓ, rfl⟩

-- A term in which no `let` rebinds an open name is given what its renamings would be given, if a
-- `let` generalized against its whole context.
theorem infer_eq_ok_iff_of_renamed {Γ : Context} {opened : List String} {e e' : Term}
    (hΓ : Γ.Tidy Γ.nextVar) (hopen : Γ.OpenOnlyAt opened) (h : Term.Renamed [] e e')
    (he : e.NoOpenRebind opened) (σ : Scheme) : infer Γ e = .ok σ ↔ InfersScheme true Γ e' σ := by
  rw [infer_eq_ok_iff]
  constructor
  · intro hσ
    exact (hσ.change_keep true hΓ hopen he).rename h hΓ
  · intro hσ
    exact (hσ.rename h.symm hΓ).change_keep false hΓ hopen he

/-- Let no `let` of a term rebind an open name.  A renaming of the term has the same scheme, or
fails with it, exactly if the renaming itself is given what it would be given without taking names
out; so it is where no `let` of the renaming rebinds an open name either. -/
theorem infer_eq_of_renamed {Γ : Context} {opened : List String} {e e' : Term}
    (hΓ : Γ.Tidy Γ.nextVar) (hopen : Γ.OpenOnlyAt opened) (h : Term.Renamed [] e e')
    (he : e.NoOpenRebind opened) :
    ((∀ σ, infer Γ e = .ok σ ↔ infer Γ e' = .ok σ) ↔
      ∀ σ, infer Γ e' = .ok σ ↔ InfersScheme true Γ e' σ) ∧
    (e'.NoOpenRebind opened → ∀ σ, infer Γ e = .ok σ ↔ infer Γ e' = .ok σ) := by
  have hwhole := infer_eq_ok_iff_of_renamed hΓ hopen h he
  have hexact : (∀ σ, infer Γ e = .ok σ ↔ infer Γ e' = .ok σ) ↔
      ∀ σ, infer Γ e' = .ok σ ↔ InfersScheme true Γ e' σ :=
    forall_congr' fun σ => by rw [hwhole σ]; exact Iff.comm
  refine ⟨hexact, fun he' => hexact.2 fun σ => ?_⟩
  rw [infer_eq_ok_iff]
  exact ⟨fun hσ => hσ.change_keep true hΓ hopen he', fun hσ => hσ.change_keep false hΓ hopen he'⟩

/-- A `let` may hide a parameter, and a context may be open. -/
theorem infer_eq_of_renamed_hidden_parameter :
    infer ((∅ : Context).insert "y" ⟨[0], .arrow (.var 0) (.var 1)⟩)
      (.lam "a" (.letIn "b" (.var "a") (.letIn "a" (.app (.var "y") (.var "b")) (.var "a")))) =
      .ok ⟨[0], .arrow (.var 0) (.var 3)⟩ := by
  have hopen :
      Context.OpenOnlyAt ((∅ : Context).insert "y" ⟨[0], .arrow (.var 0) (.var 1)⟩) ["y"] :=
    Context.OpenOnlyAt.insert (.of_closed Context.closed_empty []) "y" _
  have hΓ : Context.Tidy ((∅ : Context).insert "y" ⟨[0], .arrow (.var 0) (.var 1)⟩) 2 := by
    refine ⟨Context.below_nextVar _, fun x σ hx _ => ?_⟩
    rcases SortedMap.get?_insert_eq_some hx with ⟨-, rfl⟩ | ⟨-, hx⟩
    · decide
    · cases hx
  refine ((infer_eq_of_renamed (e := .lam "z" (.letIn "x" (.var "z")
    (.letIn "z" (.app (.var "y") (.var "x")) (.var "z")))) hΓ hopen ?_ (by decide)).2
    (by decide) _).1 ?_
  · refine .lam (.letIn (.var ?_) (.letIn (.app (.var ?_) (.var ?_)) (.var ?_))) <;> simp [Linked]
  · cbv

/-- Bound names matter where a `let` rebinds a parameter that its definition mentions, and where a
scheme of the context captures a variable: the left term of each pair gets a type that does not hold
it to its own argument, or to its context. -/
theorem infer_depends_on_bound_names :
    (Term.Renamed [] (.lam "x" (.letIn "x" (.var "x") (.var "x")))
        (.lam "x" (.letIn "y" (.var "x") (.var "y"))) ∧
      infer ∅ (.lam "x" (.letIn "x" (.var "x") (.var "x"))) =
        .ok ⟨[0, 1], .arrow (.var 0) (.var 1)⟩ ∧
      infer ∅ (.lam "x" (.letIn "y" (.var "x") (.var "y"))) =
        .ok ⟨[0], .arrow (.var 0) (.var 0)⟩) ∧
    ∃ Γ : Context, Term.Renamed [] (.lam "z" (.letIn "a" (.app (.var "y") (.num 1)) (.var "a")))
        (.lam "w" (.letIn "a" (.app (.var "y") (.num 1)) (.var "a"))) ∧
      infer Γ (.lam "z" (.letIn "a" (.app (.var "y") (.num 1)) (.var "a"))) =
        .ok ⟨[0, 1], .arrow (.var 0) (.var 1)⟩ ∧
      infer Γ (.lam "w" (.letIn "a" (.app (.var "y") (.num 1)) (.var "a"))) =
        .ok ⟨[0], .arrow (.var 0) (.var 2)⟩ := by
  refine ⟨⟨?_, by cbv, by cbv⟩,
    ((∅ : Context).insert "y" ⟨[2], .arrow (.var 2) (.var 0)⟩).insert "z" (.mono (.var 0)), ?_,
    by cbv, by cbv⟩
  · refine .lam (.letIn (.var ?_) (.var ?_)) <;> simp [Linked]
  · refine .lam (.letIn (.app (.var ?_) .num) (.var ?_)) <;> simp [Linked]

end LetPoly
