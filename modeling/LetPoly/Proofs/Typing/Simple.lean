import Mathlib.Logic.Function.Basic
import LetPoly.Proofs.Inference.Locality
import LetPoly.Proofs.Typing.Declarative

/-!
# Simple types

A term is simply typed if each of its names, parameters and names of `let` alike, has one type.  A
simple typing is a typing in every context that offers the types of the free names.

A function may occur in a term more than once, each time with a parameter of another type.
`TypedAt` are the simple typings in which the parameter of each function has a type that is
prescribed for the place where the function stands.
-/

namespace LetPoly

/-- One type for each name. -/
abbrev SimpleContext := String → Option Ty

/-- The term has the type with one type for each name. -/
inductive SimplyTyped : SimpleContext → Term → Ty → Prop
  | num {g v} : SimplyTyped g (.num v) .num
  | bool {g b} : SimplyTyped g (.bool b) .bool
  | var {g x t} : g x = some t → SimplyTyped g (.var x) t
  | ite {g c a b t} : SimplyTyped g c .bool → SimplyTyped g a t → SimplyTyped g b t →
      SimplyTyped g (.ite c a b) t
  | letIn {g x d b u t} : SimplyTyped g d u → SimplyTyped (Function.update g x (some u)) b t →
      SimplyTyped g (.letIn x d b) t
  | lam {g x b u t} : SimplyTyped (Function.update g x (some u)) b t →
      SimplyTyped g (.lam x b) (.arrow u t)
  | app {g f a u t} : SimplyTyped g f (.arrow u t) → SimplyTyped g a u → SimplyTyped g (.app f a) t

/-- The context offers for each of the names the type that `g` gives it. -/
def Context.Offers (Γ : Context) (g : SimpleContext) (names : List String) : Prop :=
  ∀ x ∈ names, ∀ t, g x = some t → ∃ σ, Γ.get? x = some σ ∧ σ.HasInstance t

namespace Context.Offers

variable {Γ : Context} {g : SimpleContext} {names names' : List String}

theorem mono (h : Γ.Offers g names) (hsub : ∀ x ∈ names', x ∈ names) : Γ.Offers g names' :=
  fun x hx => h x (hsub x hx)

theorem insert {x : String} (h : Γ.Offers g (names.filter (· != x))) {σ : Scheme} {u : Ty}
    (hσ : σ.HasInstance u) :
    Context.Offers (Γ.insert x σ) (Function.update g x (some u)) names := by
  intro y hy t ht
  by_cases hyx : y = x
  · subst hyx
    rw [Function.update_self] at ht
    cases ht
    exact ⟨σ, SortedMap.get?_insert_self _ _ _, hσ⟩
  · rw [Function.update_of_ne hyx] at ht
    rw [SortedMap.get?_insert_of_ne _ _ hyx]
    exact h y (List.mem_filter.2 ⟨hy, by simpa using hyx⟩) t ht

end Context.Offers

theorem Scheme.hasInstance_generalize (Γ : Context) (t : Ty) : (generalize Γ t).HasInstance t :=
  ⟨.var, fun _ _ => rfl, Ty.bind_var t⟩

theorem SimplyTyped.hasType {g : SimpleContext} {e : Term} {t : Ty} (h : SimplyTyped g e t) :
    ∀ {Γ : Context}, Γ.Offers g e.freeNames → HasType Γ e t := by
  induction h with
  | num => exact fun _ => .num
  | bool => exact fun _ => .bool
  | @var g x t hx =>
    intro Γ hΓ
    obtain ⟨σ, hσ, ht⟩ := hΓ x (List.mem_singleton.2 rfl) t hx
    exact .var hσ ht
  | ite _ _ _ ihc iha ihb =>
    intro Γ hΓ
    refine .ite (ihc ?_) (iha ?_) (ihb ?_)
    · exact hΓ.mono fun x hx => List.mem_append_left _ (List.mem_append_left _ hx)
    · exact hΓ.mono fun x hx => List.mem_append_left _ (List.mem_append_right _ hx)
    · exact hΓ.mono fun x hx => List.mem_append_right _ hx
  | @letIn g x d b u t _ _ ihd ihb =>
    intro Γ hΓ
    refine .letIn (ihd ?_) (ihb (Context.Offers.insert ?_ (Scheme.hasInstance_generalize Γ u)))
    · exact hΓ.mono fun y hy => List.mem_append_left _ hy
    · exact hΓ.mono fun y hy => List.mem_append_right _ hy
  | lam _ ih =>
    exact fun hΓ => .lam (ih (Context.Offers.insert hΓ (Scheme.hasInstance_mono.2 rfl)))
  | app _ _ ihf iha =>
    intro Γ hΓ
    refine .app (ihf ?_) (iha ?_)
    · exact hΓ.mono fun x hx => List.mem_append_left _ hx
    · exact hΓ.mono fun x hx => List.mem_append_right _ hx

/-! ## Places -/

/-- From a term to one of its parts. -/
inductive Step where
  | cond | thn | els | definition | letBody | lamBody | fn | arg
deriving DecidableEq

/-- The place of a part: the steps that lead there from the whole term, the last one first. -/
abbrev Path := List Step

/-- The types that are allowed for a parameter, by the place of its function. -/
abbrev ParamTypes := Path → String → Ty → Prop

/-- The term at the place `p` is simply typed, and `τ` allows the type of every parameter in it. -/
inductive TypedAt (τ : ParamTypes) : SimpleContext → Path → Term → Ty → Prop
  | num {g p v} : TypedAt τ g p (.num v) .num
  | bool {g p b} : TypedAt τ g p (.bool b) .bool
  | var {g p x t} : g x = some t → TypedAt τ g p (.var x) t
  | ite {g p c a b t} : TypedAt τ g (.cond :: p) c .bool → TypedAt τ g (.thn :: p) a t →
      TypedAt τ g (.els :: p) b t → TypedAt τ g p (.ite c a b) t
  | letIn {g p x d b u t} : TypedAt τ g (.definition :: p) d u →
      TypedAt τ (Function.update g x (some u)) (.letBody :: p) b t →
      TypedAt τ g p (.letIn x d b) t
  | lam {g p x b u t} : τ p x u → TypedAt τ (Function.update g x (some u)) (.lamBody :: p) b t →
      TypedAt τ g p (.lam x b) (.arrow u t)
  | app {g p f a u t} : TypedAt τ g (.fn :: p) f (.arrow u t) → TypedAt τ g (.arg :: p) a u →
      TypedAt τ g p (.app f a) t

theorem TypedAt.imp {τ τ' : ParamTypes} {g : SimpleContext} {p : Path} {e : Term} {t : Ty}
    (h : TypedAt τ g p e t) (hτ : ∀ p x u, τ p x u → τ' p x u) : TypedAt τ' g p e t := by
  induction h with
  | num => exact .num
  | bool => exact .bool
  | var hx => exact .var hx
  | ite _ _ _ ihc iha ihb => exact .ite ihc iha ihb
  | letIn _ _ ihd ihb => exact .letIn ihd ihb
  | lam hu _ ih => exact .lam (hτ _ _ _ hu) ih
  | app _ _ ihf iha => exact .app ihf iha

theorem SimplyTyped.typedAt {g : SimpleContext} {e : Term} {t : Ty} (h : SimplyTyped g e t) :
    ∀ p, TypedAt (fun _ _ _ => True) g p e t := by
  induction h with
  | num => exact fun _ => .num
  | bool => exact fun _ => .bool
  | var hx => exact fun _ => .var hx
  | ite _ _ _ ihc iha ihb => exact fun _ => .ite (ihc _) (iha _) (ihb _)
  | letIn _ _ ihd ihb => exact fun _ => .letIn (ihd _) (ihb _)
  | lam _ ih => exact fun _ => .lam trivial (ih _)
  | app _ _ ihf iha => exact fun _ => .app (ihf _) (iha _)

end LetPoly
