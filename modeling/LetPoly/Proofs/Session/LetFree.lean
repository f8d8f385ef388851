import LetPoly.Proofs.Inference.Parts
import LetPoly.Proofs.Session.Agreement

/-!
# Terms without `let` are safe with shared scopes

Without `let` every name has one type, so closures may share the scope of their parameter: a term
that inference accepts evaluates to a value of its type, and on the way every parameter is bound to
values of the type that inference has found for it.
-/

namespace LetPoly

open EvalM NotedM

/-! ## Builtins -/

theorem Builtins.get?_standard :
    ∀ b ∈ Builtins.standard, (Builtins.standard.declareIn ∅).get? b.name = some b.scheme := by
  decide

theorem Builtins.exists_of_get?_standard {x : String} {σ : Scheme}
    (h : (Builtins.standard.declareIn ∅).get? x = some σ) :
    ∃ b ∈ Builtins.standard, b.name = x ∧ b.scheme = σ := by
  refine Builtins.declareIn_induction (P := fun Γ => ∀ x σ, Γ.get? x = some σ →
    ∃ b ∈ Builtins.standard, b.name = x ∧ b.scheme = σ) (fun Γ b hb hΓ y τ hy => ?_) ?_ x σ h
  · rcases SortedMap.get?_insert_eq_some hy with ⟨rfl, rfl⟩ | ⟨-, hy⟩
    · exact ⟨b, hb, rfl, rfl⟩
    · exact hΓ y τ hy
  · exact fun y τ hy => nomatch hy

theorem Builtins.standard_mono : ∀ b ∈ Builtins.standard, b.scheme = .mono b.scheme.body := by
  decide

theorem Builtins.standard_monomorphic : (Builtins.standard.declareIn ∅).Monomorphic := by
  intro x σ h
  obtain ⟨b, hb, -, rfl⟩ := exists_of_get?_standard h
  exact ⟨b.scheme.body, standard_mono b hb⟩

theorem Builtins.typesUnder_standard (θ : Nat → Ty) {b : Builtin} (hb : b ∈ Builtins.standard) :
    (Builtins.standard.declareIn ∅).typesUnder θ b.name = some b.scheme.body := by
  have hclosed : ∀ b ∈ Builtins.standard, b.scheme.body.vars = [] := by decide
  have hbind : b.scheme.body.bind θ = b.scheme.body :=
    Ty.bind_eq_self fun v hv => by rw [hclosed b hb] at hv; cases hv
  rw [Context.typesUnder, get?_standard b hb, Option.map_some, hbind]

theorem Builtins.defines_standard :
    ∀ b ∈ Builtins.standard, (Session.start.install .standard).store.defines 0 b.name := by
  decide

/-- The types of the root that the builtins are bound in. -/
def rootTy (θ : Nat → Ty) : ScopeTy := { types := (Builtins.standard.declareIn ∅).typesUnder θ }

section Start

variable {τ : ParamTypes} {θ : Nat → Ty}

-- The root has the builtins at their types.
theorem notedTyped_standard (θ : Nat → Ty) : NotedTyped τ [rootTy θ]
    { store := (Session.start.install .standard).store } where
  store := by
    refine Builtins.installIn_typed rfl (fun b hb => ?_) (storeTyped_root _)
    have hty := Builtins.standard_ty? b hb
    obtain ⟨t, ht, hmono⟩ := Option.map_eq_some_iff.1 hty
    refine ⟨t, ?_, ht⟩
    rw [Builtins.typesUnder_standard θ hb, ← hmono]
    rfl
  origin ρ := by
    cases ρ <;> rfl
  bound := nofun

-- No name that has a type is missing from the root, and none gets lost.
theorem not_lacks_standard {W : World} {st : Store} {x : String}
    (hW : World.Extends [rootTy θ] W)
    (hst : (Session.start.install .standard).store.Grows st) : ¬ W.Lacks st x := by
  rintro ⟨ρ, T, t, sc, hρ, hown, ht, hsc, hx⟩
  have hroot := hW.roots ρ T hρ hown
  obtain ⟨rfl, rfl⟩ : ρ = 0 ∧ rootTy θ = T := by
    cases ρ with
    | zero => exact ⟨rfl, Option.some.inj hroot⟩
    | succ ρ => cases hroot
  obtain ⟨σ, hσ, -⟩ := Option.map_eq_some_iff.1 ht
  obtain ⟨b, hb, rfl, -⟩ := Builtins.exists_of_get?_standard hσ
  have hdefines := Builtins.defines_standard b hb
  unfold Store.defines at hdefines
  split at hdefines
  · next sc₀ hsc₀ =>
    obtain ⟨sc', hsc', -, hbound⟩ := hst 0 sc₀ hsc₀
    cases hsc.symm.trans hsc'
    exact hbound b.name (Option.isSome_iff_ne_none.1 hdefines) hx
  · cases hdefines

end Start

/-! ## Evaluation -/

/-- Inference is sound for the machine on terms without `let`: every outcome of a term that it
accepts is a value of the inferred kind, and every value that a parameter is bound to, in the scope
of whichever closure and whenever, has the one type that inference has found for the parameter. -/
theorem eval_letFree_safe {e : Term} {σ : Scheme} (he : e.letFree)
    (hσ : infer (Builtins.standard.declareIn ∅) e = .ok σ) (fuel : Nat) :
    ∃ outcome s W, (evalNoted fuel 0 [] e).runFrom
        { store := (Session.start.install .standard).store } = (outcome, s) ∧
      (eval fuel 0 e).runFrom (Session.start.install .standard).store =
        outcome.map (·, s.store) ∧
      (∀ r, outcome = some r → ∃ v, r = .ok v ∧ v.Matches σ.body) ∧
      StoreTyped (ParamTy (Builtins.standard.declareIn ∅) e) W s.store ∧
      ∀ note ∈ s.bound, ∃ p u, s.origin note.scope = some p ∧
        (∀ u', ParamTy (Builtins.standard.declareIn ∅) e p note.param u' ↔ u' = u) ∧
        ValueTyped (ParamTy (Builtins.standard.declareIn ∅) e) W note.value u := by
  obtain ⟨θ, t, htyped, hinst⟩ := infer_typedAt Builtins.standard_monomorphic he hσ
  have hstart := notedTyped_standard (τ := ParamTy (Builtins.standard.declareIn ∅) e) θ
  have hroot : [rootTy θ][0]? = some (rootTy θ) := rfl
  obtain ⟨W, hW, hst, hnoted, hok, herror⟩ := evalNoted_safe fuel hstart
    (hstart.store.ready_root hroot rfl) hroot htyped
  have heval := evalNoted_erases fuel 0 [] e { store := (Session.start.install .standard).store }
  refine ⟨_, _, W, rfl, heval, fun r hr => ?_, hnoted.store, fun note hnote => ?_⟩
  · cases r with
    | error err =>
      obtain ⟨x, -, hx⟩ := herror err hr
      exact absurd hx (not_lacks_standard hW hst)
    | ok v => exact ⟨v, rfl, .of_hasInstance hinst (hok v hr).kind⟩
  · obtain ⟨T, parent, u, p, hT, -, hmade, hparam, hv⟩ := hnoted.bound note hnote
    refine ⟨p, u, (hnoted.origin_eq hT).trans hmade, fun u' => ⟨fun hu' => ?_, ?_⟩, hv⟩
    · exact (hu'.unique hparam).2
    · rintro rfl
      exact hparam

/-! ## A sample term -/

/-- A function that is applied to a result of its own, `(\f f (f True)) (\x not x)`. -/
def twiceTerm : Term :=
  .app (.lam "f" (.app (.var "f") (.app (.var "f") (.bool true))))
    (.lam "x" (.app (.var "not") (.var "x")))

/-- The parameter of the inner function is bound twice, each time to a value of its type. -/
theorem eval_letFree_safe_twice :
    ∃ s W, (evalNoted 20 0 [] twiceTerm).runFrom
        { store := (Session.start.install .standard).store } = (some (.ok (.bool true)), s) ∧
      s.bound.map (fun note => (note.scope, note.param)) = [(2, "x"), (2, "x"), (1, "f")] ∧
      ∀ note ∈ s.bound, ∃ p u, s.origin note.scope = some p ∧
        ParamTy (Builtins.standard.declareIn ∅) twiceTerm p note.param u ∧
        ValueTyped (ParamTy (Builtins.standard.declareIn ∅) twiceTerm) W note.value u := by
  have hσ : infer (Builtins.standard.declareIn ∅) twiceTerm = .ok (.mono .bool) := by cbv
  obtain ⟨outcome, s, W, hrun, -, -, -, hbound⟩ := eval_letFree_safe (by decide) hσ 20
  have hshape : (((evalNoted 20 0 [] twiceTerm).runFrom
      { store := (Session.start.install .standard).store }).1,
      ((evalNoted 20 0 [] twiceTerm).runFrom
        { store := (Session.start.install .standard).store }).2.bound.map
          fun note => (note.scope, note.param)) =
      (some (.ok (.bool true)), [(2, "x"), (2, "x"), (1, "f")]) := by cbv
  rw [hrun] at hshape
  obtain ⟨rfl, hnotes⟩ := Prod.mk.inj hshape
  refine ⟨s, W, hrun, hnotes, fun note hnote => ?_⟩
  obtain ⟨p, u, hp, hparam, hv⟩ := hbound note hnote
  exact ⟨p, u, hp, (hparam u).2 rfl, hv⟩

end LetPoly
