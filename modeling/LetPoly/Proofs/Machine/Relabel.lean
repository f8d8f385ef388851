import Mathlib.Algebra.Group.End
import LetPoly.Proofs.Machine.Frame

/-!
# Evaluation does not depend on the numbers of scopes

Two stores that differ by the numbers of their scopes stay so along evaluation: whatever the first
run gives, the second one gives with the numbers changed.  The two make new scopes in lockstep, so
one permutation, which moves only scopes that are there from the start, serves for the whole run.
-/

namespace LetPoly

open EvalM

/-! ## Values, scopes and stores with other numbers -/

/-- The value with the scopes of its functions sent through `π`. -/
def Value.relabel (π : ScopeId → ScopeId) : Value → Value
  | closure x body ρ => closure x body (π ρ)
  | native id (.always v) => native id (.always (v.relabel π))
  | v => v

def Native.relabel (π : ScopeId → ScopeId) : Native Value → Native Value
  | always v => always (v.relabel π)
  | fn => fn

def Scope.relabel (π : ScopeId → ScopeId) (sc : Scope) : Scope where
  parent := sc.parent.map π
  bindings := sc.bindings.mapVal (Value.relabel π)

namespace Value

variable {π : ScopeId → ScopeId}

@[simp]
theorem relabel_native (id : Nat) (fn : Native Value) :
    (native id fn).relabel π = native id (fn.relabel π) := by
  cases fn <;> rfl

@[simp]
theorem text_relabel (v : Value) : (v.relabel π).text = v.text := by
  cases v with
  | native id fn =>
    rw [relabel_native]
    rfl
  | num | bool | closure => rfl

@[simp]
theorem isCallable_relabel (v : Value) : (v.relabel π).isCallable = v.isCallable := by
  cases v with
  | native id fn =>
    rw [relabel_native]
    rfl
  | num | bool | closure => rfl

theorem asNum_relabel (v : Value) : (v.relabel π).asNum = v.asNum := by
  cases v with
  | native id fn =>
    rw [relabel_native]
    rfl
  | num | bool | closure => rfl

theorem asBool_relabel (v : Value) : (v.relabel π).asBool = v.asBool := by
  cases v with
  | native id fn =>
    rw [relabel_native]
    rfl
  | num | bool | closure => rfl

theorem relabel_relabel (π' : ScopeId → ScopeId) : ∀ v : Value,
    (v.relabel π).relabel π' = v.relabel (π' ∘ π)
  | num _ | bool _ | closure _ _ _ => rfl
  | native id fn => by
    cases fn with
    | always v => exact congrArg (fun w => native id (.always w)) (relabel_relabel π' v)
    | _ => rfl

theorem relabel_eq_self : ∀ {v : Value}, (∀ f ∈ v.functions, π f.1 = f.1) → v.relabel π = v
  | num _, _ | bool _, _ => rfl
  | closure x body ρ, h => congrArg (closure x body) (h (ρ, x) (List.mem_singleton.2 rfl))
  | native id fn, h => by
    cases fn with
    | always v => exact congrArg (fun w => native id (.always w)) (relabel_eq_self h)
    | _ => rfl

end Value

theorem Scope.relabel_relabel (π π' : ScopeId → ScopeId) (sc : Scope) :
    (sc.relabel π).relabel π' = sc.relabel (π' ∘ π) := by
  have hparent : (sc.parent.map π).map π' = sc.parent.map (π' ∘ π) := Option.map_map ..
  have hbindings : (sc.bindings.mapVal (Value.relabel π)).mapVal (Value.relabel π') =
      sc.bindings.mapVal (Value.relabel (π' ∘ π)) := by
    rw [SortedMap.mapVal_mapVal]
    exact congrArg sc.bindings.mapVal (funext (Value.relabel_relabel π'))
  simp only [relabel, hparent, hbindings]

/-- The second store is the first one with its scopes numbered by `π`, which leaves alone the
numbers that are not yet in use. -/
structure Store.Relabels (π : Equiv.Perm ScopeId) (st st' : Store) : Prop where
  natives : st'.natives = st.natives
  size : st'.scopes.size = st.scopes.size
  scopes : ∀ ρ : ScopeId, st'.scopes[π ρ]? = st.scopes[ρ]?.map (Scope.relabel π)
  fixes : ∀ ρ ≥ st.scopes.size, π ρ = ρ
  /-- Look-ups go on in a parent that is older, in one store if and only if in the other. -/
  order : ∀ (ρ p : ScopeId) (sc : Scope), st.scopes[ρ]? = some sc → sc.parent = some p →
    (π p < π ρ ↔ p < ρ)

namespace Store.Relabels

variable {π π' : Equiv.Perm ScopeId} {st st' st'' : Store} {ρ : ScopeId} {x : String} {v : Value}

theorem lt_iff (h : Relabels π st st') (ρ : ScopeId) :
    π ρ < st.scopes.size ↔ ρ < st.scopes.size := by
  constructor
  · intro hlt
    by_contra hge
    rw [h.fixes ρ (Nat.le_of_not_lt hge)] at hlt
    exact hge hlt
  · intro hlt
    by_contra hge
    have hfix := h.fixes _ (Nat.le_of_not_lt hge)
    rw [π.injective hfix] at hge
    exact hge hlt

theorem trans (h : Relabels π st st') (h' : Relabels π' st' st'') : Relabels (π' * π) st st'' where
  natives := h'.natives.trans h.natives
  size := h'.size.trans h.size
  scopes ρ := by
    rw [Equiv.Perm.mul_apply, h'.scopes, h.scopes, Option.map_map]
    exact congrArg (Option.map · _) (funext (Scope.relabel_relabel π π'))
  fixes ρ hρ := by
    rw [Equiv.Perm.mul_apply, h.fixes ρ hρ, h'.fixes ρ (h.size ▸ hρ)]
  order ρ p sc hsc hp := by
    have hsc' : st'.scopes[π ρ]? = some (sc.relabel π) := by rw [h.scopes, hsc]; rfl
    have hp' : (sc.relabel π).parent = some (π p) := congrArg (Option.map π) hp
    exact (h'.order _ _ _ hsc' hp').trans (h.order ρ p sc hsc hp)

theorem setNatives (h : Relabels π st st') (k : Nat) :
    Relabels π { st with natives := k } { st' with natives := k } :=
  ⟨rfl, h.size, h.scopes, h.fixes, h.order⟩

theorem nextScope (h : Relabels π st st') : π st.nextScope = st'.nextScope :=
  (h.fixes _ (Nat.le_refl _)).trans h.size.symm

theorem addScope (h : Relabels π st st') (ρ : ScopeId) :
    Relabels π (st.addScope (some ρ)) (st'.addScope (some (π ρ))) where
  natives := h.natives
  size := by rw [Store.addScope, Store.addScope, Array.size_push, Array.size_push, h.size]
  scopes i := by
    have hi : π i = st'.scopes.size ↔ i = st.scopes.size := by
      rw [← π.injective.eq_iff (a := i), ← Store.nextScope, ← Store.nextScope, h.nextScope]
    rw [getElem?_addScope, getElem?_addScope, h.scopes]
    simp only [hi]
    split <;> rfl
  fixes i hi := by
    rw [Store.addScope, Array.size_push] at hi
    exact h.fixes i (Nat.le_of_succ_le hi)
  order i p sc hsc hp := by
    rw [getElem?_addScope] at hsc
    split at hsc
    · next heq =>
      cases hsc
      cases hp
      rw [heq, h.fixes _ (Nat.le_refl _)]
      exact h.lt_iff ρ
    · exact h.order i p sc hsc hp

theorem define (h : Relabels π st st') (ρ : ScopeId) (x : String) (v : Value) :
    Relabels π (st.define ρ x v) (st'.define (π ρ) x (v.relabel π)) where
  natives := h.natives
  size := by rw [Store.define, Store.define, Array.size_modify, Array.size_modify, h.size]
  scopes i := by
    rw [getElem?_define, getElem?_define, h.scopes]
    simp only [π.injective.eq_iff]
    split
    · rw [Option.map_map, Option.map_map]
      refine congrArg (Option.map · _) (funext fun sc => ?_)
      exact congrArg (Scope.mk _) (SortedMap.mapVal_insert _ _ _ _).symm
    · rfl
  fixes i hi := by
    rw [Store.define, Array.size_modify] at hi
    exact h.fixes i hi
  order i p sc hsc hp := by
    rw [getElem?_define] at hsc
    split at hsc
    · obtain ⟨sc', hsc', rfl⟩ := Option.map_eq_some_iff.1 hsc
      exact h.order i p sc' hsc' hp
    · exact h.order i p sc hsc hp

theorem lookup (h : Relabels π st st') (x : String) (ρ : ScopeId) :
    st'.lookup? (π ρ) x = (st.lookup? ρ x).map (Value.relabel π) := by
  induction ρ using Nat.strong_induction_on with
  | h ρ ih =>
    have hρ := h.scopes ρ
    cases hsc : st.scopes[ρ]? with
    | none =>
      rw [hsc] at hρ
      rw [lookup?_of_missing hsc, lookup?_of_missing hρ]
      rfl
    | some sc =>
      rw [hsc] at hρ
      have hx' : (sc.relabel π).bindings.get? x = (sc.bindings.get? x).map (Value.relabel π) :=
        SortedMap.get?_mapVal _ _ _
      cases hx : sc.bindings.get? x with
      | some v =>
        rw [lookup?_of_bound hsc hx, lookup?_of_bound hρ (hx'.trans (by rw [hx]; rfl))]
        rfl
      | none =>
        rw [lookup?_of_unbound hsc hx, lookup?_of_unbound hρ (hx'.trans (by rw [hx]; rfl))]
        cases hp : sc.parent with
        | none => rw [Scope.relabel, hp]; rfl
        | some p =>
          have hp' : (sc.relabel π).parent = some (π p) := congrArg (Option.map π) hp
          rw [hp', Option.elim_some, Option.elim_some]
          by_cases hlt : p < ρ
          · rw [if_pos hlt, if_pos ((h.order ρ p sc hsc hp).2 hlt), ih p hlt]
          · rw [if_neg hlt, if_neg (mt (h.order ρ p sc hsc hp).1 hlt)]
            rfl

end Store.Relabels

/-! ## Steps -/

/-- The second step does what the first one does, with the scopes of the store numbered by `π` and
the result sent through `f`. -/
def Mirrors {α β : Type} (π : Equiv.Perm ScopeId) (f : α → β) (m : EvalM α) (st : Store)
    (m' : EvalM β) (st' : Store) : Prop :=
  Option.Rel (fun o o' => o'.1 = o.1.map f ∧ o.2.Relabels π o'.2) (m.runFrom st) (m'.runFrom st')

namespace Mirrors

variable {α β γ δ : Type} {π : Equiv.Perm ScopeId} {st st' : Store} {f : α → β} {g : γ → δ}
  {m : EvalM α} {m' : EvalM β}

theorem pure (h : st.Relabels π st') {a : α} {b : β} (hab : b = f a) :
    Mirrors π f (Pure.pure a) st (Pure.pure b) st' := by
  subst hab
  exact .some ⟨rfl, h⟩

theorem throw (h : st.Relabels π st') {e e' : RuntimeError} (he : e' = e) :
    Mirrors π f (MonadExcept.throw e) st (MonadExcept.throw e') st' := by
  subst he
  exact .some ⟨rfl, h⟩

theorem bind {k : α → EvalM γ} {k' : β → EvalM δ} (hm : Mirrors π f m st m' st')
    (hk : ∀ a st₁ st₁', st₁.Relabels π st₁' → Mirrors π g (k a) st₁ (k' (f a)) st₁') :
    Mirrors π g (m >>= k) st (m' >>= k') st' := by
  unfold Mirrors
  rw [runFrom_bind, runFrom_bind]
  rcases optionRel_cases hm with ⟨hnone, hnone'⟩ | ⟨⟨r, st₁⟩, ⟨r', st₁'⟩, hsome, hsome', hr, hst⟩
  · rw [hnone, hnone']
    exact .none
  · rw [hsome, hsome']
    cases hr
    cases r with
    | error e => exact .some ⟨rfl, hst⟩
    | ok a => exact hk a st₁ st₁' hst

theorem newScope (h : st.Relabels π st') (ρ : ScopeId) :
    Mirrors π π (EvalM.newScope (some ρ)) st (EvalM.newScope (some (π ρ))) st' :=
  .some ⟨congrArg Except.ok h.nextScope.symm, h.addScope ρ⟩

theorem define (h : st.Relabels π st') (ρ : ScopeId) (x : String) (v : Value) :
    Mirrors π id (EvalM.define ρ x v) st (EvalM.define (π ρ) x (v.relabel π)) st' :=
  .some ⟨rfl, h.define ρ x v⟩

theorem lookup (h : st.Relabels π st') (ρ : ScopeId) (x : String) :
    Mirrors π (Value.relabel π) (EvalM.lookup ρ x) st (EvalM.lookup (π ρ) x) st' := by
  unfold Mirrors
  rw [runFrom_lookup, runFrom_lookup, h.lookup]
  cases st.lookup? ρ x with
  | none => exact .some ⟨rfl, h⟩
  | some v => exact .some ⟨rfl, h⟩

theorem newNative (h : st.Relabels π st') (fn : Native Value) :
    Mirrors π (Value.relabel π) (EvalM.newNative fn) st (EvalM.newNative (fn.relabel π)) st' := by
  refine .some ⟨?_, ?_⟩
  · rw [h.natives]
    exact congrArg Except.ok (Value.relabel_native _ _).symm
  · rw [h.natives]
    exact h.setNatives _

theorem call (h : st.Relabels π st') (fn : Native Value) (v : Value) :
    Mirrors π (Value.relabel π) (fn.call v) st ((fn.relabel π).call (v.relabel π)) st' := by
  have hnum : ∀ k k' : Float → EvalM Value,
      (∀ n, Mirrors π (Value.relabel π) (k n) st (k' n) st') →
      Mirrors π (Value.relabel π) (do k (← v.asNum)) st (do k' (← (v.relabel π).asNum)) st' := by
    intro k k' hk
    rw [v.asNum_relabel]
    cases v with
    | num n => exact hk n
    | bool | closure | native => exact .throw h rfl
  have hbool : ∀ k k' : Bool → EvalM Value,
      (∀ b, Mirrors π (Value.relabel π) (k b) st (k' b) st') →
      Mirrors π (Value.relabel π) (do k (← v.asBool)) st (do k' (← (v.relabel π).asBool)) st' := by
    intro k k' hk
    rw [v.asBool_relabel]
    cases v with
    | bool b => exact hk b
    | num | closure | native => exact .throw h rfl
  cases fn with
  | binary op => exact hnum _ _ fun n => .newNative h (.binaryWith op n)
  | binaryWith op a => exact hnum _ _ fun b => .pure h (by cases op <;> rfl)
  | not => exact hbool _ _ fun b => .pure h rfl
  | isNonpositive | isZero | decrement | increment | double =>
    exact hnum _ _ fun n => .pure h rfl
  | same => exact .pure h rfl
  | const => exact .newNative h (.always v)
  | always w => exact .pure h rfl
  | reject => exact .throw h (by rw [v.text_relabel])

end Mirrors

/-! ## Evaluation -/

section Eval

variable {π : Equiv.Perm ScopeId} {st st' : Store}

theorem applyWith_mirrors {run : ScopeId → Term → EvalM Value}
    (hrun : ∀ (st st' : Store) (ρ : ScopeId) (e : Term), st.Relabels π st' →
      Mirrors π (Value.relabel π) (run ρ e) st (run (π ρ) e) st')
    (h : st.Relabels π st') (f a : Value) : Mirrors π (Value.relabel π) (applyWith run f a) st
      (applyWith run (f.relabel π) (a.relabel π)) st' := by
  cases f with
  | num | bool => exact .throw h rfl
  | closure x body ρ => exact (Mirrors.define h ρ x a).bind fun _ st₁ st₁' h₁ => hrun _ _ ρ body h₁
  | native id fn =>
    rw [Value.relabel_native]
    exact .call h fn a

/-- Evaluation in stores that differ by the numbers of scopes gives the same up to these numbers. -/
theorem eval_mirrors (π : Equiv.Perm ScopeId) (fuel : Nat) :
    ∀ (st st' : Store) (ρ : ScopeId) (e : Term), st.Relabels π st' →
      Mirrors π (Value.relabel π) (eval fuel ρ e) st (eval fuel (π ρ) e) st' := by
  induction fuel with
  | zero => exact fun _ _ _ _ _ => .none
  | succ fuel ih =>
    intro st st' ρ e h
    cases e with
    | num v => exact .pure h rfl
    | bool b => exact .pure h rfl
    | var x => exact .lookup h ρ x
    | ite c a b =>
      refine (ih st st' ρ c h).bind fun v st₁ st₁' h₁ => ?_
      cases v with
      | bool q =>
        cases q with
        | true => exact ih st₁ st₁' ρ a h₁
        | false => exact ih st₁ st₁' ρ b h₁
      | num | closure => exact .throw h₁ rfl
      | native id fn =>
        rw [Value.relabel_native]
        exact .throw h₁ rfl
    | letIn x d b =>
      refine (ih st st' ρ d h).bind fun v st₁ st₁' h₁ => ?_
      refine (Mirrors.newScope h₁ ρ).bind fun inner st₂ st₂' h₂ => ?_
      exact (Mirrors.define h₂ inner x v).bind fun _ st₃ st₃' h₃ => ih st₃ st₃' inner b h₃
    | lam x b => exact (Mirrors.newScope h ρ).bind fun inner st₁ st₁' h₁ => .pure h₁ rfl
    | app f a =>
      refine (ih st st' ρ f h).bind fun v st₁ st₁' h₁ => ?_
      rw [v.isCallable_relabel]
      split
      · exact (ih st₁ st₁' ρ a h₁).bind fun w st₂ st₂' h₂ => applyWith_mirrors ih h₂ v w
      · exact .throw h₁ (by rw [v.text_relabel])

end Eval

end LetPoly
