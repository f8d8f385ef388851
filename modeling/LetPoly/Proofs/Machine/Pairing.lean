import Mathlib.Data.Nat.Basic
import LetPoly.Proofs.Machine.FirstOrder
import LetPoly.Proofs.Machine.Scoping
import LetPoly.Session.Basic

/-!
# Shared scopes are invisible to functions that are applied once

Evaluation with shared scopes (`eval`) and with a scope for each application (`Scoping.fresh`) are
run side by side.  A pairing tells which scope of the second store stands for which of the first.  A
scope that was made for a parameter has no partner until its function is applied; until then it is
empty, and what the function of the second store holds is the partner of its parent.

A scope for the parameter gets its partner when the function is applied, and binds the parameter
from then on.  So as long as functions are applied only while their parameter is not bound, paired
scopes have the same parents and paired bindings.
-/

namespace LetPoly

open EvalM

/-- Which scopes of two stores belong together. -/
structure Pairing where
  /-- The scope of the second store with the same bindings. -/
  twin : ScopeId → Option ScopeId
  /-- For a scope made for a parameter: the parameter, and the scope that the function holds in the
  second store. -/
  held : ScopeId → Option (String × ScopeId)

namespace Pairing

/-- The second pairing knows all that the first one does. -/
structure Extends (P P' : Pairing) : Prop where
  twin : ∀ ρ ι, P.twin ρ = some ι → P'.twin ρ = some ι
  held : ∀ ρ p, P.held ρ = some p → P'.held ρ = some p

theorem Extends.refl (P : Pairing) : P.Extends P := ⟨fun _ _ h => h, fun _ _ h => h⟩

theorem Extends.trans {P P₁ P₂ : Pairing} (h : P.Extends P₁) (h' : P₁.Extends P₂) :
    P.Extends P₂ where
  twin ρ ι hρ := h'.twin ρ ι (h.twin ρ ι hρ)
  held ρ p hρ := h'.held ρ p (h.held ρ p hρ)

/-- The scope `ρ` was made for the parameter `x` of a function that holds `ι`. -/
def hold (P : Pairing) (ρ : ScopeId) (x : String) (ι : ScopeId) : Pairing :=
  { P with held := Function.update P.held ρ (some (x, ι)) }

/-- The scopes `ρ` and `ι` have the same bindings from now on. -/
def join (P : Pairing) (ρ ι : ScopeId) : Pairing :=
  { P with twin := Function.update P.twin ρ (some ι) }

section

variable (P : Pairing) {ρ i : ScopeId} {x : String} (ι : ScopeId)

theorem held_hold_self : (P.hold ρ x ι).held ρ = some (x, ι) := Function.update_self _ _ _

theorem held_hold_of_ne (h : i ≠ ρ) : (P.hold ρ x ι).held i = P.held i :=
  Function.update_of_ne h _ _

theorem twin_join_self : (P.join ρ ι).twin ρ = some ι := Function.update_self _ _ _

theorem twin_join_of_ne (h : i ≠ ρ) : (P.join ρ ι).twin i = P.twin i := Function.update_of_ne h _ _

end

theorem extends_hold {P : Pairing} {ρ : ScopeId} (h : P.held ρ = none) (x : String) (ι : ScopeId) :
    P.Extends (P.hold ρ x ι) where
  twin _ _ hi := hi
  held i p hi := by
    have hne : i ≠ ρ := fun hc => by simp [hc, h] at hi
    exact (P.held_hold_of_ne ι hne).trans hi

theorem extends_join {P : Pairing} {ρ : ScopeId} (h : P.twin ρ = none) (ι : ScopeId) :
    P.Extends (P.join ρ ι) where
  twin i j hi := by
    have hne : i ≠ ρ := fun hc => by simp [hc, h] at hi
    exact (P.twin_join_of_ne ι hne).trans hi
  held _ _ hi := hi

end Pairing

/-! ## Values -/

/-- The values are equal up to the scope that a function holds, and those scopes belong together. -/
inductive Value.Paired (P : Pairing) : Value → Value → Prop
  | num {v} : Paired P (.num v) (.num v)
  | bool {b} : Paired P (.bool b) (.bool b)
  | closure {x body} {ρ ι : ScopeId} : P.held ρ = some (x, ι) →
      Paired P (.closure x body ρ) (.closure x body ι)
  | native {id} {fn : Native Value} : fn.ty? ≠ none → Paired P (.native id fn) (.native id fn)

namespace Value.Paired

variable {P P' : Pairing} {v v' : Value}

theorem mono (h : Paired P v v') (hP : P.Extends P') : Paired P' v v' := by
  cases h with
  | num => exact .num
  | bool => exact .bool
  | closure hρ => exact .closure (hP.held _ _ hρ)
  | native hfn => exact .native hfn

theorem of_firstOrder (P : Pairing) (h : v.FirstOrder) : Paired P v v := by
  cases v with
  | num => exact .num
  | bool => exact .bool
  | closure => exact h.elim
  | native => exact .native h

theorem text_eq (h : Paired P v v') : v.text = v'.text := by cases h <;> rfl

theorem isCallable_eq (h : Paired P v v') : v.isCallable = v'.isCallable := by cases h <;> rfl

theorem asNum_eq (h : Paired P v v') : v.asNum = v'.asNum := by cases h <;> rfl

theorem asBool_eq (h : Paired P v v') : v.asBool = v'.asBool := by cases h <;> rfl

theorem singleton (h : Paired P v v') (x y : String) : Option.Rel (Paired P)
    ((SortedMap.singleton x v).get? y) ((SortedMap.singleton x v').get? y) := by
  rw [SortedMap.get?_singleton, SortedMap.get?_singleton]
  split
  · exact .some h
  · exact .none

end Value.Paired

/-! ## Stores -/

/-- Two scopes with paired parents, made before them, and with paired bindings. -/
structure ScopesPaired (P : Pairing) (ρ ι : ScopeId) (sc sc' : Scope) : Prop where
  parent : Option.Rel (fun p q => p < ρ ∧ q < ι ∧ P.twin p = some q) sc.parent sc'.parent
  bindings : ∀ x, Option.Rel (Value.Paired P) (sc.bindings.get? x) (sc'.bindings.get? x)

/-- A scope for the parameter `x`, inside the partner of `ι`.  It is empty until it has a partner
itself, and then it binds the parameter. -/
structure ScopeHeld (P : Pairing) (ρ : ScopeId) (x : String) (ι : ScopeId) (sc : Scope) : Prop where
  parent : ∃ p, sc.parent = some p ∧ p < ρ ∧ P.twin p = some ι
  empty : P.twin ρ = none → sc.bindings = ∅
  bound : P.twin ρ ≠ none → sc.bindings.get? x ≠ none

/-- The stores are as the pairing says. -/
structure StoresPaired (P : Pairing) (st st' : Store) : Prop where
  natives : st.natives = st'.natives
  twin : ∀ (ρ ι : ScopeId), P.twin ρ = some ι → ∃ sc sc' : Scope,
    st.scopes[ρ]? = some sc ∧ st'.scopes[ι]? = some sc' ∧ ScopesPaired P ρ ι sc sc'
  held : ∀ (ρ : ScopeId) (x : String) (ι : ScopeId), P.held ρ = some (x, ι) → ∃ sc : Scope,
    st.scopes[ρ]? = some sc ∧ ScopeHeld P ρ x ι sc

theorem ScopesPaired.mono {P P' : Pairing} {ρ ι : ScopeId} {sc sc' : Scope}
    (h : ScopesPaired P ρ ι sc sc') (hP : P.Extends P') : ScopesPaired P' ρ ι sc sc' where
  parent := optionRel_mono h.parent fun _ _ ⟨hp, hq, htwin⟩ => ⟨hp, hq, hP.twin _ _ htwin⟩
  bindings x := optionRel_mono (h.bindings x) fun _ _ hv => hv.mono hP

-- A scope that keeps its partner, or its lack of one, stays as it is.
theorem ScopeHeld.mono {P P' : Pairing} {ρ ι : ScopeId} {x : String} {sc : Scope}
    (h : ScopeHeld P ρ x ι sc) (hP : P.Extends P') (hρ : P'.twin ρ = P.twin ρ) :
    ScopeHeld P' ρ x ι sc where
  parent := by
    obtain ⟨p, hparent, hp, htwin⟩ := h.parent
    exact ⟨p, hparent, hp, hP.twin _ _ htwin⟩
  empty hnone := h.empty (hρ ▸ hnone)
  bound hsome := h.bound (hρ ▸ hsome)

namespace StoresPaired

variable {P : Pairing} {st st' : Store} {ρ ι : ScopeId} {x : String} {v v' : Value}

theorem lt_of_twin (h : StoresPaired P st st') (hρ : P.twin ρ = some ι) :
    ρ < st.scopes.size ∧ ι < st'.scopes.size := by
  obtain ⟨sc, sc', hsc, hsc', -⟩ := h.twin ρ ι hρ
  exact ⟨(Array.getElem?_eq_some_iff.1 hsc).1, (Array.getElem?_eq_some_iff.1 hsc').1⟩

theorem lt_of_held (h : StoresPaired P st st') (hρ : P.held ρ = some (x, ι)) :
    ρ < st.scopes.size := by
  obtain ⟨sc, hsc, -⟩ := h.held ρ x ι hρ
  exact (Array.getElem?_eq_some_iff.1 hsc).1

theorem twin_nextScope (h : StoresPaired P st st') : P.twin st.nextScope = none := by
  cases htwin : P.twin st.nextScope with
  | none => rfl
  | some ι => exact absurd (h.lt_of_twin htwin).1 (Nat.lt_irrefl _)

theorem held_nextScope (h : StoresPaired P st st') : P.held st.nextScope = none := by
  cases hheld : P.held st.nextScope with
  | none => rfl
  | some p => exact absurd (h.lt_of_held hheld) (Nat.lt_irrefl _)

theorem setNatives (h : StoresPaired P st st') (k : Nat) :
    StoresPaired P { st with natives := k } { st' with natives := k } :=
  ⟨rfl, h.twin, h.held⟩

-- Paired scopes see paired values, however far out they are bound.
theorem lookup (h : StoresPaired P st st') (x : String) :
    ∀ {ρ ι : ScopeId}, P.twin ρ = some ι →
      Option.Rel (Value.Paired P) (st.lookup? ρ x) (st'.lookup? ι x) := by
  intro ρ
  induction ρ using Nat.strong_induction_on with
  | h ρ ih =>
    intro ι hρ
    obtain ⟨sc, sc', hsc, hsc', hparent, hbindings⟩ := h.twin ρ ι hρ
    rcases optionRel_cases (hbindings x) with ⟨hx, hx'⟩ | ⟨v, v', hx, hx', hv⟩
    · rcases optionRel_cases hparent with ⟨hroot, hroot'⟩ | ⟨p, q, hp, hq, hlt, hlt', htwin⟩
      · rw [Store.lookup?_of_root hsc hx hroot, Store.lookup?_of_root hsc' hx' hroot']
        exact .none
      · rw [Store.lookup?_of_parent hsc hx hp hlt, Store.lookup?_of_parent hsc' hx' hq hlt']
        exact ih p hlt htwin
    · rw [Store.lookup?_of_bound hsc hx, Store.lookup?_of_bound hsc' hx']
      exact .some hv

-- A function is made: the first store gets a scope for the parameter, the second one nothing.
theorem hold (h : StoresPaired P st st') (hρ : P.twin ρ = some ι) (x : String) :
    StoresPaired (P.hold st.nextScope x ι) (st.addScope (some ρ)) st' where
  natives := h.natives
  twin i j hi := by
    obtain ⟨sc, sc', hsc, hsc', hpair⟩ := h.twin i j hi
    have hne : i ≠ st.scopes.size := Nat.ne_of_lt (h.lt_of_twin hi).1
    refine ⟨sc, sc', ?_, hsc', hpair.mono (Pairing.extends_hold h.held_nextScope x ι)⟩
    rw [Store.getElem?_addScope, if_neg hne, hsc]
  held i y j hi := by
    have hP := Pairing.extends_hold h.held_nextScope x ι
    by_cases hne : i = st.nextScope
    · subst hne
      obtain ⟨rfl, rfl⟩ : x = y ∧ ι = j := by simpa using (P.held_hold_self ι).symm.trans hi
      refine ⟨{ parent := some ρ }, ?_, ⟨ρ, rfl, (h.lt_of_twin hρ).1, hP.twin _ _ hρ⟩,
        fun _ => rfl, fun hsome => absurd h.twin_nextScope hsome⟩
      exact (st.getElem?_addScope _ _).trans (if_pos rfl)
    · obtain ⟨sc, hsc, hheld⟩ := h.held i y j ((P.held_hold_of_ne ι hne).symm.trans hi)
      refine ⟨sc, ?_, hheld.mono hP rfl⟩
      exact (st.getElem?_addScope _ _).trans ((if_neg hne).trans hsc)

-- A scope for a parameter that it does not bind has no partner yet.
theorem twin_eq_none (h : StoresPaired P st st') (hρ : P.held ρ = some (x, ι))
    (hnew : st.defines ρ x = false) : P.twin ρ = none := by
  obtain ⟨sc, hsc, hheld⟩ := h.held ρ x ι hρ
  by_contra hsome
  have hx : sc.bindings.contains x = true := Option.isSome_iff_ne_none.2 (hheld.bound hsome)
  unfold Store.defines at hnew
  rw [hsc] at hnew
  exact absurd (hx.symm.trans hnew) (by decide)

-- A function is applied for the first time: the first store binds the parameter in the scope made
-- for it, the second one in a new scope inside the one that the function holds.
theorem enter (h : StoresPaired P st st') (hρ : P.held ρ = some (x, ι))
    (hnew : st.defines ρ x = false) (hv : Value.Paired P v v') :
    P.Extends (P.join ρ st'.nextScope) ∧ StoresPaired (P.join ρ st'.nextScope) (st.define ρ x v)
      ((st'.addScope (some ι)).define st'.nextScope x v') := by
  have hnone := h.twin_eq_none hρ hnew
  have hP := Pairing.extends_join hnone st'.nextScope
  obtain ⟨sc, hsc, ⟨p, hparent, hp, hι⟩, hempty, -⟩ := h.held ρ x ι hρ
  have hdefine := Store.getElem?_define_self hsc x v
  refine ⟨hP, h.natives, fun i j hi => ?_, fun i y j hi => ?_⟩
  · by_cases hne : i = ρ
    · subst hne
      cases (P.twin_join_self st'.nextScope).symm.trans hi
      refine ⟨_, _, hdefine, (st'.getElem?_addScope_define _ _ _ _).trans (if_pos rfl), ?_, ?_⟩
      · rw [hparent]
        exact .some ⟨hp, (h.lt_of_twin hι).2, hP.twin _ _ hι⟩
      · rw [hempty hnone]
        exact (hv.mono hP).singleton x
    · have hi : P.twin i = some j := (P.twin_join_of_ne _ hne).symm.trans hi
      obtain ⟨sci, scj, hsci, hscj, hpair⟩ := h.twin i j hi
      have hj : j ≠ st'.nextScope := Nat.ne_of_lt (h.lt_of_twin hi).2
      exact ⟨sci, scj, (st.getElem?_define_of_ne hne x v).trans hsci,
        (st'.getElem?_addScope_define _ _ _ _).trans ((if_neg hj).trans hscj), hpair.mono hP⟩
  · by_cases hne : i = ρ
    · subst hne
      cases hρ.symm.trans hi
      refine ⟨_, hdefine, ⟨p, hparent, hp, hP.twin _ _ hι⟩, fun hc => ?_, fun _ => ?_⟩
      · exact absurd ((P.twin_join_self st'.nextScope).symm.trans hc) (Option.some_ne_none _)
      · show (sc.bindings.insert x v).get? x ≠ none
        rw [SortedMap.get?_insert_self]
        exact Option.some_ne_none v
    · obtain ⟨sci, hsci, hheld⟩ := h.held i y j hi
      exact ⟨sci, (st.getElem?_define_of_ne hne x v).trans hsci,
        hheld.mono hP (P.twin_join_of_ne _ hne)⟩

-- A `let` is a function that is applied at once.
theorem bindNew (h : StoresPaired P st st') (hρ : P.twin ρ = some ι) (x : String)
    (hv : Value.Paired P v v') : ∃ P' : Pairing, P.Extends P' ∧
      P'.twin st.nextScope = some st'.nextScope ∧
      StoresPaired P' ((st.addScope (some ρ)).define st.nextScope x v)
        ((st'.addScope (some ι)).define st'.nextScope x v') := by
  have hP := Pairing.extends_hold h.held_nextScope x ι
  have hnew : (st.addScope (some ρ)).defines st.nextScope x = false := by
    unfold Store.defines
    rw [Store.getElem?_addScope, Store.nextScope, if_pos rfl]
    rfl
  obtain ⟨hP', hst⟩ := (h.hold hρ x).enter (P.held_hold_self ι) hnew (hv.mono hP)
  exact ⟨_, hP.trans hP', Pairing.twin_join_self _ _, hst⟩

end StoresPaired

/-! ## Steps -/

/-- Both fail with the same error, or both give values that are paired. -/
inductive OutcomesPaired (P : Pairing) :
    Except RuntimeError Value → Except RuntimeError Value → Prop
  | ok {v v' : Value} : v.Paired P v' → OutcomesPaired P (.ok v) (.ok v')
  | error {e} : OutcomesPaired P (.error e) (.error e)

/-- Every outcome of the first step has a paired one of the second, in stores that are still
paired. -/
def Follows (P : Pairing) (m : EvalM Value) (st : Store) (m' : EvalM Value) (st' : Store) : Prop :=
  Ensures m st fun r st₁ => ∃ r' st₁' P', m'.runFrom st' = some (r', st₁') ∧ P.Extends P' ∧
    StoresPaired P' st₁ st₁' ∧ OutcomesPaired P' r r'

namespace Follows

variable {P P' : Pairing} {st st' st₁ st₁' : Store} {m m' : EvalM Value}

theorem pure {v v' : Value} (h : StoresPaired P st st') (hv : v.Paired P v') :
    Follows P (Pure.pure v) st (Pure.pure v') st' :=
  ensures_of_run rfl ⟨.ok v', st', P, rfl, .refl P, h, .ok hv⟩

theorem throw {e e' : RuntimeError} (h : StoresPaired P st st') (he : e = e') :
    Follows P (MonadExcept.throw e) st (MonadExcept.throw e') st' :=
  ensures_of_run rfl ⟨.error e', st', P, rfl, .refl P, h, he ▸ .error⟩

theorem of_extends (hP : P.Extends P') (h : Follows P' m st m' st') : Follows P m st m' st' := by
  intro r st₁ hrun
  obtain ⟨r', st₁', P'', hrun', hP', hst, hr⟩ := h r st₁ hrun
  exact ⟨r', st₁', P'', hrun', hP.trans hP', hst, hr⟩

theorem bind {f f' : Value → EvalM Value} (hm : Follows P m st m' st')
    (hf : ∀ P' st₁ st₁' v v', P.Extends P' → StoresPaired P' st₁ st₁' → v.Paired P' v' →
      Follows P' (f v) st₁ (f' v') st₁') : Follows P (m >>= f) st (m' >>= f') st' := by
  refine Ensures.bind hm (fun v st₁ h => ?_) fun e st₁ h => ?_
  · obtain ⟨r', st₁', P', hrun, hP, hst, hr⟩ := h
    cases hr with
    | ok hv =>
      intro r st₂ hrun'
      obtain ⟨r'', st₂', P'', hrun'', hP', hst', hr'⟩ :=
        (hf P' st₁ st₁' v _ hP hst hv).of_extends hP r st₂ hrun'
      exact ⟨r'', st₂', P'', by rw [runFrom_bind, hrun]; exact hrun'', hP', hst', hr'⟩
  · obtain ⟨r', st₁', P', hrun, hP, hst, hr⟩ := h
    cases hr with
    | error => exact ⟨_, st₁', P', by rw [runFrom_bind, hrun], hP, hst, .error⟩

-- A first step of a known outcome on either side.
theorem of_run {α β : Type} {n : EvalM α} {n' : EvalM β} {f : α → EvalM Value}
    {f' : β → EvalM Value} {a : α} {b : β} (hn : n.runFrom st = some (.ok a, st₁))
    (hn' : n'.runFrom st' = some (.ok b, st₁')) (h : Follows P (f a) st₁ (f' b) st₁') :
    Follows P (n >>= f) st (n' >>= f') st' := by
  intro r st₂ hrun
  rw [runFrom_bind, hn] at hrun
  obtain ⟨r', st₂', P', hrun', hrest⟩ := h r st₂ hrun
  exact ⟨r', st₂', P', by rw [runFrom_bind, hn']; exact hrun', hrest⟩

theorem lookup {ρ ι : ScopeId} (h : StoresPaired P st st') (hρ : P.twin ρ = some ι) (x : String) :
    Follows P (EvalM.lookup ρ x) st (EvalM.lookup ι x) st' := by
  intro r st₁ hrun
  rw [runFrom_lookup] at hrun
  rw [runFrom_lookup]
  rcases optionRel_cases (h.lookup x hρ) with ⟨hx, hx'⟩ | ⟨v, v', hx, hx', hv⟩
  · rw [hx] at hrun
    cases hrun
    rw [hx']
    exact ⟨_, st', P, rfl, .refl P, h, .error⟩
  · rw [hx] at hrun
    cases hrun
    rw [hx']
    exact ⟨_, st', P, rfl, .refl P, h, .ok hv⟩

theorem call {fn : Native Value} {v v' : Value} (h : StoresPaired P st st') (hfn : fn.ty? ≠ none)
    (hv : v.Paired P v') : Follows P (fn.call v) st (fn.call v') st' := by
  rw [← Native.call_congr hfn hv.asNum_eq hv.asBool_eq]
  obtain ⟨r, k, hrun, hr⟩ := Native.call_answers hfn v st.natives
  refine ensures_of_run (hrun st rfl)
    ⟨r, _, P, hrun st' h.natives.symm, .refl P, h.setNatives k, ?_⟩
  rcases hr with ⟨w, rfl, hw⟩ | ⟨kind, text, rfl⟩
  · exact .ok (.of_firstOrder P hw)
  · exact .error

end Follows

/-! ## Evaluation -/

section Eval

variable {P : Pairing} {st st' : Store} {fuel : Nat}

theorem applyWith_once_follows {run run' : ScopeId → Term → EvalM Value} {f f' a a' : Value}
    (hrun : ∀ P st st' ρ ι e, StoresPaired P st st' → P.twin ρ = some ι →
      Follows P (run ρ e) st (run' ι e) st')
    (h : StoresPaired P st st') (hf : f.Paired P f') (ha : a.Paired P a') :
    Follows P (Scoping.once.applyWith run f a) st (Scoping.fresh.applyWith run' f' a') st' := by
  cases hf with
  | num => exact .throw h rfl
  | bool => exact .throw h rfl
  | native hfn => exact .call h hfn ha
  | @closure x body ρ ι hρ =>
    cases hdefines : st.defines ρ x with
    | true =>
      -- the parameter is bound already, so there is no outcome to follow
      have hnone : (Scoping.once.enter ρ x a).runFrom st = none := by
        rw [Scoping.runFrom_enter_once, hdefines]
        rfl
      intro r st₁ happly
      have happly : (Scoping.once.enter ρ x a >>= fun inner => run inner body).runFrom st =
        some (r, st₁) := happly
      rw [runFrom_bind, hnone] at happly
      cases happly
    | false =>
      obtain ⟨hP, hpaired⟩ := h.enter hρ hdefines ha
      have henter : (Scoping.once.enter ρ x a).runFrom st = some (.ok ρ, st.define ρ x a) := by
        rw [Scoping.runFrom_enter_once, hdefines]
        rfl
      exact .of_extends hP
        (.of_run henter rfl (hrun _ _ _ ρ _ body hpaired (Pairing.twin_join_self _ _)))

/-- Where functions are applied once only, evaluation with a scope for each application does the
same. -/
theorem eval_once_follows (fuel : Nat) :
    ∀ (P : Pairing) (st st' : Store) (ρ ι : ScopeId) (e : Term),
      StoresPaired P st st' → P.twin ρ = some ι →
      Follows P (Scoping.once.eval fuel ρ e) st (Scoping.fresh.eval fuel ι e) st' := by
  induction fuel with
  | zero =>
    intro P st st' ρ ι e _ _ r st₁ hrun
    cases hrun
  | succ fuel ih =>
    intro P st st' ρ ι e h hρ
    cases e with
    | num v => exact .pure h .num
    | bool b => exact .pure h .bool
    | var x => exact .lookup h hρ x
    | ite c a b =>
      refine (ih P st st' ρ ι c h hρ).bind fun P₁ st₁ st₁' v v' hP hst hv => ?_
      have hρ₁ := hP.twin ρ ι hρ
      cases hv with
      | @bool q =>
        cases q with
        | true => exact ih P₁ st₁ st₁' ρ ι a hst hρ₁
        | false => exact ih P₁ st₁ st₁' ρ ι b hst hρ₁
      | num => exact .throw hst rfl
      | closure => exact .throw hst rfl
      | native => exact .throw hst rfl
    | letIn x d b =>
      refine (ih P st st' ρ ι d h hρ).bind fun P₁ st₁ st₁' v v' hP hst hv => ?_
      obtain ⟨P₂, hP', hinner, hst'⟩ := hst.bindNew (hP.twin ρ ι hρ) x hv
      exact .of_extends hP' (.of_run rfl rfl (.of_run rfl rfl (ih P₂ _ _ _ _ b hst' hinner)))
    | lam x b =>
      have hP := Pairing.extends_hold h.held_nextScope x ι
      exact .of_extends hP
        (.of_run rfl rfl (.pure (h.hold hρ x) (.closure (P.held_hold_self ι))))
    | app f a =>
      refine (ih P st st' ρ ι f h hρ).bind fun P₁ st₁ st₁' v v' hP hst hv => ?_
      have hρ₁ := hP.twin ρ ι hρ
      rw [← hv.isCallable_eq]
      split
      · refine (ih P₁ st₁ st₁' ρ ι a hst hρ₁).bind fun P₂ st₂ st₂' w w' hP' hst' hw => ?_
        exact applyWith_once_follows ih hst' (hv.mono hP') hw
      · exact .throw hst (by rw [hv.text_eq])

end Eval

/-! ## Functions applied once -/

/-- What a caller can tell of values: numbers and truth values are equal, functions have the same
parameter and body, and natives are the same host function. -/
inductive Value.Alike : Value → Value → Prop
  | num {v} : Alike (.num v) (.num v)
  | bool {b} : Alike (.bool b) (.bool b)
  | closure {x body} {ρ ι : ScopeId} : Alike (.closure x body ρ) (.closure x body ι)
  | native {id} {fn : Native Value} : Alike (.native id fn) (.native id fn)

theorem Value.Paired.alike {P : Pairing} {v v' : Value} (h : v.Paired P v') : v.Alike v' := by
  cases h with
  | num => exact .num
  | bool => exact .bool
  | closure => exact .closure
  | native => exact .native

/-- Evaluation of the term from the store does not run out of fuel, nor apply a function while the
scope that the function holds binds its parameter. -/
def Term.AppliesOnce (e : Term) (fuel : Nat) (ρ : ScopeId) (st : Store) : Prop :=
  (Scoping.once.eval fuel ρ e).runFrom st ≠ none

-- A root is its own partner, and nothing else has one.
theorem storesPaired_root {st : Store} {ρ : ScopeId} {sc : Scope} (hρ : st.scopes[ρ]? = some sc)
    (hroot : sc.parent = none) (hvalues : ∀ v ∈ sc.bindings.values, v.FirstOrder) :
    StoresPaired (Pairing.join ⟨fun _ => none, fun _ => none⟩ ρ ρ) st st := by
  refine ⟨rfl, fun i j hi => ?_, fun i x j hi => by cases hi⟩
  by_cases hne : i = ρ
  · subst hne
    cases (Pairing.twin_join_self _ _).symm.trans hi
    refine ⟨sc, sc, hρ, hρ, by rw [hroot]; exact .none, fun x => ?_⟩
    cases hx : sc.bindings.get? x with
    | none => exact .none
    | some v =>
      exact .some (.of_firstOrder _ (hvalues v (SortedMap.mem_values_iff.2 ⟨x, hx⟩)))
  · cases (Pairing.twin_join_of_ne _ _ hne).symm.trans hi

/-- Shared scopes do not show where functions are applied once.  Evaluation in a root that binds
numbers, truth values and host functions on them, in which no function is applied while its scope
binds its parameter, has the outcome that evaluation with a scope for each application has: the same
error, or a value that looks the same. -/
theorem eval_eq_fresh_of_appliesOnce {st st₁ : Store} {ρ : ScopeId} {sc : Scope} {e : Term}
    {fuel : Nat} {r : Except RuntimeError Value} (hρ : st.scopes[ρ]? = some sc)
    (hroot : sc.parent = none) (hvalues : ∀ v ∈ sc.bindings.values, v.FirstOrder)
    (heval : (eval fuel ρ e).runFrom st = some (r, st₁)) (honce : e.AppliesOnce fuel ρ st) :
    ∃ r' st₂, (Scoping.fresh.eval fuel ρ e).runFrom st = some (r', st₂) ∧
      ((∃ err, r = .error err ∧ r' = .error err) ∨
        ∃ v v', r = .ok v ∧ r' = .ok v' ∧ v.Alike v') := by
  obtain ⟨o, ho⟩ := Option.ne_none_iff_exists'.1 honce
  have hrun : (Scoping.once.eval fuel ρ e).runFrom st = some (r, st₁) := by
    rw [ho, ← Scoping.eval_once_refines fuel ρ e st o ho, heval]
  obtain ⟨r', st₂, P, hfresh, -, -, hr⟩ := eval_once_follows fuel _ st st ρ ρ e
    (storesPaired_root hρ hroot hvalues) (Pairing.twin_join_self _ _) r st₁ hrun
  refine ⟨r', st₂, hfresh, ?_⟩
  cases hr with
  | ok hv => exact .inr ⟨_, _, rfl, rfl, hv.alike⟩
  | error => exact .inl ⟨_, rfl, rfl⟩

/-! ## A sample term -/

/-- Builds a function with another one and applies both,
`let k = \x \y x in let f = k True in not (f 1)`. -/
def constantTerm : Term :=
  .letIn "k" (.lam "x" (.lam "y" (.var "x")))
    (.letIn "f" (.app (.var "k") (.bool true)) (.app (.var "not") (.app (.var "f") (.num 1))))

/-- The parameter of the outer function is still seen by the inner one that it gave back. -/
theorem eval_eq_fresh_of_appliesOnce_constant :
    constantTerm.AppliesOnce 20 0 (Session.start.install .standard).store ∧
      ∃ st₂, (Scoping.fresh.eval 20 0 constantTerm).runFrom
        (Session.start.install .standard).store = some (.ok (.bool false), st₂) := by
  have hscope : ∃ sc, (Session.start.install .standard).store.scopes[0]? = some sc ∧
      sc.parent = none ∧ ∀ v ∈ sc.bindings.values, v.FirstOrder :=
    ⟨_, rfl, rfl, by decide⟩
  obtain ⟨sc, hρ, hroot, hvalues⟩ := hscope
  have hrun : ((eval 20 0 constantTerm).runFrom (Session.start.install .standard).store).map (·.1) =
      some (.ok (.bool false)) := by with_unfolding_all rfl
  have honce : constantTerm.AppliesOnce 20 0 (Session.start.install .standard).store := by
    have hsome : ((Scoping.once.eval 20 0 constantTerm).runFrom
        (Session.start.install .standard).store).isSome = true := by with_unfolding_all rfl
    exact Option.isSome_iff_ne_none.1 hsome
  obtain ⟨⟨r, st₁⟩, heval, rfl⟩ := Option.map_eq_some_iff.1 hrun
  obtain ⟨r', st₂, hfresh, hr⟩ := eval_eq_fresh_of_appliesOnce hρ hroot hvalues heval honce
  refine ⟨honce, st₂, ?_⟩
  rcases hr with ⟨err, herr, -⟩ | ⟨v, v', hv, rfl, halike⟩
  · cases herr
  · cases hv
    cases halike
    exact hfresh

end LetPoly
