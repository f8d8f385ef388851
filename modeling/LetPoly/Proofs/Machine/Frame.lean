import Mathlib.Data.Nat.Basic
import LetPoly.Proofs.Machine.Outcome
import LetPoly.Session.Basic

/-!
# What evaluation may change

An application binds the parameter of its function in the scope that the function holds.  All other
bindings go to new scopes, so that of the scopes that are already there no other binding changes,
however far from the place of evaluation they are.

Along a run it is known which functions there are, each by its scope and its parameter (`Owners`).
Functions that are made on the way hold new scopes, so that no new owner of an old scope comes up;
and of a new scope all owners have the same parameter, which is the only name that it binds.
-/

namespace LetPoly

open EvalM

/-! ## The functions in a store -/

/-- The functions in a value, each by the scope that it holds and its parameter.  A native that
always gives the same value has the functions of that value. -/
def Value.functions : Value → List (ScopeId × String)
  | closure x _ ρ => [(ρ, x)]
  | native _ (.always v) => v.functions
  | _ => []

namespace Store

/-- The functions in all values that are bound somewhere. -/
def functions (st : Store) : List (ScopeId × String) :=
  st.scopes.toList.flatMap fun sc => sc.bindings.values.flatMap Value.functions

/-- Scopes lie inside older ones, and functions hold scopes that are there. -/
structure WellFormed (st : Store) : Prop where
  parent : ∀ (ρ : ScopeId) (sc : Scope), st.scopes[ρ]? = some sc → ∀ p ∈ sc.parent, p < ρ
  holds : ∀ f ∈ st.functions, f.1 < st.scopes.size

instance (st : Store) : Decidable st.WellFormed :=
  decidable_of_iff ((∀ i : Fin st.scopes.size, st.scopes[i].parent.all (· < i.1)) ∧
      ∀ f ∈ st.functions, f.1 < st.scopes.size) <| by
    simp only [Option.all_eq_true, decide_eq_true_eq]
    refine ⟨fun h => ⟨fun ρ sc hρ => ?_, h.2⟩, fun h => ⟨fun i => ?_, h.holds⟩⟩
    · obtain ⟨hlt, rfl⟩ := Array.getElem?_eq_some_iff.1 hρ
      exact h.1 ⟨ρ, hlt⟩
    · exact h.parent i _ (Array.getElem?_eq_getElem i.2)

/-- From the scope outwards one comes to a scope without a parent. -/
inductive Rooted (st : Store) : ScopeId → Prop
  | root {ρ : ScopeId} {sc : Scope} : st.scopes[ρ]? = some sc → sc.parent = none → Rooted st ρ
  | child {ρ p : ScopeId} {sc : Scope} : st.scopes[ρ]? = some sc → sc.parent = some p →
      Rooted st p → Rooted st ρ

theorem mem_functions {st : Store} {f : ScopeId × String} :
    f ∈ st.functions ↔ ∃ (i : ScopeId) (sc : Scope) (x : String) (v : Value),
      st.scopes[i]? = some sc ∧ sc.bindings.get? x = some v ∧ f ∈ v.functions := by
  unfold functions
  simp only [List.mem_flatMap, SortedMap.mem_values_iff, Array.mem_toList_iff,
    Array.mem_iff_getElem?]
  constructor
  · rintro ⟨sc, ⟨i, hi⟩, v, ⟨x, hx⟩, hf⟩
    exact ⟨i, sc, x, v, hi, hx, hf⟩
  · rintro ⟨i, sc, x, v, hi, hx, hf⟩
    exact ⟨sc, ⟨i, hi⟩, v, ⟨x, hx⟩, hf⟩

theorem WellFormed.rooted {st : Store} (h : st.WellFormed) {ρ : ScopeId}
    (hρ : ρ < st.scopes.size) : st.Rooted ρ := by
  induction ρ using Nat.strong_induction_on with
  | h ρ ih =>
    have hsc := Array.getElem?_eq_getElem hρ
    cases hparent : st.scopes[ρ].parent with
    | none => exact .root hsc hparent
    | some p =>
      have hlt := h.parent ρ _ hsc p hparent
      exact .child hsc hparent (ih p hlt (Nat.lt_trans hlt hρ))

end Store

/-! ## Known functions -/

/-- Which functions may be met: `O ρ x` if one with the parameter `x` holds the scope `ρ`. -/
abbrev Owners := ScopeId → String → Prop

/-- All functions in the value are known. -/
def Value.Known (O : Owners) (v : Value) : Prop := ∀ f ∈ v.functions, O f.1 f.2

/-- All functions in the store are known, and hold scopes that are there. -/
structure Store.Known (O : Owners) (st : Store) : Prop where
  values : ∀ (i : ScopeId) (sc : Scope) (x : String) (v : Value), st.scopes[i]? = some sc →
    sc.bindings.get? x = some v → v.Known O
  lt : ∀ ρ x, O ρ x → ρ < st.scopes.size

theorem Value.Known.mono {O O' : Owners} {v : Value} (h : v.Known O)
    (hO : ∀ ρ x, O ρ x → O' ρ x) : v.Known O' := fun f hf => hO _ _ (h f hf)

-- Host functions make no functions of their own.
theorem NumOp.eval_known (O : Owners) (op : NumOp) (a b : Float) : (op.eval a b).Known O := by
  cases op <;> exact fun _ hf => by cases hf

namespace Store.Known

variable {O : Owners} {st : Store} {ρ : ScopeId} {x : String} {v : Value}

theorem lookup (h : st.Known O) : ∀ {ρ : ScopeId}, st.lookup? ρ x = some v → v.Known O := by
  intro ρ
  induction ρ using Nat.strong_induction_on with
  | h ρ ih =>
    intro hlookup
    cases hsc : st.scopes[ρ]? with
    | none =>
      rw [lookup?_of_missing hsc] at hlookup
      cases hlookup
    | some sc =>
      cases hx : sc.bindings.get? x with
      | some w =>
        rw [lookup?_of_bound hsc hx] at hlookup
        cases hlookup
        exact h.values ρ sc x v hsc hx
      | none =>
        rw [lookup?_of_unbound hsc hx] at hlookup
        cases hparent : sc.parent with
        | none =>
          rw [hparent] at hlookup
          cases hlookup
        | some p =>
          rw [hparent, Option.elim_some] at hlookup
          split at hlookup
          · next hlt => exact ih p hlt hlookup
          · cases hlookup

theorem setNatives (h : st.Known O) (k : Nat) : Store.Known O { st with natives := k } :=
  ⟨h.values, h.lt⟩

-- A value that is bound in a scope whose owner it may belong to.
theorem define (h : st.Known O) (hv : v.Known O) (ρ : ScopeId) (x : String) :
    (st.define ρ x v).Known O where
  values i sc y w hi hy := by
    rw [getElem?_define] at hi
    split at hi
    · obtain ⟨sc', hi', rfl⟩ := Option.map_eq_some_iff.1 hi
      rcases SortedMap.get?_insert_eq_some hy with ⟨-, rfl⟩ | ⟨-, hy⟩
      · exact hv
      · exact h.values i sc' y w hi' hy
    · exact h.values i sc y w hi hy
  lt i y hi := Nat.lt_of_lt_of_eq (h.lt i y hi) Array.size_modify.symm

end Store.Known

/-! ## How a store evolves -/

/-- What evaluation does to a store with the owners `O`, and the owners that there are then. -/
structure Store.Evolves (O O' : Owners) (st st' : Store) : Prop where
  mono : ∀ ρ x, O ρ x → O' ρ x
  old : ∀ ρ x, ρ < st.scopes.size → O' ρ x → O ρ x
  grows : st.Grows st'
  size_le : st.scopes.size ≤ st'.scopes.size
  kept : ∀ (ρ : ScopeId) (sc sc' : Scope) (x : String), st.scopes[ρ]? = some sc →
    st'.scopes[ρ]? = some sc' → ¬ O ρ x → sc'.bindings.get? x = sc.bindings.get? x
  made : ∀ (ρ : ScopeId) (sc : Scope), st.scopes.size ≤ ρ → st'.scopes[ρ]? = some sc →
    (∃ p, sc.parent = some p ∧ p < ρ) ∧
      ∃ x, (∀ y, sc.bindings.get? y ≠ none → y = x) ∧ ∀ y, O' ρ y → y = x

namespace Store.Evolves

variable {O O₁ O₂ : Owners} {st st₁ st₂ : Store} {ρ : ScopeId} {x : String} {v : Value}

theorem refl (O : Owners) (st : Store) : Evolves O O st st where
  mono _ _ h := h
  old _ _ _ h := h
  grows := .refl st
  size_le := Nat.le_refl _
  kept ρ sc sc' x hsc hsc' _ := by
    cases hsc.symm.trans hsc'
    rfl
  made ρ sc hle hsc := absurd (Array.getElem?_eq_some_iff.1 hsc).1 (Nat.not_lt_of_le hle)

theorem trans (h : Evolves O O₁ st st₁) (h' : Evolves O₁ O₂ st₁ st₂) : Evolves O O₂ st st₂ where
  mono ρ x hO := h'.mono ρ x (h.mono ρ x hO)
  old ρ x hρ hO := h.old ρ x hρ (h'.old ρ x (Nat.lt_of_lt_of_le hρ h.size_le) hO)
  grows := h.grows.trans h'.grows
  size_le := Nat.le_trans h.size_le h'.size_le
  kept ρ sc sc₂ x hsc hsc₂ hO := by
    obtain ⟨sc₁, hsc₁, -, -⟩ := h.grows ρ sc hsc
    have hlt := (Array.getElem?_eq_some_iff.1 hsc).1
    rw [h'.kept ρ sc₁ sc₂ x hsc₁ hsc₂ fun hc => hO (h.old ρ x hlt hc),
      h.kept ρ sc sc₁ x hsc hsc₁ hO]
  made ρ sc₂ hle hsc₂ := by
    by_cases hρ : st₁.scopes.size ≤ ρ
    · exact h'.made ρ sc₂ hρ hsc₂
    · -- a scope of the first part keeps its parent, and binds no name but that of its owners
      have hρ : ρ < st₁.scopes.size := Nat.lt_of_not_le hρ
      have hsc₁ := Array.getElem?_eq_getElem hρ
      obtain ⟨⟨p, hp, hlt⟩, x, hbound, howner⟩ := h.made ρ _ hle hsc₁
      obtain ⟨sc', hsc', hparent, -⟩ := h'.grows ρ _ hsc₁
      cases hsc₂.symm.trans hsc'
      refine ⟨⟨p, hparent.trans hp, hlt⟩, x, fun y hy => ?_, fun y hy => ?_⟩
      · by_contra hne
        refine hne (hbound y ?_)
        rwa [← h'.kept ρ _ _ y hsc₁ hsc₂ fun hc => hne (howner y hc)]
      · exact howner y (h'.old ρ y hρ hy)

theorem setNatives (O : Owners) (st : Store) (k : Nat) :
    Evolves O O st { st with natives := k } :=
  { refl O st with }

-- A function is applied: its parameter is bound in the scope that it holds.
theorem define (hρ : O ρ x) (st : Store) (v : Value) : Evolves O O st (st.define ρ x v) where
  mono _ _ h := h
  old _ _ _ h := h
  grows := .define st ρ x v
  size_le := Nat.le_of_eq Array.size_modify.symm
  kept i sc sc' y hsc hsc' hO := by
    by_cases hi : i = ρ
    · subst hi
      cases (getElem?_define_self hsc x v).symm.trans hsc'
      exact SortedMap.get?_insert_of_ne _ _ fun hc => hO (hc ▸ hρ)
    · cases hsc.symm.trans ((st.getElem?_define_of_ne hi x v).symm.trans hsc')
      rfl
  made i sc hle hsc := by
    have hlt := (Array.getElem?_eq_some_iff.1 hsc).1
    rw [Store.define, Array.size_modify] at hlt
    exact absurd hlt (Nat.not_lt_of_le hle)

end Store.Evolves

/-- One more function may be met. -/
def Owners.add (O : Owners) (ρ : ScopeId) (x : String) : Owners := fun i y =>
  O i y ∨ i = ρ ∧ y = x

section NewScope

variable {O : Owners} {st : Store} {ρ : ScopeId}

-- A new scope for the name `x`: the parameter of a function, or the name of a `let`.
theorem Store.Known.addScope (h : st.Known O) (parent : Option ScopeId) (x : String) :
    (st.addScope parent).Known (O.add st.nextScope x) where
  values i sc y v hi hy := by
    rw [getElem?_addScope] at hi
    split at hi
    · cases hi
      cases hy
    · exact (h.values i sc y v hi hy).mono fun _ _ => .inl
  lt i y hi := by
    rw [Store.addScope, Array.size_push]
    rcases hi with hi | ⟨rfl, -⟩
    · exact Nat.lt_succ_of_lt (h.lt i y hi)
    · exact Nat.lt_succ_self _

theorem Store.Evolves.addScope (h : st.Known O) (hρ : ρ < st.scopes.size) (x : String) :
    Evolves O (O.add st.nextScope x) st (st.addScope (some ρ)) where
  mono _ _ := .inl
  old i y hi hO := hO.resolve_right fun hc => absurd hi (hc.1 ▸ Nat.lt_irrefl _)
  grows := .addScope st _
  size_le := by
    rw [Store.addScope, Array.size_push]
    exact Nat.le_succ _
  kept i sc sc' y hi hi' _ := by
    have hne : i ≠ st.scopes.size := Nat.ne_of_lt (Array.getElem?_eq_some_iff.1 hi).1
    rw [getElem?_addScope, if_neg hne, hi] at hi'
    cases hi'
    rfl
  made i sc hle hi := by
    rw [getElem?_addScope] at hi
    split at hi
    · next heq =>
      cases hi
      refine ⟨⟨ρ, rfl, heq ▸ hρ⟩, x, fun y hy => absurd rfl hy, fun y hy => ?_⟩
      rcases hy with hy | ⟨-, rfl⟩
      · exact absurd (h.lt i y hy) (Nat.not_lt_of_le hle)
      · rfl
    · exact absurd (Array.getElem?_eq_some_iff.1 hi).1 (Nat.not_lt_of_le hle)

end NewScope

/-! ## Steps -/

/-- The step changes the store as evaluation may, and if it gives a result, then `Q` holds of it. -/
def Touches {α : Type} (O : Owners) (m : EvalM α) (st : Store) (Q : Owners → α → Prop) : Prop :=
  Ensures m st fun r st' => ∃ O', Store.Evolves O O' st st' ∧ st'.Known O' ∧ ∀ a, r = .ok a → Q O' a

namespace Touches

variable {α β : Type} {O O' : Owners} {st st' : Store} {Q : Owners → α → Prop}
  {R : Owners → β → Prop}

theorem pure {a : α} (h : st.Known O) (ha : Q O a) : Touches O (Pure.pure a) st Q := by
  refine ensures_of_run rfl ⟨O, .refl O st, h, fun b hb => ?_⟩
  cases hb
  exact ha

theorem throw (h : st.Known O) (e : RuntimeError) : Touches O (MonadExcept.throw e) st Q :=
  ensures_of_run rfl ⟨O, .refl O st, h, fun a ha => by cases ha⟩

-- A first step of a known outcome.
theorem of_run {m : EvalM α} {f : α → EvalM β} {a : α} (hrun : m.runFrom st = some (.ok a, st'))
    (hst : Store.Evolves O O' st st') (h : Touches O' (f a) st' R) : Touches O (m >>= f) st R := by
  refine ensures_bind_of_run hrun fun r st'' hrun' => ?_
  obtain ⟨O'', hst', hknown, hr⟩ := h r st'' hrun'
  exact ⟨O'', hst.trans hst', hknown, hr⟩

theorem bind {m : EvalM α} {f : α → EvalM β} (hm : Touches O m st Q)
    (hf : ∀ a O' st', Store.Evolves O O' st st' → st'.Known O' → Q O' a → Touches O' (f a) st' R) :
    Touches O (m >>= f) st R := by
  refine Ensures.bind hm (fun a st' h => ?_) fun e st' h => ?_
  · obtain ⟨O', hst, hknown, ha⟩ := h
    intro r st'' hrun
    obtain ⟨O'', hst', hknown', hr⟩ := hf a O' st' hst hknown (ha a rfl) r st'' hrun
    exact ⟨O'', hst.trans hst', hknown', hr⟩
  · obtain ⟨O', hst, hknown, -⟩ := h
    exact ⟨O', hst, hknown, fun b hb => by cases hb⟩

theorem lookup (h : st.Known O) (ρ : ScopeId) (x : String) :
    Touches O (EvalM.lookup ρ x) st fun O' v => v.Known O' := by
  intro r st' hrun
  rw [runFrom_lookup] at hrun
  cases hx : st.lookup? ρ x with
  | none =>
    rw [hx] at hrun
    cases hrun
    exact ⟨O, .refl O st, h, fun v hv => by cases hv⟩
  | some v =>
    rw [hx] at hrun
    cases hrun
    refine ⟨O, .refl O st, h, fun w hw => ?_⟩
    cases hw
    exact h.lookup hx

theorem newNative (h : st.Known O) {fn : Native Value}
    (hfn : ∀ id, (Value.native id fn).Known O) :
    Touches O (EvalM.newNative fn) st fun O' v => v.Known O' := by
  refine ensures_of_run rfl ⟨O, .setNatives O st _, h.setNatives _, fun v hv => ?_⟩
  cases hv
  exact hfn _

-- A native gives what it holds, its argument or something without functions.
theorem call (h : st.Known O) {id : Nat} {fn : Native Value} {arg : Value}
    (hfn : (Value.native id fn).Known O) (harg : arg.Known O) :
    Touches O (fn.call arg) st fun O' v => v.Known O' := by
  have hnum : ∀ g : Float → EvalM Value,
      (∀ n, Touches O (g n) st fun O' v => v.Known O') →
      Touches O (do g (← arg.asNum)) st fun O' v => v.Known O' := by
    intro g hg
    cases arg with
    | num n => exact hg n
    | bool | closure | native => exact .throw h _
  have hbool : ∀ g : Bool → EvalM Value,
      (∀ b, Touches O (g b) st fun O' v => v.Known O') →
      Touches O (do g (← arg.asBool)) st fun O' v => v.Known O' := by
    intro g hg
    cases arg with
    | bool b => exact hg b
    | num | closure | native => exact .throw h _
  cases fn with
  | binary op => exact hnum _ fun n => .newNative h fun _ _ hf => by cases hf
  | binaryWith op a => exact hnum _ fun b => .pure h (op.eval_known O a b)
  | not => exact hbool _ fun b => .pure h fun _ hf => by cases hf
  | isNonpositive | isZero | decrement | increment | double =>
    exact hnum _ fun n => .pure h fun _ hf => by cases hf
  | same => exact .pure h harg
  | const => exact .newNative h fun _ => harg
  | always v => exact .pure h hfn
  | reject => exact .throw h _

end Touches

/-! ## Evaluation -/

section Eval

variable {O : Owners} {st : Store}

theorem applyWith_touches {run : ScopeId → Term → EvalM Value} {f a : Value}
    (hrun : ∀ (O : Owners) (st : Store) (ρ : ScopeId) (e : Term), st.Known O →
      ρ < st.scopes.size → Touches O (run ρ e) st fun O' v => v.Known O')
    (h : st.Known O) (hf : f.Known O) (ha : a.Known O) :
    Touches O (applyWith run f a) st fun O' v => v.Known O' := by
  cases f with
  | num | bool => exact .throw h _
  | native id fn => exact .call h hf ha
  | closure x body ρ =>
    have hρ : O ρ x := hf (ρ, x) (List.mem_singleton.2 rfl)
    refine .of_run rfl (.define hρ st a) (hrun O _ ρ body (h.define ha ρ x) ?_)
    exact Nat.lt_of_lt_of_eq (h.lt ρ x hρ) Array.size_modify.symm

/-- Evaluation changes of the scopes that are there only the parameters of known functions. -/
theorem eval_touches (fuel : Nat) : ∀ (O : Owners) (st : Store) (ρ : ScopeId) (e : Term),
    st.Known O → ρ < st.scopes.size → Touches O (eval fuel ρ e) st fun O' v => v.Known O' := by
  induction fuel with
  | zero =>
    intro O st ρ e _ _ r st' hrun
    cases hrun
  | succ fuel ih =>
    intro O st ρ e h hρ
    cases e with
    | num v => exact .pure h fun _ hf => by cases hf
    | bool b => exact .pure h fun _ hf => by cases hf
    | var x => exact .lookup h ρ x
    | ite c a b =>
      refine (ih O st ρ c h hρ).bind fun v O' st' hst h' _ => ?_
      have hρ' := Nat.lt_of_lt_of_le hρ hst.size_le
      split
      · exact ih O' st' ρ a h' hρ'
      · exact ih O' st' ρ b h' hρ'
      · exact .throw h' _
    | letIn x d b =>
      refine (ih O st ρ d h hρ).bind fun v O' st' hst h' hv => ?_
      have hρ' := Nat.lt_of_lt_of_le hρ hst.size_le
      have hinner : O'.add st'.nextScope x st'.nextScope x := .inr ⟨rfl, rfl⟩
      have hknown := (h'.addScope (some ρ) x).define (hv.mono fun _ _ => .inl) st'.nextScope x
      refine .of_run rfl (.addScope h' hρ' x) (.of_run rfl (.define hinner _ v) ?_)
      exact ih _ _ _ b hknown (hknown.lt _ x hinner)
    | lam x b =>
      refine .of_run rfl (.addScope h hρ x) (.pure (h.addScope (some ρ) x) fun f hf => ?_)
      cases List.mem_singleton.1 hf
      exact .inr ⟨rfl, rfl⟩
    | app f a =>
      refine (ih O st ρ f h hρ).bind fun v O' st' hst h' hv => ?_
      have hρ' := Nat.lt_of_lt_of_le hρ hst.size_le
      split
      · refine (ih O' st' ρ a h' hρ').bind fun w O'' st'' hst' h'' hw => ?_
        exact applyWith_touches ih h'' (hv.mono hst'.mono) hw
      · exact .throw h' _

end Eval

/-! ## The frame of evaluation -/

/-- What may change in a store when `fs` are the functions that can be met. -/
structure Store.Framed (st : Store) (fs : List (ScopeId × String)) (st' : Store) : Prop where
  /-- No scope changes its parent, and no binding goes away. -/
  grows : st.Grows st'
  /-- Where a binding changes, a function holds the scope, and the name is its parameter. -/
  changed : ∀ (ρ : ScopeId) (sc sc' : Scope) (x : String), st.scopes[ρ]? = some sc →
    st'.scopes[ρ]? = some sc' → sc'.bindings.get? x ≠ sc.bindings.get? x → (ρ, x) ∈ fs
  /-- A scope that no function holds stays as it is. -/
  unheld : ∀ ρ < st.scopes.size, (∀ f ∈ fs, f.1 ≠ ρ) → st'.scopes[ρ]? = st.scopes[ρ]?
  /-- A new scope lies inside an older one, and binds at most one name. -/
  made : ∀ (ρ : ScopeId) (sc : Scope), st.scopes.size ≤ ρ → st'.scopes[ρ]? = some sc →
    (∃ p, sc.parent = some p ∧ p < ρ) ∧ sc.bindings.size ≤ 1
  wellFormed : st'.WellFormed
  /-- Every chain of scopes comes to an end. -/
  rooted : ∀ ρ < st'.scopes.size, st'.Rooted ρ

theorem Store.Known.wellFormed {O : Owners} {st : Store} (h : st.Known O)
    (hparent : ∀ (ρ : ScopeId) (sc : Scope), st.scopes[ρ]? = some sc → ∀ p ∈ sc.parent, p < ρ) :
    st.WellFormed where
  parent := hparent
  holds f hf := by
    obtain ⟨i, sc, x, v, hi, hx, hf⟩ := mem_functions.1 hf
    exact h.lt _ _ (h.values i sc x v hi hx f hf)

theorem Store.Evolves.wellFormed {O O' : Owners} {st st' : Store} (h : Evolves O O' st st')
    (hst : st.WellFormed) (hst' : st'.Known O') : st'.WellFormed := by
  refine hst'.wellFormed fun ρ sc' hsc' p hp => ?_
  by_cases hρ : ρ < st.scopes.size
  · have hsc := Array.getElem?_eq_getElem hρ
    obtain ⟨sc₁, hsc₁, hparent, -⟩ := h.grows ρ _ hsc
    cases hsc'.symm.trans hsc₁
    exact hst.parent ρ _ hsc p (hparent ▸ hp)
  · obtain ⟨⟨q, hq, hlt⟩, -⟩ := h.made ρ sc' (Nat.le_of_not_lt hρ) hsc'
    cases hq.symm.trans hp
    exact hlt

theorem Store.Evolves.framed {fs : List (ScopeId × String)} {O' : Owners} {st st' : Store}
    (h : Evolves (fun ρ x => (ρ, x) ∈ fs) O' st st') (hst : st.WellFormed) (hst' : st'.Known O') :
    st.Framed fs st' where
  grows := h.grows
  changed ρ sc sc' x hsc hsc' hne := by
    by_contra hnot
    exact hne (h.kept ρ sc sc' x hsc hsc' hnot)
  unheld ρ hρ hfs := by
    have hsc := Array.getElem?_eq_getElem hρ
    obtain ⟨sc', hsc', hparent, -⟩ := h.grows ρ _ hsc
    have hbindings : sc'.bindings = st.scopes[ρ].bindings :=
      SortedMap.ext_get? fun x => h.kept ρ _ sc' x hsc hsc' fun hc => hfs _ hc rfl
    rw [hsc', hsc]
    cases sc'
    exact congrArg some (congr (congrArg Scope.mk hparent) hbindings)
  made ρ sc hle hsc := by
    obtain ⟨hparent, x, hbound, -⟩ := h.made ρ sc hle hsc
    exact ⟨hparent, SortedMap.size_le_one hbound⟩
  wellFormed := h.wellFormed hst hst'
  rooted _ := (h.wellFormed hst hst').rooted

-- The functions that can be met are those in the store, and those that are handed in.
theorem Store.WellFormed.known {st : Store} (h : st.WellFormed) (fs : List (ScopeId × String))
    (hfs : ∀ f ∈ fs, f.1 < st.scopes.size) :
    st.Known fun ρ x => (ρ, x) ∈ fs ++ st.functions where
  values i sc x v hi hx _ hf :=
    List.mem_append_right _ (mem_functions.2 ⟨i, sc, x, v, hi, hx, hf⟩)
  lt _ _ hO := (List.mem_append.1 hO).elim (hfs _) (h.holds _)

/-- Evaluation of a term and application of a value touch nothing but parameters of functions, each
in the scope that its function holds, whether they give a value or fail. -/
theorem eval_apply_framed {st st' : Store} {fuel : Nat} {r : Except RuntimeError Value}
    (hst : st.WellFormed) :
    (∀ ρ e, ρ < st.scopes.size → (eval fuel ρ e).runFrom st = some (r, st') →
        st.Framed st.functions st') ∧
      ∀ fn arg, (∀ f ∈ fn.functions ++ arg.functions, f.1 < st.scopes.size) →
        (apply fuel fn arg).runFrom st = some (r, st') →
        st.Framed (fn.functions ++ arg.functions ++ st.functions) st' := by
  constructor
  · intro ρ e hρ hrun
    obtain ⟨O', hevolves, hknown, -⟩ :=
      eval_touches fuel _ st ρ e (hst.known [] fun _ hf => by cases hf) hρ r st' hrun
    exact hevolves.framed hst hknown
  · intro fn arg hfs hrun
    obtain ⟨O', hevolves, hknown, -⟩ :=
      applyWith_touches (eval_touches fuel) (hst.known _ hfs)
        (fun f hf => List.mem_append_left _ (List.mem_append_left _ hf))
        (fun f hf => List.mem_append_left _ (List.mem_append_right _ hf)) r st' hrun
    exact hevolves.framed hst hknown

/-- A root that binds `k` to the function `\\x \\y x`, and the scope that this function holds. -/
def keepStore : Store where
  scopes := #[{ bindings := .singleton "k" (.closure "x" (.lam "y" (.var "x")) 1) },
    { parent := some 0 }]

/-- The root stays as it is while `x` is bound in the scope of `k`, both when a term applies `k` and
when a caller does. -/
theorem eval_apply_framed_keep : keepStore.WellFormed ∧
    (∃ st', (eval 9 0 (.app (.app (.var "k") (.num 1)) (.bool true))).runFrom keepStore =
        some (.ok (.num 1), st') ∧ st'.defines 1 "x" = true ∧
        st'.scopes[0]? = keepStore.scopes[0]?) ∧
      ∃ st', (apply 9 (.closure "x" (.app (.var "x") (.var "x")) 1) (.bool true)).runFrom
          keepStore = some (.error (.notCallable "True"), st') ∧ st'.defines 1 "x" = true ∧
        st'.scopes[0]? = keepStore.scopes[0]? := by
  have hst : keepStore.WellFormed := by decide
  refine ⟨hst, ?_, ?_⟩
  · have hrun : ((eval 9 0 (.app (.app (.var "k") (.num 1)) (.bool true))).runFrom keepStore).map
        (fun o => (o.1, o.2.defines 1 "x")) = some (.ok (.num 1), true) := by with_unfolding_all rfl
    obtain ⟨⟨r, st'⟩, heval, heq⟩ := Option.map_eq_some_iff.1 hrun
    obtain ⟨rfl, hdefines⟩ := Prod.mk.inj heq
    have hframed := (eval_apply_framed hst).1 0 _ (by decide) heval
    exact ⟨st', heval, hdefines, hframed.unheld 0 (by decide) (by decide)⟩
  · have hrun : ((apply 9 (.closure "x" (.app (.var "x") (.var "x")) 1) (.bool true)).runFrom
        keepStore).map (fun o => (o.1, o.2.defines 1 "x")) =
          some (.error (.notCallable "True"), true) := by with_unfolding_all rfl
    obtain ⟨⟨r, st'⟩, happly, heq⟩ := Option.map_eq_some_iff.1 hrun
    obtain ⟨rfl, hdefines⟩ := Prod.mk.inj heq
    have hframed := (eval_apply_framed hst).2 _ _ (by decide) happly
    exact ⟨st', happly, hdefines, hframed.unheld 0 (by decide) (by decide)⟩

end LetPoly
