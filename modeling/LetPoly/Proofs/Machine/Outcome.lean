import LetPoly.Machine.Eval
import LetPoly.Proofs.Map.Lookup

/-!
# Outcomes of evaluation, and how stores grow

`Ensures m st Q` says that every outcome of the step `m` from the store `st` satisfies `Q`; a step
that runs out of fuel has none.  `Store.Grows` is what all steps keep: scopes stay where they are,
with the parent that they have, and a name that is bound stays bound.
-/

namespace LetPoly

namespace EvalM

variable {α β : Type} {st : Store}

/-- Every outcome of the step satisfies `Q`. -/
def Ensures (m : EvalM α) (st : Store) (Q : Except RuntimeError α → Store → Prop) : Prop :=
  ∀ r st', m.runFrom st = some (r, st') → Q r st'

theorem runFrom_bind (m : EvalM α) (f : α → EvalM β) (st : Store) :
    (m >>= f).runFrom st = match m.runFrom st with
      | none => none
      | some (.error e, st') => some (.error e, st')
      | some (.ok a, st') => (f a).runFrom st' := by
  unfold runFrom
  rw [ExceptT.run_bind, StateT.run_bind]
  rcases m.run.run st with _ | ⟨_ | a, st'⟩ <;> rfl

theorem Ensures.bind {m : EvalM α} {f : α → EvalM β} {Q : Except RuntimeError α → Store → Prop}
    {R : Except RuntimeError β → Store → Prop} (hm : Ensures m st Q)
    (hok : ∀ a st', Q (.ok a) st' → Ensures (f a) st' R)
    (herr : ∀ e st', Q (.error e) st' → R (.error e) st') : Ensures (m >>= f) st R := by
  intro r st' h
  rw [runFrom_bind] at h
  split at h
  · cases h
  · next e st₁ heq =>
    obtain ⟨rfl, rfl⟩ : .error e = r ∧ st₁ = st' := by simpa using h
    exact herr e st₁ (hm _ _ heq)
  · next a st₁ heq => exact hok a st₁ (hm _ _ heq) r st' h

theorem ensures_of_run {m : EvalM α} {r : Except RuntimeError α} {st' : Store}
    {Q : Except RuntimeError α → Store → Prop} (hrun : m.runFrom st = some (r, st')) (h : Q r st') :
    Ensures m st Q := by
  intro r' st'' hrun'
  rw [hrun] at hrun'
  cases hrun'
  exact h

theorem ensures_bind_of_run {m : EvalM α} {f : α → EvalM β} {a : α} {st' : Store}
    {Q : Except RuntimeError β → Store → Prop} (hrun : m.runFrom st = some (.ok a, st'))
    (h : Ensures (f a) st' Q) : Ensures (m >>= f) st Q := by
  intro r st'' hrun'
  rw [runFrom_bind, hrun] at hrun'
  exact h r st'' hrun'

theorem ensures_define_bind {ρ : ScopeId} {x : String} {v : Value} {f : Unit → EvalM β}
    {Q : Except RuntimeError β → Store → Prop} (h : Ensures (f ()) (st.define ρ x v) Q) :
    Ensures (define ρ x v >>= f) st Q :=
  ensures_bind_of_run rfl h

theorem runFrom_lookup (st : Store) (ρ : ScopeId) (x : String) : (lookup ρ x).runFrom st =
    (st.lookup? ρ x).elim (some (.error (.unbound x), st)) fun v => some (.ok v, st) := by
  unfold lookup
  rw [runFrom_bind]
  show EvalM.runFrom _ st = _
  cases st.lookup? ρ x <;> rfl

end EvalM

/-! ## Stores -/

namespace Store

theorem getElem?_addScope (st : Store) (parent : Option ScopeId) (i : Nat) :
    (st.addScope parent).scopes[i]? =
      if i = st.scopes.size then some { parent } else st.scopes[i]? :=
  Array.getElem?_push

theorem getElem?_define (st : Store) (ρ : ScopeId) (x : String) (v : Value) (i : Nat) :
    (st.define ρ x v).scopes[i]? = if ρ = i then
      st.scopes[i]?.map fun sc => { sc with bindings := sc.bindings.insert x v }
      else st.scopes[i]? :=
  Array.getElem?_modify

theorem getElem?_define_self {st : Store} {ρ : ScopeId} {sc : Scope} (h : st.scopes[ρ]? = some sc)
    (x : String) (v : Value) : (st.define ρ x v).scopes[ρ]? =
      some { sc with bindings := sc.bindings.insert x v } := by
  rw [getElem?_define, if_pos rfl, h]
  rfl

theorem getElem?_define_of_ne (st : Store) {ρ i : ScopeId} (h : i ≠ ρ) (x : String) (v : Value) :
    (st.define ρ x v).scopes[i]? = st.scopes[i]? := by
  rw [getElem?_define, if_neg fun hc => h hc.symm]

-- A new scope with one binding.
theorem getElem?_addScope_define (st : Store) (parent : Option ScopeId) (x : String) (v : Value)
    (i : Nat) : ((st.addScope parent).define st.nextScope x v).scopes[i]? =
      if i = st.nextScope then some { parent, bindings := .singleton x v } else st.scopes[i]? := by
  by_cases hi : i = st.nextScope
  · subst hi
    rw [if_pos rfl]
    exact getElem?_define_self ((st.getElem?_addScope _ _).trans (if_pos rfl)) x v
  · rw [getElem?_define_of_ne _ hi, if_neg hi]
    exact (st.getElem?_addScope _ _).trans (if_neg hi)

section Lookup

variable {st : Store} {ρ parent : ScopeId} {sc : Scope} {x : String}

theorem lookup?_of_bound {v : Value} (hρ : st.scopes[ρ]? = some sc)
    (hx : sc.bindings.get? x = some v) : st.lookup? ρ x = some v := by
  rw [lookup?, hρ]
  simp only [hx]

theorem lookup?_of_unbound (hρ : st.scopes[ρ]? = some sc) (hx : sc.bindings.get? x = none) :
    st.lookup? ρ x =
      sc.parent.elim none fun parent => if parent < ρ then st.lookup? parent x else none := by
  rw [lookup?, hρ]
  simp only [hx]
  cases sc.parent <;> rfl

theorem lookup?_of_parent (hρ : st.scopes[ρ]? = some sc) (hx : sc.bindings.get? x = none)
    (hparent : sc.parent = some parent) (hlt : parent < ρ) :
    st.lookup? ρ x = st.lookup? parent x := by
  rw [lookup?_of_unbound hρ hx, hparent]
  exact if_pos hlt

theorem lookup?_of_root (hρ : st.scopes[ρ]? = some sc) (hx : sc.bindings.get? x = none)
    (hparent : sc.parent = none) : st.lookup? ρ x = none := by
  rw [lookup?_of_unbound hρ hx, hparent]
  rfl

theorem lookup?_of_missing (hρ : st.scopes[ρ]? = none) : st.lookup? ρ x = none := by
  rw [lookup?, hρ]

end Lookup

/-- Scopes keep their parents, and bound names stay bound. -/
def Grows (st st' : Store) : Prop :=
  ∀ (ρ : ScopeId) (sc : Scope), st.scopes[ρ]? = some sc →
    ∃ sc' : Scope, st'.scopes[ρ]? = some sc' ∧ sc'.parent = sc.parent ∧
      ∀ x, sc.bindings.get? x ≠ none → sc'.bindings.get? x ≠ none

namespace Grows

variable {st st₁ st₂ : Store}

theorem refl (st : Store) : Grows st st := fun _ sc h => ⟨sc, h, rfl, fun _ hx => hx⟩

theorem trans (h : Grows st st₁) (h' : Grows st₁ st₂) : Grows st st₂ := by
  intro ρ sc hρ
  obtain ⟨sc₁, hρ₁, hparent, hbound⟩ := h ρ sc hρ
  obtain ⟨sc₂, hρ₂, hparent', hbound'⟩ := h' ρ sc₁ hρ₁
  exact ⟨sc₂, hρ₂, hparent'.trans hparent, fun x hx => hbound' x (hbound x hx)⟩

theorem addScope (st : Store) (parent : Option ScopeId) : Grows st (st.addScope parent) := by
  intro ρ sc hρ
  have hne : ρ ≠ st.scopes.size := Nat.ne_of_lt (Array.getElem?_eq_some_iff.1 hρ).1
  refine ⟨sc, ?_, rfl, fun _ hx => hx⟩
  rw [getElem?_addScope, if_neg hne]
  exact hρ

theorem define (st : Store) (ρ : ScopeId) (x : String) (v : Value) :
    Grows st (st.define ρ x v) := by
  intro i sc hi
  by_cases hρ : i = ρ
  · subst hρ
    refine ⟨_, getElem?_define_self hi x v, rfl, fun y hy => ?_⟩
    by_cases hyx : y = x
    · subst hyx
      simp
    · show (sc.bindings.insert x v).get? y ≠ none
      rwa [SortedMap.get?_insert_of_ne _ _ hyx]
  · exact ⟨sc, (st.getElem?_define_of_ne hρ x v).trans hi, rfl, fun _ hy => hy⟩

end Grows

/-- From the scope outwards, every scope that has a parent binds its name. -/
inductive Ready (st : Store) : ScopeId → Prop
  | root {ρ : ScopeId} {sc : Scope} : st.scopes[ρ]? = some sc → sc.parent = none → Ready st ρ
  | child {ρ parent : ScopeId} {sc : Scope} {x : String} : st.scopes[ρ]? = some sc →
      sc.parent = some parent → sc.bindings.get? x ≠ none → Ready st parent → Ready st ρ

theorem Ready.mono {st st' : Store} {ρ : ScopeId} (h : st.Ready ρ) (hgrows : Grows st st') :
    st'.Ready ρ := by
  induction h with
  | root hρ hparent =>
    obtain ⟨sc', hρ', hparent', -⟩ := hgrows _ _ hρ
    exact .root hρ' (hparent'.trans hparent)
  | child hρ hparent hx _ ih =>
    obtain ⟨sc', hρ', hparent', hbound⟩ := hgrows _ _ hρ
    exact .child hρ' (hparent'.trans hparent) (hbound _ hx) ih

end Store

end LetPoly
