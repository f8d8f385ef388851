import LetPoly.Proofs.Inference.Locality
import LetPoly.Proofs.Machine.FirstOrder

/-!
# Names that are never missing

Scopes only grow, and look-ups go outwards, so a name that can be found from a scope can be found
from it for ever, although its value may change.  A function whose body finds its names does so
whenever it is applied.  So evaluation of a term whose names can be found never fails for the lack
of one, however often scopes are bound anew on the way.
-/

namespace LetPoly

open EvalM

/-! ## Look-ups in stores that change -/

namespace Store

-- A look-up only visits scopes that were made before.
theorem lookup?_congr {st st' : Store} (x : String) (i : ScopeId) :
    (∀ j, j ≤ i → st.scopes[j]? = st'.scopes[j]?) → st.lookup? i x = st'.lookup? i x := by
  induction i using Nat.strongRecOn with
  | ind i ih =>
    intro h
    have hi := h i (Nat.le_refl i)
    cases hsc : st.scopes[i]? with
    | none => rw [lookup?_of_missing hsc, lookup?_of_missing (hi.symm.trans hsc)]
    | some sc =>
      have hsc' := hi.symm.trans hsc
      cases hx : sc.bindings.get? x with
      | some w => rw [lookup?_of_bound hsc hx, lookup?_of_bound hsc' hx]
      | none =>
        rw [lookup?_of_unbound hsc hx, lookup?_of_unbound hsc' hx]
        cases sc.parent with
        | none => rfl
        | some p =>
          show (if p < i then _ else none) = if p < i then _ else none
          split
          · next hp => exact ih p hp fun j hj => h j (Nat.le_trans hj (Nat.le_of_lt hp))
          · rfl

theorem lookup?_addScope {st : Store} {i : ScopeId} (hi : i < st.scopes.size)
    (parent : Option ScopeId) (x : String) :
    (st.addScope parent).lookup? i x = st.lookup? i x := by
  refine lookup?_congr x i fun j hj => ?_
  rw [getElem?_addScope, if_neg (Nat.ne_of_lt (Nat.lt_of_le_of_lt hj hi))]

theorem lookup?_nextScope {st : Store} {ρ : ScopeId} (hρ : ρ < st.scopes.size) (x : String) :
    (st.addScope (some ρ)).lookup? st.nextScope x = st.lookup? ρ x := by
  have hsc : (st.addScope (some ρ)).scopes[st.nextScope]? = some { parent := some ρ } :=
    (st.getElem?_addScope _ _).trans (if_pos rfl)
  rw [lookup?_of_parent hsc rfl rfl hρ, lookup?_addScope hρ]

section Define

variable {st : Store} {ρ : ScopeId} {x : String} {v : Value}

theorem lookup?_define_self (hρ : ρ < st.scopes.size) : (st.define ρ x v).lookup? ρ x = some v :=
  lookup?_of_bound (getElem?_define_self (Array.getElem?_eq_getElem hρ) x v)
    (SortedMap.get?_insert_self _ _ _)

theorem exists_scope_define {i : ScopeId} {sc : Scope} (h : st.scopes[i]? = some sc) (y : String) :
    ∃ sc' : Scope, (st.define ρ x v).scopes[i]? = some sc' ∧ sc'.parent = sc.parent ∧
      (sc'.bindings.get? y = sc.bindings.get? y ∨ sc'.bindings.get? y = some v) := by
  by_cases hi : i = ρ
  · subst hi
    refine ⟨_, getElem?_define_self h x v, rfl, ?_⟩
    by_cases hy : y = x
    · exact .inr (hy ▸ SortedMap.get?_insert_self _ _ _)
    · exact .inl (SortedMap.get?_insert_of_ne _ _ hy)
  · exact ⟨sc, (st.getElem?_define_of_ne hi x v).trans h, rfl, .inl rfl⟩

-- A new binding changes nothing for a look-up, or is what it finds.
theorem lookup?_define (st : Store) (ρ : ScopeId) (x : String) (v : Value) (y : String)
    (i : ScopeId) : (st.define ρ x v).lookup? i y = st.lookup? i y ∨
      (st.define ρ x v).lookup? i y = some v := by
  induction i using Nat.strongRecOn with
  | ind i ih =>
    cases hsc : st.scopes[i]? with
    | none =>
      have hsc' : (st.define ρ x v).scopes[i]? = none := by
        rw [getElem?_define, hsc]
        exact ite_self _
      exact .inl ((lookup?_of_missing hsc').trans (lookup?_of_missing hsc).symm)
    | some sc =>
      obtain ⟨sc', hsc', hparent, hy | hy⟩ := exists_scope_define (ρ := ρ) (x := x) (v := v) hsc y
      · cases hbound : sc.bindings.get? y with
        | some w =>
          rw [hbound] at hy
          exact .inl ((lookup?_of_bound hsc' hy).trans (lookup?_of_bound hsc hbound).symm)
        | none =>
          rw [hbound] at hy
          rw [lookup?_of_unbound hsc' hy, lookup?_of_unbound hsc hbound, hparent]
          cases sc.parent with
          | none => exact .inl rfl
          | some p =>
            by_cases hp : p < i
            · have hlookup := ih p hp
              simpa only [Option.elim_some, if_pos hp] using hlookup
            · exact .inl (by simp only [Option.elim_some, if_neg hp])
      · exact .inr (lookup?_of_bound hsc' hy)

end Define

end Store

/-! ## Visible names -/

/-- How many scopes there are, and which names are to be found from which of them. -/
structure Visibility where
  size : Nat
  sees : ScopeId → String → Prop

namespace Visibility

/-- What was to be found can still be found. -/
structure Extends (V V' : Visibility) : Prop where
  size : V.size ≤ V'.size
  sees : ∀ ρ x, V.sees ρ x → V'.sees ρ x

theorem Extends.refl (V : Visibility) : V.Extends V := ⟨Nat.le_refl _, fun _ _ h => h⟩

theorem Extends.trans {V V₁ V₂ : Visibility} (h : V.Extends V₁) (h' : V₁.Extends V₂) :
    V.Extends V₂ :=
  ⟨Nat.le_trans h.size h'.size, fun ρ x hx => h'.sees ρ x (h.sees ρ x hx)⟩

/-- One more scope, from which all is to be found that is found from `ρ`. -/
def inside (V : Visibility) (ρ : ScopeId) : Visibility where
  size := V.size + 1
  sees i y := V.sees i y ∨ i = V.size ∧ V.sees ρ y

/-- One more name to be found from `ρ`. -/
def bound (V : Visibility) (ρ : ScopeId) (x : String) : Visibility where
  size := V.size
  sees i y := V.sees i y ∨ i = ρ ∧ y = x

theorem extends_inside (V : Visibility) (ρ : ScopeId) : V.Extends (V.inside ρ) :=
  ⟨Nat.le_succ _, fun _ _ => .inl⟩

theorem extends_bound (V : Visibility) (ρ : ScopeId) (x : String) : V.Extends (V.bound ρ x) :=
  ⟨Nat.le_refl _, fun _ _ => .inl⟩

end Visibility

/-- A function finds the names of its body from the scope that it holds, its parameter apart. -/
inductive Value.Scoped (V : Visibility) : Value → Prop
  | num {v} : Scoped V (.num v)
  | bool {b} : Scoped V (.bool b)
  | closure {x body} {ρ : ScopeId} : ρ < V.size → (∀ y ∈ body.freeNames, y ≠ x → V.sees ρ y) →
      Scoped V (.closure x body ρ)
  | native {id} {fn : Native Value} : fn.ty? ≠ none → Scoped V (.native id fn)

namespace Value.Scoped

variable {V V' : Visibility} {v : Value}

theorem mono (h : Scoped V v) (hV : V.Extends V') : Scoped V' v := by
  cases h with
  | num => exact .num
  | bool => exact .bool
  | closure hρ hbody =>
    exact .closure (Nat.lt_of_lt_of_le hρ hV.size) fun y hy hne => hV.sees _ y (hbody y hy hne)
  | native hfn => exact .native hfn

theorem of_firstOrder (V : Visibility) (h : v.FirstOrder) : Scoped V v := by
  cases v with
  | num => exact .num
  | bool => exact .bool
  | closure => exact h.elim
  | native => exact .native h

end Value.Scoped

/-- The names are found where they should be, and stand for values that find theirs. -/
structure StoreScoped (V : Visibility) (st : Store) : Prop where
  size : V.size = st.scopes.size
  sees : ∀ ρ x, V.sees ρ x → ∃ v, st.lookup? ρ x = some v ∧ v.Scoped V

namespace StoreScoped

variable {V : Visibility} {st : Store} {ρ : ScopeId}

theorem setNatives (h : StoreScoped V st) (k : Nat) : StoreScoped V { st with natives := k } where
  size := h.size
  sees ρ x hx := by
    obtain ⟨v, hlookup, hv⟩ := h.sees ρ x hx
    have hsame : ({ st with natives := k } : Store).lookup? ρ x = st.lookup? ρ x :=
      Store.lookup?_congr x ρ fun _ _ => rfl
    exact ⟨v, hsame.trans hlookup, hv⟩

theorem addScope (h : StoreScoped V st) (hρ : ρ < V.size) :
    StoreScoped (V.inside ρ) (st.addScope (some ρ)) where
  size := by
    show V.size + 1 = (st.scopes.push _).size
    rw [Array.size_push, h.size]
  sees i y hy := by
    have hV := V.extends_inside ρ
    rcases hy with hy | ⟨rfl, hy⟩
    · obtain ⟨v, hlookup, hv⟩ := h.sees i y hy
      have hi : i < st.scopes.size := by
        refine Nat.lt_of_not_le fun hle => ?_
        rw [Store.lookup?_of_missing (Array.getElem?_eq_none hle)] at hlookup
        cases hlookup
      exact ⟨v, (Store.lookup?_addScope hi _ y).trans hlookup, hv.mono hV⟩
    · obtain ⟨v, hlookup, hv⟩ := h.sees ρ y hy
      refine ⟨v, ?_, hv.mono hV⟩
      rw [h.size]
      exact (Store.lookup?_nextScope (h.size ▸ hρ) y).trans hlookup

theorem define (h : StoreScoped V st) (hρ : ρ < V.size) (x : String) {v : Value}
    (hv : v.Scoped V) : StoreScoped (V.bound ρ x) (st.define ρ x v) where
  size := h.size.trans (Array.size_modify).symm
  sees i y hy := by
    have hV := V.extends_bound ρ x
    rcases hy with hy | ⟨rfl, rfl⟩
    · obtain ⟨w, hlookup, hw⟩ := h.sees i y hy
      rcases st.lookup?_define ρ x v y i with hsame | hnew
      · exact ⟨w, hsame.trans hlookup, hw.mono hV⟩
      · exact ⟨v, hnew, hv.mono hV⟩
    · exact ⟨v, Store.lookup?_define_self (h.size ▸ hρ), hv.mono hV⟩

end StoreScoped

/-! ## Evaluation -/

/-- The step never fails for the lack of a name.  If it gives a result, then `Q` holds of that, and
what was to be found before can still be found. -/
def Finds {α : Type} (V : Visibility) (m : EvalM α) (st : Store) (Q : Visibility → α → Prop) :
    Prop :=
  Ensures m st fun r st' => (∀ x, r ≠ .error (.unbound x)) ∧
    ∀ a, r = .ok a → ∃ V', V.Extends V' ∧ StoreScoped V' st' ∧ Q V' a

namespace Finds

variable {α β : Type} {V V' : Visibility} {st : Store} {Q : Visibility → α → Prop}
  {R : Visibility → β → Prop}

theorem pure {a : α} (h : StoreScoped V st) (ha : Q V a) : Finds V (Pure.pure a) st Q := by
  refine ensures_of_run rfl ⟨fun x hx => (by cases hx), fun b hb => ?_⟩
  cases hb
  exact ⟨V, .refl V, h, ha⟩

theorem throw {e : RuntimeError} (he : ∀ x, e ≠ .unbound x) :
    Finds V (MonadExcept.throw e) st Q := by
  refine ensures_of_run rfl ⟨fun x hx => he x ?_, fun a ha => (by cases ha)⟩
  cases hx
  rfl

theorem of_extends {m : EvalM α} (hV : V.Extends V') (h : Finds V' m st Q) : Finds V m st Q := by
  intro r st' hrun
  obtain ⟨hne, hok⟩ := h r st' hrun
  refine ⟨hne, fun a ha => ?_⟩
  obtain ⟨V'', hV', hrest⟩ := hok a ha
  exact ⟨V'', hV.trans hV', hrest⟩

theorem imp {m : EvalM α} {Q' : Visibility → α → Prop} (h : Finds V m st Q)
    (hQ : ∀ V' a, V.Extends V' → Q V' a → Q' V' a) : Finds V m st Q' := by
  intro r st' hrun
  obtain ⟨hne, hok⟩ := h r st' hrun
  refine ⟨hne, fun a ha => ?_⟩
  obtain ⟨V', hV, hst, hQa⟩ := hok a ha
  exact ⟨V', hV, hst, hQ V' a hV hQa⟩

theorem bind {m : EvalM α} {f : α → EvalM β} (hm : Finds V m st Q)
    (hf : ∀ a V' st', V.Extends V' → StoreScoped V' st' → Q V' a → Finds V' (f a) st' R) :
    Finds V (m >>= f) st R := by
  refine Ensures.bind hm (fun a st' h => ?_) fun e st' h => ?_
  · obtain ⟨V', hV, hst, ha⟩ := h.2 a rfl
    exact (hf a V' st' hV hst ha).of_extends hV
  · refine ⟨fun x hx => h.1 x ?_, fun a ha => (by cases ha)⟩
    cases hx
    rfl

theorem call {fn : Native Value} (h : StoreScoped V st) (hfn : fn.ty? ≠ none) (arg : Value) :
    Finds V (fn.call arg) st fun V' v => v.Scoped V' := by
  obtain ⟨r, k, hrun, hr⟩ := Native.call_answers hfn arg st.natives
  refine ensures_of_run (hrun st rfl) ?_
  rcases hr with ⟨v, rfl, hv⟩ | ⟨kind, text, rfl⟩
  · refine ⟨fun x hx => (by cases hx), fun w hw => ?_⟩
    cases hw
    exact ⟨V, .refl V, h.setNatives k, .of_firstOrder V hv⟩
  · exact ⟨fun x hx => (by cases hx), fun w hw => (by cases hw)⟩

end Finds

section Eval

variable {V : Visibility} {st : Store} {ρ : ScopeId}

theorem finds_newScope_bind {α : Type} {f : ScopeId → EvalM α} {Q : Visibility → α → Prop}
    (h : StoreScoped V st) (hρ : ρ < V.size)
    (hf : StoreScoped (V.inside ρ) (st.addScope (some ρ)) →
      Finds (V.inside ρ) (f V.size) (st.addScope (some ρ)) Q) :
    Finds V (newScope (some ρ) >>= f) st Q := by
  refine .of_extends (V.extends_inside ρ) (ensures_bind_of_run rfl ?_)
  show Finds (V.inside ρ) (f st.scopes.size) _ Q
  rw [← h.size]
  exact hf (h.addScope hρ)

theorem finds_define_bind {α : Type} {f : Unit → EvalM α} {Q : Visibility → α → Prop} {x : String}
    {v : Value} (h : StoreScoped V st) (hρ : ρ < V.size) (hv : v.Scoped V)
    (hf : StoreScoped (V.bound ρ x) (st.define ρ x v) →
      Finds (V.bound ρ x) (f ()) (st.define ρ x v) Q) :
    Finds V (define ρ x v >>= f) st Q :=
  .of_extends (V.extends_bound ρ x) (ensures_define_bind (hf (h.define hρ x hv)))

theorem applyWith_finds {run : ScopeId → Term → EvalM Value} {f a : Value}
    (hrun : ∀ (V : Visibility) (st : Store) (ρ : ScopeId) (e : Term), StoreScoped V st →
      ρ < V.size → (∀ y ∈ e.freeNames, V.sees ρ y) →
      Finds V (run ρ e) st fun V' v => v.Scoped V')
    (h : StoreScoped V st) (hf : f.Scoped V) (ha : a.Scoped V) :
    Finds V (applyWith run f a) st fun V' v => v.Scoped V' := by
  cases hf with
  | num => exact .throw (fun x hx => by cases hx)
  | bool => exact .throw (fun x hx => by cases hx)
  | native hfn => exact .call h hfn a
  | @closure x body ρ hρ hbody =>
    refine finds_define_bind h hρ ha fun hst => hrun _ _ ρ body hst hρ fun y hy => ?_
    by_cases hyx : y = x
    · exact .inr ⟨rfl, hyx⟩
    · exact .inl (hbody y hy hyx)

/-- Evaluation of a term whose names can be found does not fail for the lack of a name. -/
theorem eval_finds (fuel : Nat) : ∀ (V : Visibility) (st : Store) (ρ : ScopeId) (e : Term),
    StoreScoped V st → ρ < V.size → (∀ y ∈ e.freeNames, V.sees ρ y) →
      Finds V (eval fuel ρ e) st fun V' v => v.Scoped V' := by
  induction fuel with
  | zero =>
    intro V st ρ e _ _ _ r st' hrun
    cases hrun
  | succ fuel ih =>
    intro V st ρ e h hρ hnames
    cases e with
    | num v => exact .pure h .num
    | bool b => exact .pure h .bool
    | var x =>
      obtain ⟨v, hlookup, hv⟩ := h.sees ρ x (hnames x (List.mem_singleton.2 rfl))
      intro r st' hrun
      have hrun : (lookup ρ x).runFrom st = some (r, st') := hrun
      rw [runFrom_lookup, hlookup] at hrun
      cases hrun
      exact Finds.pure h hv _ _ rfl
    | ite c a b =>
      have hc : ∀ y ∈ c.freeNames, V.sees ρ y := fun y hy =>
        hnames y (List.mem_append_left _ (List.mem_append_left _ hy))
      refine (ih V st ρ c h hρ hc).bind fun v V' st' hV hst hv => ?_
      have hρ' := Nat.lt_of_lt_of_le hρ hV.size
      split
      · exact ih V' st' ρ a hst hρ' fun y hy => hV.sees ρ y
          (hnames y (List.mem_append_left _ (List.mem_append_right _ hy)))
      · exact ih V' st' ρ b hst hρ' fun y hy => hV.sees ρ y
          (hnames y (List.mem_append_right _ hy))
      · exact .throw (fun x hx => by cases hx)
    | letIn x d b =>
      have hd : ∀ y ∈ d.freeNames, V.sees ρ y := fun y hy =>
        hnames y (List.mem_append_left _ hy)
      refine (ih V st ρ d h hρ hd).bind fun v V' st' hV hst hv => ?_
      have hρ' := Nat.lt_of_lt_of_le hρ hV.size
      refine finds_newScope_bind hst hρ' fun hst' => ?_
      refine finds_define_bind hst' (Nat.lt_succ_self _) (hv.mono (V'.extends_inside ρ))
        fun hst'' => ih _ _ _ b hst'' (Nat.lt_succ_self _) fun y hy => ?_
      by_cases hyx : y = x
      · exact .inr ⟨rfl, hyx⟩
      · have hmem : y ∈ b.freeNames.filter (· != x) := List.mem_filter.2 ⟨hy, by simpa using hyx⟩
        exact .inl (.inr ⟨rfl, hV.sees ρ y (hnames y (List.mem_append_right _ hmem))⟩)
    | lam x b =>
      refine finds_newScope_bind h hρ fun hst => .pure hst (.closure (Nat.lt_succ_self _) ?_)
      intro y hy hyx
      exact .inr ⟨rfl, hnames y (List.mem_filter.2 ⟨hy, by simpa using hyx⟩)⟩
    | app f a =>
      have hf : ∀ y ∈ f.freeNames, V.sees ρ y := fun y hy =>
        hnames y (List.mem_append_left _ hy)
      refine (ih V st ρ f h hρ hf).bind fun v V' st' hV hst hv => ?_
      have hρ' := Nat.lt_of_lt_of_le hρ hV.size
      split
      · refine (ih V' st' ρ a hst hρ' fun y hy => hV.sees ρ y
          (hnames y (List.mem_append_right _ hy))).bind fun w V'' st'' hV' hst' hw => ?_
        exact applyWith_finds ih hst' (hv.mono hV') hw
      · exact .throw (fun x hx => by cases hx)

end Eval

end LetPoly
