import LetPoly.Proofs.Machine.Relabel
import LetPoly.Proofs.Session.Accepted

/-!
# The order of function definitions

A definition that is a function is evaluated without looking at any name: it gets a scope of its
own, and its name is bound.  In another order the same names are bound to the same functions, and
only the numbers of their scopes differ.  So the entry of the program is evaluated in stores that
differ by such numbers, and gives the same up to them.
-/

namespace LetPoly

open EvalM

/-! ## Stores in which functions are made and bound -/

namespace Store

theorem ext_scopes {st st' : Store} (hnatives : st.natives = st'.natives)
    (h : ∀ i : ScopeId, st.scopes[i]? = st'.scopes[i]?) : st = st' := by
  cases st
  cases st'
  exact congr (congrArg Store.mk (Array.ext_getElem? h)) hnatives

theorem addScope_define {st : Store} {ρ : ScopeId} (hρ : ρ < st.scopes.size) (x : String)
    (v : Value) (parent : Option ScopeId) :
    (st.define ρ x v).addScope parent = (st.addScope parent).define ρ x v := by
  refine ext_scopes rfl fun i => ?_
  rw [getElem?_addScope, getElem?_define, getElem?_define, getElem?_addScope]
  have hsize : (st.define ρ x v).scopes.size = st.scopes.size := Array.size_modify
  rw [hsize]
  by_cases hi : i = st.scopes.size
  · rw [if_pos hi, if_pos hi, if_neg fun hc => Nat.ne_of_lt hρ (hc.trans hi)]
  · rw [if_neg hi, if_neg hi]

theorem define_comm (st : Store) (ρ : ScopeId) {x y : String} (h : x ≠ y) (v w : Value) :
    (st.define ρ x v).define ρ y w = (st.define ρ y w).define ρ x v := by
  refine ext_scopes rfl fun i => ?_
  rw [getElem?_define, getElem?_define, getElem?_define, getElem?_define]
  by_cases hi : ρ = i
  · rw [if_pos hi, if_pos hi, if_pos hi, if_pos hi, Option.map_map, Option.map_map]
    refine congrArg (Option.map · _) (funext fun sc => ?_)
    exact congrArg (Scope.mk sc.parent) (SortedMap.insert_comm _ h v w)
  · rw [if_neg hi, if_neg hi, if_neg hi, if_neg hi]

/-- The store after the definition of a function in the scope `ρ`. -/
def bindFunction (st : Store) (ρ : ScopeId) (name x : String) (body : Term) : Store :=
  (st.addScope (some ρ)).define ρ name (.closure x body st.nextScope)

theorem size_bindFunction (st : Store) (ρ : ScopeId) (name x : String) (body : Term) :
    (st.bindFunction ρ name x body).scopes.size = st.scopes.size + 1 := by
  rw [bindFunction, define, Array.size_modify, addScope, Array.size_push]

theorem WellFormed.bindFunction {st : Store} (h : st.WellFormed) {ρ : ScopeId}
    (hρ : ρ < st.scopes.size) (name x : String) (body : Term) :
    (st.bindFunction ρ name x body).WellFormed := by
  have hst := h.known [] fun _ hf => by cases hf
  have hknown := hst.addScope (some ρ) x
  have hadded := (Evolves.addScope hst hρ x).wellFormed h hknown
  have hnew : ∀ f ∈ [(st.nextScope, x)], f.1 = st.nextScope ∧ f.2 = x := fun f hf =>
    Prod.mk.inj (List.mem_singleton.1 hf)
  have hdefined := hknown.define (v := .closure x body st.nextScope)
    (fun f hf => Or.inr (hnew f hf)) ρ name
  refine hdefined.wellFormed fun i sc hi p hp => ?_
  rw [getElem?_define] at hi
  split at hi
  · obtain ⟨sc', hi', rfl⟩ := Option.map_eq_some_iff.1 hi
    exact hadded.parent i sc' hi' p hp
  · exact hadded.parent i sc hi p hp

/-! ## Two definitions in either order -/

variable {st : Store} {π : Equiv.Perm ScopeId}

-- A scope that is there sees only what is there.
theorem WellFormed.relabel_scope (h : st.WellFormed) (hπ : ∀ i < st.scopes.size, π i = i)
    (i : ScopeId) : st.scopes[i]?.map (Scope.relabel π) = st.scopes[i]? := by
  cases hi : st.scopes[i]? with
  | none => rfl
  | some sc =>
    have hlt := (Array.getElem?_eq_some_iff.1 hi).1
    have hparent : sc.parent.map π = sc.parent := by
      cases hp : sc.parent with
      | none => rfl
      | some p => exact congrArg some (hπ p (Nat.lt_trans (h.parent i sc hi p hp) hlt))
    have hbindings : sc.bindings.mapVal (Value.relabel π) = sc.bindings := by
      refine SortedMap.ext_get? fun x => ?_
      rw [SortedMap.get?_mapVal]
      cases hx : sc.bindings.get? x with
      | none => rfl
      | some v =>
        refine congrArg some (Value.relabel_eq_self fun f hf => hπ _ (h.holds f ?_))
        exact mem_functions.2 ⟨i, sc, x, v, hi, hx, hf⟩
    rw [Option.map_some, Scope.relabel, hparent, hbindings]

theorem getElem?_addScope_addScope (st : Store) (parent : Option ScopeId) (i : ScopeId) :
    ((st.addScope parent).addScope parent).scopes[i]? =
      if i = st.scopes.size ∨ i = st.scopes.size + 1 then some { parent } else st.scopes[i]? := by
  have hsize : (st.addScope parent).scopes.size = st.scopes.size + 1 := Array.size_push _
  rw [getElem?_addScope, getElem?_addScope, hsize]
  by_cases hi : i = st.scopes.size + 1
  · rw [if_pos hi, if_pos (.inr hi)]
  · by_cases hi' : i = st.scopes.size
    · rw [if_neg hi, if_pos hi', if_pos (.inl hi')]
    · rw [if_neg hi, if_neg hi', if_neg (by simp [hi, hi'])]

-- Two new scopes without bindings can change places.
theorem relabels_swap (h : st.WellFormed) {ρ : ScopeId} (hρ : ρ < st.scopes.size) :
    Relabels (Equiv.swap st.scopes.size (st.scopes.size + 1))
      ((st.addScope (some ρ)).addScope (some ρ)) ((st.addScope (some ρ)).addScope (some ρ)) := by
  have hfix : ∀ i : Nat, ¬ (i = st.scopes.size ∨ i = st.scopes.size + 1) →
      Equiv.swap st.scopes.size (st.scopes.size + 1) i = i := fun i hi =>
    Equiv.swap_apply_of_ne_of_ne (fun hc => hi (.inl hc)) fun hc => hi (.inr hc)
  have hold : ∀ i < st.scopes.size, Equiv.swap st.scopes.size (st.scopes.size + 1) i = i :=
    fun i hi => hfix i (by omega)
  have hnew : ∀ i : Nat, (Equiv.swap st.scopes.size (st.scopes.size + 1) i = st.scopes.size ∨
      Equiv.swap st.scopes.size (st.scopes.size + 1) i = st.scopes.size + 1) ↔
      (i = st.scopes.size ∨ i = st.scopes.size + 1) := by
    intro i
    rw [Equiv.swap_apply_eq_iff, Equiv.swap_apply_eq_iff, Equiv.swap_apply_left,
      Equiv.swap_apply_right]
    exact or_comm
  refine ⟨rfl, rfl, fun i => ?_, fun i hi => hfix i ?_, fun i p sc hi hp => ?_⟩
  · rw [getElem?_addScope_addScope, getElem?_addScope_addScope]
    simp only [hnew]
    split
    · rw [Option.map_some, Scope.relabel, Option.map_some, hold ρ hρ]
      rfl
    · next hi => rw [hfix i hi, h.relabel_scope hold]
  · rw [addScope, Array.size_push, addScope, Array.size_push] at hi
    omega
  · rw [getElem?_addScope_addScope] at hi
    split at hi
    · next hi' =>
      cases hi
      cases hp
      rw [hold ρ hρ]
      have hlt : ∀ j : Nat, j = st.scopes.size ∨ j = st.scopes.size + 1 → ρ < j := by
        rintro j (rfl | rfl)
        · exact hρ
        · exact Nat.lt_succ_of_lt hρ
      exact iff_of_true (hlt _ ((hnew i).2 hi')) (hlt i hi')
    · next hi' =>
      have hlt := h.parent i sc hi p hp
      have hsize := (Array.getElem?_eq_some_iff.1 hi).1
      rw [hold p (Nat.lt_trans hlt hsize), hold i hsize]

/-- Two functions that are defined in either order. -/
theorem relabels_bindFunction_comm (h : st.WellFormed) {ρ : ScopeId} (hρ : ρ < st.scopes.size)
    {a b : String} (hab : a ≠ b) (x y : String) (d e : Term) :
    Relabels (Equiv.swap st.scopes.size (st.scopes.size + 1))
      ((st.bindFunction ρ a x d).bindFunction ρ b y e)
      ((st.bindFunction ρ b y e).bindFunction ρ a x d) := by
  have hρ' : ρ < (st.addScope (some ρ)).scopes.size := by
    rw [addScope, Array.size_push]
    exact Nat.lt_succ_of_lt hρ
  -- both are two new scopes first, and then two bindings
  have hboth : ∀ (a b x y : String) (d e : Term),
      (st.bindFunction ρ a x d).bindFunction ρ b y e =
        (((st.addScope (some ρ)).addScope (some ρ)).define ρ a
          (.closure x d st.scopes.size)).define ρ b (.closure y e (st.scopes.size + 1)) := by
    intro a b x y d e
    have hsize : ((st.addScope (some ρ)).define ρ a (.closure x d st.nextScope)).nextScope =
        st.scopes.size + 1 := st.size_bindFunction ρ a x d
    rw [bindFunction, bindFunction, addScope_define hρ', hsize]
    rfl
  have hfix : Equiv.swap st.scopes.size (st.scopes.size + 1) ρ = ρ :=
    Equiv.swap_apply_of_ne_of_ne (Nat.ne_of_lt hρ) (Nat.ne_of_lt (Nat.lt_succ_of_lt hρ))
  have hst := ((relabels_swap h hρ).define ρ a (.closure x d st.scopes.size)).define ρ b
    (.closure y e (st.scopes.size + 1))
  rw [hfix, Value.relabel, Value.relabel, Equiv.swap_apply_left, Equiv.swap_apply_right] at hst
  rw [hboth, hboth, define_comm _ ρ hab.symm]
  exact hst

theorem WellFormed.relabels_one (h : st.WellFormed) : st.Relabels 1 st where
  natives := rfl
  size := rfl
  scopes i := (h.relabel_scope (fun _ _ => rfl) i).symm
  fixes _ _ := rfl
  order _ _ _ _ _ := Iff.rfl

theorem Relabels.bindFunction {st' : Store} (h : st.Relabels π st') (ρ : ScopeId)
    (name x : String) (body : Term) : (st.bindFunction ρ name x body).Relabels π
      (st'.bindFunction (π ρ) name x body) := by
  have hdefined := (h.addScope ρ).define ρ name (.closure x body st.nextScope)
  rw [Value.relabel, h.nextScope] at hdefined
  exact hdefined

/-! ## All definitions, in any order -/

/-- The store after one definition of a program, if it is a function and not the entry. -/
def bindDefinition (ρ : ScopeId) (entry : String) (st : Store) (b : Binding) : Store :=
  match b.term with
  | .lam x body => if b.name = entry then st else st.bindFunction ρ b.name x body
  | _ => st

/-- The store after the definitions of a program that are functions, except the entry. -/
def bindAll (ρ : ScopeId) (entry : String) (st : Store) (bs : List Binding) : Store :=
  bs.foldl (bindDefinition ρ entry) st

section Definitions

variable {ρ : ScopeId} {entry : String}

theorem bindDefinition_cases (ρ : ScopeId) (entry : String) (b : Binding) :
    (∀ st : Store, st.bindDefinition ρ entry b = st) ∨
      ∃ x body, ∀ st : Store, st.bindDefinition ρ entry b = st.bindFunction ρ b.name x body := by
  obtain ⟨name, e⟩ := b
  cases e with
  | lam x body =>
    by_cases hname : name = entry
    · exact .inl fun st => if_pos hname
    · exact .inr ⟨x, body, fun st => if_neg hname⟩
  | num | bool | var | ite | letIn | app => exact .inl fun _ => rfl

theorem WellFormed.bindDefinition (h : st.WellFormed) (hρ : ρ < st.scopes.size) (entry : String)
    (b : Binding) : (st.bindDefinition ρ entry b).WellFormed ∧
      ρ < (st.bindDefinition ρ entry b).scopes.size := by
  rcases bindDefinition_cases ρ entry b with hb | ⟨x, body, hb⟩
  · rw [hb]
    exact ⟨h, hρ⟩
  · rw [hb, size_bindFunction]
    exact ⟨h.bindFunction hρ _ _ _, Nat.lt_succ_of_lt hρ⟩

theorem Relabels.bindAll (hρ : π ρ = ρ) (bs : List Binding) : ∀ {st st' : Store},
    st.Relabels π st' → (st.bindAll ρ entry bs).Relabels π (st'.bindAll ρ entry bs) := by
  induction bs with
  | nil => exact id
  | cons b bs ih =>
    intro st st' h
    refine ih ?_
    rcases bindDefinition_cases ρ entry b with hb | ⟨x, body, hb⟩
    · rw [hb, hb]
      exact h
    · rw [hb, hb]
      have hst := h.bindFunction ρ b.name x body
      rwa [hρ] at hst

theorem relabels_bindDefinition_comm (h : st.WellFormed) (hρ : ρ < st.scopes.size)
    (entry : String) {b c : Binding} (hbc : b.name ≠ c.name) : ∃ π : Equiv.Perm ScopeId, π ρ = ρ ∧
      ((st.bindDefinition ρ entry b).bindDefinition ρ entry c).Relabels π
        ((st.bindDefinition ρ entry c).bindDefinition ρ entry b) := by
  rcases bindDefinition_cases ρ entry b with hb | ⟨x, d, hb⟩
  · refine ⟨1, rfl, ?_⟩
    rw [hb, hb]
    exact (h.bindDefinition hρ entry c).1.relabels_one
  rcases bindDefinition_cases ρ entry c with hc | ⟨y, e, hc⟩
  · refine ⟨1, rfl, ?_⟩
    rw [hc, hc]
    exact (h.bindDefinition hρ entry b).1.relabels_one
  · rw [hb, hc, hc, hb]
    have hfix : Equiv.swap st.scopes.size (st.scopes.size + 1) ρ = ρ :=
      Equiv.swap_apply_of_ne_of_ne (Nat.ne_of_lt hρ) (Nat.ne_of_lt (Nat.lt_succ_of_lt hρ))
    exact ⟨_, hfix, relabels_bindFunction_comm h hρ hbc x y d e⟩

/-- Definitions with distinct names leave the same store in any order, up to the numbers of their
scopes. -/
theorem relabels_bindAll_of_perm (entry : String) {bs bs' : List Binding} (hperm : bs.Perm bs') :
    ∀ {st : Store}, st.WellFormed → ρ < st.scopes.size → (bs.map (·.name)).Nodup →
      ∃ π : Equiv.Perm ScopeId, π ρ = ρ ∧
        (st.bindAll ρ entry bs).Relabels π (st.bindAll ρ entry bs') := by
  induction hperm with
  | nil => exact fun h _ _ => ⟨1, rfl, h.relabels_one⟩
  | cons b _ ih =>
    intro st h hρ hnodup
    have hb := h.bindDefinition hρ entry b
    exact ih hb.1 hb.2 (List.nodup_cons.1 hnodup).2
  | swap b c bs =>
    intro st h hρ hnodup
    have hcb : c.name ≠ b.name := List.ne_of_not_mem_cons (List.nodup_cons.1 hnodup).1
    obtain ⟨π, hπ, hst⟩ := relabels_bindDefinition_comm h hρ entry hcb
    exact ⟨π, hπ, hst.bindAll hπ bs⟩
  | trans hperm _ ih ih' =>
    intro st h hρ hnodup
    obtain ⟨π, hπ, hst⟩ := ih h hρ hnodup
    obtain ⟨π', hπ', hst'⟩ := ih' h hρ ((hperm.map _).nodup_iff.1 hnodup)
    refine ⟨π' * π, ?_, hst.trans hst'⟩
    rw [Equiv.Perm.mul_apply, hπ, hπ']

end Definitions

end Store

/-! ## Programs -/

/-- Definitions that are all functions run to the end, and bind them. -/
theorem runFrom_defineAll (fuel : Nat) (ρ : ScopeId) (entry : String) (bs : List Binding) :
    ∀ st : Store, (∀ b ∈ bs, b.name ≠ entry → ∃ x body, b.term = .lam x body) →
      (defineAll (fuel + 1) ρ entry bs).runFrom st =
        some (.ok (), st.bindAll ρ entry bs) := by
  induction bs with
  | nil => exact fun _ _ => rfl
  | cons b bs ih =>
    intro st hbs
    have hrest := fun st => ih st fun c hc => hbs c (List.mem_cons_of_mem _ hc)
    obtain ⟨name, e⟩ := b
    rw [defineAll]
    by_cases hname : name = entry
    · subst hname
      have hb : st.bindDefinition ρ name ⟨name, e⟩ = st := by
        cases e <;> simp [Store.bindDefinition]
      rw [if_neg (by simp), Store.bindAll, List.foldl_cons, hb]
      exact hrest st
    · obtain ⟨x, body, rfl⟩ := hbs _ List.mem_cons_self hname
      have hb : st.bindDefinition ρ entry ⟨name, .lam x body⟩ = st.bindFunction ρ name x body :=
        if_neg hname
      rw [if_pos hname, Store.bindAll, List.foldl_cons, hb]
      exact hrest (st.bindFunction ρ name x body)

-- Without fuel no definition is evaluated, and neither is the entry.
theorem runFrom_defineAll_zero (ρ : ScopeId) (entry : String) (e : Term) (bs : List Binding)
    (st : Store) : (defineAll 0 ρ entry bs >>= fun _ => eval 0 ρ e).runFrom st = none := by
  induction bs with
  | nil => rfl
  | cons b bs ih =>
    rw [defineAll]
    split
    · rfl
    · exact ih

theorem find?_name_of_mem {bs : List Binding} {b : Binding} (hnodup : (bs.map (·.name)).Nodup)
    (hb : b ∈ bs) : bs.find? (·.name == b.name) = some b := by
  induction bs with
  | nil => cases hb
  | cons c bs ih =>
    obtain ⟨hc, hbs⟩ := List.nodup_cons.1 hnodup
    rcases List.mem_cons.1 hb with rfl | hb
    · exact List.find?_cons_of_pos (beq_self_eq_true _)
    · have hne : c.name ≠ b.name := fun heq => hc (List.mem_map.2 ⟨b, hb, heq.symm⟩)
      rw [List.find?_cons_of_neg (by simpa using hne), ih hbs hb]

theorem Program.get?_eq_some_iff {p : Program} {name : String} {e : Term} :
    p.get? name = some e ↔ ⟨name, e⟩ ∈ p.bindings := by
  constructor
  · intro h
    obtain ⟨b, hb, rfl, rfl⟩ := mem_bindings_of_get? h
    exact hb
  · intro h
    rw [get?, find?_name_of_mem p.nodup h]
    rfl

/-- A program whose definitions are functions, the entry aside, runs as it does with its definitions
in any other order: it goes on for ever, or fails with the same error, or gives the same value up to
the numbers of scopes. -/
theorem Program.eval_relabel_of_perm {p p' : Program} (hperm : p.bindings.Perm p'.bindings)
    {entry : String} (hfun : ∀ b ∈ p.bindings, b.name ≠ entry → ∃ x body, b.term = .lam x body)
    {st : Store} (hst : st.WellFormed) {ρ : ScopeId} (hρ : ρ < st.scopes.size) :
    ∃ π : Equiv.Perm ScopeId, ∀ fuel, Option.Rel (fun o o' => o'.1 = o.1.map (Value.relabel π))
      ((p.eval fuel ρ entry).runFrom st) ((p'.eval fuel ρ entry).runFrom st) := by
  have hget : p'.get? entry = p.get? entry := Option.ext fun e => by
    rw [get?_eq_some_iff, get?_eq_some_iff, hperm.mem_iff]
  obtain ⟨π, hπ, hrel⟩ := Store.relabels_bindAll_of_perm entry hperm hst hρ p.nodup
  refine ⟨π, fun fuel => ?_⟩
  rw [Program.eval, Program.eval, hget]
  cases p.get? entry with
  | none => exact .some rfl
  | some main =>
    cases fuel with
    | zero =>
      rw [runFrom_defineAll_zero, runFrom_defineAll_zero]
      exact .none
    | succ fuel =>
      have hrun : ∀ bs : List Binding, bs.Perm p.bindings →
          (defineAll (fuel + 1) ρ entry bs >>= fun _ => LetPoly.eval (fuel + 1) ρ main).runFrom st =
            (LetPoly.eval (fuel + 1) ρ main).runFrom (st.bindAll ρ entry bs) := by
        intro bs hbs
        rw [runFrom_bind,
          runFrom_defineAll fuel ρ entry bs st fun b hb => hfun b (hbs.mem_iff.1 hb)]
      have hmain := eval_mirrors π (fuel + 1) _ _ ρ main hrel
      rw [hπ] at hmain
      rw [hrun _ (.refl _), hrun _ hperm.symm]
      rcases optionRel_cases hmain with ⟨hnone, hnone'⟩ | ⟨o, o', hsome, hsome', heq, -⟩
      · rw [hnone, hnone']
        exact .none
      · rw [hsome, hsome']
        exact .some heq

/-- Two functions that call each other, and an entry that ends with the first. -/
def callEachOther : Program where
  bindings := [⟨"f", .lam "x" (.app (.var "g") (.var "x"))⟩, ⟨"g", .lam "y" (.var "f")⟩,
    ⟨"main", .app (.var "f") (.bool true)⟩]
  nodup := by decide

/-- The same from the last definition to the first. -/
def callEachOtherReversed : Program where
  bindings := callEachOther.bindings.reverse
  nodup := by decide

/-- The entry gives the function `f`, whose scope is made first in one order and second in the
other. -/
theorem Program.eval_relabel_of_perm_reverse :
    callEachOther.bindings.Perm callEachOtherReversed.bindings ∧
      (Store.addScope {} none).WellFormed ∧
      ((callEachOther.eval 5 0 "main").runFrom (Store.addScope {} none)).map (·.1) =
        some (.ok (.closure "x" (.app (.var "g") (.var "x")) 1)) ∧
      ((callEachOtherReversed.eval 5 0 "main").runFrom (Store.addScope {} none)).map (·.1) =
        some (.ok (.closure "x" (.app (.var "g") (.var "x")) 2)) ∧
      ∃ π : Equiv.Perm ScopeId, ∀ fuel, Option.Rel (fun o o' => o'.1 = o.1.map (Value.relabel π))
        ((callEachOther.eval fuel 0 "main").runFrom (Store.addScope {} none))
        ((callEachOtherReversed.eval fuel 0 "main").runFrom (Store.addScope {} none)) := by
  have hperm : callEachOther.bindings.Perm callEachOtherReversed.bindings :=
    (List.reverse_perm _).symm
  have hst : (Store.addScope {} none).WellFormed := by decide
  refine ⟨hperm, hst, by with_unfolding_all rfl, by with_unfolding_all rfl,
    eval_relabel_of_perm hperm ?_ hst (by decide)⟩
  simp [callEachOther]

end LetPoly
