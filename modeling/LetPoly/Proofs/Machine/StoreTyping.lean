import LetPoly.Proofs.Machine.Outcome
import LetPoly.Proofs.Typing.Simple

/-!
# Simple types for stores with shared scopes

A world gives each scope of the store the types of the names that are visible from it.  The type of
a closure's parameter belongs to its scope and stays the same for all applications of the closure,
so binding the parameter anew keeps the store typed.  A look-up in a typed store gives a value of
the type that the scope sees, unless it needs a global name that is not bound yet.

Which types parameters may have is prescribed by the place of their function, so a world also knows
for which function a scope was made.
-/

namespace LetPoly

/-- The types of the names visible from a scope; a scope that is no root also has its parent and the
one name that it binds, with the type of that name, and the place of its function if it was made for
one. -/
structure ScopeTy where
  types : SimpleContext
  own : Option (ScopeId × String × Ty) := none
  made : Option Path := none

/-- `T` lets its scope bind `x` to values of type `t`. -/
def ScopeTy.OwnTy (T : ScopeTy) (x : String) (t : Ty) : Prop :=
  match T.own with
  | none => T.types x = some t
  | some (_, y, a) => x = y ∧ t = a

/-- The types of all scopes, by number. -/
abbrev World := List ScopeTy

/-- Scopes of the first world have the same types in the second, which has no other roots. -/
structure World.Extends (W W' : World) : Prop where
  kept : ∀ (ρ : ScopeId) (T : ScopeTy), W[ρ]? = some T → W'[ρ]? = some T
  roots : ∀ (ρ : ScopeId) (T : ScopeTy), W'[ρ]? = some T → T.own = none → W[ρ]? = some T

namespace World.Extends

theorem refl (W : World) : W.Extends W := ⟨fun _ _ h => h, fun _ _ h _ => h⟩

theorem trans {W W₁ W₂ : World} (h : W.Extends W₁) (h' : W₁.Extends W₂) : W.Extends W₂ where
  kept ρ T hρ := h'.kept ρ T (h.kept ρ T hρ)
  roots ρ T hρ hown := h.roots ρ T (h'.roots ρ T hρ hown) hown

theorem append (W : World) {T : ScopeTy} (hT : T.own ≠ none) : W.Extends (W ++ [T]) where
  kept ρ T' hρ := by
    rw [List.getElem?_append_left (List.getElem?_eq_some_iff.1 hρ).1]
    exact hρ
  roots ρ T' hρ hown := by
    rw [List.getElem?_append] at hρ
    split at hρ
    · exact hρ
    · rw [List.getElem?_singleton] at hρ
      split at hρ
      · cases hρ
        exact absurd hown hT
      · cases hρ

end World.Extends

/-! ## Values -/

/-- What a caller can tell of a value by looking at it. -/
inductive Kind where
  | num | bool | function
deriving DecidableEq

def Value.kind : Value → Kind
  | num _ => .num
  | bool _ => .bool
  | closure _ _ _ | native _ _ => .function

/-- The kind of the values of a type, where the type tells it. -/
def Ty.kind? : Ty → Option Kind
  | var _ => none
  | con "Num" => some .num
  | con "Bool" => some .bool
  | con _ => none
  | arrow _ _ => some .function

def NumOp.resultTy : NumOp → Ty
  | add | sub | mul | div => .num
  | eq | lt | le => .bool

/-- The type of a host function on numbers and truth values. -/
def Native.ty? {α : Type} : Native α → Option Ty
  | binary op => some (.arrow .num (.arrow .num op.resultTy))
  | binaryWith op _ => some (.arrow .num op.resultTy)
  | not => some (.arrow .bool .bool)
  | isNonpositive | isZero => some (.arrow .num .bool)
  | decrement | increment | double => some (.arrow .num .num)
  | same | const | always _ | reject => none

namespace Value

/-- The type of a value that shows it, which all but closures do. -/
def ty? : Value → Option Ty
  | num _ => some .num
  | bool _ => some .bool
  | closure _ _ _ => none
  | native _ fn => fn.ty?

variable {v : Value}

theorem kind?_of_ty? {t : Ty} (h : v.ty? = some t) : t.kind? = some v.kind := by
  cases v with
  | num | bool =>
    cases h
    rfl
  | closure => cases h
  | native id fn => cases fn <;> cases h <;> rfl

theorem eq_num_of_kind (h : Ty.num.kind? = some v.kind) : ∃ n, v = .num n := by
  have hkind : some Kind.num = some v.kind := h
  cases v with
  | num n => exact ⟨n, rfl⟩
  | bool | closure | native => cases hkind

theorem eq_bool_of_kind (h : Ty.bool.kind? = some v.kind) : ∃ q, v = .bool q := by
  have hkind : some Kind.bool = some v.kind := h
  cases v with
  | bool q => exact ⟨q, rfl⟩
  | num | closure | native => cases hkind

end Value

/-- The value has the type; a closure gets its parameter's type from its scope. -/
inductive ValueTyped (τ : ParamTypes) (W : World) : Value → Ty → Prop
  | num {v} : ValueTyped τ W (.num v) .num
  | bool {b} : ValueTyped τ W (.bool b) .bool
  | closure {x body a b p} {ρ parent : ScopeId} {T : ScopeTy} : W[ρ]? = some T →
      T.own = some (parent, x, a) → T.made = some p → τ p x a →
      TypedAt τ T.types (.lamBody :: p) body b → ValueTyped τ W (.closure x body ρ) (.arrow a b)
  | native {id} {fn : Native Value} {t} : fn.ty? = some t → ValueTyped τ W (.native id fn) t

variable {τ : ParamTypes}

namespace ValueTyped

variable {W W' : World} {v : Value} {t a b : Ty}

theorem mono (h : ValueTyped τ W v t) (hW : W.Extends W') : ValueTyped τ W' v t := by
  cases h with
  | num => exact .num
  | bool => exact .bool
  | closure hρ hown hmade hparam hbody => exact .closure (hW.kept _ _ hρ) hown hmade hparam hbody
  | native hfn => exact .native hfn

theorem kind (h : ValueTyped τ W v t) : t.kind? = some v.kind := by
  cases h with
  | num => rfl
  | bool => rfl
  | closure => rfl
  | @native id fn t hfn => exact Value.kind?_of_ty? (v := .native id fn) hfn

theorem of_ty? (h : v.ty? = some t) : ValueTyped τ W v t := by
  cases v with
  | num | bool =>
    cases h
    constructor
  | closure => cases h
  | native => exact .native h

theorem eq_bool (h : ValueTyped τ W v .bool) : ∃ q, v = .bool q := Value.eq_bool_of_kind h.kind

theorem isCallable (h : ValueTyped τ W v (.arrow a b)) : v.isCallable = true := by
  cases h with
  | closure => rfl
  | native => rfl

end ValueTyped

/-! ## Stores -/

/-- A scope as the world describes it: its parent is ready, and it binds only what it may. -/
structure ScopeTyped (τ : ParamTypes) (W : World) (st : Store) (ρ : ScopeId)
    (T : ScopeTy) (sc : Scope) : Prop where
  parent : sc.parent = T.own.map (·.1)
  enclosing : ∀ p x a, T.own = some (p, x, a) → p < ρ ∧ st.Ready p ∧
    ∃ P : ScopeTy, W[p]? = some P ∧ T.types = Function.update P.types x (some a)
  bindings : ∀ x v, sc.bindings.get? x = some v → ∃ t, T.OwnTy x t ∧ ValueTyped τ W v t

theorem ScopeTyped.mono {W W' : World} {st st' : Store} {ρ : ScopeId} {T : ScopeTy} {sc : Scope}
    (h : ScopeTyped τ W st ρ T sc) (hW : W.Extends W') (hst : st.Grows st') :
    ScopeTyped τ W' st' ρ T sc where
  parent := h.parent
  enclosing p x a hown := by
    obtain ⟨hlt, hready, P, hP, htypes⟩ := h.enclosing p x a hown
    exact ⟨hlt, hready.mono hst, P, hW.kept p P hP, htypes⟩
  bindings x v hx := by
    obtain ⟨t, hown, hv⟩ := h.bindings x v hx
    exact ⟨t, hown, hv.mono hW⟩

/-- Every scope of the store is as the world describes it. -/
structure StoreTyped (τ : ParamTypes) (W : World) (st : Store) : Prop where
  size : W.length = st.scopes.size
  scope : ∀ (ρ : ScopeId) (T : ScopeTy) (sc : Scope), W[ρ]? = some T → st.scopes[ρ]? = some sc →
    ScopeTyped τ W st ρ T sc

/-- Some root has a type for the name but does not bind it. -/
def World.Lacks (W : World) (st : Store) (x : String) : Prop :=
  ∃ (ρ : ScopeId) (T : ScopeTy) (t : Ty) (sc : Scope), W[ρ]? = some T ∧ T.own = none ∧
    T.types x = some t ∧ st.scopes[ρ]? = some sc ∧ sc.bindings.get? x = none

namespace StoreTyped

variable {W : World} {st : Store} {ρ : ScopeId} {T : ScopeTy}

theorem natives (h : StoreTyped τ W st) (k : Nat) : StoreTyped τ W { st with natives := k } where
  size := h.size
  scope ρ T sc hρ hsc := (h.scope ρ T sc hρ hsc).mono (.refl W) (Store.Grows.refl st)

theorem addScope (h : StoreTyped τ W st) (hready : st.Ready ρ) (hρ : W[ρ]? = some T) (x : String)
    (a : Ty) (made : Option Path) :
    StoreTyped τ (W ++ [⟨Function.update T.types x (some a), some (ρ, x, a), made⟩])
      (st.addScope (some ρ)) where
  size := by
    show (W ++ [_]).length = (st.scopes.push _).size
    rw [List.length_append, Array.size_push, h.size]
    rfl
  scope i T' sc hi hsc := by
    have hgrows := Store.Grows.addScope st (some ρ)
    have hW : W.Extends (W ++ [⟨Function.update T.types x (some a), some (ρ, x, a), made⟩]) :=
      .append W (Option.some_ne_none _)
    rw [Store.getElem?_addScope] at hsc
    split at hsc
    · next hsize =>
      -- the new scope binds nothing yet
      cases hsc
      rw [hsize, ← h.size, List.getElem?_concat_length] at hi
      cases hi
      refine ⟨rfl, fun p y b hown => ?_, fun y v hy => nomatch hy⟩
      cases hown
      have hlt : ρ < W.length := (List.getElem?_eq_some_iff.1 hρ).1
      exact ⟨by rw [hsize, ← h.size]; exact hlt, hready.mono hgrows, T, hW.kept _ _ hρ, rfl⟩
    · next hne =>
      have hlt : i < W.length := by
        have := (Array.getElem?_eq_some_iff.1 hsc).1
        rw [h.size]
        exact this
      rw [List.getElem?_append_left hlt] at hi
      exact (h.scope i T' sc hi hsc).mono hW hgrows

theorem define (h : StoreTyped τ W st) (hρ : W[ρ]? = some T) {x : String} {v : Value} {t : Ty}
    (hx : T.OwnTy x t) (hv : ValueTyped τ W v t) : StoreTyped τ W (st.define ρ x v) where
  size := by
    show W.length = (st.scopes.modify ρ _).size
    rw [Array.size_modify, h.size]
  scope i T' sc hi hsc := by
    have hgrows := Store.Grows.define st ρ x v
    rw [Store.getElem?_define] at hsc
    split at hsc
    · next hρi =>
      -- the scope that is written to has one binding more, of the type that it allows
      subst hρi
      rw [hρ] at hi
      cases hi
      obtain ⟨sc₀, hsc₀, rfl⟩ := Option.map_eq_some_iff.1 hsc
      have hold := (h.scope ρ T sc₀ hρ hsc₀).mono (.refl W) hgrows
      refine ⟨hold.parent, hold.enclosing, fun y w hy => ?_⟩
      rcases SortedMap.get?_insert_eq_some hy with ⟨rfl, rfl⟩ | ⟨-, hy⟩
      · exact ⟨t, hx, hv⟩
      · exact hold.bindings y w hy
    · exact (h.scope i T' sc hi hsc).mono (.refl W) hgrows

theorem getElem?_nextScope (h : StoreTyped τ W st) (T : ScopeTy) :
    (W ++ [T])[st.nextScope]? = some T := by
  rw [Store.nextScope, ← h.size, List.getElem?_concat_length]

theorem exists_scope (h : StoreTyped τ W st) (hρ : W[ρ]? = some T) :
    ∃ sc, st.scopes[ρ]? = some sc := by
  have hlt := (List.getElem?_eq_some_iff.1 hρ).1
  rw [h.size] at hlt
  exact ⟨_, Array.getElem?_eq_getElem hlt⟩

theorem ready_root (h : StoreTyped τ W st) (hρ : W[ρ]? = some T) (hown : T.own = none) :
    st.Ready ρ := by
  obtain ⟨sc, hsc⟩ := h.exists_scope hρ
  refine .root hsc ?_
  rw [(h.scope ρ T sc hρ hsc).parent, hown]
  rfl

-- Once its name is bound, a scope is ready.
theorem ready_define (h : StoreTyped τ W st) (hρ : W[ρ]? = some T) {p : ScopeId} {x : String}
    {a : Ty} (hown : T.own = some (p, x, a)) (v : Value) : (st.define ρ x v).Ready ρ := by
  obtain ⟨sc, hsc⟩ := h.exists_scope hρ
  have hscope := h.scope ρ T sc hρ hsc
  obtain ⟨-, hready, -⟩ := hscope.enclosing p x a hown
  have hdefined : (st.define ρ x v).scopes[ρ]? =
      some { sc with bindings := sc.bindings.insert x v } := by
    rw [Store.getElem?_define, if_pos rfl, hsc]
    rfl
  have hparent : sc.parent = some p := by
    rw [hscope.parent, hown]
    rfl
  have hbound : (sc.bindings.insert x v).get? x ≠ none := by
    rw [SortedMap.get?_insert_self]
    exact Option.some_ne_none v
  exact .child hdefined hparent hbound (hready.mono (Store.Grows.define st ρ x v))

-- From a scope that is ready, a look-up finds a value of the type that the scope sees, or ends at a
-- root that does not bind the name.
theorem lookup (h : StoreTyped τ W st) {x : String} {t : Ty} (hready : st.Ready ρ) :
    ∀ {T : ScopeTy}, W[ρ]? = some T → T.types x = some t →
      (∃ v, st.lookup? ρ x = some v ∧ ValueTyped τ W v t) ∨
        st.lookup? ρ x = none ∧ W.Lacks st x := by
  induction hready with
  | @root ρ sc hsc hparent =>
    intro T hρ ht
    have hscope := h.scope ρ T sc hρ hsc
    have hroot : T.own = none := by
      have hnone := hparent
      rw [hscope.parent] at hnone
      exact Option.map_eq_none_iff.1 hnone
    rw [Store.lookup?, hsc]
    dsimp only
    cases hx : sc.bindings.get? x with
    | none =>
      rw [hparent]
      exact .inr ⟨rfl, ρ, T, t, sc, hρ, hroot, ht, hsc, hx⟩
    | some v =>
      obtain ⟨t', hown, hv⟩ := hscope.bindings x v hx
      rw [ScopeTy.OwnTy, hroot] at hown
      cases hown.symm.trans ht
      exact .inl ⟨v, rfl, hv⟩
  | @child ρ p sc y hsc hparent hy _ ih =>
    intro T hρ ht
    have hscope := h.scope ρ T sc hρ hsc
    obtain ⟨⟨q, z, a⟩, hown, hq⟩ : ∃ o, T.own = some o ∧ o.1 = p := by
      rw [hscope.parent] at hparent
      exact Option.map_eq_some_iff.1 hparent
    cases hq
    obtain ⟨hlt, -, P, hP, htypes⟩ := hscope.enclosing _ z a hown
    have hbinds : ∀ w v, sc.bindings.get? w = some v → w = z ∧ ValueTyped τ W v a := by
      intro w v hw
      obtain ⟨b, hb, hv⟩ := hscope.bindings w v hw
      rw [ScopeTy.OwnTy, hown] at hb
      obtain ⟨rfl, rfl⟩ := hb
      exact ⟨rfl, hv⟩
    rw [Store.lookup?, hsc]
    dsimp only
    rw [htypes] at ht
    by_cases hxz : x = z
    · -- the scope's own name is bound, because the scope is ready
      subst hxz
      rw [Function.update_self] at ht
      cases ht
      obtain ⟨v, hv⟩ := Option.ne_none_iff_exists'.1 hy
      obtain ⟨rfl, htyped⟩ := hbinds y v hv
      rw [hv]
      exact .inl ⟨v, rfl, htyped⟩
    · rw [Function.update_of_ne hxz] at ht
      have hnone : sc.bindings.get? x = none := by
        cases hx : sc.bindings.get? x with
        | none => rfl
        | some v => exact absurd (hbinds x v hx).1 hxz
      rw [hnone, hparent]
      dsimp only
      rw [dif_pos hlt]
      exact ih hP ht

end StoreTyped

/-! ## Host functions -/

section Native

variable {W : World} {st : Store}

theorem NumOp.ty?_eval (op : NumOp) (x y : Float) : (op.eval x y).ty? = some op.resultTy := by
  cases op <;> rfl

/-- A host function that gets an argument of the kind that its type asks for gives a result of its
type, and changes nothing but the number of natives. -/
theorem Native.call_ty? {fn : Native Value} {arg : Value} {a b : Ty}
    (hfn : fn.ty? = some (.arrow a b)) (harg : a.kind? = some arg.kind) (st : Store) :
    ∃ v k, (fn.call arg).runFrom st = some (.ok v, { st with natives := k }) ∧ v.ty? = some b := by
  cases fn
  case binary op =>
    cases hfn
    obtain ⟨n, rfl⟩ := Value.eq_num_of_kind harg
    exact ⟨_, _, rfl, rfl⟩
  case binaryWith op n =>
    cases hfn
    obtain ⟨m, rfl⟩ := Value.eq_num_of_kind harg
    exact ⟨_, _, rfl, op.ty?_eval n m⟩
  case not =>
    cases hfn
    obtain ⟨q, rfl⟩ := Value.eq_bool_of_kind harg
    exact ⟨_, _, rfl, rfl⟩
  case isNonpositive | isZero | decrement | increment | double =>
    cases hfn
    obtain ⟨n, rfl⟩ := Value.eq_num_of_kind harg
    exact ⟨_, _, rfl, rfl⟩
  case same | const | always | reject => cases hfn

/-- A host function that gets an argument of its type gives a result of its type. -/
theorem Native.call_typed {fn : Native Value} {arg : Value} {a b : Ty} (h : StoreTyped τ W st)
    (hfn : fn.ty? = some (.arrow a b)) (harg : ValueTyped τ W arg a) :
    ∃ v st', (fn.call arg).runFrom st = some (.ok v, st') ∧ st.Grows st' ∧ StoreTyped τ W st' ∧
      ValueTyped τ W v b := by
  obtain ⟨v, k, hrun, hv⟩ := Native.call_ty? hfn harg.kind st
  exact ⟨v, _, hrun, .refl st, h.natives k, .of_ty? hv⟩

end Native

end LetPoly
