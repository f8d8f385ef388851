import LetPoly.Proofs.Machine.StoreTyping

/-!
# Values that do not refer to the store

Numbers, truth values and the host functions on them hold no scope.  Such a function takes nothing
of its argument but the number or the truth value in it, and its result holds no scope either.
-/

namespace LetPoly

/-- A number, a truth value or a host function on numbers and truth values. -/
def Value.FirstOrder : Value → Prop
  | num _ | bool _ => True
  | closure _ _ _ => False
  | native _ fn => fn.ty? ≠ none

instance (v : Value) : Decidable v.FirstOrder := by
  cases v <;> unfold Value.FirstOrder <;> infer_instance

theorem NumOp.eval_firstOrder (op : NumOp) (x y : Float) : (op.eval x y).FirstOrder := by
  cases op <;> trivial

/-- From a store with `k` natives the step gives a first-order value or complains of the kind of an
argument, whatever else is in the store, and changes nothing but the number of natives. -/
def EvalM.Answers (m : EvalM Value) (k : Nat) : Prop :=
  ∃ r k', (∀ st : Store, st.natives = k → m.runFrom st = some (r, { st with natives := k' })) ∧
    ((∃ v, r = .ok v ∧ v.FirstOrder) ∨ ∃ kind text, r = .error (.typeMismatch kind text))

section Answers

variable {arg : Value} {k : Nat}

theorem answers_pure {v : Value} (hv : v.FirstOrder) : EvalM.Answers (pure v) k :=
  ⟨.ok v, k, fun _ hst => hst ▸ rfl, .inl ⟨v, rfl, hv⟩⟩

theorem answers_newNative {fn : Native Value} (h : fn.ty? ≠ none) :
    (EvalM.newNative fn).Answers k :=
  ⟨.ok (.native k fn), k + 1, fun _ hst => hst ▸ rfl, .inl ⟨_, rfl, h⟩⟩

theorem answers_mismatch (kind text : String) :
    EvalM.Answers (throw (.typeMismatch kind text)) k :=
  ⟨.error _, k, fun _ hst => hst ▸ rfl, .inr ⟨kind, text, rfl⟩⟩

theorem answers_asNum {g : Float → EvalM Value} (hg : ∀ n, (g n).Answers k) :
    EvalM.Answers (do g (← arg.asNum)) k := by
  cases arg with
  | num n => exact hg n
  | bool | closure | native => exact answers_mismatch "Num" _

theorem answers_asBool {g : Bool → EvalM Value} (hg : ∀ q, (g q).Answers k) :
    EvalM.Answers (do g (← arg.asBool)) k := by
  cases arg with
  | bool q => exact hg q
  | num | closure | native => exact answers_mismatch "Bool" _

end Answers

namespace Native

variable {fn : Native Value} {arg arg' : Value}

theorem call_answers (h : fn.ty? ≠ none) (arg : Value) (k : Nat) : (fn.call arg).Answers k := by
  cases fn
  case binary => exact answers_asNum fun _ => answers_newNative (Option.some_ne_none _)
  case binaryWith op n => exact answers_asNum fun m => answers_pure (op.eval_firstOrder n m)
  case not => exact answers_asBool fun _ => answers_pure trivial
  case isNonpositive | isZero | decrement | increment | double =>
    exact answers_asNum fun _ => answers_pure trivial
  case same | const | always | reject => exact absurd rfl h

-- Arguments with the same number or truth value in them make no difference.
theorem call_congr (h : fn.ty? ≠ none) (hnum : arg.asNum = arg'.asNum)
    (hbool : arg.asBool = arg'.asBool) : fn.call arg = fn.call arg' := by
  cases fn
  case binary | binaryWith | isNonpositive | isZero | decrement | increment | double =>
    rw [call, call, hnum]
  case not => rw [call, call, hbool]
  case same | const | always | reject => exact absurd rfl h

end Native

end LetPoly
