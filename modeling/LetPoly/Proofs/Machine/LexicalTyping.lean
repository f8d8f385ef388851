import LetPoly.Proofs.Machine.Lexical
import LetPoly.Proofs.Typing.Declarative

/-!
# Types of the values of lexical runs

A closure is typed by a context for the environment in which its scope was made.  That environment
stays as it is, whatever is bound in scopes later, so typed values stay typed.  A look-up finds a
value like the one of the environment, which has the same types.  So a run that keeps to lexical
scoping gives a value of every type that the term has, also where functions are used at several
types.
-/

namespace LetPoly

open LexicalM

/-! ## Later stores -/

namespace LexicalStore

/-- The second store has the scopes of the first, with the same environments. -/
structure Later (s s' : LexicalStore) : Prop where
  size : s.store.nextScope ≤ s'.store.nextScope
  around : ∀ ρ < s.store.nextScope, s'.around ρ = s.around ρ

variable {s s' s'' : LexicalStore}

theorem Later.refl (s : LexicalStore) : s.Later s := ⟨Nat.le_refl _, fun _ _ => rfl⟩

theorem Later.trans (h : s.Later s') (h' : s'.Later s'') : s.Later s'' :=
  ⟨Nat.le_trans h.size h'.size, fun ρ hρ =>
    (h'.around ρ (Nat.lt_of_lt_of_le hρ h.size)).trans (h.around ρ hρ)⟩

theorem later_of_size_eq {st : Store} (h : st.scopes.size = s.store.scopes.size) :
    s.Later { s with store := st } :=
  ⟨Nat.le_of_eq h.symm, fun _ _ => rfl⟩

theorem nextScope_addScope (s : LexicalStore) (ρ : ScopeId) (env : Env) :
    (s.addScope ρ env).store.nextScope = s.store.nextScope + 1 := Array.size_push ..

theorem around_nextScope (s : LexicalStore) (ρ : ScopeId) (env : Env) :
    (s.addScope ρ env).around s.store.nextScope = env := Function.update_self ..

theorem later_addScope (s : LexicalStore) (ρ : ScopeId) (env : Env) :
    s.Later (s.addScope ρ env) where
  size := by
    rw [nextScope_addScope]
    exact Nat.le_succ _
  around ρ' hρ' := Function.update_of_ne (Nat.ne_of_lt hρ') ..

end LexicalStore

theorem Store.size_define (st : Store) (ρ : ScopeId) (x : String) (v : Value) :
    (st.define ρ x v).scopes.size = st.scopes.size := Array.size_modify ..

theorem Native.scopes_of_call {fn : Native Value} {arg : Value} {st st' : Store}
    {r : Except RuntimeError Value} (h : (fn.call arg).runFrom st = some (r, st')) :
    st'.scopes = st.scopes := by
  cases fn <;> cases arg <;> cases h <;> rfl

namespace LexicalM

variable {α β : Type} {m : LexicalM α} {f : α → LexicalM β}

/-- Every outcome leaves a later store. -/
def Extends (m : LexicalM α) : Prop := ∀ s r s', m.runFrom s = some (r, s') → s.Later s'

namespace Extends

theorem of_silent (h : ∀ s r s', m.runFrom s = some (r, s') → s' = s) : Extends m :=
  fun s r s' heq => h s r s' heq ▸ .refl s

theorem pure (a : α) : Extends (Pure.pure a) := by
  refine .of_silent fun s r s' heq => ?_
  cases heq
  rfl

theorem throw (e : RuntimeError) : Extends (α := α) (MonadExcept.throw e) := by
  refine .of_silent fun s r s' heq => ?_
  cases heq
  rfl

theorem ofEval {m : EvalM α} (h : ∀ st r st', m.runFrom st = some (r, st') →
    st'.scopes.size = st.scopes.size) : Extends (LexicalM.ofEval m) := by
  intro s r s' heq
  obtain ⟨⟨r', st⟩, hrun, heq⟩ := Option.map_eq_some_iff.1 heq
  cases heq
  exact LexicalStore.later_of_size_eq (h _ _ _ hrun)

theorem newScope (ρ : ScopeId) (env : Env) : Extends (LexicalM.newScope ρ env) := by
  intro s r s' heq
  cases heq
  exact s.later_addScope ρ env

theorem define (ρ : ScopeId) (x : String) (v : Value) : Extends (LexicalM.define ρ x v) := by
  refine .ofEval fun st r st' heq => ?_
  cases heq
  exact st.size_define ρ x v

theorem bind (hm : Extends m) (hf : ∀ a, Extends (f a)) : Extends (m >>= f) := by
  intro s r s' heq
  rw [runFrom_bind] at heq
  split at heq
  · cases heq
  · next e s₁ hrun =>
    cases heq
    exact hm _ _ _ hrun
  · next a s₁ hrun => exact (hm _ _ _ hrun).trans (hf a _ _ _ heq)

theorem lookup (ρ : ScopeId) (env : Env) (x : String) : Extends (LexicalM.lookup ρ env x) := by
  refine (Extends.ofEval fun st r st' heq => ?_).bind fun v => .of_silent fun s r s' heq => ?_
  · rw [EvalM.runFrom_lookup] at heq
    cases hx : st.lookup? ρ x <;> rw [hx] at heq <;> cases heq <;> rfl
  · split at heq <;> cases heq
    rfl

end Extends

end LexicalM

theorem applyLexical_extends {run : ScopeId → Env → Term → LexicalM Value}
    (hrun : ∀ ρ env e, Extends (run ρ env e)) (fn arg : Value) :
    Extends (applyLexical run fn arg) := by
  cases fn with
  | num | bool => exact .throw _
  | closure x body ρ => exact (Extends.define ρ x arg).bind fun _ s => hrun _ _ body s
  | native id fn =>
    exact .ofEval fun st r st' heq => congrArg Array.size (Native.scopes_of_call heq)

theorem evalLexical_extends (fuel : Nat) : ∀ ρ env e, Extends (evalLexical fuel ρ env e) := by
  induction fuel with
  | zero => exact fun _ _ _ _ _ _ h => nomatch h
  | succ fuel ih =>
    intro ρ env e
    cases e with
    | num | bool => exact .pure _
    | var x => exact .lookup ρ env x
    | ite c a b =>
      refine (ih ρ env c).bind fun v => ?_
      cases v with
      | bool q => cases q <;> exact ih ρ env _
      | num | closure | native => exact .throw _
    | letIn x d b =>
      exact (ih ρ env d).bind fun v => (Extends.newScope ρ env).bind fun inner =>
        (Extends.define inner x v).bind fun _ => ih inner _ b
    | lam x b => exact (Extends.newScope ρ env).bind fun inner => .pure _
    | app f a =>
      refine (ih ρ env f).bind fun v => ?_
      split
      · exact (ih ρ env a).bind fun w => applyLexical_extends ih v w
      · exact .throw _

theorem defineAllLexical_extends (fuel : Nat) (ρ : ScopeId) (entry : String) (bs : List Binding) :
    ∀ env, Extends (defineAllLexical fuel ρ entry env bs) := by
  induction bs with
  | nil => exact fun env => .pure env
  | cons b bs ih =>
    intro env
    rw [defineAllLexical]
    split
    · exact (evalLexical_extends fuel ρ env b.term).bind fun v =>
        (Extends.define ρ b.name v).bind fun _ => ih _
    · exact (ih env).bind fun _ => .pure env

/-! ## Typed values -/

/-- The value has the type.  The body of a closure is typed in a context whose schemes the values of
its environment have. -/
inductive TypedIn (s : LexicalStore) : Value → Ty → Prop
  | plain {v t} : v.ty? = some t → TypedIn s v t
  | closure {x body a b} {ρ : ScopeId} {Γ : Context} : ρ < s.store.nextScope →
      (∀ y (σ : Scheme) w t, Γ.get? y = some σ → (s.around ρ).get? y = some w → σ.HasInstance t →
        TypedIn s w t) →
      HasType (Γ.insert x (.mono a)) body b → TypedIn s (.closure x body ρ) (.arrow a b)

/-- The values of the environment have all the types that the context has for their names. -/
def EnvTyped (s : LexicalStore) (env : Env) (Γ : Context) : Prop :=
  ∀ y σ w t, Γ.get? y = some σ → env.get? y = some w → σ.HasInstance t → TypedIn s w t

section Typed

variable {s s' : LexicalStore} {x : String} {v w : Value} {t : Ty} {env : Env} {Γ : Context}
  {σ : Scheme}

theorem TypedIn.mono (h : TypedIn s v t) (hlater : s.Later s') : TypedIn s' v t := by
  induction h with
  | plain hv => exact .plain hv
  | closure hρ _ hbody ih =>
    refine .closure (Nat.lt_of_lt_of_le hρ hlater.size) ?_ hbody
    intro y σ w t hy hw ht
    rw [hlater.around _ hρ] at hw
    exact ih y σ w t hy hw ht

theorem TypedIn.kind (h : TypedIn s v t) : t.kind? = some v.kind := by
  cases h with
  | plain hv => exact Value.kind?_of_ty? hv
  | closure => rfl

theorem TypedIn.of_alike (h : TypedIn s w t) (hv : v.alike w = true) : TypedIn s v t := by
  unfold Value.alike at hv
  split at hv
  · -- the same closure
    obtain ⟨rfl, rfl, rfl⟩ := of_decide_eq_true hv
    exact h
  · next hnot =>
    obtain ⟨hsome, heq⟩ := Bool.and_eq_true_iff.1 hv
    have heq := of_decide_eq_true heq
    cases h with
    | plain hw => exact .plain (heq.trans hw)
    | closure =>
      -- a closure shows no type
      rw [heq] at hsome
      cases hsome

theorem EnvTyped.mono (h : EnvTyped s env Γ) (hlater : s.Later s') : EnvTyped s' env Γ :=
  fun y σ w t hy hw ht => (h y σ w t hy hw ht).mono hlater

theorem EnvTyped.insert (h : EnvTyped s env Γ) (hv : ∀ t, σ.HasInstance t → TypedIn s v t) :
    EnvTyped s (env.insert x v) (Γ.insert x σ) := by
  intro y τ w t hy hw ht
  by_cases hyx : y = x
  · subst hyx
    rw [SortedMap.get?_insert_self] at hy hw
    cases hy
    cases hw
    exact hv t ht
  · rw [SortedMap.get?_insert_of_ne _ _ hyx] at hy hw
    exact h y τ w t hy hw ht

theorem EnvTyped.insert_mono (h : EnvTyped s env Γ) (hv : TypedIn s v t) :
    EnvTyped s (env.insert x v) (Γ.insert x (.mono t)) :=
  h.insert fun _ ht => Scheme.hasInstance_mono.1 ht ▸ hv

end Typed

/-! ## Evaluation -/

theorem LexicalM.bind_eq_ok {α β : Type} {m : LexicalM α} {f : α → LexicalM β} {b : β}
    {s s' : LexicalStore} (h : (m >>= f).runFrom s = some (.ok b, s')) :
    ∃ a s₁, m.runFrom s = some (.ok a, s₁) ∧ (f a).runFrom s₁ = some (.ok b, s') := by
  rw [runFrom_bind] at h
  split at h
  · cases h
  · cases h
  · next a s₁ hrun => exact ⟨a, s₁, hrun, h⟩

theorem LexicalM.lookup_eq_ok {ρ : ScopeId} {env : Env} {x : String} {v : Value}
    {s s' : LexicalStore} (h : (lookup ρ env x).runFrom s = some (.ok v, s')) :
    ∃ w, env.get? x = some w ∧ v.alike w = true := by
  obtain ⟨v, s₁, -, h⟩ := bind_eq_ok h
  split at h
  · next hv =>
    cases h
    exact (Option.any_eq_true _ _).1 hv
  · cases h

theorem applyLexical_typed {run : ScopeId → Env → Term → LexicalM Value}
    (hrun : ∀ {s s' ρ env Γ e t v}, EnvTyped s env Γ → HasType Γ e t →
      (run ρ env e).runFrom s = some (.ok v, s') → TypedIn s' v t)
    {s s' : LexicalStore} {fn arg v : Value} {a b : Ty} (hfn : TypedIn s fn (.arrow a b))
    (harg : TypedIn s arg a) (h : (applyLexical run fn arg).runFrom s = some (.ok v, s')) :
    TypedIn s' v b := by
  cases hfn with
  | plain hty =>
    cases fn with
    | num | bool | closure => cases hty
    | native id fn =>
      obtain ⟨w, k, hcall, hw⟩ := Native.call_ty? hty harg.kind s.store
      obtain ⟨⟨r, st⟩, hcall', heq⟩ := Option.map_eq_some_iff.1 h
      cases hcall.symm.trans hcall'
      cases heq
      exact .plain hw
  | @closure x body _ _ ρ Γ hρ henv hbody =>
    -- the parameter is bound in the scope and put before the environment of the scope
    obtain ⟨_, s₁, hdef, h⟩ := bind_eq_ok h
    cases hdef
    have hlater : s.Later { s with store := s.store.define ρ x arg } :=
      LexicalStore.later_of_size_eq (s.store.size_define ρ x arg)
    exact hrun ((EnvTyped.mono henv hlater).insert_mono (harg.mono hlater)) hbody h

/-- A run that keeps to lexical scoping gives a value of each type of the term. -/
theorem evalLexical_typed (fuel : Nat) : ∀ {s s' ρ env Γ e t v}, EnvTyped s env Γ → HasType Γ e t →
    (evalLexical fuel ρ env e).runFrom s = some (.ok v, s') → TypedIn s' v t := by
  induction fuel with
  | zero => exact fun _ _ h => nomatch h
  | succ fuel ih =>
    intro s s' ρ env Γ e t v henv htyped h
    cases htyped with
    | num | bool =>
      cases h
      exact .plain rfl
    | @var _ x σ t hx ht =>
      obtain ⟨w, hw, halike⟩ := lookup_eq_ok h
      have hv := (henv x σ w t hx hw ht).of_alike halike
      exact hv.mono (Extends.lookup ρ env x s _ s' h)
    | @ite _ c a b t hc ha hb =>
      obtain ⟨q, s₁, hq, h⟩ := bind_eq_ok h
      have henv₁ := henv.mono (evalLexical_extends fuel ρ env c s _ s₁ hq)
      obtain ⟨q, rfl⟩ := Value.eq_bool_of_kind (ih henv hc hq).kind
      cases q with
      | true => exact ih henv₁ ha h
      | false => exact ih henv₁ hb h
    | @letIn _ x d b u t hd hb =>
      obtain ⟨w, s₁, hw, h⟩ := bind_eq_ok h
      obtain ⟨inner, s₂, hscope, h⟩ := bind_eq_ok h
      obtain ⟨_, s₃, hdef, h⟩ := bind_eq_ok h
      have hlater₁ := evalLexical_extends fuel ρ env d s _ s₁ hw
      have hlater₃ := (Extends.newScope ρ env s₁ _ s₂ hscope).trans
        (Extends.define inner x w s₂ _ s₃ hdef)
      refine ih ((henv.mono (hlater₁.trans hlater₃)).insert fun t' ht' => ?_) hb h
      exact (ih henv (hd.of_generalize ht') hw).mono hlater₃
    | @lam _ x b u t hb =>
      cases h
      refine .closure ?_ ?_ hb
      · rw [LexicalStore.nextScope_addScope]
        exact Nat.lt_succ_self _
      · rw [LexicalStore.around_nextScope]
        exact henv.mono (s.later_addScope ρ env)
    | @app _ f a u t hf ha =>
      obtain ⟨w, s₁, hw, h⟩ := bind_eq_ok h
      have hlater₁ := evalLexical_extends fuel ρ env f s _ s₁ hw
      split at h
      · obtain ⟨w', s₂, hw', h⟩ := bind_eq_ok h
        have hlater₂ := evalLexical_extends fuel ρ env a s₁ _ s₂ hw'
        exact applyLexical_typed ih ((ih henv hf hw).mono hlater₂) (ih (henv.mono hlater₁) ha hw') h
      · cases h

end LetPoly
