import LetPoly.Proofs.Machine.Noted
import LetPoly.Proofs.Machine.StoreTyping

/-!
# Simply typed terms evaluate safely

Evaluation of a simply typed term ends with a value of its type, unless it needs a global name that
is not bound yet.  On the way, whether it ends or not, every value that a parameter is bound to has
the type that is prescribed for the parameter.
-/

namespace LetPoly

open EvalM NotedM

variable {τ : ParamTypes}

/-! ## Notes -/

/-- The value has the type that is prescribed for the parameter. -/
def NoteTyped (τ : ParamTypes) (W : World) (note : Note) : Prop :=
  ∃ (T : ScopeTy) (parent : ScopeId) (a : Ty) (p : Path), W[note.scope]? = some T ∧
    T.own = some (parent, note.param, a) ∧ T.made = some p ∧ τ p note.param a ∧
      ValueTyped τ W note.value a

theorem NoteTyped.mono {W W' : World} {note : Note} (h : NoteTyped τ W note) (hW : W.Extends W') :
    NoteTyped τ W' note := by
  obtain ⟨T, parent, a, p, hT, hown, hmade, hparam, hv⟩ := h
  exact ⟨T, parent, a, p, hW.kept _ _ hT, hown, hmade, hparam, hv.mono hW⟩

/-- The store is typed, the places of functions are noted as the world knows them, and so are values
of the types of the parameters. -/
structure NotedTyped (τ : ParamTypes) (W : World) (s : Noted) : Prop where
  store : StoreTyped τ W s.store
  origin : ∀ ρ, s.origin ρ = W[ρ]?.bind (·.made)
  bound : ∀ note ∈ s.bound, NoteTyped τ W note

namespace NotedTyped

variable {W : World} {s : Noted} {ρ : ScopeId} {T : ScopeTy} {x : String} {a : Ty}

-- Steps that nothing is noted of, in the same world.
theorem withStore (h : NotedTyped τ W s) {st : Store} (hst : StoreTyped τ W st) :
    NotedTyped τ W { s with store := st } :=
  ⟨hst, h.origin, h.bound⟩

theorem origin_eq (h : NotedTyped τ W s) (hρ : W[ρ]? = some T) : s.origin ρ = T.made := by
  rw [h.origin, hρ]
  rfl

theorem origin_append (h : NotedTyped τ W s) (made : Option Path) (ρ' : ScopeId)
    (hT : T.made = made) : (if ρ' = s.store.nextScope then made else s.origin ρ') =
      (W ++ [T])[ρ']?.bind (·.made) := by
  have hsize : W.length = s.store.nextScope := h.store.size
  by_cases hρ' : ρ' = s.store.nextScope
  · rw [if_pos hρ', hρ', h.store.getElem?_nextScope]
    exact hT.symm
  · rw [if_neg hρ', h.origin]
    by_cases hlt : ρ' < W.length
    · rw [List.getElem?_append_left hlt]
    · have hgt : W.length < ρ' := Nat.lt_of_le_of_ne (Nat.le_of_not_lt hlt) fun hc =>
        hρ' (hc.symm.trans hsize)
      have hout : (W ++ [T]).length ≤ ρ' := by
        rw [List.length_append, List.length_singleton]
        exact hgt
      rw [List.getElem?_eq_none (Nat.le_of_not_lt hlt), List.getElem?_eq_none hout]

/-- A scope for the body of a `let`. -/
theorem addScope (h : NotedTyped τ W s) (hready : s.store.Ready ρ) (hρ : W[ρ]? = some T)
    (x : String) (a : Ty) :
    NotedTyped τ (W ++ [⟨Function.update T.types x (some a), some (ρ, x, a), none⟩])
      { s with store := s.store.addScope (some ρ) } where
  store := h.store.addScope hready hρ x a none
  origin ρ' := by
    have hnew : s.origin s.store.nextScope = none := by
      have hsize : W.length = s.store.nextScope := h.store.size
      rw [h.origin, List.getElem?_eq_none (Nat.le_of_eq hsize)]
      rfl
    rw [← h.origin_append none ρ' rfl]
    show s.origin ρ' = _
    split
    · next hρ' => rw [hρ', hnew]
    · rfl
  bound note hnote := (h.bound note hnote).mono (.append W (Option.some_ne_none _))

/-- A scope for the parameter of the function at a place. -/
theorem addFunction (h : NotedTyped τ W s) (hready : s.store.Ready ρ) (hρ : W[ρ]? = some T)
    (x : String) (a : Ty) (p : Path) :
    NotedTyped τ (W ++ [⟨Function.update T.types x (some a), some (ρ, x, a), some p⟩])
      { s with
        store := s.store.addScope (some ρ)
        origin := fun ρ' => if ρ' = s.store.nextScope then some p else s.origin ρ' } where
  store := h.store.addScope hready hρ x a (some p)
  origin ρ' := h.origin_append (some p) ρ' rfl
  bound note hnote := (h.bound note hnote).mono (.append W (Option.some_ne_none _))

/-- Binding a parameter to a value of its type, and noting it. -/
theorem note (h : NotedTyped τ W s) {v : Value} {note : Note} (hnote : NoteTyped τ W note)
    (hst : StoreTyped τ W (s.store.define ρ x v)) :
    NotedTyped τ W { s with store := s.store.define ρ x v, bound := note :: s.bound } where
  store := hst
  origin := h.origin
  bound := List.forall_mem_cons.2 ⟨hnote, h.bound⟩

end NotedTyped

/-! ## Safe steps -/

/-- Whatever the outcome, the notes after it are typed in a world that extends `W`.  A value
satisfies `P`, and the only error is that a root lacks a name. -/
def SafeNoted {α : Type} (τ : ParamTypes) (W : World) (s : Noted)
    (P : World → α → Prop) (m : NotedM α) : Prop :=
  ∃ W', W.Extends W' ∧ s.store.Grows (m.runFrom s).2.store ∧ NotedTyped τ W' (m.runFrom s).2 ∧
    (∀ a, (m.runFrom s).1 = some (.ok a) → P W' a) ∧
    ∀ e, (m.runFrom s).1 = some (.error e) →
      ∃ x, e = .unbound x ∧ W'.Lacks (m.runFrom s).2.store x

namespace SafeNoted

variable {α β : Type} {W W' : World} {s s' : Noted} {m : NotedM α} {f : α → NotedM β}
  {P : World → α → Prop} {R : World → β → Prop} {a : α}

theorem of_run (hrun : m.runFrom s = (some (.ok a), s')) (hW : W.Extends W')
    (hst : s.store.Grows s'.store) (h : NotedTyped τ W' s') (ha : P W' a) :
    SafeNoted τ W s P m := by
  rw [SafeNoted, hrun]
  refine ⟨W', hW, hst, h, fun b hb => ?_, nofun⟩
  cases hb
  exact ha

theorem of_unbound {x : String} (hrun : m.runFrom s = (some (.error (.unbound x)), s))
    (h : NotedTyped τ W s) (hx : W.Lacks s.store x) : SafeNoted τ W s P m := by
  rw [SafeNoted, hrun]
  refine ⟨W, .refl W, .refl _, h, nofun, fun e he => ?_⟩
  cases he
  exact ⟨x, rfl, hx⟩

theorem bind_of_run (hrun : m.runFrom s = (some (.ok a), s')) (hW : W.Extends W')
    (hst : s.store.Grows s'.store) (h : SafeNoted τ W' s' R (f a)) :
    SafeNoted τ W s R (m >>= f) := by
  obtain ⟨W'', hW', hst', htyped, hok, herror⟩ := h
  rw [SafeNoted, runFrom_bind_of_ok hrun]
  exact ⟨W'', hW.trans hW', hst.trans hst', htyped, hok, herror⟩

theorem bind (hm : SafeNoted τ W s P m) (hf : ∀ a W' s', W.Extends W' → s.store.Grows s'.store →
      NotedTyped τ W' s' → P W' a → SafeNoted τ W' s' R (f a)) :
    SafeNoted τ W s R (m >>= f) := by
  obtain ⟨W', hW, hst, htyped, hok, herror⟩ := hm
  rcases hrun : m.runFrom s with ⟨_ | e | a, s'⟩
  · have hbind : (m >>= f).runFrom s = (none, s') := by rw [NotedM.runFrom_bind, hrun]
    rw [hrun] at hst htyped
    rw [SafeNoted, hbind]
    exact ⟨W', hW, hst, htyped, nofun, nofun⟩
  · have hbind : (m >>= f).runFrom s = (some (.error e), s') := by rw [NotedM.runFrom_bind, hrun]
    rw [hrun] at hst htyped herror
    rw [SafeNoted, hbind]
    refine ⟨W', hW, hst, htyped, nofun, fun e' he' => ?_⟩
    cases he'
    exact herror e rfl
  · rw [hrun] at hst htyped hok
    exact bind_of_run hrun hW hst (hf a W' s' hW hst htyped (hok a rfl))

end SafeNoted

/-! ## Evaluation with notes -/

/-- `run` is safe on all simply typed terms. -/
def RunsSafely (τ : ParamTypes) (run : ScopeId → Path → Term → NotedM Value) : Prop :=
  ∀ {W : World} {s : Noted} {ρ : ScopeId} {T : ScopeTy} {p : Path} {e : Term} {t : Ty},
    NotedTyped τ W s → s.store.Ready ρ → W[ρ]? = some T → TypedAt τ T.types p e t →
      SafeNoted τ W s (fun W' v => ValueTyped τ W' v t) (run ρ p e)

-- Binding the parameter once more keeps the type that it has had in its scope.
theorem applyNoted_safe {run : ScopeId → Path → Term → NotedM Value} (hrun : RunsSafely τ run)
    {W : World} {s : Noted} {fn arg : Value} {a b : Ty} (h : NotedTyped τ W s)
    (hfn : ValueTyped τ W fn (.arrow a b)) (harg : ValueTyped τ W arg a) :
    SafeNoted τ W s (fun W' v => ValueTyped τ W' v b) (applyNoted run fn arg) := by
  cases hfn with
  | native hfn =>
    obtain ⟨v, st, hcall, hgrows, hst, hv⟩ := Native.call_typed h.store hfn harg
    exact .of_run (runFrom_ofEval_of_some hcall) (.refl W) hgrows (h.withStore hst) hv
  | @closure x body a b p ρ parent T hρ hown hmade hparam hbody =>
    have hst : StoreTyped τ W (s.store.define ρ x arg) :=
      h.store.define hρ (by rw [ScopeTy.OwnTy, hown]; exact ⟨rfl, rfl⟩) harg
    have hnote : NoteTyped τ W ⟨ρ, x, arg⟩ := ⟨T, parent, a, p, hρ, hown, hmade, hparam, harg⟩
    have hnoted := h.note hnote hst
    refine .bind_of_run (runFrom_ofEval_of_some rfl) (.refl W) (.define s.store ρ x arg) ?_
    refine .bind_of_run rfl (.refl W) (.refl _) (.bind_of_run rfl (.refl W) (.refl _) ?_)
    -- the body is evaluated at the place of its function
    have hplace : (s.origin ρ).getD [] = p := by rw [h.origin_eq hρ, hmade]; rfl
    show SafeNoted τ W _ _ (run ρ (.lamBody :: (s.origin ρ).getD []) body)
    rw [hplace]
    exact hrun hnoted (h.store.ready_define hρ hown arg) hρ hbody

theorem evalNoted_safe (fuel : Nat) : RunsSafely τ (evalNoted fuel) := by
  induction fuel with
  | zero => exact fun h _ _ _ => ⟨_, .refl _, .refl _, h, nofun, nofun⟩
  | succ fuel ih =>
    intro W s ρ T p e t h hready hρ htyped
    cases htyped with
    | num => exact .of_run rfl (.refl W) (.refl _) h .num
    | bool => exact .of_run rfl (.refl W) (.refl _) h .bool
    | @var _ _ x _ hx =>
      have hrun := runFrom_lookup s.store ρ x
      rcases h.store.lookup hready hρ hx with ⟨v, hv, htyped⟩ | ⟨hnone, hlacks⟩
      · rw [hv] at hrun
        exact .of_run (runFrom_ofEval_of_some hrun) (.refl W) (.refl _) h htyped
      · rw [hnone] at hrun
        exact .of_unbound (runFrom_ofEval_of_some hrun) h hlacks
    | ite hc ha hb =>
      refine .bind (ih h hready hρ hc) fun v W' s' hW hst h' hv => ?_
      obtain ⟨q, rfl⟩ := hv.eq_bool
      cases q with
      | true => exact ih h' (hready.mono hst) (hW.kept _ _ hρ) ha
      | false => exact ih h' (hready.mono hst) (hW.kept _ _ hρ) hb
    | @letIn _ _ x d b u t hd hb =>
      refine .bind (ih h hready hρ hd) fun v W' s' hW hst h' hv => ?_
      -- the new scope sees one name more, and is ready once that name is bound
      have hscope := h'.addScope (hready.mono hst) (hW.kept _ _ hρ) x u
      have hinner := h'.store.getElem?_nextScope
        ⟨Function.update T.types x (some u), some (ρ, x, u), none⟩
      have hW' : W'.Extends (W' ++ [⟨Function.update T.types x (some u), some (ρ, x, u), none⟩]) :=
        .append W' (Option.some_ne_none _)
      have hdefine := hscope.store.define hinner (x := x) ⟨rfl, rfl⟩ (hv.mono hW')
      refine .bind_of_run (runFrom_ofEval_of_some rfl) hW' (.addScope s'.store (some ρ)) ?_
      refine .bind_of_run (runFrom_ofEval_of_some rfl) (.refl _) (.define _ _ x v) ?_
      exact ih (hscope.withStore hdefine) (hscope.store.ready_define hinner rfl v) hinner hb
    | @lam _ _ x b u t hparam hb =>
      -- the scope of the parameter stays unready until the first application
      refine .bind_of_run (runFrom_ofEval_of_some rfl) (.refl W) (.addScope s.store (some ρ)) ?_
      refine .bind_of_run rfl (.refl W) (.refl _) ?_
      refine .of_run rfl (.append W (Option.some_ne_none _)) (.refl _)
        (h.addFunction hready hρ x u p) ?_
      exact .closure (h.store.getElem?_nextScope _) rfl rfl hparam hb
    | app hf ha =>
      refine .bind (ih h hready hρ hf) fun f W' s' hW hst h' hf' => ?_
      rw [if_pos hf'.isCallable]
      refine .bind (ih h' (hready.mono hst) (hW.kept _ _ hρ) ha) fun a W'' s'' hW' _ h'' ha' => ?_
      exact applyNoted_safe ih h'' (hf'.mono hW') ha'

/-! ## Evaluation -/

/-- From a typed store: a result that satisfies `P` in a typed store and a world that extends `W`,
or the error that a root lacks a name. -/
def Safe {α : Type} (τ : ParamTypes) (W : World) (st : Store)
    (P : World → α → Prop) : Except RuntimeError α → Store → Prop
  | .ok a, st' => ∃ W', W.Extends W' ∧ st.Grows st' ∧ StoreTyped τ W' st' ∧ P W' a
  | .error e, st' => ∃ W', W.Extends W' ∧ st.Grows st' ∧ ∃ x, e = .unbound x ∧ W'.Lacks st' x

section Safe

variable {α β : Type} {W : World} {st : Store}

theorem Safe.of_later {W' : World} {st' st'' : Store} {m : EvalM α} {P : World → α → Prop}
    (hW : W.Extends W') (hst : st.Grows st') (h : Ensures m st'' (Safe τ W' st' P)) :
    Ensures m st'' (Safe τ W st P) := by
  intro r s hrun
  have hsafe := h r s hrun
  cases r with
  | error e =>
    obtain ⟨W'', hW', hst', hx⟩ := hsafe
    exact ⟨W'', hW.trans hW', hst.trans hst', hx⟩
  | ok a =>
    obtain ⟨W'', hW', hst', htyped, ha⟩ := hsafe
    exact ⟨W'', hW.trans hW', hst.trans hst', htyped, ha⟩

theorem Safe.bind {m : EvalM α} {f : α → EvalM β} {P : World → α → Prop} {R : World → β → Prop}
    (hm : Ensures m st (Safe τ W st P)) (hf : ∀ a W' st', W.Extends W' → st.Grows st' →
      StoreTyped τ W' st' → P W' a → Ensures (f a) st' (Safe τ W' st' R)) :
    Ensures (m >>= f) st (Safe τ W st R) := by
  refine hm.bind ?_ fun e st' he => he
  rintro a st' ⟨W', hW, hst, htyped, ha⟩
  exact .of_later hW hst (hf a W' st' hW hst htyped ha)

-- A step is safe if it is with notes, from those that the world knows of.
theorem SafeNoted.ensures {m : NotedM α} {m' : EvalM α} {P : World → α → Prop} {s : Noted}
    (h : SafeNoted τ W s P m) (hm : Erases m m') : Ensures m' s.store (Safe τ W s.store P) := by
  intro r st' hrun
  obtain ⟨W', hW, hst, htyped, hok, herror⟩ := h
  rw [hm s] at hrun
  obtain ⟨r', hr', heq⟩ := Option.map_eq_some_iff.1 hrun
  cases heq
  cases r with
  | ok a => exact ⟨W', hW, hst, htyped.store, hok a hr'⟩
  | error e => exact ⟨W', hW, hst, herror e hr'⟩

/-- Evaluation of a simply typed term gives a value of its type, or finds a root that lacks a
name. -/
theorem eval_safe (fuel : Nat) {ρ : ScopeId} {T : ScopeTy} {p : Path} {e : Term} {t : Ty}
    (h : StoreTyped τ W st) (hready : st.Ready ρ) (hρ : W[ρ]? = some T)
    (he : TypedAt τ T.types p e t) :
    Ensures (eval fuel ρ e) st (Safe τ W st fun W' v => ValueTyped τ W' v t) := by
  have hnoted : NotedTyped τ W ⟨st, fun ρ => W[ρ]?.bind (·.made), []⟩ := ⟨h, fun _ => rfl, nofun⟩
  exact (evalNoted_safe fuel hnoted hready hρ he).ensures (evalNoted_erases fuel ρ p e)

end Safe

end LetPoly
