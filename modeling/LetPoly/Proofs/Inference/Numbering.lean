import Mathlib
import LetPoly.Proofs.Inference.Run
import LetPoly.Proofs.Typing.Equivariance

/-!
# Inference does not depend on where the numbering starts

Two runs on one term that take their new variables from different numbers on give the same answer
and pose the same equations, up to the renaming that lines up the new variables.  A renaming that
keeps the order of all variables is followed through the runs step by step.  For the renaming at
hand, which need not keep it, both runs are compared with a third one, in which the variables of the
context stand wide apart and the new ones above them.
-/

namespace LetPoly

/-! ## Errors and answers -/

namespace InferError

variable {f : Nat → Nat}

/-- The error with the variables of its types renamed. -/
def rename (f : Nat → Nat) : InferError → InferError
  | unbound x => unbound x
  | conditionNotBool t => conditionNotBool (t.rename f)
  | branchesDiffer t e => branchesDiffer (t.rename f) (e.rename f)
  | cannotUnify l r => cannotUnify (l.rename f) (r.rename f)
  | infiniteType v t => infiniteType (f v) (t.rename f)

theorem rename_rename (f g : Nat → Nat) (e : InferError) :
    (e.rename f).rename g = e.rename (g ∘ f) := by
  cases e <;> simp [rename, Ty.rename_rename]

@[simp]
theorem rename_id (e : InferError) : e.rename id = e := by
  cases e <;> simp [rename]

theorem rename_ofUnify (f : Nat → Nat) (e : UnifyError) :
    (ofUnify e).rename f = ofUnify (e.rename f) := by
  cases e <;> rfl

end InferError

/-- What a step answers, its value passed through `g` and the variables of its error renamed. -/
def renameAnswer {α β : Type} (f : Nat → Nat) (g : α → β) (r : Except InferError α) :
    Except InferError β :=
  (r.map g).mapError (InferError.rename f)

/-- A type and a substitution with their variables renamed. -/
def renameTyped (f : Nat → Nat) : Ty × Subst → Ty × Subst := Prod.map (Ty.rename f) (Subst.rename f)

/-- An equation with its variables renamed. -/
def renameEquation (f : Nat → Nat) : Ty × Ty → Ty × Ty := Prod.map (Ty.rename f) (Ty.rename f)

theorem renameAnswer_renameAnswer {f : Nat → Nat} (hf : StrictMono f) (g : Nat → Nat)
    (r : Except InferError (Ty × Subst)) :
    renameAnswer g (renameTyped g) (renameAnswer f (renameTyped f) r) =
      renameAnswer (g ∘ f) (renameTyped (g ∘ f)) r := by
  cases r with
  | error e => exact congrArg Except.error (InferError.rename_rename f g e)
  | ok a =>
    refine congrArg Except.ok (Prod.ext ?_ ?_)
    · exact Ty.rename_rename f g a.1
    · exact Subst.rename_rename hf g a.2

theorem renameAnswer_id (r : Except InferError (Ty × Subst)) :
    renameAnswer id (renameTyped id) r = r := by
  cases r with
  | error e => exact congrArg Except.error e.rename_id
  | ok a => exact congrArg Except.ok (Prod.ext a.1.rename_id a.2.rename_id)

theorem renameEquation_renameEquation (f g : Nat → Nat) :
    renameEquation g ∘ renameEquation f = renameEquation (g ∘ f) := by
  refine funext fun p => Prod.ext ?_ ?_
  · exact Ty.rename_rename f g p.1
  · exact Ty.rename_rename f g p.2

theorem renameEquation_id : renameEquation id = id :=
  funext fun p => Prod.ext p.1.rename_id p.2.rename_id

/-! ## Steps -/

/-- The two states, reached from `st₀` and `st₀'`, stand at the same point: as many variables have
been used, and the same equations posed up to `f`. -/
structure Abreast (f : Nat → Nat) (st₀ st₀' st st' : InferState) : Prop where
  used : ∃ k, st.next = st₀.next + k ∧ st'.next = st₀'.next + k
  posed : ∃ eqs, st.posed = st₀.posed ++ eqs ∧ st'.posed = st₀'.posed ++ eqs.map (renameEquation f)

/-- The second step does what the first one does, with the variables renamed by `f` and the value
sent through `g`. -/
structure Corresponds {α β : Type} (f : Nat → Nat) (g : α → β) (st₀ st₀' : InferState)
    (m : InferM α) (st : InferState) (m' : InferM β) (st' : InferState) : Prop where
  answer : (m'.run.run st').1 = renameAnswer f g (m.run.run st).1
  abreast : Abreast f st₀ st₀' (m.run.run st).2 (m'.run.run st').2

/-- The renaming keeps the order and sends the variables from `m` on to those from `n` on. -/
structure Shifts (f : Nat → Nat) (m n : Nat) : Prop where
  strictMono : StrictMono f
  shift : ∀ i, f (m + i) = n + i

section Steps

variable {f : Nat → Nat} {st₀ st₀' st st' : InferState}

theorem Abreast.refl (f : Nat → Nat) (st st' : InferState) : Abreast f st st' st st' where
  used := ⟨0, rfl, rfl⟩
  posed := ⟨#[], by simp, by simp⟩

theorem Abreast.shift (h : Abreast f st₀ st₀' st st') (hf : Shifts f st₀.next st₀'.next) (i : Nat) :
    f (st.next + i) = st'.next + i := by
  obtain ⟨k, hk, hk'⟩ := h.used
  rw [hk, hk', Nat.add_assoc, Nat.add_assoc, hf.shift]

theorem Abreast.use (h : Abreast f st₀ st₀' st st') (k : Nat) :
    Abreast f st₀ st₀' { st with next := st.next + k } { st' with next := st'.next + k } where
  used := by
    obtain ⟨k₀, hk, hk'⟩ := h.used
    exact ⟨k₀ + k, by rw [hk, Nat.add_assoc], by rw [hk', Nat.add_assoc]⟩
  posed := h.posed

theorem Abreast.pose (h : Abreast f st₀ st₀' st st') (p : Ty × Ty) :
    Abreast f st₀ st₀' { st with posed := st.posed.push p }
      { st' with posed := st'.posed.push (renameEquation f p) } where
  used := h.used
  posed := by
    obtain ⟨eqs, heqs, heqs'⟩ := h.posed
    refine ⟨eqs.push p, ?_, ?_⟩
    · rw [heqs, Array.append_push]
    · rw [heqs', Array.map_push, Array.append_push]

namespace Corresponds

variable {α β γ δ : Type} {g : α → β} {h : γ → δ} {m : InferM α} {m' : InferM β}

theorem pure (hst : Abreast f st₀ st₀' st st') {a : α} {b : β} (hab : b = g a) :
    Corresponds f g st₀ st₀' (Pure.pure a) st (Pure.pure b) st' := by
  subst hab
  exact ⟨rfl, hst⟩

theorem throw (hst : Abreast f st₀ st₀' st st') {e e' : InferError} (he : e' = e.rename f) :
    Corresponds f g st₀ st₀' (MonadExcept.throw e) st (MonadExcept.throw e') st' := by
  subst he
  exact ⟨rfl, hst⟩

theorem bind {k : α → InferM γ} {k' : β → InferM δ} (hm : Corresponds f g st₀ st₀' m st m' st')
    (hk : ∀ a st₁ st₁', Abreast f st₀ st₀' st₁ st₁' →
      Corresponds f h st₀ st₀' (k a) st₁ (k' (g a)) st₁') :
    Corresponds f h st₀ st₀' (m >>= k) st (m' >>= k') st' := by
  obtain ⟨hanswer, habreast⟩ := hm
  rcases hrun : m.run.run st with ⟨r, st₁⟩
  rcases hrun' : m'.run.run st' with ⟨r', st₁'⟩
  rw [hrun, hrun'] at hanswer habreast
  have hanswer : r' = renameAnswer f g r := hanswer
  subst hanswer
  cases r with
  | error e =>
    have hleft := run_bind_of_error (f := k) hrun
    have hright := run_bind_of_error (f := k') hrun'
    constructor
    · rw [hleft, hright]
      rfl
    · rw [hleft, hright]
      exact habreast
  | ok a =>
    have hleft := run_bind_of_returns (f := k) hrun
    have hright := run_bind_of_returns (f := k') hrun'
    obtain ⟨hanswer', habreast'⟩ := hk a st₁ st₁' habreast
    constructor
    · rw [hleft, hright]
      exact hanswer'
    · rw [hleft, hright]
      exact habreast'

theorem freshVar (hf : Shifts f st₀.next st₀'.next) (hst : Abreast f st₀ st₀' st st') :
    Corresponds f (Ty.rename f) st₀ st₀' freshVar st freshVar st' where
  answer := congrArg (fun v => Except.ok (Ty.var v)) (hst.shift hf 0).symm
  abreast := hst.use 1

theorem freshInstance (hf : Shifts f st₀.next st₀'.next) (hst : Abreast f st₀ st₀' st st')
    (σ : Scheme) : Corresponds f (Ty.rename f) st₀ st₀' (freshInstance σ) st
      (freshInstance (σ.rename f)) st' where
  answer := congrArg Except.ok
    (Scheme.rename_instantiate hf.strictMono.injective (hst.shift hf) σ).symm
  abreast := by
    have hlength : (σ.rename f).vars.length = σ.vars.length := List.length_map f
    have h := hst.use σ.vars.length
    nth_rewrite 2 [← hlength] at h
    exact h

theorem equate (hf : f.Injective) (hst : Abreast f st₀ st₀' st st') {t t' u u' : Ty}
    {blame blame' : UnifyError → InferError} (ht : t' = t.rename f) (hu : u' = u.rename f)
    (hblame : ∀ e, blame' (e.rename f) = (blame e).rename f) :
    Corresponds f (Subst.rename f) st₀ st₀' (equate t u blame) st (equate t' u' blame') st' := by
  subst ht hu
  constructor
  · rw [run_equate, run_equate, unify_rename hf]
    cases unify t u with
    | error e => exact congrArg Except.error (hblame e)
    | ok s => rfl
  · rw [run_equate, run_equate]
    exact hst.pose (t, u)

end Corresponds

end Steps

/-! ## Runs -/

/-- A renaming that keeps the order and lines up the new variables is followed by the whole run. -/
theorem inferTerm_corresponds {f : Nat → Nat} {st₀ st₀' : InferState}
    (hf : Shifts f st₀.next st₀'.next) (e : Term) :
    ∀ (Γ : Context) (st st' : InferState), Abreast f st₀ st₀' st st' →
      Corresponds f (renameTyped f) st₀ st₀' (inferTerm Γ e) st (inferTerm (Γ.rename f) e) st' := by
  have hinj : f.Injective := hf.strictMono.injective
  induction e with
  | num v => exact fun Γ st st' h => .pure h rfl
  | bool b => exact fun Γ st st' h => .pure h rfl
  | var x =>
    intro Γ st st' h
    rw [inferTerm, inferTerm, Context.get?_rename]
    cases Γ.get? x with
    | none => exact .throw h rfl
    | some σ => exact (Corresponds.freshInstance hf h σ).bind fun t st₁ st₁' h₁ => .pure h₁ rfl
  | ite c a b ihc iha ihb =>
    intro Γ st st' h
    refine (ihc Γ st st' h).bind fun r₁ st₁ st₁' h₁ => ?_
    obtain ⟨t₁, s₁⟩ := r₁
    refine (Corresponds.equate hinj h₁ rfl rfl fun e => ?_).bind fun s₂ st₂ st₂' h₂ => ?_
    · exact congrArg InferError.conditionNotBool (Subst.rename_apply hinj s₁ t₁).symm
    have ha := iha (Γ.apply (s₂.compose s₁)) st₂ st₂' h₂
    rw [Context.rename_apply hinj, Subst.rename_compose hinj] at ha
    refine ha.bind fun r₃ st₃ st₃' h₃ => ?_
    obtain ⟨t₃, s₃⟩ := r₃
    have hb := ihb (Γ.apply (s₃.compose (s₂.compose s₁))) st₃ st₃' h₃
    rw [Context.rename_apply hinj, Subst.rename_compose hinj, Subst.rename_compose hinj] at hb
    refine hb.bind fun r₄ st₄ st₄' h₄ => ?_
    obtain ⟨t₄, s₄⟩ := r₄
    have hbranch : ∀ t : Ty, ((s₄.rename f).compose ((s₃.rename f).compose
        ((s₂.rename f).compose (s₁.rename f)))).apply (t.rename f) =
          ((s₄.compose (s₃.compose (s₂.compose s₁))).apply t).rename f := fun t => by
      simp only [Subst.rename_apply hinj, Subst.rename_compose hinj]
    refine (Corresponds.equate hinj h₄ (hbranch t₃) (hbranch t₄) fun e => ?_).bind
      fun s₅ st₅ st₅' h₅ => .pure h₅ ?_
    · exact congrArg₂ InferError.branchesDiffer (hbranch t₃) (hbranch t₄)
    · simp only [renameTyped, Prod.map, Subst.rename_apply hinj, Subst.rename_compose hinj]
  | letIn x d b ihd ihb =>
    intro Γ st st' h
    refine (ihd Γ st st' h).bind fun r₁ st₁ st₁' h₁ => ?_
    obtain ⟨t₁, s₁⟩ := r₁
    have hb := ihb ((Context.apply s₁ (Γ.erase x)).insert x
      (.generalize (Context.apply s₁ (Γ.erase x)) (s₁.apply t₁))) st₁ st₁' h₁
    rw [Context.rename_insert, Scheme.rename_generalize hf.strictMono, Context.rename_apply hinj,
      Context.rename_erase, Subst.rename_apply hinj] at hb
    exact hb.bind fun r₂ st₂ st₂' h₂ =>
      .pure h₂ (congrArg (Prod.mk _) (Subst.rename_compose hinj r₂.2 s₁).symm)
  | lam x b ih =>
    intro Γ st st' h
    refine (Corresponds.freshVar hf h).bind fun t₀ st₁ st₁' h₁ => ?_
    have hb := ih (Γ.insert x (.mono t₀)) st₁ st₁' h₁
    rw [Context.rename_insert] at hb
    refine hb.bind fun r st₂ st₂' h₂ => .pure h₂ ?_
    exact congrArg (fun t => (Ty.arrow t (r.1.rename f), r.2.rename f))
      (Subst.rename_apply hinj r.2 t₀).symm
  | app fn arg ihf iha =>
    intro Γ st st' h
    refine (Corresponds.freshVar hf h).bind fun t₀ st₁ st₁' h₁ => ?_
    refine (ihf Γ st₁ st₁' h₁).bind fun r₁ st₂ st₂' h₂ => ?_
    obtain ⟨t₁, s₁⟩ := r₁
    have ha := iha (Γ.apply s₁) st₂ st₂' h₂
    rw [Context.rename_apply hinj] at ha
    refine ha.bind fun r₂ st₃ st₃' h₃ => ?_
    obtain ⟨t₂, s₂⟩ := r₂
    have hfn : (s₂.rename f).apply (t₁.rename f) = (s₂.apply t₁).rename f :=
      (Subst.rename_apply hinj s₂ t₁).symm
    refine (Corresponds.equate hinj h₃ hfn rfl fun e => ?_).bind fun s₃ st₄ st₄' h₄ => .pure h₄ ?_
    · exact (InferError.rename_ofUnify f e).symm
    · simp only [renameTyped, Prod.map, Subst.rename_apply hinj, Subst.rename_compose hinj]

/-! ## Several expressions in one run -/

/-- The state after inference of one term after the other, whether it succeeds or fails. -/
def InferState.after (st : InferState) (l : List (Context × Term)) : InferState :=
  l.foldl (fun st p => ((inferTerm p.1 p.2).run.run st).2) st

theorem next_le_run (Γ : Context) (e : Term) (st : InferState) :
    st.next ≤ ((inferTerm Γ e).run.run st).2.next := by
  have hid : Shifts id st.next st.next := ⟨strictMono_id, fun _ => rfl⟩
  obtain ⟨k, hk, -⟩ := (inferTerm_corresponds hid e Γ st st (.refl id st st)).abreast.used
  omega

theorem next_le_after (st : InferState) (l : List (Context × Term)) :
    st.next ≤ (st.after l).next := by
  induction l generalizing st with
  | nil => exact Nat.le_refl _
  | cons p l ih => exact (next_le_run p.1 p.2 st).trans (ih _)

/-! ## Any renaming that lines up the new variables -/

/-- Every variable of a context, free or quantified. -/
def Context.ids (Γ : Context) : List Nat := Γ.values.flatMap fun σ => σ.vars ++ σ.body.vars

theorem Context.rename_congr {f g : Nat → Nat} {Γ : Context} (h : ∀ v ∈ Γ.ids, f v = g v) :
    Γ.rename f = Γ.rename g := by
  refine SortedMap.ext_get? fun x => ?_
  rw [get?_rename, get?_rename]
  refine Option.map_congr fun σ hσ => ?_
  have hids : ∀ v ∈ σ.vars ++ σ.body.vars, f v = g v := fun v hv =>
    h v (List.mem_flatMap.2 ⟨σ, SortedMap.mem_values_iff.2 ⟨x, hσ⟩, hv⟩)
  have hvars : σ.vars.map f = σ.vars.map g :=
    List.map_congr_left fun v hv => hids v (List.mem_append_left _ hv)
  have hbody : σ.body.rename f = σ.body.rename g :=
    Ty.rename_congr fun v hv => hids v (List.mem_append_right _ hv)
  rw [Scheme.rename, Scheme.rename, hvars, hbody]

/-- Moves the variables from `m` on to those from `M` on and doubles the ones below, where those
outside `ids` are moved by `b` in addition. -/
def spread (ids : List Nat) (b m M v : Nat) : Nat :=
  if v < m then 2 * v + (if v ∈ ids then 0 else b) else M + (v - m)

/-- Takes the even places below `M` to where `f` sends the variables that were doubled, the odd ones
back to where they came from, and the variables from `M` on to those from `n` on. -/
def gather (f : Nat → Nat) (n M w : Nat) : Nat :=
  if w < M then (if w % 2 = 0 then f (w / 2) else w / 2) else n + (w - M)

theorem spread_shifts {ids : List Nat} {b m M : Nat} (hb : b ≤ 1) (hM : 2 * m ≤ M) :
    Shifts (spread ids b m M) m M where
  strictMono v w hvw := by
    unfold spread
    split_ifs <;> omega
  shift i := by
    rw [spread, if_neg (by omega), Nat.add_sub_cancel_left]

theorem gather_spread {f : Nat → Nat} {ids : List Nat} {m n M : Nat} (hM : 2 * m ≤ M)
    (hfresh : ∀ i, f (m + i) = n + i) : gather f n M ∘ spread ids 0 m M = f := by
  funext v
  show gather f n M (spread ids 0 m M v) = f v
  unfold spread
  by_cases hv : v < m
  · rw [if_pos hv, ite_self, gather, if_pos (by omega), if_pos (by omega),
      show (2 * v + 0) / 2 = v by omega]
  · rw [if_neg hv, gather, if_neg (by omega), Nat.add_sub_cancel_left, ← hfresh,
      show m + (v - m) = v by omega]

theorem gather_spread_apart {f : Nat → Nat} {ids : List Nat} {n M : Nat} (hM : 2 * n ≤ M)
    (hids : ∀ v ∈ ids, f v = v) : gather f n M ∘ spread ids 1 n M = id := by
  funext v
  show gather f n M (spread ids 1 n M v) = v
  unfold spread
  by_cases hv : v < n
  · rw [if_pos hv]
    by_cases hmem : v ∈ ids
    · rw [if_pos hmem, gather, if_pos (by omega), if_pos (by omega),
        show (2 * v + 0) / 2 = v by omega, hids v hmem]
    · rw [if_neg hmem, gather, if_pos (by omega), if_neg (by omega)]
      omega
  · rw [if_neg hv, gather, if_neg (by omega)]
    omega

/-- Runs of one term that correspond to the same run correspond to each other. -/
theorem Corresponds.of_common {f g g' k : Nat → Nat} {Γ Δ : Context} {e : Term}
    {st st' st'' : InferState} (hg : StrictMono g) (hg' : StrictMono g') (hkg : k ∘ g = f)
    (hkg' : k ∘ g' = id)
    (h : Corresponds g (renameTyped g) st st'' (inferTerm Γ e) st (inferTerm Δ e) st'')
    (h' : Corresponds g' (renameTyped g') st' st'' (inferTerm Γ e) st' (inferTerm Δ e) st'') :
    Corresponds f (renameTyped f) st st' (inferTerm Γ e) st (inferTerm Γ e) st' := by
  have hanswer := h.answer.symm.trans h'.answer
  obtain ⟨i, hi, hi''⟩ := h.abreast.used
  obtain ⟨j, hj, hj''⟩ := h'.abreast.used
  obtain ⟨eqs, heqs, hcommon⟩ := h.abreast.posed
  obtain ⟨eqs', heqs', hcommon'⟩ := h'.abreast.posed
  have hij : i = j := by omega
  have hmap : eqs.map (renameEquation g) = eqs'.map (renameEquation g') :=
    Array.append_right_inj _ |>.1 (hcommon.symm.trans hcommon')
  refine ⟨?_, ⟨i, hi, hij ▸ hj⟩, ⟨eqs, heqs, ?_⟩⟩
  · have hk := congrArg (renameAnswer k (renameTyped k)) hanswer
    rw [renameAnswer_renameAnswer hg, renameAnswer_renameAnswer hg', hkg, hkg',
      renameAnswer_id] at hk
    exact hk.symm
  · have hk := congrArg (Array.map (renameEquation k)) hmap
    rw [Array.map_map, Array.map_map, renameEquation_renameEquation, renameEquation_renameEquation,
      hkg, hkg', renameEquation_id, Array.map_id] at hk
    rw [heqs', hk]

-- The third run has the variables of the context at even places.  Under `spread` the two runs go to
-- it from both sides, and `gather` goes back from it to the second one.
theorem inferTerm_linedUp {Γ : Context} {st st' : InferState} {f : Nat → Nat}
    (hst : ∀ v ∈ Γ.ids, v < st.next) (hst' : ∀ v ∈ Γ.ids, v < st'.next)
    (hids : ∀ v ∈ Γ.ids, f v = v) (hfresh : ∀ i, f (st.next + i) = st'.next + i) (e : Term) :
    Corresponds f (renameTyped f) st st' (inferTerm Γ e) st (inferTerm Γ e) st' := by
  obtain ⟨common, hM, hM'⟩ : ∃ common : InferState,
      2 * st.next ≤ common.next ∧ 2 * st'.next ≤ common.next :=
    ⟨{ next := 2 * st.next + 2 * st'.next }, Nat.le_add_right _ _, Nat.le_add_left _ _⟩
  have hg : Shifts (spread Γ.ids 0 st.next common.next) st.next common.next :=
    spread_shifts (Nat.zero_le 1) hM
  have hg' : Shifts (spread Γ.ids 1 st'.next common.next) st'.next common.next :=
    spread_shifts (Nat.le_refl 1) hM'
  have hcontext : Γ.rename (spread Γ.ids 0 st.next common.next) =
      Γ.rename (spread Γ.ids 1 st'.next common.next) := by
    refine Context.rename_congr fun v hv => ?_
    rw [spread, spread, if_pos (hst v hv), if_pos (hst' v hv), if_pos hv, if_pos hv]
  have h := inferTerm_corresponds hg e Γ st common (.refl _ _ _)
  have h' := inferTerm_corresponds hg' e Γ st' common (.refl _ _ _)
  rw [hcontext] at h
  exact .of_common hg.strictMono hg'.strictMono (gather_spread hM hfresh)
    (gather_spread_apart hM' hids) h h'

/-- Started above the variables of the context, inference gives the same whatever the first new
variable is, up to any renaming that leaves the variables of the context alone and lines up the new
ones.  So it does after other terms in the same run. -/
theorem inferTerm_renumber {Γ : Context} {st : InferState} (hst : ∀ v ∈ Γ.ids, v < st.next)
    (e : Term) :
    (∀ (st' : InferState) (f : Nat → Nat), (∀ v ∈ Γ.ids, v < st'.next) → (∀ v ∈ Γ.ids, f v = v) →
      (∀ i, f (st.next + i) = st'.next + i) →
      Corresponds f (renameTyped f) st st' (inferTerm Γ e) st (inferTerm Γ e) st') ∧
    ∀ (earlier : List (Context × Term)) (f : Nat → Nat), (∀ v ∈ Γ.ids, f v = v) →
      (∀ i, f (st.next + i) = (st.after earlier).next + i) →
      Corresponds f (renameTyped f) st (st.after earlier) (inferTerm Γ e) st
        (inferTerm Γ e) (st.after earlier) := by
  refine ⟨fun st' f hst' hids hfresh => inferTerm_linedUp hst hst' hids hfresh e, ?_⟩
  intro earlier f hids hfresh
  have hafter : ∀ v ∈ Γ.ids, v < (st.after earlier).next := fun v hv =>
    (hst v hv).trans_le (next_le_after st earlier)
  exact inferTerm_linedUp hst hafter hids hfresh e

/-! ## A sample context -/

/-- A name of an unknown type, and a function with a quantified and a free variable. -/
def unknownAndConstant : Context :=
  .ofList [("x", .mono (.var 3)), ("k", ⟨[5], .arrow (.var 5) (.var 0)⟩)]

theorem mem_ids_unknownAndConstant {v : Nat} (hv : v ∈ unknownAndConstant.ids) : v < 6 := by
  have hids : unknownAndConstant.ids = [5, 5, 0, 3] := by decide
  rw [hids] at hv
  simp only [List.mem_cons, List.not_mem_nil, or_false] at hv
  omega

/-- Moves the variables from `6` on up by `k`. -/
def raiseNew (k v : Nat) : Nat := if v < 6 then v else v + k

theorem raiseNew_of_lt {k v : Nat} (hv : v < 6) : raiseNew k v = v := if_pos hv

theorem raiseNew_add (k i : Nat) : raiseNew k (6 + i) = 6 + k + i := by
  rw [raiseNew, if_neg (by omega)]
  omega

/-- The first term has no type.  The second one has, and its substitution binds variables of the
context and new ones; here its run goes on where the first one has failed, one variable later. -/
theorem inferTerm_renumber_reused :
    ((inferTerm unknownAndConstant (.app (.var "x") (.var "x"))).run.run { next := 9 }).1 =
      .error (.infiniteType 3 (.arrow (.var 3) (.var 9))) ∧
    ((inferTerm unknownAndConstant (.letIn "y" (.lam "z" (.var "z"))
        (.app (.var "k") (.app (.var "x") (.var "y"))))).run.run
      (InferState.after { next := 6 }
        [(unknownAndConstant, .app (.var "x") (.var "x"))])).1 =
      .ok (.var 8, .ofList [(0, .var 8),
        (3, .arrow (.arrow (.var 11) (.var 11)) (.var 10)), (9, .var 10)]) := by
  have hst : ∀ v ∈ unknownAndConstant.ids, v < (InferState.mk 6 #[]).next := fun _ =>
    mem_ids_unknownAndConstant
  have hids : ∀ k, ∀ v ∈ unknownAndConstant.ids, raiseNew k v = v := fun k v hv =>
    raiseNew_of_lt (mem_ids_unknownAndConstant hv)
  constructor
  · have hst' : ∀ v ∈ unknownAndConstant.ids, v < (InferState.mk 9 #[]).next := fun v hv =>
      (mem_ids_unknownAndConstant hv).trans (by decide)
    rw [((inferTerm_renumber hst _).1 ⟨9, #[]⟩ (raiseNew 3) hst' (hids 3) (raiseNew_add 3)).answer]
    cbv
  · have hnext : (InferState.after { next := 6 }
        [(unknownAndConstant, .app (.var "x") (.var "x"))]).next = 6 + 1 := by cbv
    rw [((inferTerm_renumber hst _).2 _ (raiseNew 1) (hids 1) fun i => by
      rw [hnext]; exact raiseNew_add 1 i).answer]
    cbv

end LetPoly
