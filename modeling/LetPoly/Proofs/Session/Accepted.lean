import LetPoly.Proofs.Inference.Locality
import LetPoly.Proofs.Typing.Compact
import LetPoly.Session.Basic

/-!
# Programs that inference accepts

In a closed context every definition of an accepted program gets a closed scheme, and mentions names
of the context and of earlier definitions only.  A session that runs a program to a value has
accepted it, and keeps its schemes.
-/

namespace LetPoly

/-! ## Single terms -/

theorem InfersScheme.closed {keep : Bool} {Γ : Context} {e : Term} {σ : Scheme} (hΓ : Γ.Closed)
    (h : InfersScheme keep Γ e σ) : σ.Closed := by
  obtain ⟨t, s, n, -, rfl⟩ := h
  refine Scheme.closed_iff.2 fun v hv => ?_
  have hfree := (Scheme.mem_freeVars_generalize.1 (Scheme.mem_freeVars_compact.1 hv)).2
  rw [hΓ.apply_eq] at hfree
  exact hΓ.notMem_freeVars v hfree

/-- The names of the list are bound in the context. -/
def Context.Binds (Γ : Context) (names : List String) : Prop := ∀ x ∈ names, ∃ σ, Γ.get? x = some σ

namespace Context.Binds

variable {Γ : Context} {names names' : List String}

theorem append (h : Γ.Binds names) (h' : Γ.Binds names') : Γ.Binds (names ++ names') :=
  fun x hx => (List.mem_append.1 hx).elim (h x) (h' x)

theorem of_apply {s : Subst} (h : (Γ.apply s).Binds names) : Γ.Binds names := by
  intro x hx
  obtain ⟨σ, hσ⟩ := h x hx
  obtain ⟨σ', hσ', -⟩ := Context.get?_apply_some.1 hσ
  exact ⟨σ', hσ'⟩

theorem of_insert {x : String} {σ : Scheme} (h : Context.Binds (Γ.insert x σ) names) :
    Γ.Binds (names.filter (· != x)) := by
  intro y hy
  obtain ⟨hmem, hne⟩ := List.mem_filter.1 hy
  obtain ⟨τ, hτ⟩ := h y hmem
  rw [SortedMap.get?_insert_of_ne _ _ (by simpa using hne)] at hτ
  exact ⟨τ, hτ⟩

end Context.Binds

theorem Infers.binds {keep : Bool} {Γ : Context} {n n' : Nat} {e : Term} {t : Ty} {s : Subst}
    (h : Infers keep Γ n e t s n') : Γ.Binds e.freeNames := by
  induction h with
  | num | bool => exact fun x hx => absurd hx List.not_mem_nil
  | var hx => exact fun y hy => ⟨_, List.mem_singleton.1 hy ▸ hx⟩
  | ite _ _ _ _ _ _ ihc iha ihb => exact (ihc.append iha.of_apply).append ihb.of_apply
  | letIn _ _ ihd ihb => exact ihd.append ihb.of_insert.of_apply
  | lam _ ih => exact ih.of_insert
  | app _ _ _ ihf iha => exact ihf.append iha.of_apply

/-! ## Definitions in order -/

theorem inferAll_cons_eq_ok {Γ Γ' : Context} {b : Binding} {bs : List Binding}
    {schemes : List (String × Scheme)} : inferAll Γ (b :: bs) = (.ok schemes, Γ') ↔
      ∃ σ rest, infer Γ b.term = .ok σ ∧ inferAll (Γ.insert b.name σ) bs = (.ok rest, Γ') ∧
        (b.name, σ) :: rest = schemes := by
  constructor
  · intro h
    rw [inferAll] at h
    cases hσ : infer Γ b.term with
    | error e =>
      rw [hσ] at h
      cases h
    | ok σ =>
      rw [hσ] at h
      dsimp only at h
      rcases hrest : inferAll (Γ.insert b.name σ) bs with ⟨_ | rest, Γ''⟩
      · rw [hrest] at h
        cases h
      · rw [hrest] at h
        cases h
        exact ⟨σ, rest, rfl, hrest, rfl⟩
  · rintro ⟨σ, rest, hσ, hrest, rfl⟩
    simp only [inferAll, hσ, hrest, Except.map]

theorem inferAll_cons {Γ Γ' : Context} {b : Binding} {bs : List Binding}
    {schemes : List (String × Scheme)} (h : inferAll Γ (b :: bs) = (.ok schemes, Γ')) :
    ∃ σ rest, infer Γ b.term = .ok σ ∧ inferAll (Γ.insert b.name σ) bs = (.ok rest, Γ') := by
  obtain ⟨σ, rest, hσ, hrest, -⟩ := inferAll_cons_eq_ok.1 h
  exact ⟨σ, rest, hσ, hrest⟩

-- What holds at first and is kept by each definition holds in the end.
theorem inferAll_induction {P : Context → Prop} {bs : List Binding} :
    ∀ {Γ Γ' : Context} {schemes : List (String × Scheme)},
      (∀ Γ σ, ∀ b ∈ bs, P Γ → infer Γ b.term = .ok σ → P (Γ.insert b.name σ)) →
      inferAll Γ bs = (.ok schemes, Γ') → P Γ → P Γ' := by
  induction bs with
  | nil =>
    intro Γ Γ' schemes _ h hΓ
    cases h
    exact hΓ
  | cons b bs ih =>
    intro Γ Γ' schemes hstep h hΓ
    obtain ⟨σ, rest, hσ, hrest⟩ := inferAll_cons h
    exact ih (fun Γ σ c hc => hstep Γ σ c (List.mem_cons_of_mem _ hc)) hrest
      (hstep Γ σ b List.mem_cons_self hΓ hσ)

theorem inferAll_get?_of_notMem {Γ Γ' : Context} {bs : List Binding} {x : String}
    {schemes : List (String × Scheme)} (h : inferAll Γ bs = (.ok schemes, Γ'))
    (hx : x ∉ bs.map (·.name)) : Γ'.get? x = Γ.get? x := by
  refine inferAll_induction (P := fun Δ => Δ.get? x = Γ.get? x) (fun Δ σ b hb hΔ _ => ?_) h rfl
  have hne : x ≠ b.name := fun hc => hx (List.mem_map.2 ⟨b, hb, hc.symm⟩)
  rw [SortedMap.get?_insert_of_ne _ _ hne]
  exact hΔ

theorem inferAll_binds {bs : List Binding} :
    ∀ {Γ Γ' : Context} {schemes : List (String × Scheme)}, inferAll Γ bs = (.ok schemes, Γ') →
      Γ'.Binds (bs.map (·.name)) := by
  induction bs with
  | nil => exact fun _ x hx => absurd hx List.not_mem_nil
  | cons b bs ih =>
    intro Γ Γ' schemes h x hx
    obtain ⟨σ, rest, -, hrest⟩ := inferAll_cons h
    rcases List.mem_cons.1 hx with rfl | hx
    · -- a name that is bound stays bound, by a later definition if not by this one
      refine inferAll_induction (P := fun Δ => ∃ τ, Δ.get? b.name = some τ) ?_ hrest
        ⟨σ, SortedMap.get?_insert_self _ _ _⟩
      rintro Δ τ c - ⟨υ, hυ⟩ -
      by_cases hc : b.name = c.name
      · exact ⟨τ, by rw [hc, SortedMap.get?_insert_self]⟩
      · exact ⟨υ, by rw [SortedMap.get?_insert_of_ne _ _ hc, hυ]⟩
    · exact ih hrest x hx

/-! ## Sessions -/

theorem Program.mem_bindings_of_get? {p : Program} {name : String} {e : Term}
    (h : p.get? name = some e) : ∃ b ∈ p.bindings, b.name = name ∧ b.term = e := by
  obtain ⟨b, hb, rfl⟩ := Option.map_eq_some_iff.1 h
  exact ⟨b, List.mem_of_find?_eq_some hb, by simpa using List.find?_some hb, rfl⟩

theorem Program.eval_eq_ok {p : Program} {fuel : Nat} {ρ : ScopeId} {entry : String} {v : Value}
    {st st' : Store} (h : (p.eval fuel ρ entry).runFrom st = some (.ok v, st')) :
    ∃ b ∈ p.bindings, b.name = entry ∧
      (defineAll fuel ρ entry p.bindings >>= fun _ => LetPoly.eval fuel ρ b.term).runFrom st =
        some (.ok v, st') := by
  unfold Program.eval at h
  cases hentry : p.get? entry with
  | none =>
    rw [hentry] at h
    cases h
  | some e =>
    rw [hentry] at h
    obtain ⟨b, hb, hname, rfl⟩ := Program.mem_bindings_of_get? hentry
    exact ⟨b, hb, hname, h⟩

theorem Session.check_run (p : Program) (s : Session) :
    (Session.check p).run.run s = some ((inferAll s.context p.bindings).1.mapError .infer,
      { s with context := (inferAll s.context p.bindings).2 }) := by
  show (MonadExcept.ofExcept ((inferAll s.context p.bindings).1.mapError .infer) :
    SessionM (List (String × Scheme))).run.run
      { s with context := (inferAll s.context p.bindings).2 } = _
  rcases inferAll s.context p.bindings with ⟨_ | schemes, Γ⟩ <;> rfl

theorem Session.evaluate_run (fuel : Nat) (p : Program) (entry : String) (s : Session) :
    (Session.evaluate fuel p entry).run.run s =
      ((p.eval fuel s.global entry).runFrom s.store).map fun r =>
        (r.1.mapError .runtime, { s with store := r.2 }) := by
  unfold Session.evaluate
  rw [ExceptT.run_bind, StateT.run_bind]
  have hget : StateT.run (ExceptT.run (get : SessionM Session)) s = some (.ok s, s) := rfl
  rw [hget]
  dsimp only [Option.bind_eq_bind, Option.bind_some]
  rcases (p.eval fuel s.global entry).runFrom s.store with _ | ⟨_ | v, store⟩ <;> rfl

/-- A session that runs a program to a value has accepted it and evaluated it. -/
theorem Session.run_eq_ok {fuel : Nat} {p : Program} {entry : String} {s s' : Session} {v : Value}
    (h : (Session.run fuel p entry).run.run s = some (.ok v, s')) :
    ∃ schemes, inferAll s.context p.bindings = (.ok schemes, s'.context) ∧
      (p.eval fuel s.global entry).runFrom s.store = some (.ok v, s'.store) := by
  unfold Session.run at h
  rw [ExceptT.run_bind, StateT.run_bind, Session.check_run] at h
  rcases hinfer : inferAll s.context p.bindings with ⟨e | schemes, Γ⟩
  · rw [hinfer] at h
    cases h
  · rw [hinfer] at h
    have h : (Session.evaluate fuel p entry).run.run { s with context := Γ } = some (.ok v, s') := h
    rw [Session.evaluate_run] at h
    obtain ⟨⟨r, store⟩, heval, hr⟩ := Option.map_eq_some_iff.1 h
    cases r with
    | error e => cases hr
    | ok w =>
      cases hr
      exact ⟨schemes, rfl, heval⟩

end LetPoly
