import LetPoly.Proofs.Inference.Locality

/-!
# Names that a term does not mention

Inference asks a context for the schemes of the names that a term mentions, and for its free
variables.  A scheme without free variables under a name that the term does not mention answers
neither question, so it may be there or not, or be another one.  The term may still bind the name
itself.  Then not only the answers are the same but the runs: the variables drawn, the equations
posed and the errors (`inferTerm_congr`).
-/

namespace LetPoly

namespace Context

/-- The name has a scheme without free variables, or none. -/
def ClosedAt (Γ : Context) (x : String) : Prop := ∀ σ, Γ.get? x = some σ → σ.Closed

theorem ClosedAt.apply {Γ : Context} {x : String} (h : Γ.ClosedAt x) (s : Subst) :
    (Γ.apply s).ClosedAt x := by
  intro σ hσ
  obtain ⟨τ, hτ, rfl⟩ := get?_apply_some.1 hσ
  rw [(h τ hτ).apply_eq]
  exact h τ hτ

/-- The contexts differ at most at names outside the list, and are closed where they differ. -/
def SameFor (Γ : Context) (names : List String) (Δ : Context) : Prop :=
  ∀ x, Γ.get? x = Δ.get? x ∨ x ∉ names ∧ Γ.ClosedAt x ∧ Δ.ClosedAt x

namespace SameFor

variable {names names' : List String} {Γ Δ : Context} {x : String} {v : Nat}

theorem symm (h : Γ.SameFor names Δ) : Δ.SameFor names Γ := fun x =>
  (h x).imp Eq.symm fun ⟨hx, hΓ, hΔ⟩ => ⟨hx, hΔ, hΓ⟩

theorem mono (h : Γ.SameFor names Δ) (hsub : ∀ x ∈ names', x ∈ names) : Γ.SameFor names' Δ :=
  fun x => (h x).imp_right fun ⟨hx, hclosed⟩ => ⟨fun hmem => hx (hsub x hmem), hclosed⟩

theorem left (h : Γ.SameFor (names ++ names') Δ) : Γ.SameFor names Δ :=
  h.mono fun _ hx => List.mem_append_left _ hx

theorem right (h : Γ.SameFor (names ++ names') Δ) : Γ.SameFor names' Δ :=
  h.mono fun _ hx => List.mem_append_right _ hx

theorem get?_eq (h : Γ.SameFor names Δ) (hx : x ∈ names) : Γ.get? x = Δ.get? x :=
  (h x).resolve_right fun hc => hc.1 hx

theorem mem_freeVars_of_mem (h : Γ.SameFor names Δ) (hv : v ∈ Γ.freeVars) : v ∈ Δ.freeVars := by
  obtain ⟨x, σ, hx, hσ⟩ := Context.mem_freeVars.1 hv
  rcases h x with heq | ⟨-, hclosed, -⟩
  · rw [heq] at hx
    exact Context.mem_freeVars.2 ⟨x, σ, hx, hσ⟩
  · exact absurd hσ (Scheme.closed_iff.1 (hclosed σ hx) v)

theorem mem_freeVars (h : Γ.SameFor names Δ) : v ∈ Γ.freeVars ↔ v ∈ Δ.freeVars :=
  ⟨h.mem_freeVars_of_mem, h.symm.mem_freeVars_of_mem⟩

theorem generalize_eq (h : Γ.SameFor names Δ) (t : Ty) :
    Scheme.generalize Γ t = .generalize Δ t :=
  Scheme.generalize_congr fun _ _ => h.mem_freeVars

theorem apply (h : Γ.SameFor names Δ) (s : Subst) : (Γ.apply s).SameFor names (Δ.apply s) := by
  intro x
  rcases h x with heq | ⟨hx, hΓ, hΔ⟩
  · left
    rw [get?_apply, get?_apply, heq]
  · right
    exact ⟨hx, hΓ.apply s, hΔ.apply s⟩

-- Under a binder the contexts agree at the bound name, whatever they had there before.
theorem insert (h : Γ.SameFor (names.filter (· != x)) Δ) (σ : Scheme) :
    Context.SameFor (Γ.insert x σ) names (Δ.insert x σ) := by
  intro y
  by_cases hy : y = x
  · subst hy
    left
    rw [SortedMap.get?_insert_self, SortedMap.get?_insert_self]
  · unfold ClosedAt
    rw [SortedMap.get?_insert_of_ne _ _ hy, SortedMap.get?_insert_of_ne _ _ hy]
    refine (h y).imp_right fun ⟨hnot, hclosed⟩ => ⟨fun hmem => hnot ?_, hclosed⟩
    exact List.mem_filter.2 ⟨hmem, by simpa using hy⟩

theorem erase (h : Γ.SameFor names Δ) (x : String) :
    Context.SameFor (Γ.erase x) names (Δ.erase x) := by
  intro y
  by_cases hy : y = x
  · subst hy
    left
    rw [SortedMap.get?_erase_self, SortedMap.get?_erase_self]
  · unfold ClosedAt
    rw [SortedMap.get?_erase_of_ne _ hy, SortedMap.get?_erase_of_ne _ hy]
    exact h y

end SameFor

end Context

/-! ## Runs -/

/-- Contexts that are the same for the free names of a term have the same runs on it. -/
theorem inferTerm_congr {e : Term} :
    ∀ {Γ Δ : Context}, Γ.SameFor e.freeNames Δ → inferTerm Γ e = inferTerm Δ e := by
  induction e with
  | num v => exact fun _ => rfl
  | bool b => exact fun _ => rfl
  | var x =>
    intro Γ Δ h
    simp only [inferTerm, h.get?_eq List.mem_cons_self]
  | ite c a b ihc iha ihb =>
    intro Γ Δ h
    rw [inferTerm, inferTerm, ihc h.left.left]
    refine bind_congr fun r₁ => bind_congr fun s₂ => ?_
    dsimp only
    rw [iha (h.left.right.apply _)]
    refine bind_congr fun r₃ => ?_
    rw [ihb (h.right.apply _)]
  | letIn x d b ihd ihb =>
    intro Γ Δ h
    rw [inferTerm, inferTerm, ihd h.left]
    refine bind_congr fun r₁ => ?_
    -- the name is out of both contexts when the definition is generalized
    have hscope := (h.right.erase x).apply r₁.2
    dsimp only
    rw [hscope.generalize_eq, ihb (hscope.insert _)]
  | lam x b ih =>
    intro Γ Δ h
    rw [inferTerm, inferTerm]
    refine bind_congr fun t => ?_
    rw [ih (h.insert _)]
  | app f a ihf iha =>
    intro Γ Δ h
    rw [inferTerm, inferTerm]
    refine bind_congr fun r => ?_
    rw [ihf h.left]
    refine bind_congr fun r₁ => ?_
    dsimp only
    rw [iha (h.right.apply _)]

theorem infer_congr {Γ Δ : Context} {e : Term} (h : Γ.SameFor e.freeNames Δ) :
    infer Γ e = infer Δ e := by
  unfold infer InferState.above
  rw [inferTerm_congr h, Context.nextVar_congr fun _ => h.mem_freeVars]
  refine congrArg (Except.map · _) (funext fun r => ?_)
  rw [(h.apply r.2).generalize_eq]

/-- A closed scheme for a name that a term does not mention makes no difference to the term. -/
theorem infer_insert_of_notMem {Γ : Context} {x : String} {σ : Scheme} {e : Term}
    (hx : x ∉ e.freeNames) (hσ : σ.Closed) (hΓ : Γ.ClosedAt x) :
    infer (Γ.insert x σ) e = infer Γ e := by
  refine infer_congr fun y => ?_
  by_cases hy : y = x
  · subst hy
    refine .inr ⟨hx, fun τ hτ => ?_, hΓ⟩
    rw [SortedMap.get?_insert_self] at hτ
    cases hτ
    exact hσ
  · exact .inl (SortedMap.get?_insert_of_ne _ _ hy)

end LetPoly
