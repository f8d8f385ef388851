import LetPoly.Proofs.Inference.Run
import LetPoly.Proofs.Typing.Unification

/-!
# What a run of inference touches

A run from `n` to `n'` on a term deals only with variables that are free in the schemes of the names
which the term mentions, and with those from `n` up to `n'` (`Zone`).  Its substitution is
idempotent and the type that it returns is not changed by it any more (`RunSpec`).
-/

namespace LetPoly

/-- The names that a term takes from its context. -/
def Term.freeNames : Term → List String
  | var x => [x]
  | num _ | bool _ => []
  | ite c a b => c.freeNames ++ a.freeNames ++ b.freeNames
  | letIn x d b => d.freeNames ++ b.freeNames.filter (· != x)
  | lam x b => b.freeNames.filter (· != x)
  | app f a => f.freeNames ++ a.freeNames

namespace Context

/-- The variable `v` is free in the scheme of one of the names. -/
def Reaches (Γ : Context) (names : List String) (v : Nat) : Prop :=
  ∃ x ∈ names, ∃ σ, Γ.get? x = some σ ∧ v ∈ σ.freeVars

theorem Reaches.mem_freeVars {Γ : Context} {names : List String} {v : Nat}
    (h : Γ.Reaches names v) : v ∈ Γ.freeVars := by
  obtain ⟨x, -, σ, hx, hv⟩ := h
  exact Context.mem_freeVars.2 ⟨x, σ, hx, hv⟩

theorem Reaches.mono {Γ : Context} {names names' : List String} {v : Nat} (h : Γ.Reaches names v)
    (hsub : ∀ x ∈ names, x ∈ names') : Γ.Reaches names' v := by
  obtain ⟨x, hmem, hx⟩ := h
  exact ⟨x, hsub x hmem, hx⟩

/-- Below `n` there are all free variables of the context. -/
def Below (Γ : Context) (n : Nat) : Prop := ∀ v ∈ Γ.freeVars, v < n

theorem below_nextVar (Γ : Context) : Γ.Below Γ.nextVar := fun _ => lt_nextVar

theorem Below.succ {Γ : Context} {n : Nat} (h : Γ.Below n) : Γ.Below (n + 1) := fun v hv =>
  Nat.lt_succ_of_lt (h v hv)

theorem mem_freeVars_apply {Γ : Context} {s : Subst} {w : Nat} (h : w ∈ (Γ.apply s).freeVars) :
    ∃ v ∈ Γ.freeVars, w ∈ (s.image v).vars := by
  obtain ⟨x, σ, hx, hw⟩ := mem_freeVars.1 h
  obtain ⟨σ', hx', rfl⟩ := get?_apply_some.1 hx
  obtain ⟨-, v, hv, hw⟩ := Scheme.mem_freeVars_apply.1 hw
  exact ⟨v, mem_freeVars.2 ⟨x, σ', hx', hv⟩, hw⟩

theorem Reaches.of_apply {Γ : Context} {s : Subst} {names : List String} {w : Nat}
    (h : (Γ.apply s).Reaches names w) : ∃ v, Γ.Reaches names v ∧ w ∈ (s.image v).vars := by
  obtain ⟨x, hmem, σ, hx, hw⟩ := h
  obtain ⟨σ', hx', rfl⟩ := get?_apply_some.1 hx
  obtain ⟨-, v, hv, hw⟩ := Scheme.mem_freeVars_apply.1 hw
  exact ⟨v, ⟨x, hmem, σ', hx', hv⟩, hw⟩

theorem Reaches.of_insert {Γ : Context} {x : String} {σ : Scheme} {names : List String} {v : Nat}
    (h : Reaches (Γ.insert x σ) names v) :
    v ∈ σ.freeVars ∨ Γ.Reaches (names.filter (· != x)) v := by
  obtain ⟨y, hmem, σ', hy, hv⟩ := h
  rcases SortedMap.get?_insert_eq_some hy with ⟨-, rfl⟩ | ⟨hyx, hy⟩
  · exact .inl hv
  · exact .inr ⟨y, List.mem_filter.2 ⟨hmem, by simpa using hyx⟩, σ', hy, hv⟩

theorem mem_freeVars_insert {Γ : Context} {x : String} {σ : Scheme} {v : Nat}
    (h : v ∈ Context.freeVars (Γ.insert x σ)) : v ∈ σ.freeVars ∨ v ∈ Γ.freeVars := by
  obtain ⟨y, σ', hy, hv⟩ := mem_freeVars.1 h
  rcases SortedMap.get?_insert_eq_some hy with ⟨-, rfl⟩ | ⟨-, hy⟩
  · exact .inl hv
  · exact .inr (mem_freeVars.2 ⟨y, σ', hy, hv⟩)

-- The context of a function's body, whose parameter has the variable `n`.
theorem Below.lam {Γ : Context} {n : Nat} (h : Γ.Below n) (x : String) :
    Context.Below (Γ.insert x (.mono (.var n))) (n + 1) := by
  intro v hv
  rcases mem_freeVars_insert hv with hv | hv
  · rw [Scheme.freeVars_mono, Ty.vars, List.mem_singleton] at hv
    omega
  · exact h.succ v hv

end Context

/-- The variables that the names reach, and the new ones from `n` up to `n'`. -/
def Zone (Γ : Context) (names : List String) (n n' v : Nat) : Prop :=
  Γ.Reaches names v ∨ n ≤ v ∧ v < n'

namespace Zone

variable {Γ : Context} {names names' : List String} {n n' m m' v : Nat}

theorem mono (h : Zone Γ names n n' v) (hsub : ∀ x ∈ names, x ∈ names') (hm : m ≤ n)
    (hm' : n' ≤ m') : Zone Γ names' m m' v :=
  h.imp (·.mono hsub) fun ⟨hl, hr⟩ => ⟨Nat.le_trans hm hl, Nat.lt_of_lt_of_le hr hm'⟩

theorem append_left (h : Zone Γ names n n' v) (hm' : n' ≤ m') : Zone Γ (names ++ names') n m' v :=
  h.mono (fun _ hx => List.mem_append_left _ hx) (Nat.le_refl n) hm'

theorem lt (h : Zone Γ names n n' v) (hΓ : Γ.Below n) (hn : n ≤ n') : v < n' := by
  rcases h with h | h
  · have := hΓ v h.mem_freeVars
    omega
  · exact h.2

-- a variable drawn before the run, and after the context
theorem not_self (hΓ : Γ.Below n) (hm : n < m) : ¬ Zone Γ names m m' n := by
  rintro (h | h)
  · exact Nat.lt_irrefl n (hΓ n h.mem_freeVars)
  · omega

end Zone

/-! ## Contexts under the substitution of a run -/

section Apply

variable {Γ : Context} {s : Subst} {names names' : List String} {n n₁ n₂ : Nat}

theorem Context.Below.apply (hΓ : Γ.Below n) (hs : s.Within (Zone Γ names n n₁)) (hn : n ≤ n₁) :
    (Γ.apply s).Below n₁ := by
  intro w hw
  obtain ⟨v, hv, hw⟩ := Context.mem_freeVars_apply hw
  rcases hs.of_mem_image hw with rfl | hw
  · have := hΓ w hv
    omega
  · exact hw.lt hΓ hn

-- What a later run touches was touched by the earlier one or is reached from the start.
theorem Zone.of_apply {v : Nat} (h : Zone (Γ.apply s) names' n₁ n₂ v)
    (hs : s.Within (Zone Γ names n n₁)) (hn : n ≤ n₁) (hn' : n₁ ≤ n₂) :
    Zone Γ (names ++ names') n n₂ v := by
  rcases h with h | h
  · obtain ⟨u, hu, hv⟩ := h.of_apply
    rcases hs.of_mem_image hv with rfl | hv
    · exact .inl (hu.mono fun x hx => List.mem_append_right _ hx)
    · exact hv.append_left hn'
  · exact .inr ⟨Nat.le_trans hn h.1, h.2⟩

-- An idempotent substitution leaves alone all that a later run touches.
theorem Zone.image_eq {v : Nat} (h : Zone (Γ.apply s) names' n₁ n₂ v) (hidem : s.Idempotent)
    (hΓ : Γ.Below n) (hs : s.Within (Zone Γ names n n₁)) (hn : n ≤ n₁) : s.image v = .var v := by
  rcases h with h | h
  · obtain ⟨u, -, hv⟩ := h.of_apply
    exact hidem.image_of_mem hv
  · refine hs.image_eq fun hz => ?_
    have := hz.lt hΓ hn
    omega

end Apply

/-! ## The invariant of a run -/

/-- What a run from `n` to `n'` on a term with these free names guarantees. -/
structure RunSpec (Γ : Context) (names : List String) (n : Nat) (t : Ty) (s : Subst) (n' : Nat) :
    Prop where
  le : n ≤ n'
  within : s.Within (Zone Γ names n n')
  vars : ∀ v ∈ t.vars, Zone Γ names n n' v
  idempotent : s.Idempotent
  resolved : s.apply t = t

namespace RunSpec

variable {Γ : Context} {names names₁ names₂ : List String} {n n₁ n₂ : Nat} {t t₁ t₂ : Ty}
  {s s₁ s₂ : Subst}

theorem apply_vars (h : RunSpec Γ names n t s n₁) {u : Ty}
    (hu : ∀ v ∈ u.vars, Zone Γ names n n₁ v) :
    ∀ v ∈ (s.apply u).vars, Zone Γ names n n₁ v := fun v hv =>
  (h.within.of_mem_apply hv).elim (hu v) id

-- The unifier of types that the run has resolved can be put after its substitution.
theorem unify (h : RunSpec Γ names n t s n₁) {u u' : Ty} {s' : Subst}
    (hu : LetPoly.unify u u' = .ok s') (hvars : ∀ v ∈ u.vars, Zone Γ names n n₁ v)
    (hvars' : ∀ v ∈ u'.vars, Zone Γ names n n₁ v) (hfix : s.apply u = u) (hfix' : s.apply u' = u') :
    (s'.compose s).Within (Zone Γ names n n₁) ∧ (s'.compose s).Idempotent := by
  have hs' := unify_within u u' s' hu
  exact ⟨Subst.Within.compose (hs'.mono fun v hv => hv.elim (hvars v) (hvars' v)) h.within,
    (unify_idempotent hu).compose h.idempotent (unify_after hu hfix hfix')⟩

-- A condition is of type `Bool`, which brings in no variable.
theorem unify_bool (h : RunSpec Γ names n t s n₁) {s' : Subst}
    (hu : LetPoly.unify t .bool = .ok s') :
    (s'.compose s).Within (Zone Γ names n n₁) ∧ (s'.compose s).Idempotent :=
  h.unify hu h.vars (by simp [Ty.bool, Ty.vars]) h.resolved rfl

theorem after (h₂ : RunSpec (Γ.apply s₁) names₂ n₁ t₂ s₂ n₂) (hΓ : Γ.Below n)
    (h₁ : s₁.Within (Zone Γ names₁ n n₁)) (hidem : s₁.Idempotent) (hn : n ≤ n₁) : s₂.After s₁ :=
  ⟨_, h₂.within, fun _ hv => hv.image_eq hidem hΓ h₁ hn⟩

-- A run that is followed by another one in the context under its substitution.
theorem compose (hΓ : Γ.Below n) (h₁ : s₁.Within (Zone Γ names₁ n n₁)) (hidem : s₁.Idempotent)
    (hn : n ≤ n₁) (h₂ : RunSpec (Γ.apply s₁) names₂ n₁ t₂ s₂ n₂) :
    RunSpec Γ (names₁ ++ names₂) n t₂ (s₂.compose s₁) n₂ := by
  -- the first substitution leaves alone all that the second run deals with
  have hfix : ∀ v, Zone (Γ.apply s₁) names₂ n₁ n₂ v → s₁.image v = .var v := fun v hv =>
    hv.image_eq hidem hΓ h₁ hn
  refine ⟨Nat.le_trans hn h₂.le, ?_, fun v hv => (h₂.vars v hv).of_apply h₁ hn h₂.le,
    h₂.idempotent.compose hidem (h₂.after hΓ h₁ hidem hn), ?_⟩
  · refine Subst.Within.compose (h₂.within.mono fun v hv => hv.of_apply h₁ hn h₂.le) ?_
    exact h₁.mono fun v hv => hv.append_left h₂.le
  · rw [Subst.apply_compose, Subst.apply_eq_self fun v hv => hfix v (h₂.vars v hv), h₂.resolved]

end RunSpec

-- A run on the condition, then a run on each branch, and the unifier of the branches' types.
theorem RunSpec.branches {Γ : Context} {c a b : List String} {n n₁ n₃ n₄ : Nat} {t₃ t₄ : Ty}
    {s₁ s₃ s₄ s₅ : Subst} (hΓ : Γ.Below n) (hn : n ≤ n₁) (h₁ : s₁.Within (Zone Γ c n n₁))
    (hidem : s₁.Idempotent) (h₃ : RunSpec (Γ.apply s₁) a n₁ t₃ s₃ n₃)
    (h₄ : RunSpec (Γ.apply (s₃.compose s₁)) b n₃ t₄ s₄ n₄) {s : Subst}
    (hs : s = s₄.compose (s₃.compose s₁))
    (hu : LetPoly.unify (s.apply t₃) (s.apply t₄) = .ok s₅) :
    RunSpec Γ (c ++ a ++ b) n ((s₅.compose s).apply (s.apply t₃)) (s₅.compose s) n₄ := by
  have h₁₃ : RunSpec Γ (c ++ a) n t₃ (s₃.compose s₁) n₃ := .compose hΓ h₁ hidem hn h₃
  have h : RunSpec Γ (c ++ a ++ b) n t₄ s n₄ :=
    hs ▸ .compose hΓ h₁₃.within h₁₃.idempotent h₁₃.le h₄
  have ht₃ := h.apply_vars fun v hv => (h₁₃.vars v hv).append_left h₄.le
  obtain ⟨hwithin, hidem₅⟩ := h.unify hu ht₃ (h.apply_vars h.vars) (h.idempotent.apply_apply t₃)
    (h.idempotent.apply_apply t₄)
  refine ⟨h.le, hwithin, fun v hv => ?_, hidem₅, hidem₅.apply_apply _⟩
  exact (hwithin.of_mem_apply hv).elim (ht₃ v) id

-- What the run on the body of a `let` touches belongs to the type of the definition, or is there
-- without the new name.
theorem Zone.of_letIn {Γ Δ : Context} {x : String} {d b : List String} {n n₁ n₂ v : Nat} {t₁ : Ty}
    {s₁ : Subst} (h₁ : RunSpec Γ d n t₁ s₁ n₁)
    (h : Zone ((Γ.apply s₁).insert x (.generalize Δ (s₁.apply t₁))) b n₁ n₂ v) :
    v ∈ t₁.vars ∨ Zone (Γ.apply s₁) (b.filter (· != x)) n₁ n₂ v := by
  rcases h with hv | hv
  · rcases hv.of_insert with hv | hv
    · rw [h₁.resolved] at hv
      exact .inl (Scheme.mem_freeVars_generalize.1 hv).1
    · exact .inr (.inl hv)
  · exact .inr (.inr hv)

theorem Zone.before_letIn {Γ Δ : Context} {x : String} {d b : List String} {n n₁ n₂ v : Nat}
    {t₁ : Ty} {s₁ : Subst} (h₁ : RunSpec Γ d n t₁ s₁ n₁) (hn : n₁ ≤ n₂)
    (h : Zone ((Γ.apply s₁).insert x (.generalize Δ (s₁.apply t₁))) b n₁ n₂ v) :
    Zone Γ (d ++ b.filter (· != x)) n n₂ v := by
  rcases h.of_letIn h₁ with hv | hv
  · exact (h₁.vars v hv).append_left hn
  · exact hv.of_apply h₁.within h₁.le hn

theorem Context.Below.letIn {Γ Δ : Context} {d : List String} {n n₁ : Nat} {t₁ : Ty} {s₁ : Subst}
    (hΓ : Γ.Below n) (h₁ : RunSpec Γ d n t₁ s₁ n₁) (x : String) :
    Context.Below ((Γ.apply s₁).insert x (.generalize Δ (s₁.apply t₁))) n₁ := by
  intro v hv
  rcases Context.mem_freeVars_insert hv with hv | hv
  · rw [h₁.resolved] at hv
    exact (h₁.vars v (Scheme.mem_freeVars_generalize.1 hv).1).lt hΓ h₁.le
  · exact hΓ.apply h₁.within h₁.le v hv

-- The run on the definition leaves alone what the run on the body touches.
theorem Zone.image_eq_of_letIn {Γ Δ : Context} {x : String} {d b : List String} {n n₁ n₂ v : Nat}
    {t₁ : Ty} {s₁ : Subst} (hΓ : Γ.Below n) (h₁ : RunSpec Γ d n t₁ s₁ n₁)
    (h : Zone ((Γ.apply s₁).insert x (.generalize Δ (s₁.apply t₁))) b n₁ n₂ v) :
    s₁.image v = .var v :=
  (h.of_letIn h₁).elim (Subst.image_eq_of_apply_eq h₁.resolved)
    fun hv => hv.image_eq h₁.idempotent hΓ h₁.within h₁.le

-- A run on a definition, then one on the body in the context with the new name.
theorem RunSpec.letIn {Γ Δ : Context} {x : String} {d b : List String} {n n₁ n₂ : Nat} {t₁ t₂ : Ty}
    {s₁ s₂ : Subst} (hΓ : Γ.Below n) (h₁ : RunSpec Γ d n t₁ s₁ n₁)
    (h₂ : RunSpec ((Γ.apply s₁).insert x (.generalize Δ (s₁.apply t₁))) b n₁ t₂ s₂ n₂) :
    RunSpec Γ (d ++ b.filter (· != x)) n t₂ (s₂.compose s₁) n₂ := by
  have hfix : ∀ v, Zone ((Γ.apply s₁).insert x (.generalize Δ (s₁.apply t₁))) b n₁ n₂ v →
      s₁.image v = .var v := fun v hv => hv.image_eq_of_letIn hΓ h₁
  refine ⟨Nat.le_trans h₁.le h₂.le, ?_, fun v hv => (h₂.vars v hv).before_letIn h₁ h₂.le,
    h₂.idempotent.compose h₁.idempotent ⟨_, h₂.within, hfix⟩, ?_⟩
  · refine Subst.Within.compose (h₂.within.mono fun v hv => hv.before_letIn h₁ h₂.le) ?_
    exact h₁.within.mono fun v hv => hv.append_left h₂.le
  · rw [Subst.apply_compose, Subst.apply_eq_self fun v hv => hfix v (h₂.vars v hv), h₂.resolved]

-- A run on the body of a function whose parameter has the variable `n`.
theorem RunSpec.lam {Γ : Context} {x : String} {b : List String} {n n' : Nat} {t : Ty} {s : Subst}
    (h : RunSpec (Γ.insert x (.mono (.var n))) b (n + 1) t s n') :
    RunSpec Γ (b.filter (· != x)) n (.arrow (s.apply (.var n)) t) s n' := by
  have hle := h.le
  have hn : Zone Γ (b.filter (· != x)) n n' n := .inr ⟨Nat.le_refl n, by omega⟩
  -- outside the function the parameter's variable is one of the new ones
  have hzone : ∀ v, Zone (Γ.insert x (.mono (.var n))) b (n + 1) n' v →
      Zone Γ (b.filter (· != x)) n n' v := by
    rintro v (hv | hv)
    · rcases hv.of_insert with hv | hv
      · rw [Scheme.freeVars_mono, Ty.vars, List.mem_singleton] at hv
        exact hv ▸ hn
      · exact .inl hv
    · exact .inr ⟨by omega, hv.2⟩
  have hwithin := h.within.mono hzone
  refine ⟨by omega, hwithin, fun v hv => ?_, h.idempotent, ?_⟩
  · rcases List.mem_append.1 hv with hv | hv
    · rcases hwithin.of_mem_apply hv with hv | hv
      · rw [Ty.vars, List.mem_singleton] at hv
        exact hv ▸ hn
      · exact hv
    · exact hzone v (h.vars v hv)
  · rw [Subst.apply_arrow, h.idempotent.apply_apply, h.resolved]

/-! ## Applications -/

/-- What the run on the argument of an application and the unifier after it deal with: the
argument's zone, the variables of the function's type `t` and the variable `r` of the result. -/
def AppZone (Γ : Context) (a : List String) (t : Ty) (r n n' v : Nat) : Prop :=
  Zone Γ a n n' v ∨ v ∈ t.vars ∨ v = r

section Application

variable {Γ : Context} {f a : List String} {n n₁ n₂ v : Nat} {t₁ t₂ : Ty} {s₁ s₂ s₃ : Subst}

theorem Zone.of_function (h : Zone Γ f (n + 1) n₁ v) (hn : n₁ ≤ n₂) : Zone Γ (f ++ a) n n₂ v :=
  h.mono (fun _ hx => List.mem_append_left _ hx) (Nat.le_succ n) hn

theorem AppZone.zone (h : AppZone (Γ.apply s₁) a t₁ n n₁ n₂ v) (h₁ : RunSpec Γ f (n + 1) t₁ s₁ n₁)
    (hn : n₁ ≤ n₂) : Zone Γ (f ++ a) n n₂ v := by
  have hle := h₁.le
  rcases h with hv | hv | rfl
  · exact (hv.of_apply h₁.within h₁.le hn).mono (fun _ hx => hx) (Nat.le_succ n) (Nat.le_refl n₂)
  · exact (h₁.vars v hv).of_function hn
  · exact .inr ⟨Nat.le_refl v, by omega⟩

-- The function's run leaves alone whatever comes after it.
theorem AppZone.image_eq (h : AppZone (Γ.apply s₁) a t₁ n n₁ n₂ v) (hΓ : Γ.Below n)
    (h₁ : RunSpec Γ f (n + 1) t₁ s₁ n₁) : s₁.image v = .var v := by
  rcases h with hv | hv | rfl
  · exact hv.image_eq h₁.idempotent hΓ.succ h₁.within h₁.le
  · exact Subst.image_eq_of_apply_eq h₁.resolved hv
  · exact h₁.within.image_eq (Zone.not_self hΓ (Nat.lt_succ_self v))

theorem AppZone.of_unified (h₂ : RunSpec Γ a n₁ t₂ s₂ n₂)
    (hv : v ∈ (s₂.apply t₁).vars ∨ v ∈ (Ty.arrow t₂ (.var n)).vars) :
    AppZone Γ a t₁ n n₁ n₂ v := by
  rcases hv with hv | hv
  · exact (h₂.within.of_mem_apply hv).elim (fun hv => .inr (.inl hv)) .inl
  · rcases List.mem_append.1 hv with hv | hv
    · exact .inl (h₂.vars v hv)
    · exact .inr (.inr (List.mem_singleton.1 hv))

-- The argument's run has resolved both sides that are unified.
theorem RunSpec.image_eq_of_unified (h₂ : RunSpec Γ a n₁ t₂ s₂ n₂) (hn : ¬ Zone Γ a n₁ n₂ n)
    (hv : v ∈ (s₂.apply t₁).vars ∨ v ∈ (Ty.arrow t₂ (.var n)).vars) : s₂.image v = .var v := by
  rcases hv with hv | hv
  · exact Subst.image_eq_of_apply_eq (h₂.idempotent.apply_apply t₁) hv
  · rcases List.mem_append.1 hv with hv | hv
    · exact Subst.image_eq_of_apply_eq h₂.resolved hv
    · exact List.mem_singleton.1 hv ▸ h₂.within.image_eq hn

-- The variable of the result is younger than the context and older than both runs.
theorem RunSpec.not_zone_result (hΓ : Γ.Below n) (h₁ : RunSpec Γ f (n + 1) t₁ s₁ n₁) :
    ¬ Zone (Γ.apply s₁) a n₁ n₂ n := by
  have hle := h₁.le
  rintro (h | h)
  · obtain ⟨v, hv, hmem⟩ := h.of_apply
    rcases h₁.within.of_mem_image hmem with rfl | hz
    · exact Nat.lt_irrefl n (hΓ n hv.mem_freeVars)
    · exact Zone.not_self hΓ (Nat.lt_succ_self n) hz
  · omega

-- The unifier and the argument's run stay where the function's run changes nothing.
theorem RunSpec.within_appZone (h₂ : RunSpec Γ a n₁ t₂ s₂ n₂)
    (hu : LetPoly.unify (s₂.apply t₁) (.arrow t₂ (.var n)) = .ok s₃) :
    (s₃.compose s₂).Within (AppZone Γ a t₁ n n₁ n₂) :=
  Subst.Within.compose ((unify_within _ _ s₃ hu).mono fun _ hv => .of_unified h₂ hv)
    (h₂.within.mono fun _ hv => .inl hv)

-- Runs on function and argument, then the unifier that brings in the variable of the result.
theorem RunSpec.app (hΓ : Γ.Below n) (h₁ : RunSpec Γ f (n + 1) t₁ s₁ n₁)
    (h₂ : RunSpec (Γ.apply s₁) a n₁ t₂ s₂ n₂)
    (hu : LetPoly.unify (s₂.apply t₁) (.arrow t₂ (.var n)) = .ok s₃) :
    RunSpec Γ (f ++ a) n (s₃.apply (.var n)) ((s₃.compose s₂).compose s₁) n₂ := by
  have hle₁ := h₁.le
  have hle₂ := h₂.le
  have hs₃ := unify_within _ _ s₃ hu
  have hlater := h₂.within_appZone hu
  have hfix₂ : ∀ v, v ∈ (s₂.apply t₁).vars ∨ v ∈ (Ty.arrow t₂ (.var n)).vars →
      s₂.image v = .var v := fun v hv => h₂.image_eq_of_unified (h₁.not_zone_result hΓ) hv
  have hidem : (s₃.compose s₂).Idempotent :=
    (unify_idempotent hu).compose h₂.idempotent ⟨_, hs₃, hfix₂⟩
  have hresult : ∀ v ∈ (s₃.image n).vars, v ∈ (s₂.apply t₁).vars ∨
      v ∈ (Ty.arrow t₂ (.var n)).vars := fun v hv => by
    rcases hs₃.of_mem_image hv with rfl | hv
    · exact .inr (by simp [Ty.vars])
    · exact hv
  have hzone : ∀ v ∈ (s₃.image n).vars, AppZone (Γ.apply s₁) a t₁ n n₁ n₂ v := fun v hv =>
    .of_unified h₂ (hresult v hv)
  refine ⟨by omega, ?_, fun v hv => (hzone v hv).zone h₁ h₂.le,
    hidem.compose h₁.idempotent ⟨_, hlater, fun v hv => hv.image_eq hΓ h₁⟩, ?_⟩
  · exact Subst.Within.compose (hlater.mono fun v hv => hv.zone h₁ h₂.le)
      (h₁.within.mono fun v hv => hv.of_function h₂.le)
  · rw [Subst.apply_compose, Subst.apply_compose, Subst.apply_var,
      Subst.apply_eq_self fun v hv => (hzone v hv).image_eq hΓ h₁,
      Subst.apply_eq_self fun v hv => hfix₂ v (hresult v hv)]
    exact unify_idempotent hu n

end Application

/-! ## Every run keeps the invariant -/

theorem Infers.spec {keep : Bool} {Γ : Context} {n n' : Nat} {e : Term} {t : Ty} {s : Subst}
    (h : Infers keep Γ n e t s n') : Γ.Below n → RunSpec Γ e.freeNames n t s n' := by
  induction h with
  | num =>
    exact fun _ => ⟨Nat.le_refl _, Subst.within_empty _, by simp [Ty.num, Ty.vars],
      Subst.idempotent_empty, rfl⟩
  | bool =>
    exact fun _ => ⟨Nat.le_refl _, Subst.within_empty _, by simp [Ty.bool, Ty.vars],
      Subst.idempotent_empty, rfl⟩
  | @var Γ n x σ hx =>
    refine fun _ => ⟨Nat.le_add_right _ _, Subst.within_empty _, fun v hv => ?_,
      Subst.idempotent_empty, Subst.apply_empty _⟩
    rcases Scheme.mem_vars_instantiate hv with hv | hv
    · exact .inl ⟨x, by simp [Term.freeNames], σ, hx, hv⟩
    · exact .inr hv
  | ite _ hu _ _ hs hu' ihc iha ihb =>
    intro hΓ
    have hc := ihc hΓ
    obtain ⟨hwithin, hidem⟩ := hc.unify_bool hu
    have ha := iha (hΓ.apply hwithin hc.le)
    have hca := RunSpec.compose hΓ hwithin hidem hc.le ha
    have hb := ihb (hΓ.apply hca.within hca.le)
    exact .branches hΓ hc.le hwithin hidem ha hb hs hu'
  | letIn _ _ ihd ihb =>
    intro hΓ
    have hd := ihd hΓ
    exact .letIn hΓ hd (ihb (hΓ.letIn hd _))
  | lam _ ih =>
    intro hΓ
    exact .lam (ih (hΓ.lam _))
  | app _ _ hu ihf iha =>
    intro hΓ
    have hf := ihf hΓ.succ
    have ha := iha (hΓ.succ.apply hf.within hf.le)
    exact .app hΓ hf ha hu

/-! ## The substitutions of a run, one after the other -/

section Follows

variable {keep : Bool} {Γ : Context} {n n₁ n₂ n₃ n₄ : Nat} {t₁ t₂ t₃ t₄ : Ty}
  {s s₁ s₂ s₃ s₄ s₅ : Subst}

/-- In a run on a condition each substitution follows all those before it. -/
theorem Infers.ite_follows {c a b : Term} (hΓ : Γ.Below n) (hc : Infers keep Γ n c t₁ s₁ n₁)
    (hu : LetPoly.unify t₁ .bool = .ok s₂)
    (ha : Infers keep (Γ.apply (s₂.compose s₁)) n₁ a t₃ s₃ n₃)
    (hb : Infers keep (Γ.apply (s₃.compose (s₂.compose s₁))) n₃ b t₄ s₄ n₄)
    (hs : s = s₄.compose (s₃.compose (s₂.compose s₁)))
    (hu' : LetPoly.unify (s.apply t₃) (s.apply t₄) = .ok s₅) :
    s₂.Follows s₁ ∧ s₃.Follows (s₂.compose s₁) ∧ s₄.Follows (s₃.compose (s₂.compose s₁)) ∧
      s₅.Follows s ∧ (Γ.apply (s₂.compose s₁)).Below n₁ ∧
      (Γ.apply (s₃.compose (s₂.compose s₁))).Below n₃ := by
  have hcs := hc.spec hΓ
  obtain ⟨hwithin, hidem⟩ := hcs.unify_bool hu
  have hΓ₁ := hΓ.apply hwithin hcs.le
  have has := RunSpec.compose hΓ hwithin hidem hcs.le (ha.spec hΓ₁)
  have hΓ₃ := hΓ.apply has.within has.le
  have hbs := RunSpec.compose hΓ has.within has.idempotent has.le (hb.spec hΓ₃)
  have hidem₄ : s.Idempotent := hs ▸ hbs.idempotent
  exact ⟨⟨hcs.idempotent, unify_after hu hcs.resolved rfl⟩,
    ⟨hidem, (ha.spec hΓ₁).after hΓ hwithin hidem hcs.le⟩,
    ⟨has.idempotent, (hb.spec hΓ₃).after hΓ has.within has.idempotent has.le⟩,
    ⟨hidem₄, unify_after hu' (hidem₄.apply_apply t₃) (hidem₄.apply_apply t₄)⟩, hΓ₁, hΓ₃⟩

theorem Infers.app_follows {f a : Term} (hΓ : Γ.Below n) (hf : Infers keep Γ (n + 1) f t₁ s₁ n₁)
    (ha : Infers keep (Γ.apply s₁) n₁ a t₂ s₂ n₂)
    (hu : LetPoly.unify (s₂.apply t₁) (.arrow t₂ (.var n)) = .ok s₃) :
    s₃.Follows s₂ ∧ (s₃.compose s₂).Follows s₁ ∧ (Γ.apply s₁).Below n₁ := by
  have hfs := hf.spec hΓ.succ
  have hΓ₁ := hΓ.succ.apply hfs.within hfs.le
  have has := ha.spec hΓ₁
  exact ⟨⟨has.idempotent, _, unify_within _ _ _ hu,
      fun _ hv => has.image_eq_of_unified (hfs.not_zone_result hΓ) hv⟩,
    ⟨hfs.idempotent, _, has.within_appZone hu, fun _ hv => hv.image_eq hΓ hfs⟩, hΓ₁⟩

end Follows

end LetPoly
