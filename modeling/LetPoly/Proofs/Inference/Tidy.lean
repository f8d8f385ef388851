import LetPoly.Proofs.Inference.Locality
import LetPoly.Proofs.Typing.Composition
import LetPoly.Proofs.Typing.Declarative

/-!
# Contexts in which nothing is captured

Substitution into a scheme does no renaming, so a quantified variable may capture what a run puts in
the place of a free one.  It cannot as long as the schemes that have free variables quantify ids
which are *apart* from the run: neither free in the context nor drawn by the run.  The contexts that
the run meets on its way are apart from what is left of it.

A context is *tidy* if those schemes quantify old ids only, and none that is free in the context.
Then it is apart from every run.
-/

namespace LetPoly

/-- Schemes with free variables quantify no id that is free in the context, and none from `n` up to
`N`. -/
structure Context.Apart (Γ : Context) (n N : Nat) : Prop where
  below : Γ.Below n
  apart : ∀ x σ, Γ.get? x = some σ → ¬ σ.Closed → ∀ a ∈ σ.vars, (a < n ∨ N ≤ a) ∧ a ∉ Γ.freeVars

namespace Context.Apart

variable {Γ : Context} {s : Subst} {names : List String} {n n₁ N : Nat} {x : String} {σ : Scheme}

theorem mono (h : Γ.Apart n N) {M : Nat} (hM : M ≤ N) : Γ.Apart n M where
  below := h.below
  apart x σ hx hopen a ha := (h.apart x σ hx hopen a ha).imp_left (·.imp_right (Nat.le_trans hM))

theorem succ (h : Γ.Apart n N) : Γ.Apart (n + 1) N where
  below := h.below.succ
  apart x σ hx hopen a ha :=
    (h.apart x σ hx hopen a ha).imp_left (·.imp_left Nat.lt_succ_of_lt)

-- A quantified variable is in no type that a run from `n` to `n₁` puts in.
theorem noCapture (h : Γ.Apart n N) (hs : s.Within (Zone Γ names n n₁)) (hN : n₁ ≤ N)
    (hx : Γ.get? x = some σ) : σ.NoCapture s := by
  intro v hv w hw hmem
  have hopen : ¬ σ.Closed := fun hc => Scheme.closed_iff.1 hc v hv
  obtain ⟨hout, hnot⟩ := h.apart x σ hx hopen w hmem
  -- what stands in the image of `v` is `v` itself, reached from the names, or new
  rcases hs.of_mem_image hw with rfl | hz | hz
  · exact (Scheme.mem_freeVars.1 hv).2 hmem
  · exact hnot hz.mem_freeVars
  · omega

theorem notMem_freeVars_apply (h : Γ.Apart n N) (hs : s.Within (Zone Γ names n n₁)) (hN : n₁ ≤ N)
    (hx : Γ.get? x = some σ) (hopen : ¬ σ.Closed) {a : Nat} (ha : a ∈ σ.vars) :
    a ∉ (Γ.apply s).freeVars := by
  intro hc
  obtain ⟨hout, hnot⟩ := h.apart x σ hx hopen a ha
  obtain ⟨v, hv, hmem⟩ := Context.mem_freeVars_apply hc
  rcases hs.of_mem_image hmem with rfl | hz | hz
  · exact hnot hv
  · exact hnot hz.mem_freeVars
  · omega

theorem apply (h : Γ.Apart n N) (hs : s.Within (Zone Γ names n n₁)) (hn : n ≤ n₁) (hN : n₁ ≤ N) :
    (Γ.apply s).Apart n₁ N where
  below := h.below.apply hs hn
  apart x σ hx hopen a ha := by
    obtain ⟨σ', hx', rfl⟩ := Context.get?_apply_some.1 hx
    have hopen' : ¬ σ'.Closed := fun hc => hopen (by rwa [hc.apply_eq])
    have hout := (h.apart x σ' hx' hopen' a ha).1
    exact ⟨hout.imp_left (Nat.lt_of_lt_of_le · hn), h.notMem_freeVars_apply hs hN hx' hopen' ha⟩

theorem insert_mono (h : Γ.Apart n N) (hN : n < N) (x : String) :
    Context.Apart (Γ.insert x (.mono (.var n))) (n + 1) N where
  below := h.below.lam x
  apart y σ hy hopen a ha := by
    rcases SortedMap.get?_insert_eq_some hy with ⟨-, rfl⟩ | ⟨-, hy⟩
    · cases ha
    · obtain ⟨hout, hnot⟩ := h.apart y σ hy hopen a ha
      refine ⟨hout.imp_left Nat.lt_succ_of_lt, fun hc => ?_⟩
      rcases Context.mem_freeVars_insert hc with hc | hc
      · rw [Scheme.freeVars_mono, Ty.vars, List.mem_singleton] at hc
        omega
      · exact hnot hc

end Context.Apart

/-- Schemes with free variables quantify ids below `n` that are not free in the context. -/
structure Context.Tidy (Γ : Context) (n : Nat) : Prop where
  below : Γ.Below n
  apart : ∀ x σ, Γ.get? x = some σ → ¬ σ.Closed → ∀ a ∈ σ.vars, a < n ∧ a ∉ Γ.freeVars

namespace Context.Tidy

variable {Γ : Context} {s : Subst} {names : List String} {n n₁ : Nat} {x : String} {σ : Scheme}

theorem of_closed (h : Γ.Closed) (n : Nat) : Γ.Tidy n where
  below v hv := absurd hv (h.notMem_freeVars v)
  apart x σ hx hopen := absurd (h x σ hx) hopen

theorem upTo (h : Γ.Tidy n) (N : Nat) : Γ.Apart n N where
  below := h.below
  apart x σ hx hopen a ha := (h.apart x σ hx hopen a ha).imp_left .inl

theorem of_apart (h : ∀ N, Γ.Apart n N) : Γ.Tidy n where
  below := (h n).below
  apart x σ hx hopen a ha := by
    obtain ⟨hout, hnot⟩ := (h (a + 1)).apart x σ hx hopen a ha
    exact ⟨by omega, hnot⟩

theorem succ (h : Γ.Tidy n) : Γ.Tidy (n + 1) := of_apart fun N => (h.upTo N).succ

theorem noCapture (h : Γ.Tidy n) (hs : s.Within (Zone Γ names n n₁)) (hx : Γ.get? x = some σ) :
    σ.NoCapture s :=
  (h.upTo n₁).noCapture hs (Nat.le_refl n₁) hx

-- The substitutions of two runs, one after the other.
theorem apply_compose (h : Γ.Tidy n) (hs : s.Within (Zone Γ names n n₁)) (r : Subst) :
    Γ.apply (r.compose s) = (Γ.apply s).apply r :=
  Context.apply_compose (fun _ _ hx => h.noCapture hs hx) r

-- a substituted scheme quantifies what it did before
theorem covers_apply (h : Γ.Tidy n) (s : Subst) {r : Subst} (hr : r.Within (Zone Γ names n n₁)) :
    Covers r.image (Γ.apply s) ((Γ.apply s).apply r) := by
  refine Covers.of_apply fun x σ hx v hv w hw hmem => ?_
  obtain ⟨σ', hx', rfl⟩ := Context.get?_apply_some.1 hx
  obtain ⟨hnot, u, hu, -⟩ := Scheme.mem_freeVars_apply.1 hv
  have hopen : ¬ σ'.Closed := fun hc => Scheme.closed_iff.1 hc u hu
  obtain ⟨hlt, hfree⟩ := h.apart x σ' hx' hopen w hmem
  rcases hr.of_mem_image hw with rfl | hz | hz
  · exact hnot hmem
  · exact hfree hz.mem_freeVars
  · omega

theorem apply (h : Γ.Tidy n) (hs : s.Within (Zone Γ names n n₁)) (hn : n ≤ n₁) :
    (Γ.apply s).Tidy n₁ :=
  of_apart fun N => ((h.upTo (max n₁ N)).apply hs hn (Nat.le_max_left n₁ N)).mono
    (Nat.le_max_right n₁ N)

theorem insert_mono (h : Γ.Tidy n) (x : String) :
    Context.Tidy (Γ.insert x (.mono (.var n))) (n + 1) :=
  of_apart fun N => ((h.upTo (max (n + 1) N)).insert_mono (Nat.le_max_left (n + 1) N) x).mono
    (Nat.le_max_right (n + 1) N)

end Context.Tidy

-- Of the type that a run returns, the context holds back what the names of the term reach: nothing
-- else that is free in the context gets into the type.
theorem RunSpec.mem_freeVars_iff_reaches {Γ : Context} {names : List String} {n n₁ : Nat} {t : Ty}
    {s : Subst} (hΓ : Γ.Tidy n) (h : RunSpec Γ names n t s n₁) {v : Nat} (hv : v ∈ t.vars) :
    v ∈ (Γ.apply s).freeVars ↔ (Γ.apply s).Reaches names v := by
  refine ⟨fun hfree => ?_, Context.Reaches.mem_freeVars⟩
  have hstep : ∀ u, Γ.Reaches names u → v ∈ (s.image u).vars → (Γ.apply s).Reaches names v := by
    rintro u ⟨x, hx, σ, hσ, hu⟩ hmem
    have hnot : v ∉ σ.vars := hΓ.noCapture h.within hσ u hu v hmem
    exact ⟨x, hx, σ.apply s, Context.get?_apply_some.2 ⟨σ, hσ, rfl⟩,
      Scheme.mem_freeVars_apply.2 ⟨hnot, u, hu, hmem⟩⟩
  rcases h.vars v hv with hz | hz
  · refine hstep v hz ?_
    rw [Subst.image_eq_of_apply_eq h.resolved hv]
    exact List.mem_singleton.2 rfl
  · -- a new variable comes from an old one that the run has replaced
    obtain ⟨u, hu, hmem⟩ := Context.mem_freeVars_apply hfree
    have hlt := hΓ.below u hu
    rcases h.within u with hfix | ⟨hzu | hzu, -⟩
    · rw [hfix, Ty.vars, List.mem_singleton] at hmem
      omega
    · exact hstep u hzu hmem
    · omega

/-! ## The context of the body of a `let` -/

theorem get?_letScope_of_ne (keep : Bool) {Γ : Context} {x y : String} (h : y ≠ x) :
    (letScope keep Γ x).get? y = Γ.get? y := by
  unfold letScope
  cases keep with
  | true => rfl
  | false => exact SortedMap.get?_erase_of_ne _ h

theorem get?_of_get?_letScope {keep : Bool} {Γ : Context} {x y : String} {σ : Scheme}
    (h : (letScope keep Γ x).get? y = some σ) : Γ.get? y = some σ := by
  by_cases hyx : y = x
  · subst hyx
    unfold letScope at h
    cases keep with
    | true => exact h
    | false =>
      rw [if_neg (by simp), SortedMap.get?_erase_self] at h
      cases h
  · rwa [get?_letScope_of_ne keep hyx] at h

theorem mem_freeVars_apply_of_letScope {keep : Bool} {Γ : Context} {x : String} {s : Subst}
    {v : Nat} (h : v ∈ ((letScope keep Γ x).apply s).freeVars) : v ∈ (Γ.apply s).freeVars := by
  obtain ⟨y, σ, hy, hv⟩ := Context.mem_freeVars.1 h
  obtain ⟨σ', hy', rfl⟩ := Context.get?_apply_some.1 hy
  exact Context.mem_freeVars.2
    ⟨y, _, Context.get?_apply_some.2 ⟨σ', get?_of_get?_letScope hy', rfl⟩, hv⟩

-- What is free in the context of the body is free in the context that holds back the
-- generalization.
theorem mem_freeVars_insert_generalize {keep : Bool} {Γ : Context} {x : String} {s : Subst} {t : Ty}
    {v : Nat} (h : v ∈ Context.freeVars
      ((Γ.apply s).insert x (.generalize ((letScope keep Γ x).apply s) t))) :
    v ∈ ((letScope keep Γ x).apply s).freeVars := by
  obtain ⟨y, σ, hy, hv⟩ := Context.mem_freeVars.1 h
  rcases SortedMap.get?_insert_eq_some hy with ⟨-, rfl⟩ | ⟨hyx, hy⟩
  · exact (Scheme.mem_freeVars_generalize.1 hv).2
  · obtain ⟨σ', hy', rfl⟩ := Context.get?_apply_some.1 hy
    rw [← get?_letScope_of_ne keep hyx] at hy'
    exact Context.mem_freeVars.2 ⟨y, _, Context.get?_apply_some.2 ⟨σ', hy', rfl⟩, hv⟩

theorem Context.Apart.insert_generalize {Γ : Context} {names : List String} {n n₁ N : Nat} {t : Ty}
    {s : Subst} (h : Γ.Apart n N) (hrun : RunSpec Γ names n t s n₁) (hN : n₁ ≤ N) (keep : Bool)
    (x : String) : Context.Apart ((Γ.apply s).insert x
      (.generalize ((letScope keep Γ x).apply s) (s.apply t))) n₁ N where
  below v hv := h.below.apply hrun.within hrun.le v
    (mem_freeVars_apply_of_letScope (mem_freeVars_insert_generalize hv))
  apart y σ hy hopen a ha := by
    rcases SortedMap.get?_insert_eq_some hy with ⟨-, rfl⟩ | ⟨-, hy⟩
    · -- what the new scheme quantifies is free in no other scheme
      rw [hrun.resolved] at ha
      obtain ⟨hmem, hnot⟩ := Scheme.mem_vars_generalize.1 ha
      exact ⟨.inl ((hrun.vars a hmem).lt h.below hrun.le),
        fun hc => hnot (mem_freeVars_insert_generalize hc)⟩
    · obtain ⟨hout, hnot⟩ := (h.apply hrun.within hrun.le hN).apart y σ hy hopen a ha
      exact ⟨hout, fun hc => hnot
        (mem_freeVars_apply_of_letScope (mem_freeVars_insert_generalize hc))⟩

theorem Context.Tidy.insert_generalize {Γ : Context} {names : List String} {n n₁ : Nat} {t : Ty}
    {s : Subst} (h : Γ.Tidy n) (hrun : RunSpec Γ names n t s n₁) (keep : Bool) (x : String) :
    Context.Tidy ((Γ.apply s).insert x
      (.generalize ((letScope keep Γ x).apply s) (s.apply t))) n₁ :=
  .of_apart fun N => ((h.upTo (max n₁ N)).insert_generalize hrun (Nat.le_max_left n₁ N) keep x).mono
    (Nat.le_max_right n₁ N)

end LetPoly
