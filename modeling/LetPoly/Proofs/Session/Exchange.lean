import Mathlib
import LetPoly.Proofs.Inference.Unmentioned
import LetPoly.Proofs.Session.Accepted

/-!
# Definitions that do not mention each other

Two neighbouring definitions of which neither mentions the other are inferred as if each stood
alone, since the scheme that the first one adds is closed.  So they may change places: the program
is accepted in both orders or in neither, with the same schemes and the same context in the end.
-/

namespace LetPoly

theorem inferAll_names {bs : List Binding} :
    ∀ {Γ Γ' : Context} {schemes : List (String × Scheme)}, inferAll Γ bs = (.ok schemes, Γ') →
      schemes.map (·.1) = bs.map (·.name) := by
  induction bs with
  | nil =>
    intro Γ Γ' schemes h
    cases h
    rfl
  | cons b bs ih =>
    intro Γ Γ' schemes h
    obtain ⟨σ, rest, -, hrest, rfl⟩ := inferAll_cons_eq_ok.1 h
    rw [List.map_cons, List.map_cons, ih hrest]

section Exchange

variable {a b : Binding} {post : List Binding}

-- Both are inferred in the context before them, and their schemes are added in either order.
theorem inferAll_swap (hne : a.name ≠ b.name) (ha : a.name ∉ b.term.freeNames)
    (hb : b.name ∉ a.term.freeNames) {Γ Γ' : Context} {schemes : List (String × Scheme)}
    (hΓ : Γ.Closed) (h : inferAll Γ (a :: b :: post) = (.ok schemes, Γ')) :
    ∃ schemes', inferAll Γ (b :: a :: post) = (.ok schemes', Γ') ∧ schemes.Perm schemes' := by
  obtain ⟨σ, _, hσ, hsecond, rfl⟩ := inferAll_cons_eq_ok.1 h
  obtain ⟨τ, rest, hτ, hrest, rfl⟩ := inferAll_cons_eq_ok.1 hsecond
  have hσclosed : σ.Closed := (infer_eq_ok_iff.1 hσ).closed hΓ
  rw [infer_insert_of_notMem ha hσclosed (hΓ a.name)] at hτ
  have hτclosed : τ.Closed := (infer_eq_ok_iff.1 hτ).closed hΓ
  rw [← infer_insert_of_notMem hb hτclosed (hΓ b.name)] at hσ
  rw [SortedMap.insert_comm _ hne] at hrest
  exact ⟨_, inferAll_cons_eq_ok.2 ⟨τ, _, hτ, inferAll_cons_eq_ok.2 ⟨σ, rest, hσ, hrest, rfl⟩, rfl⟩,
    .swap _ _ _⟩

-- The definitions before them leave a closed context.
theorem inferAll_swap_after (hne : a.name ≠ b.name) (ha : a.name ∉ b.term.freeNames)
    (hb : b.name ∉ a.term.freeNames) (pre : List Binding) :
    ∀ {Γ Γ' : Context} {schemes : List (String × Scheme)}, Γ.Closed →
      inferAll Γ (pre ++ a :: b :: post) = (.ok schemes, Γ') →
      ∃ schemes', inferAll Γ (pre ++ b :: a :: post) = (.ok schemes', Γ') ∧
        schemes.Perm schemes' := by
  induction pre with
  | nil => exact fun hΓ h => inferAll_swap hne ha hb hΓ h
  | cons c pre ih =>
    intro Γ Γ' schemes hΓ h
    obtain ⟨σ, rest, hσ, hrest, rfl⟩ := inferAll_cons_eq_ok.1 h
    obtain ⟨rest', hrest', hperm⟩ := ih (hΓ.insert ((infer_eq_ok_iff.1 hσ).closed hΓ) c.name) hrest
    exact ⟨_, inferAll_cons_eq_ok.2 ⟨σ, rest', hσ, hrest', rfl⟩, hperm.cons _⟩

end Exchange

theorem Program.name_ne {p : Program} {pre post : List Binding} {a b : Binding}
    (hp : p.bindings = pre ++ a :: b :: post) : a.name ≠ b.name := by
  have hnodup := p.nodup
  rw [hp, List.map_append, List.map_cons, List.map_cons] at hnodup
  have hrest := (List.nodup_append.1 hnodup).2.1
  exact fun hc => (List.nodup_cons.1 hrest).1 (hc ▸ List.mem_cons_self)

/-- Let two neighbouring definitions of a program not mention each other.  In a closed context the
program is accepted exactly if it is with the two exchanged.  Then every name has the same scheme in
both orders, and the contexts in the end are equal. -/
theorem inferAll_exchange {Γ : Context} {p q : Program} {pre post : List Binding} {a b : Binding}
    (hΓ : Γ.Closed) (hp : p.bindings = pre ++ a :: b :: post)
    (hq : q.bindings = pre ++ b :: a :: post) (ha : a.name ∉ b.term.freeNames)
    (hb : b.name ∉ a.term.freeNames) :
    ((∃ schemes Γ', inferAll Γ p.bindings = (.ok schemes, Γ')) ↔
      ∃ schemes Γ', inferAll Γ q.bindings = (.ok schemes, Γ')) ∧
    ∀ schemes schemes' Γ' Δ', inferAll Γ p.bindings = (.ok schemes, Γ') →
      inferAll Γ q.bindings = (.ok schemes', Δ') →
      schemes.map (·.1) = p.bindings.map (·.name) ∧ schemes'.map (·.1) = q.bindings.map (·.name) ∧
        schemes.Perm schemes' ∧ Γ' = Δ' := by
  have hne : a.name ≠ b.name := Program.name_ne hp
  refine ⟨⟨?_, ?_⟩, fun schemes schemes' Γ' Δ' h h' => ?_⟩
  · rintro ⟨schemes, Γ', h⟩
    rw [hp] at h
    obtain ⟨schemes', h', -⟩ := inferAll_swap_after hne ha hb pre hΓ h
    exact ⟨schemes', Γ', hq ▸ h'⟩
  · rintro ⟨schemes, Γ', h⟩
    rw [hq] at h
    obtain ⟨schemes', h', -⟩ := inferAll_swap_after hne.symm hb ha pre hΓ h
    exact ⟨schemes', Γ', hp ▸ h'⟩
  · refine ⟨inferAll_names h, inferAll_names h', ?_⟩
    rw [hp] at h
    rw [hq] at h'
    obtain ⟨schemes'', h'', hperm⟩ := inferAll_swap_after hne ha hb pre hΓ h
    cases h'.symm.trans h''
    exact ⟨hperm, rfl⟩

/-- The name `keep` for the first of two arguments. -/
def keepFirst : Context :=
  (∅ : Context).insert "keep" ⟨[0, 1], .arrow (.var 0) (.arrow (.var 1) (.var 0))⟩

/-- The functions `f` and `g` do not mention each other: inside, `g` is a parameter of `f` and `f`
is bound by a `let` of `g`. -/
def localNames : Program where
  bindings := [⟨"f", .lam "g" (.app (.var "keep") (.var "g"))⟩,
    ⟨"g", .letIn "f" (.lam "x" (.var "x")) (.app (.var "f") (.var "f"))⟩,
    ⟨"main", .app (.var "f") (.var "g")⟩]
  nodup := by decide

/-- The same with `g` before `f`. -/
def localNamesExchanged : Program where
  bindings := [⟨"g", .letIn "f" (.lam "x" (.var "x")) (.app (.var "f") (.var "f"))⟩,
    ⟨"f", .lam "g" (.app (.var "keep") (.var "g"))⟩,
    ⟨"main", .app (.var "f") (.var "g")⟩]
  nodup := by decide

/-- Both functions are polymorphic in both orders, and the entry uses them. -/
theorem inferAll_exchange_local_names : ∃ schemes Γ',
    inferAll keepFirst localNamesExchanged.bindings = (.ok schemes, Γ') ∧
      schemes.Perm [("f", ⟨[0, 1], .arrow (.var 0) (.arrow (.var 1) (.var 0))⟩),
        ("g", ⟨[0], .arrow (.var 0) (.var 0)⟩),
        ("main", ⟨[0, 1], .arrow (.var 0) (.arrow (.var 1) (.var 1))⟩)] := by
  have hschemes : (inferAll keepFirst localNames.bindings).1 =
      .ok [("f", ⟨[0, 1], .arrow (.var 0) (.arrow (.var 1) (.var 0))⟩),
        ("g", ⟨[0], .arrow (.var 0) (.var 0)⟩),
        ("main", ⟨[0, 1], .arrow (.var 0) (.arrow (.var 1) (.var 1))⟩)] := by cbv
  have hclosed : keepFirst.Closed := Context.closed_empty.insert (by decide) _
  obtain ⟨hiff, hsame⟩ := @inferAll_exchange keepFirst localNames localNamesExchanged [] _ _ _
    hclosed rfl rfl (by decide) (by decide)
  obtain ⟨schemes, Γ', h⟩ := hiff.1 ⟨_, _, Prod.ext hschemes rfl⟩
  exact ⟨schemes, Γ', h, (hsame _ _ _ _ (Prod.ext hschemes rfl) h).2.2.1.symm⟩

end LetPoly
