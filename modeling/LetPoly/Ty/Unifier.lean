import LetPoly.Ty.Subst

/-!
# Unifiers — the substitution that makes two types equal

Two arrows are unified from left to right: what the argument types demand is applied to the result
types before those are unified.  The result types can grow on the way, so the recursion descends on
the number of distinct variables first and on size second.  It can do so because every unifier found
is empty or eliminates a variable (`Eliminates`), and it is returned together with that fact.

`unify` forgets the fact and has the equations one would write down for it (`unify_var_left`,
`unify_var_right`, `unify_con_con`, `unify_arrow_arrow` and the two mismatches).  `unifySteps` lists
the pairs that it visits.
-/

namespace LetPoly

/-- Why two types have no unifier. -/
inductive UnifyError where
  /-- The two types have different heads. -/
  | mismatch (left right : Ty)
  /-- The variable would have to stand for a type that contains it. -/
  | occurs (var : Nat) (ty : Ty)
deriving DecidableEq

def UnifyError.message : UnifyError → String
  | mismatch l r => "cannot unify " ++ l.text ++ " with " ++ r.text
  | occurs v t => "cannot construct infinite type " ++ Ty.varText v ++ " = " ++ t.text

/-! ## Elimination of a variable -/

/-- `s` is empty, or it removes one of the variables `vs` from every type and brings in no variable
from outside `vs`. -/
def Eliminates (s : Subst) (vs : List Nat) : Prop :=
  s = ∅ ∨ ∃ v ∈ vs, ∀ t : Ty, ∀ w ∈ (s.apply t).vars, w ≠ v ∧ (w ∈ t.vars ∨ w ∈ vs)

theorem Eliminates.empty (vs : List Nat) : Eliminates ∅ vs := .inl rfl

theorem Eliminates.mono {s : Subst} {vs ws : List Nat} (h : Eliminates s vs)
    (hsub : ∀ v ∈ vs, v ∈ ws) : Eliminates s ws := by
  rcases h with h | ⟨v, hv, h⟩
  · exact .inl h
  · exact .inr ⟨v, hsub v hv, fun t w hw => ⟨(h t w hw).1, (h t w hw).2.imp_right (hsub w)⟩⟩

theorem Eliminates.mem_vars {s : Subst} {vs : List Nat} (h : Eliminates s vs) {t : Ty} {w : Nat}
    (hw : w ∈ (s.apply t).vars) : w ∈ t.vars ∨ w ∈ vs := by
  rcases h with rfl | ⟨v, -, h⟩
  · exact .inl (by simpa using hw)
  · exact (h t w hw).2

theorem Eliminates.singleton {v : Nat} {t : Ty} (h : ¬ t.occurs v) :
    Eliminates (.singleton v t) (v :: t.vars) := by
  refine .inr ⟨v, by simp, fun u w hw => ?_⟩
  obtain ⟨x, hx, hw⟩ := Subst.mem_vars_apply hw
  by_cases hxv : x = v
  · subst hxv
    have hwt : w ∈ t.vars := by simpa [Subst.apply] using hw
    exact ⟨fun hc => h (Ty.occurs_iff_mem_vars.2 (hc ▸ hwt)), .inr (by simp [hwt])⟩
  · have hwx : w = x := by
      have hne : compare x v ≠ .eq := fun hc => hxv (Std.LawfulEqCmp.eq_of_compare hc)
      simpa [Subst.apply, hne, Ty.vars] using hw
    exact ⟨fun hc => hxv (hwx ▸ hc), .inl (hwx ▸ hx)⟩

/-- Composition keeps the eliminated variable away: the later unifier is one of types that no longer
have it. -/
theorem Eliminates.compose {s s' : Subst} {vs : List Nat} {b d : Ty} (h : Eliminates s vs)
    (h' : Eliminates s' ((s.apply b).vars ++ (s.apply d).vars))
    (hb : ∀ v ∈ b.vars, v ∈ vs) (hd : ∀ v ∈ d.vars, v ∈ vs) : Eliminates (s'.compose s) vs := by
  have hvs : ∀ w ∈ (s.apply b).vars ++ (s.apply d).vars, w ∈ vs := fun w hw => by
    rcases List.mem_append.1 hw with hw | hw
    · exact (h.mem_vars hw).elim (hb w) id
    · exact (h.mem_vars hw).elim (hd w) id
  rcases h with rfl | ⟨v, hv, h⟩
  · rcases h' with rfl | ⟨v', hv', h'⟩
    · exact .inl (SortedMap.ext_get? fun k => by rw [Subst.get?_compose]; simp)
    · refine .inr ⟨v', hvs v' hv', fun t w hw => ?_⟩
      rw [Subst.apply_compose, Subst.apply_empty] at hw
      exact ⟨(h' t w hw).1, (h' t w hw).2.imp_right (hvs w)⟩
  · refine .inr ⟨v, hv, fun t w hw => ?_⟩
    rw [Subst.apply_compose] at hw
    rcases h'.mem_vars hw with hw | hw
    · exact h t w hw
    · refine ⟨?_, .inr (hvs w hw)⟩
      rcases List.mem_append.1 hw with hw | hw
      · exact (h b w hw).1
      · exact (h d w hw).1

/-- Unifiers of the argument types and then of the result types eliminate a variable of the arrows.
-/
theorem Eliminates.arrows {s s' : Subst} {a b c d : Ty} (h : Eliminates s (a.vars ++ c.vars))
    (h' : Eliminates s' ((s.apply b).vars ++ (s.apply d).vars)) :
    Eliminates (s'.compose s) ((Ty.arrow a b).vars ++ (Ty.arrow c d).vars) := by
  refine (h.mono ?_).compose h' ?_ ?_ <;> grind [Ty.vars]

/-! ## The descent -/

theorem nodup_eraseDups (l : List Nat) : l.eraseDups.Nodup := by
  match l with
  | [] => simp
  | a :: l =>
    rw [List.eraseDups_cons, List.nodup_cons]
    exact ⟨by simp, nodup_eraseDups _⟩
termination_by l.length
decreasing_by exact Nat.lt_succ_of_le (List.length_filter_le _ _)

/-- The number of distinct variables of two types. -/
def varCount (t u : Ty) : Nat := (t.vars ++ u.vars).eraseDups.length

theorem varCount_le {t u t' u' : Ty} (h : ∀ v ∈ t'.vars ++ u'.vars, v ∈ t.vars ++ u.vars) :
    varCount t' u' ≤ varCount t u :=
  (nodup_eraseDups _).length_le_of_subset fun v hv =>
    List.mem_eraseDups.2 (h v (List.mem_eraseDups.1 hv))

theorem varCount_lt {t u t' u' : Ty} {x : Nat} (hx : x ∈ t.vars ++ u.vars)
    (hx' : x ∉ t'.vars ++ u'.vars) (h : ∀ v ∈ t'.vars ++ u'.vars, v ∈ t.vars ++ u.vars) :
    varCount t' u' < varCount t u := by
  have hmem : x ∈ (t.vars ++ u.vars).eraseDups := List.mem_eraseDups.2 hx
  have hle : varCount t' u' ≤ ((t.vars ++ u.vars).eraseDups.erase x).length :=
    (nodup_eraseDups _).length_le_of_subset fun v hv => by
      have hv := List.mem_eraseDups.1 hv
      have hne : v ≠ x := fun hc => hx' (hc ▸ hv)
      exact (List.mem_erase_of_ne hne).2 (List.mem_eraseDups.2 (h v hv))
  rw [List.length_erase_of_mem hmem] at hle
  have := List.length_pos_of_mem hmem
  exact Nat.lt_of_le_of_lt hle (by unfold varCount; omega)

/-- The order on which unification descends: distinct variables first, size second. -/
abbrev Descends (t' u' t u : Ty) : Prop :=
  Prod.Lex (· < ·) (· < ·) (varCount t' u', t'.size + u'.size) (varCount t u, t.size + u.size)

theorem descends_of_le {t u t' u' : Ty} (hv : varCount t' u' ≤ varCount t u)
    (hs : t'.size + u'.size < t.size + u.size) : Descends t' u' t u := by
  rcases Nat.lt_or_eq_of_le hv with h | h
  · exact .left _ _ h
  · unfold Descends
    rw [h]
    exact .right _ hs

theorem descends_args (a b c d : Ty) : Descends a c (.arrow a b) (.arrow c d) := by
  refine descends_of_le (varCount_le fun v hv => ?_) (by simp only [Ty.size]; omega)
  rcases List.mem_append.1 hv with hv | hv <;> simp [Ty.vars, hv]

/-- After the argument types are unified, the result types have fewer variables or are untouched. -/
theorem descends_results {a b c d : Ty} {s : Subst} (h : Eliminates s (a.vars ++ c.vars)) :
    Descends (s.apply b) (s.apply d) (.arrow a b) (.arrow c d) := by
  have hsub : ∀ v ∈ (s.apply b).vars ++ (s.apply d).vars,
      v ∈ (Ty.arrow a b).vars ++ (Ty.arrow c d).vars := fun v hv => by
    rcases List.mem_append.1 hv with hv | hv
    · rcases h.mem_vars hv with hv | hv
      · simp [Ty.vars, hv]
      · rcases List.mem_append.1 hv with hv | hv <;> simp [Ty.vars, hv]
    · rcases h.mem_vars hv with hv | hv
      · simp [Ty.vars, hv]
      · rcases List.mem_append.1 hv with hv | hv <;> simp [Ty.vars, hv]
  rcases h with rfl | ⟨x, hx, h⟩
  · refine descends_of_le (varCount_le hsub) ?_
    simp only [Subst.apply_empty, Ty.size]
    omega
  · refine .left _ _ (varCount_lt (x := x) ?_ ?_ hsub)
    · rcases List.mem_append.1 hx with hx | hx <;> simp [Ty.vars, hx]
    · intro hc
      rcases List.mem_append.1 hc with hc | hc
      · exact (h b x hc).1 rfl
      · exact (h d x hc).1 rfl

/-! ## Unification -/

/-- Binds a variable to a type, unless the type is that variable or contains it. -/
def bindVar (v : Nat) (t : Ty) : Except UnifyError Subst :=
  if t = .var v then .ok ∅
  else if t.occurs v then .error (.occurs v t)
  else .ok (.singleton v t)

theorem Eliminates.of_bindVar {v : Nat} {t : Ty} {s : Subst} (h : bindVar v t = .ok s) :
    Eliminates s (v :: t.vars) := by
  unfold bindVar at h
  split at h
  · cases h
    exact .empty _
  · split at h
    · cases h
    · next hocc =>
      cases h
      exact .singleton (by simpa using hocc)

/-- The unifier of two types, with the fact that it is empty or eliminates one of their variables.
-/
def unifier (t u : Ty) : Except UnifyError { s : Subst // Eliminates s (t.vars ++ u.vars) } :=
  match t, u with
  | .var v, u =>
    match h : bindVar v u with
    | .ok s => .ok ⟨s, .of_bindVar h⟩
    | .error e => .error e
  -- of two variables the left one is bound
  | t, .var v =>
    match h : bindVar v t with
    | .ok s => .ok ⟨s, (Eliminates.of_bindVar h).mono (by grind [Ty.vars])⟩
    | .error e => .error e
  | .con a, .con b => if a = b then .ok ⟨∅, .empty _⟩ else .error (.mismatch (.con a) (.con b))
  | .arrow a b, .arrow c d =>
    match unifier a c with
    | .error e => .error e
    | .ok ⟨s, hs⟩ =>
      match unifier (s.apply b) (s.apply d) with
      | .error e => .error e
      | .ok ⟨s', hs'⟩ =>
        .ok ⟨s'.compose s, hs.arrows hs'⟩
  | t, u => .error (.mismatch t u)
termination_by (varCount t u, t.size + u.size)
decreasing_by
  · exact descends_args a b c d
  · exact descends_results hs

/-- The most general substitution that makes two types equal, or why there is none. -/
def unify (t u : Ty) : Except UnifyError Subst := (unifier t u).map (·.val)

theorem unify_var_left (v : Nat) (u : Ty) : unify (.var v) u = bindVar v u := by
  rw [unify, unifier.eq_def]
  cases u <;> dsimp only <;> split <;> simp_all [Except.map]

theorem unify_var_right {t : Ty} (v : Nat) (ht : ∀ w, t ≠ .var w) :
    unify t (.var v) = bindVar v t := by
  rw [unify, unifier.eq_def]
  cases t with
  | var w => exact absurd rfl (ht w)
  | con c => dsimp only; split <;> simp_all [Except.map]
  | arrow a b => dsimp only; split <;> simp_all [Except.map]

theorem unify_con_con (a b : String) :
    unify (.con a) (.con b) = if a = b then .ok ∅ else .error (.mismatch (.con a) (.con b)) := by
  rw [unify, unifier.eq_def]
  dsimp only
  split <;> rfl

theorem unify_arrow_arrow (a b c d : Ty) :
    unify (.arrow a b) (.arrow c d) =
      (unify a c).bind fun s => (unify (s.apply b) (s.apply d)).map (·.compose s) := by
  rw [unify, unifier.eq_def]
  dsimp only
  simp only [unify]
  cases unifier a c with
  | error e => rfl
  | ok s =>
    simp only [Except.map, Except.bind]
    cases unifier (s.1.apply b) (s.1.apply d) <;> rfl

theorem unify_con_arrow (c : String) (a b : Ty) :
    unify (.con c) (.arrow a b) = .error (.mismatch (.con c) (.arrow a b)) := by
  rw [unify, unifier.eq_def]
  rfl

theorem unify_arrow_con (c : String) (a b : Ty) :
    unify (.arrow a b) (.con c) = .error (.mismatch (.arrow a b) (.con c)) := by
  rw [unify, unifier.eq_def]
  rfl

theorem Eliminates.of_unify {t u : Ty} {s : Subst} (h : unify t u = .ok s) :
    Eliminates s (t.vars ++ u.vars) := by
  unfold unify at h
  cases hs : unifier t u with
  | error e => simp [hs, Except.map] at h
  | ok s' =>
    simp only [hs, Except.map, Except.ok.injEq] at h
    exact h ▸ s'.2

/-- The pairs of types that `unify` visits, in order; a pair that fails is the last one. -/
def unifySteps (t u : Ty) : List (Ty × Ty) :=
  (t, u) ::
    match t, u with
    | .arrow a b, .arrow c d =>
      unifySteps a c ++
        match _h : unify a c with
        | .ok s => unifySteps (s.apply b) (s.apply d)
        | .error _ => []
    | _, _ => []
termination_by (varCount t u, t.size + u.size)
decreasing_by
  · exact descends_args a b c d
  · exact descends_results (.of_unify ‹_›)

end LetPoly
