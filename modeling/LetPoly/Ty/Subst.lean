import LetPoly.Map.Sorted
import LetPoly.Ty.Basic

/-!
# Substitutions — finite maps from type variables to types

All bindings of a substitution act at once: `Subst.apply` does not look again at what it has put in.
`a.compose b` acts as `b` followed by `a` (`Subst.apply_compose`).
-/

namespace LetPoly

/-- A finite set of simultaneous bindings of type variables. -/
abbrev Subst := SortedMap Nat Ty

namespace Subst

/-- Replaces every bound variable of a type by what it is bound to. -/
def apply (s : Subst) : Ty → Ty
  | .var v => (s.get? v).getD (.var v)
  | .con c => .con c
  | .arrow a b => .arrow (s.apply a) (s.apply b)

/-- The substitution that acts as `b` and then as `a`. -/
def compose (a b : Subst) : Subst := (b.mapVal a.apply).union a

/-- The bindings of `s` for variables outside `vs`. -/
def without (s : Subst) (vs : List Nat) : Subst := s.filterKeys fun v => !vs.contains v

/-- Writes the bindings in order of their variables, as in `[t0 := Bool, t2 := Num]`. -/
def text (s : Subst) : String :=
  "[" ++ ", ".intercalate (s.entries.map fun e => Ty.varText e.1 ++ " := " ++ e.2.text) ++ "]"

@[simp]
theorem apply_empty (t : Ty) : Subst.apply ∅ t = t := by
  induction t with
  | var v => simp [apply]
  | con c => rfl
  | arrow a b iha ihb => simp [apply, iha, ihb]

theorem get?_compose (a b : Subst) (v : Nat) :
    (a.compose b).get? v = ((b.get? v).map a.apply).or (a.get? v) := by
  rw [compose, SortedMap.get?_union, SortedMap.get?_mapVal]

theorem apply_compose (a b : Subst) (t : Ty) : (a.compose b).apply t = a.apply (b.apply t) := by
  induction t with
  | var v =>
    simp only [apply, get?_compose]
    cases b.get? v <;> simp [apply]
  | con c => rfl
  | arrow x y ihx ihy => simp [apply, ihx, ihy]

/-- A variable of the result is an unbound variable of the type, or a variable of what one of its
bound variables is bound to. -/
theorem mem_vars_apply {s : Subst} {t : Ty} {w : Nat} (h : w ∈ (s.apply t).vars) :
    ∃ v ∈ t.vars, w ∈ (s.apply (.var v)).vars := by
  induction t with
  | var v => exact ⟨v, by simp [Ty.vars], h⟩
  | con c => simp [apply, Ty.vars] at h
  | arrow a b iha ihb =>
    rcases List.mem_append.1 h with h | h
    · obtain ⟨v, hv, hw⟩ := iha h
      exact ⟨v, by simp [Ty.vars, hv], hw⟩
    · obtain ⟨v, hv, hw⟩ := ihb h
      exact ⟨v, by simp [Ty.vars, hv], hw⟩

end Subst

end LetPoly
