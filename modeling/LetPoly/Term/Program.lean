import LetPoly.Term.Basic

/-!
# Programs — ordered definitions with distinct names
-/

namespace LetPoly

/-- A named definition. -/
structure Binding where
  name : String
  term : Term
deriving DecidableEq

/-- A sequence of definitions in which no name is defined twice. -/
structure Program where
  bindings : List Binding
  nodup : (bindings.map (·.name)).Nodup

/-- The first name that stands in `seen` or earlier in the list itself. -/
def firstRepeated (seen : List String) : List String → Option String
  | [] => none
  | x :: xs => if seen.contains x then some x else firstRepeated (x :: seen) xs

theorem nodup_of_firstRepeated {seen xs : List String} (h : firstRepeated seen xs = none) :
    xs.Nodup ∧ ∀ x ∈ xs, x ∉ seen := by
  induction xs generalizing seen with
  | nil => simp
  | cons x xs ih =>
    rw [firstRepeated] at h
    split at h
    · cases h
    · next hx =>
      obtain ⟨hnodup, hseen⟩ := ih h
      refine ⟨List.nodup_cons.2 ⟨fun hmem => hseen x hmem (by simp), hnodup⟩, fun y hy => ?_⟩
      rcases List.mem_cons.1 hy with rfl | hy
      · simpa using hx
      · exact fun hc => hseen y hy (by simp [hc])

namespace Program

/-- The program of the given definitions, or the first name that is defined again. -/
def ofBindings (bindings : List Binding) : Except String Program :=
  match h : firstRepeated [] (bindings.map (·.name)) with
  | some x => .error x
  | none => .ok ⟨bindings, (nodup_of_firstRepeated h).1⟩

/-- The term that a name is defined as. -/
def get? (p : Program) (name : String) : Option Term :=
  (p.bindings.find? (·.name == name)).map (·.term)

end Program

end LetPoly
