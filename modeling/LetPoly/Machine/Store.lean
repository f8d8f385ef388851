import LetPoly.Machine.Value

/-!
# Stores — scopes that are shared and change

A store holds the scopes made so far, numbered in order.  A scope has its own bindings and, unless
it is a root, a parent in which names are looked up further.  Parents are made before their
children, so a look-up walks down the numbers and ends.
-/

namespace LetPoly

/-- The bindings of one scope and the scope around it. -/
structure Scope where
  parent : Option ScopeId := none
  bindings : SortedMap String Value := ∅

/-- All scopes, and how many natives were made. -/
structure Store where
  scopes : Array Scope := #[]
  natives : Nat := 0

namespace Store

/-- The number that the next scope will have. -/
def nextScope (st : Store) : ScopeId := st.scopes.size

/-- Adds a scope without bindings. -/
def addScope (st : Store) (parent : Option ScopeId) : Store :=
  { st with scopes := st.scopes.push { parent } }

/-- Binds a name in one scope, over an earlier binding of it there. -/
def define (st : Store) (ρ : ScopeId) (name : String) (v : Value) : Store :=
  { st with
    scopes := st.scopes.modify ρ fun sc => { sc with bindings := sc.bindings.insert name v } }

/-- Whether a name is bound in the scope itself. -/
def defines (st : Store) (ρ : ScopeId) (name : String) : Bool :=
  match st.scopes[ρ]? with
  | some sc => sc.bindings.contains name
  | none => false

/-- The value of a name in the nearest scope, from `ρ` outwards, that binds it. -/
def lookup? (st : Store) (ρ : ScopeId) (name : String) : Option Value :=
  match st.scopes[ρ]? with
  | none => none
  | some sc =>
    match sc.bindings.get? name, sc.parent with
    | some v, _ => some v
    | none, some parent => if _h : parent < ρ then st.lookup? parent name else none
    | none, none => none
termination_by ρ

end Store

end LetPoly
