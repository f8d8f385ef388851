import LetPoly.Machine.Store
import LetPoly.Text.Quoted

/-!
# Inspection — terms, scopes and values shown by their structure
-/

namespace LetPoly

/-- Shows a term by its constructors. -/
def Term.inspect : Term → String
  | var x => "Var(" ++ Text.quoted x ++ ")"
  | num v => "Num(" ++ Number.markedText v ++ ")"
  | bool b => "Bool(" ++ toString b ++ ")"
  | ite c t e => "If(" ++ c.inspect ++ ", " ++ t.inspect ++ ", " ++ e.inspect ++ ")"
  | letIn x d b => "Let(" ++ Text.quoted x ++ ", " ++ d.inspect ++ ", " ++ b.inspect ++ ")"
  | lam x b => "Lambda(" ++ Text.quoted x ++ ", " ++ b.inspect ++ ")"
  | app f a => "App(" ++ f.inspect ++ ", " ++ a.inspect ++ ")"

/-- Shows the names that a scope binds itself, in order, and whether there is a scope around it. -/
def Scope.inspect (sc : Scope) : String :=
  "Environment \x7b names: [" ++ ", ".intercalate (sc.bindings.keys.map Text.quoted) ++
    "], has_parent: " ++ toString sc.parent.isSome ++ " \x7d"

/-- Shows a scope of the store. -/
def Store.inspectScope (st : Store) (ρ : ScopeId) : String := (st.scopes[ρ]?.getD {}).inspect

/-- Shows a value, a closure with its scope. -/
def Value.inspect (st : Store) : Value → String
  | num v => "Num(" ++ Number.markedText v ++ ")"
  | bool b => "Bool(" ++ toString b ++ ")"
  | closure x body ρ =>
    "Function(Closure \x7b param: " ++ Text.quoted x ++ ", body: " ++ body.inspect ++ ", env: " ++
      st.inspectScope ρ ++ " \x7d)"
  | native _ _ => "Native(Native)"

end LetPoly
