import LetPoly.CommandLine
import LetPoly.Machine.Eval
import LetPoly.Machine.Inspect
import LetPoly.Machine.Store
import LetPoly.Machine.Value
import LetPoly.Main
import LetPoly.Map.Sorted
import LetPoly.Number.Shortest
import LetPoly.Number.Text
import LetPoly.Parse.Grammar
import LetPoly.Parse.Parser
import LetPoly.Prelude
import LetPoly.Proofs.Inference.Completeness
import LetPoly.Proofs.Inference.FreeVariables
import LetPoly.Proofs.Inference.Locality
import LetPoly.Proofs.Inference.Monotone
import LetPoly.Proofs.Inference.Naming
import LetPoly.Proofs.Inference.Numbering
import LetPoly.Proofs.Inference.Parts
import LetPoly.Proofs.Inference.Quantified
import LetPoly.Proofs.Inference.Renaming
import LetPoly.Proofs.Inference.Resolved
import LetPoly.Proofs.Inference.Run
import LetPoly.Proofs.Inference.Shadowing
import LetPoly.Proofs.Inference.Soundness
import LetPoly.Proofs.Inference.Tidy
import LetPoly.Proofs.Inference.Unmentioned
import LetPoly.Proofs.Machine.DefinitionOrder
import LetPoly.Proofs.Machine.FirstOrder
import LetPoly.Proofs.Machine.Frame
import LetPoly.Proofs.Machine.Lexical
import LetPoly.Proofs.Machine.LexicalTyping
import LetPoly.Proofs.Machine.Noted
import LetPoly.Proofs.Machine.Outcome
import LetPoly.Proofs.Machine.Pairing
import LetPoly.Proofs.Machine.Relabel
import LetPoly.Proofs.Machine.Safety
import LetPoly.Proofs.Machine.Scoping
import LetPoly.Proofs.Machine.StoreTyping
import LetPoly.Proofs.Machine.Visible
import LetPoly.Proofs.Map.Lookup
import LetPoly.Proofs.Parse.Program
import LetPoly.Proofs.Parse.Reading
import LetPoly.Proofs.Parse.Respects
import LetPoly.Proofs.Parse.RoundTrip
import LetPoly.Proofs.Parse.Rules
import LetPoly.Proofs.Parse.Tree
import LetPoly.Proofs.Parse.Viable
import LetPoly.Proofs.Session.Accepted
import LetPoly.Proofs.Session.Agreement
import LetPoly.Proofs.Session.Exchange
import LetPoly.Proofs.Session.LetFree
import LetPoly.Proofs.Session.Lexical
import LetPoly.Proofs.Session.ScopeSafe
import LetPoly.Proofs.Session.Simple
import LetPoly.Proofs.Source.Relexing
import LetPoly.Proofs.Source.Written
import LetPoly.Proofs.Typing.Canonical
import LetPoly.Proofs.Typing.Compact
import LetPoly.Proofs.Typing.Composition
import LetPoly.Proofs.Typing.Declarative
import LetPoly.Proofs.Typing.Descent
import LetPoly.Proofs.Typing.Equivariance
import LetPoly.Proofs.Typing.FewestBindings
import LetPoly.Proofs.Typing.Instance
import LetPoly.Proofs.Typing.MostGeneral
import LetPoly.Proofs.Typing.Simple
import LetPoly.Proofs.Typing.Unambiguous
import LetPoly.Proofs.Typing.Unification
import LetPoly.Session.Basic
import LetPoly.Session.Log
import LetPoly.Source.Lexing
import LetPoly.Source.Span
import LetPoly.Source.Token
import LetPoly.Term.Basic
import LetPoly.Term.Program
import LetPoly.Text.Invisible
import LetPoly.Text.Quoted
import LetPoly.Ty.Basic
import LetPoly.Ty.Inference
import LetPoly.Ty.Scheme
import LetPoly.Ty.Subst
import LetPoly.Ty.Unifier
