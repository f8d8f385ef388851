import LetPoly.Session.Basic

/-!
# Logs — what inference and evaluation report on the way

Each function here lists the events of one operation in order.  An operation that fails has the
events up to its failure.
-/

namespace LetPoly

/-- Something worth reporting. -/
inductive Event where
  /-- Two types were to be unified. -/
  | unified (left right : Ty)
  | inferredTerm (e : Term) (σ : Scheme)
  | inferredName (name : String) (σ : Scheme)
  | installed (name : String) (σ : Scheme)
  | defined (name : String) (v : Value)
  | entered (entry : String)

namespace Event

/-- Whether an event is reported only at the finest level. -/
def isTrace : Event → Bool
  | unified _ _ => true
  | _ => false

def text : Event → String
  | unified t u => "unify " ++ t.text ++ " ~ " ++ u.text
  | inferredTerm e σ => "inferred " ++ e.text ++ " : " ++ σ.text
  | inferredName x σ => "inferred " ++ x ++ " : " ++ σ.text
  | installed x σ => "installing builtin " ++ x ++ " : " ++ σ.text
  | defined x v => "defined " ++ x ++ " = " ++ v.text
  | entered x => "evaluating entry binding " ++ x

/-- The text behind the level of the event. -/
def line (e : Event) : String := (if e.isTrace then "TRACE " else "DEBUG ") ++ e.text

end Event

/-- How much is reported. -/
inductive LogLevel where
  | silent | debug | trace
deriving DecidableEq

/-- The lines of the events that a level lets through. -/
def LogLevel.lines : LogLevel → List Event → List String
  | silent, _ => []
  | debug, events => (events.filter fun e => !e.isTrace).map Event.line
  | trace, events => events.map Event.line

/-! ## Events of the operations -/

def installEvents (bs : Builtins) : List Event := bs.map fun b => .installed b.name b.scheme

def inferEvents (Γ : Context) (e : Term) : List Event :=
  ((posedEquations Γ e).flatMap fun p => (unifySteps p.1 p.2).map fun q => .unified q.1 q.2) ++
    match infer Γ e with
    | .ok σ => [.inferredTerm e σ]
    | .error _ => []

def inferAllEvents (Γ : Context) : List Binding → List Event
  | [] => []
  | b :: bs =>
    inferEvents Γ b.term ++
      match infer Γ b.term with
      | .ok σ => .inferredName b.name σ :: inferAllEvents (Γ.insert b.name σ) bs
      | .error _ => []

def defineAllEvents (fuel : Nat) (ρ : ScopeId) (entry : String) (st : Store) :
    List Binding → List Event
  | [] => [.entered entry]
  | b :: bs =>
    if b.name = entry then defineAllEvents fuel ρ entry st bs
    else
      match (eval fuel ρ b.term).runFrom st with
      | some (.ok v, st) =>
        .defined b.name v :: defineAllEvents fuel ρ entry (st.define ρ b.name v) bs
      | _ => []

namespace Session

def checkEvents (s : Session) (p : Program) : List Event := inferAllEvents s.context p.bindings

def evaluateEvents (s : Session) (fuel : Nat) (p : Program) (entry : String) : List Event :=
  match p.get? entry with
  | some _ => defineAllEvents fuel s.global entry s.store p.bindings
  | none => []

def runEvents (s : Session) (fuel : Nat) (p : Program) (entry : String) : List Event :=
  s.checkEvents p ++
    match (inferAll s.context p.bindings).1 with
    | .ok _ => s.evaluateEvents fuel p entry
    | .error _ => []

end Session

end LetPoly
