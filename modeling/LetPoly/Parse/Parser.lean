import LetPoly.Source.Token

/-!
# Parsers — backtracking over a list of tokens

A parser reads from a `ParseState`: the tokens, how many of them are behind, and the error that was
met furthest into the input.  A parser that fails may leave the position where it got to;
alternatives (`orElse`), `optional` and `many` go back to where they started.  The furthest error
survives going back, so it is there to be reported when the whole input cannot be read.
-/

namespace LetPoly

/-- What a parser wanted and what it met. -/
structure ParseError where
  message : String
  expected : List String := []
  found : Option String := none
  span : Option Span := none
deriving DecidableEq

namespace ParseError

/-- The message with what was expected and what was found. -/
def summary (e : ParseError) : String :=
  e.message ++
    (if e.expected.isEmpty then "" else ": expected " ++ " or ".intercalate e.expected) ++
    match e.found with
    | some found => ", found " ++ found
    | none => ""

/-- The summary below the place in the source, where there is one. -/
def text (e : ParseError) : String :=
  match e.span with
  | some span =>
    if span.source.isEmpty then "Parse error: " ++ e.summary else span.excerpt e.summary
  | none => "Parse error: " ++ e.summary

end ParseError

/-! ## States -/

/-- The tokens, the position among them, and the furthest error with its position. -/
structure ParseState where
  tokens : Array Token
  index : Nat := 0
  furthest : Option (Nat × ParseError) := none

namespace ParseState

def ofTokens (tokens : List Token) : ParseState := { tokens := tokens.toArray }

/-- The next token. -/
def peek (st : ParseState) : Option Token := st.tokens[st.index]?

def hasNext (st : ParseState) : Bool := st.index < st.tokens.size

/-- The state after the next token; at the end nothing changes. -/
def advance (st : ParseState) : ParseState :=
  if st.hasNext then { st with index := st.index + 1 } else st

/-- The state at another position. -/
def restore (st : ParseState) (index : Nat) : ParseState := { st with index }

/-- Remembers an error at the current position, unless one is known further on. -/
def record (st : ParseState) (e : ParseError) : ParseState :=
  match st.furthest with
  | some (i, _) => if st.index < i then st else { st with furthest := some (st.index, e) }
  | none => { st with furthest := some (st.index, e) }

def furthestError (st : ParseState) : Option ParseError := st.furthest.map (·.2)

/-- How many tokens are still to be read. -/
def remaining (st : ParseState) : Nat := st.tokens.size - st.index

/-- The error that the next token, or the end of the input, is not what was expected. -/
def unexpected (st : ParseState) (expected : List String) : ParseError :=
  match st.peek with
  | some t =>
    { message := "unexpected token"
      expected
      found := some t.lexeme.describe
      span := some t.span }
  | none => { message := "unexpected end of input", expected }

end ParseState

/-! ## Parsers -/

/-- Reads from a state, and gives a result or an error with the state it leaves. -/
def Parser (α : Type) : Type := ParseState → Except ParseError α × ParseState

namespace Parser

variable {α β : Type}

def run (p : Parser α) (st : ParseState) : Except ParseError α × ParseState := p st

instance : Monad Parser where
  pure a := fun st => (.ok a, st)
  bind p f := fun st =>
    match p st with
    | (.ok a, st) => f a st
    | (.error e, st) => (.error e, st)

/-- Reads the next token if `select` takes it; `expected` names what was wanted. -/
def token (select : Token → Option α) (expected : String) : Parser α := fun st =>
  match st.peek.bind select with
  | some a => (.ok a, st.advance)
  | none =>
    let e := st.unexpected [expected]
    (.error e, st.record e)

/-- Both in sequence. -/
def both (p : Parser α) (q : Parser β) : Parser (α × β) := do return (← p, ← q)

/-- Both in sequence, with the result of the first. -/
def keepLeft (p : Parser α) (q : Parser β) : Parser α := (·.1) <$> both p q

/-- Both in sequence, with the result of the second. -/
def keepRight (p : Parser α) (q : Parser β) : Parser β := (·.2) <$> both p q

/-- The first, or the second from the same position if the first fails. -/
def orElse (p q : Parser α) : Parser α := fun st =>
  match p st with
  | (.ok a, st') => (.ok a, st')
  | (.error _, st') => q (st'.restore st.index)

/-- On failure, gives `name` as the only thing expected. -/
def label (p : Parser α) (name : String) : Parser α := fun st =>
  match p st with
  | (.ok a, st') => (.ok a, st')
  | (.error e, st') =>
    let e := { e with expected := [name] }
    (.error e, st'.record e)

/-- A result if `p` succeeds; otherwise the position is as before. -/
def attempt (p : Parser α) (st : ParseState) : Option α × ParseState :=
  match p st with
  | (.ok a, st') => (some a, st')
  | (.error _, st') => (none, st'.restore st.index)

/-- Zero or one `p`. -/
def optional (p : Parser α) : Parser (Option α) := fun st =>
  let (a, st) := attempt p st
  (.ok a, st)

/-- At most `fuel` times `p`, until it fails. -/
def manyAtMost (p : Parser α) : Nat → ParseState → List α × ParseState
  | 0, st => ([], st)
  | fuel + 1, st =>
    match attempt p st with
    | (some a, st) =>
      let (as, st) := manyAtMost p fuel st
      (a :: as, st)
    | (none, st) => ([], st)

/-- Zero or more `p`.  A parser that reads a token whenever it succeeds succeeds no more often than
there are tokens left. -/
def many (p : Parser α) : Parser (List α) := fun st =>
  let (as, st) := manyAtMost p (st.remaining + 1) st
  (.ok as, st)

end Parser

end LetPoly
