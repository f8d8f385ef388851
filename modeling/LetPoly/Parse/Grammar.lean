import LetPoly.Parse.Parser
import LetPoly.Term.Program

/-!
# Grammar — the rules of the language as parsers

    program     := binding*
    binding     := "def" ident "=" expression
    expression  := if | let | lambda | application
    if          := "if" expression "then" expression "else" expression
    let         := "let" ident "=" expression "in" expression
    lambda      := "\" ident expression
    application := atom atom* [lambda]
    atom        := ident | number | boolean | "(" expression ")"

Each rule is written over the parser it uses for the expressions inside it.  An expression inside
another one always stands behind a token of the outer one, so an expression is read with as many
levels as there are tokens left.  What number a numeral stands for, and whether it stands for one,
does not matter to the rules: it is a parameter, `read`, of those that come to a numeral.
-/

namespace LetPoly

namespace Grammar

open LetPoly.Parser

/-! ## Single tokens -/

def keyword (k : Keyword) : Parser Unit :=
  token (fun t => if t.lexeme = .keyword k then some () else none) (Lexeme.keyword k).describe

def sign (s : Sign) : Parser Unit :=
  token (fun t => if t.lexeme = .sign s then some () else none) (Lexeme.sign s).describe

def ident : Parser String :=
  token (fun t => match t.lexeme with | .ident x => some x | _ => none) "identifier"

/-- The text of a numeral with its place. -/
def numeral : Parser (String × Span) :=
  token (fun t => match t.lexeme with | .number n => some (n, t.span) | _ => none) "number"

/-- The error that a numeral stands for no number. -/
def malformed (numeral : String) (span : Span) : ParseError where
  message := "malformed number"
  found := some numeral
  span := some span

/-- A numeral that stands for no number is an error only after it has been read. -/
def numberBy (read : String → Option Float) : Parser Float := do
  let (n, span) ← numeral
  match read n with
  | some x => return x
  | none => fun st => (.error (malformed n span), st)

def boolean : Parser Bool :=
  token (fun t =>
    match t.lexeme with
    | .keyword .trueKw => some true
    | .keyword .falseKw => some false
    | _ => none) "boolean"

/-! ## Rules over the parser of inner expressions -/

def parensOf (inner : Parser Term) : Parser Term := do
  sign .lparen
  let e ← inner
  sign .rparen
  return e

def atomOf (read : String → Option Float) (inner : Parser Term) : Parser Term :=
  label (orElse (orElse (orElse (.var <$> ident) (.num <$> numberBy read)) (.bool <$> boolean))
    (parensOf inner)) "expression"

def ifOf (inner : Parser Term) : Parser Term := do
  keyword .ifKw
  let cond ← inner
  keyword .thenKw
  let thn ← inner
  keyword .elseKw
  let els ← inner
  return .ite cond thn els

def letOf (inner : Parser Term) : Parser Term := do
  keyword .letKw
  let name ← ident
  sign .equals
  let definition ← inner
  keyword .inKw
  let body ← inner
  return .letIn name definition body

def lambdaOf (inner : Parser Term) : Parser Term := do
  sign .backslash
  let param ← ident
  let body ← inner
  return .lam param body

/-- Application associates to the left, and a trailing lambda is the last argument. -/
def applicationOf (read : String → Option Float) (inner : Parser Term) : Parser Term := do
  let fn ← atomOf read inner
  let args ← many (atomOf read inner)
  let trailing ← optional (lambdaOf inner)
  return fn.applyAll (args ++ trailing.toList)

def expressionOf (read : String → Option Float) (inner : Parser Term) : Parser Term :=
  orElse (orElse (orElse (ifOf inner) (letOf inner)) (lambdaOf inner)) (applicationOf read inner)

/-- An expression with at most `depth` levels of expressions in it. -/
def expressionWithin (read : String → Option Float) : Nat → Parser Term
  | 0 => fun st => (.error (st.unexpected ["expression"]), st)
  | depth + 1 => expressionOf read (expressionWithin read depth)

/-! ## Expressions and definitions -/

def expressionBy (read : String → Option Float) : Parser Term := fun st =>
  expressionWithin read (st.remaining + 1) st

def bindingBy (read : String → Option Float) : Parser Binding := do
  keyword .defKw
  let name ← label ident "binding name"
  sign .equals
  let term ← expressionBy read
  return ⟨name, term⟩

/-- All tokens as definitions.  If some are left over, the error that was met furthest on is the one
to report. -/
def programBy (read : String → Option Float) : Parser (List Binding) := do
  let bs ← many (bindingBy read)
  fun st =>
    if st.hasNext then (.error (st.furthestError.getD (st.unexpected [])), st) else (.ok bs, st)

/-! ## The rules -/

def number : Parser Float := numberBy Number.read

def expression : Parser Term := expressionBy Number.read

def atom : Parser Term := atomOf Number.read expression

def ifExpr : Parser Term := ifOf expression

def letExpr : Parser Term := letOf expression

def lambda : Parser Term := lambdaOf expression

def application : Parser Term := applicationOf Number.read expression

def binding : Parser Binding := bindingBy Number.read

def bindings : Parser (List Binding) := many binding

def program : Parser (List Binding) := programBy Number.read

end Grammar

end LetPoly
