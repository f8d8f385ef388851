import LetPoly.Source.Span

/-!
# Tokens — keywords, signs, identifiers and numerals

A `Lexeme` is a token without its place.  Each kind of lexeme is a `Pattern`, which says how many
characters at the start of a text it matches; `Pattern.all` lists them in order of precedence.
-/

namespace LetPoly

/-- A word with a fixed meaning. -/
inductive Keyword where
  | defKw | letKw | inKw | ifKw | thenKw | elseKw | trueKw | falseKw
deriving DecidableEq

def Keyword.text : Keyword → String
  | defKw => "def"
  | letKw => "let"
  | inKw => "in"
  | ifKw => "if"
  | thenKw => "then"
  | elseKw => "else"
  | trueKw => "True"
  | falseKw => "False"

/-- A punctuation sign. -/
inductive Sign where
  | equals | backslash | lparen | rparen
deriving DecidableEq

def Sign.char : Sign → Char
  | equals => '='
  | backslash => '\\'
  | lparen => '('
  | rparen => ')'

/-- What a token is, apart from where it stands. -/
inductive Lexeme where
  | keyword (k : Keyword)
  | ident (name : String)
  | number (numeral : String)
  | sign (s : Sign)
deriving DecidableEq

namespace Lexeme

/-- The source text of a lexeme. -/
def text : Lexeme → String
  | keyword k => k.text
  | ident x => x
  | number n => n
  | sign s => s.char.toString

/-- The name of a lexeme in messages. -/
def describe : Lexeme → String
  | keyword k => "'" ++ k.text ++ "'"
  | ident x => "identifier '" ++ x ++ "'"
  | number n => "number '" ++ n ++ "'"
  | sign s => "'" ++ s.char.toString ++ "'"

end Lexeme

/-- A lexeme and the stretch of source that it was read from. -/
structure Token where
  lexeme : Lexeme
  span : Span
deriving DecidableEq

/-! ## Patterns -/

/-- A kind of lexeme. -/
inductive Pattern where
  | keyword (k : Keyword)
  | ident
  | number
  | sign (s : Sign)
deriving DecidableEq

namespace Pattern

/-- All patterns, the one that wins a tie first. -/
def all : List Pattern :=
  [keyword .defKw, keyword .letKw, keyword .inKw, keyword .ifKw, keyword .thenKw, keyword .elseKw,
    keyword .trueKw, keyword .falseKw, ident, number, sign .equals, sign .backslash, sign .lparen,
    sign .rparen]

/-- The length of a letter and the letters and digits after it, or 0. -/
def identLength : List Char → Nat
  | [] => 0
  | c :: cs => if c.isAlpha then 1 + (cs.takeWhile Char.isAlphanum).length else 0

/-- The length of a run of digits, with a point and more digits if both follow, or 0. -/
def numberLength (cs : List Char) : Nat :=
  let whole := (cs.takeWhile Char.isDigit).length
  if whole = 0 then 0
  else
    match cs.drop whole with
    | '.' :: rest =>
      let fraction := (rest.takeWhile Char.isDigit).length
      if fraction = 0 then whole else whole + 1 + fraction
    | _ => whole

/-- How many characters at the start of a text a pattern matches; 0 stands for no match. -/
def matchLength : Pattern → List Char → Nat
  | keyword k, cs => if k.text.toList.isPrefixOf cs then k.text.length else 0
  | ident, cs => identLength cs
  | number, cs => numberLength cs
  | sign s, cs => if cs.head? = some s.char then 1 else 0

/-- The pattern with the longest match, the first of several, and the length of the match. -/
def longest (cs : List Char) : Pattern × Nat :=
  all.foldl (fun best p => if best.2 < p.matchLength cs then (p, p.matchLength cs) else best)
    (ident, 0)

/-- The lexeme that a pattern reads from the text it matches. -/
def lexeme : Pattern → String → Lexeme
  | keyword k, _ => .keyword k
  | ident, text => .ident text
  | number, text => .number text
  | sign s, _ => .sign s

end Pattern

end LetPoly
