import LetPoly.Source.Token

/-!
# Lexing — source text cut into tokens

Blanks between tokens are skipped.  At each place the longest match of a pattern is the next token;
where nothing matches and text is left, lexing fails.
-/

namespace LetPoly

/-- No pattern matches at `offset`, where `rest` begins. -/
structure LexError where
  source : String
  offset : Nat
  rest : String
deriving DecidableEq

def LexError.message (e : LexError) : String :=
  "Failed to lex '" ++ e.source ++ "' at position " ++ toString e.offset ++ "; remaining '" ++
    e.rest ++ "'"

/-- The characters that may stand between tokens: space, tab, line feed, form feed, carriage return.
-/
def isBlank (c : Char) : Bool :=
  c = ' ' || c = '\t' || c = '\n' || c = '\x0c' || c = '\r'

/-- Lexes the text `cs`, which stands at `place` in `source`. -/
def lexFrom (source : String) (place : Position) (cs : List Char) : Except LexError (List Token) :=
  let rest := cs.dropWhile isBlank
  let start := (cs.takeWhile isBlank).foldl .advance place
  if _h : rest = [] then .ok []
  else
    match Pattern.longest rest with
    | (_, 0) => .error ⟨source, start.offset, String.ofList rest⟩
    | (p, n + 1) => do
      let matched := rest.take (n + 1)
      let stop := matched.foldl .advance start
      let span := ⟨(start.line, start.column), (stop.line, stop.column), source⟩
      let tokens ← lexFrom source stop (rest.drop (n + 1))
      return ⟨p.lexeme (String.ofList matched), span⟩ :: tokens
termination_by cs.length
decreasing_by
  have hle : rest.length ≤ cs.length := (List.dropWhile_sublist isBlank).length_le
  have hpos : 0 < rest.length := List.length_pos_iff.2 ‹¬rest = []›
  show (rest.drop (n + 1)).length < cs.length
  rw [List.length_drop]
  omega

/-- The tokens of a source text. -/
def lex (source : String) : Except LexError (List Token) := lexFrom source {} source.toList

end LetPoly
