/-!
# Spans — places in source text, and how they are shown

Lines and columns count from zero; columns count bytes.  `Span.excerpt` shows the lines of a span
with the line before it, and under them a marker with a message.
-/

namespace LetPoly

/-- A place in a text: the byte offset, and the line and column it lies in. -/
structure Position where
  offset : Nat := 0
  line : Nat := 0
  column : Nat := 0
deriving DecidableEq

/-- The place after one more character. -/
def Position.advance (p : Position) (c : Char) : Position :=
  if c = '\n' then ⟨p.offset + 1, p.line + 1, 0⟩
  else ⟨p.offset + c.utf8Size, p.line, p.column + c.utf8Size⟩

/-- A stretch of a source text, by line and column of its ends. -/
structure Span where
  start : Nat × Nat
  stop : Nat × Nat
  source : String
deriving DecidableEq

namespace Span

/-- The lines of a text.  A carriage return before a line feed belongs to the line's end. -/
def sourceLines (source : String) : List String :=
  let pieces := source.splitOn "\n"
  pieces.dropLast.map (fun l => if l.endsWith "\r" then (l.dropEnd 1).toString else l) ++
    pieces.getLast?.toList

/-- The lines of a span, the line before them, and a marker with `message` below its end. -/
def excerpt (s : Span) (message : String) : String :=
  let lines := sourceLines s.source
  let line (k : Nat) : String := lines.getD k ""
  let first := s.start.1
  let last := s.stop.1
  let margin := "".pushn ' ' (toString last).length ++ " |"
  let before := if first = 0 then "" else line (first - 1)
  let inner := (List.range' (first + 1) (last - first)).map fun k => margin ++ line k
  let marker := toString (last + 2) ++ " |" ++ "".pushn ' ' (s.stop.2 - 1) ++ "^--- " ++ message
  "\n".intercalate <|
    [margin, margin ++ before ++ " ", toString (first + 1) ++ " |" ++ line first] ++ inner ++
      [marker, margin]

end Span

end LetPoly
