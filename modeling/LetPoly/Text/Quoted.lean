import LetPoly.Text.Invisible

/-!
# Quoted text — strings shown so that every character can be seen

The text stands in double quotes.  A quote or backslash in it has a backslash before it, common
controls have a letter, and other invisible characters are written by their number in hexadecimal.
-/

namespace LetPoly

namespace Text

/-- How a character is written between quotes. -/
def quotedChar (c : Char) : String :=
  match c with
  | '\x00' => "\\0"
  | '\t' => "\\t"
  | '\r' => "\\r"
  | '\n' => "\\n"
  | '"' => "\\\""
  | '\\' => "\\\\"
  | c =>
    if isInvisible c then "\\u\x7b" ++ String.ofList (Nat.toDigits 16 c.toNat) ++ "\x7d"
    else c.toString

def quoted (s : String) : String := "\"" ++ String.join (s.toList.map quotedChar) ++ "\""

end Text

end LetPoly
