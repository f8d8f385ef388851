import LetPoly.Number.Shortest

/-!
# Number text — doubles written and read in decimal

A double is written with the fewest digits that read back.  A `Layout` decides where the point goes:
`Layout.plain` is what programs show, always positional and without a point for whole numbers;
`Layout.marked` is for inspection, where a number is never mistaken for a whole one and very large
or small ones have an exponent.
-/

namespace LetPoly

namespace Number

/-- How the digits of a finite number are laid out. -/
structure Layout where
  /-- Which exponents of the leading digit are written without an exponent. -/
  positional : Int → Bool
  /-- Whether a whole number ends in `.0`. -/
  pointZero : Bool

/-- Never an exponent, and no point in whole numbers. -/
def Layout.plain : Layout := ⟨fun _ => true, false⟩

/-- An exponent below `0.0001` and from `10 ^ 16` on, and `.0` after other whole numbers. -/
def Layout.marked : Layout := ⟨fun e => -4 ≤ e && e < 16, true⟩

/-- The digits with zeros up to the point, or with the point among or before them. -/
def positionalText (l : Layout) (digits : String) (exponent : Int) : String :=
  let whole := digits.length + exponent
  if 0 ≤ exponent then
    digits ++ "".pushn '0' exponent.toNat ++ if l.pointZero then ".0" else ""
  else if 0 < whole then
    (digits.take whole.toNat).toString ++ "." ++ (digits.drop whole.toNat).toString
  else
    "0." ++ "".pushn '0' (-whole).toNat ++ digits

/-- One digit, the others behind a point, and the exponent of the first. -/
def exponentText (digits : String) (leading : Int) : String :=
  let rest := (digits.drop 1).toString
  (digits.take 1).toString ++ (if rest.isEmpty then "" else "." ++ rest) ++ "e" ++ toString leading

def decimalText (l : Layout) (d : Decimal) : String :=
  let digits := toString d.coefficient
  let leading := d.exponent + digits.length - 1
  if l.positional leading then positionalText l digits d.exponent else exponentText digits leading

/-- The sign bit of a double: `2 ^ 63`. -/
def signBit : Nat := 9223372036854775808

/-- The bits of infinity: `2047 * 2 ^ 52`.  Larger magnitudes are no numbers. -/
def infinityBits : Nat := 2047 * Magnitude.hiddenBit

/-- The text of the double with the given bits. -/
def bitsText (l : Layout) (bits : Nat) : String :=
  let magnitude := bits % signBit
  let sign := if signBit ≤ bits then "-" else ""
  if infinityBits < magnitude then "NaN"
  else if magnitude = infinityBits then sign ++ "inf"
  else if magnitude = 0 then sign ++ decimalText ⟨fun _ => true, l.pointZero⟩ ⟨0, 0⟩
  else sign ++ decimalText l (Magnitude.ofBits magnitude).shortest

/-- The text that programs show for a number. -/
def text (x : Float) : String := bitsText .plain x.toBits.toNat

/-- The text for inspection. -/
def markedText (x : Float) : String := bitsText .marked x.toBits.toNat

/-- The value of a run of decimal digits. -/
def digitsValue (cs : List Char) : Nat := cs.foldl (fun n c => 10 * n + (c.toNat - '0'.toNat)) 0

/-- A minus sign in front, and what stands behind the sign, if there is one. -/
def splitSign : List Char → Bool × List Char
  | '-' :: cs => (true, cs)
  | '+' :: cs => (false, cs)
  | cs => (false, cs)

/-- The power of ten behind a numeral: nothing, or an `e` with digits that may have a sign. -/
def readExponent : List Char → Option Int
  | [] => some 0
  | c :: cs =>
    let (negative, digits) := splitSign cs
    if c.toLower = 'e' && !digits.isEmpty && digits.all Char.isDigit then
      some (if negative then -digitsValue digits else digitsValue digits)
    else
      none

/-- The double nearest to digits with at most one point before, among or behind them, and possibly
an exponent. -/
def readDecimal (cs : List Char) : Option Float :=
  let (whole, rest) := cs.span Char.isDigit
  let (fraction, rest) :=
    match rest with
    | '.' :: rest => rest.span Char.isDigit
    | rest => ([], rest)
  if whole.isEmpty && fraction.isEmpty then
    none
  else
    (readExponent rest).map fun power =>
      let exponent : Int := power - fraction.length
      Float.ofScientific (digitsValue (whole ++ fraction)) (exponent ≤ 0) exponent.natAbs

/-- The double that a text stands for, if it stands for one: a decimal number or, in any case of
letters, infinity or no number, with or without a sign. -/
def read (numeral : String) : Option Float :=
  let (negative, cs) := splitSign numeral.toList
  let word := String.ofList (cs.map Char.toLower)
  let magnitude :=
    if word = "inf" || word = "infinity" then some (1 / 0)
    else if word = "nan" then some (0 / 0)
    else readDecimal cs
  magnitude.map fun x => if negative then -x else x

end Number

end LetPoly
