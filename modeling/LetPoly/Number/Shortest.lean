/-!
# Shortest decimals — the fewest digits that read back as a given double

A finite nonzero double is `m * 2 ^ q` with `q ≥ -1074`.  Its neighbours lie `2 ^ q` away (below a
power of two the lower one is half as far), and a decimal reads back as the double when it lies
between the midpoints, ends included when `m` is even.  Everything is a whole multiple of `10 ^
-1076`, so the search is exact arithmetic on natural numbers: for one digit, two digits, and so on,
the double's two neighbours on that decimal grid are tried, and the first grid with a hit wins.
-/

namespace LetPoly

/-- The number `coefficient * 10 ^ exponent`. -/
structure Decimal where
  coefficient : Nat
  exponent : Int
deriving DecidableEq

namespace Decimal

/-- Moves the trailing zeros of the coefficient into the exponent. -/
def trim (d : Decimal) : Decimal :=
  if d.coefficient ≠ 0 ∧ d.coefficient % 10 = 0 then trim ⟨d.coefficient / 10, d.exponent + 1⟩
  else d
termination_by d.coefficient
decreasing_by exact Nat.div_lt_self (by omega) (by decide)

end Decimal

/-- The significand and exponent of a finite double, given by the low 63 bits of its representation.
-/
structure Magnitude where
  significand : Nat
  /-- The biased exponent, at least 1; the value is `significand * 2 ^ (biased - 1075)`. -/
  biased : Nat

namespace Magnitude

/-- The leading bit of a significand, which the representation leaves out: `2 ^ 52`. -/
def hiddenBit : Nat := 4503599627370496

/-- Takes the two fields apart; a zero exponent field marks a subnormal number. -/
def ofBits (bits : Nat) : Magnitude :=
  let field := bits / hiddenBit % 2048
  let fraction := bits % hiddenBit
  if field = 0 then ⟨fraction, 1⟩ else ⟨hiddenBit + fraction, field⟩

/-- A quarter of the distance to the next larger double, in units of `10 ^ -1076`. -/
def quarter (x : Magnitude) : Nat := Nat.pow 2 (x.biased - 1) * Nat.pow 5 1076

/-- The value in units of `10 ^ -1076`. -/
def scaled (x : Magnitude) : Nat := 4 * x.significand * x.quarter

/-- The midpoint to the next smaller double. -/
def lower (x : Magnitude) : Nat :=
  x.scaled - if x.significand = hiddenBit ∧ 1 < x.biased then x.quarter else 2 * x.quarter

/-- The midpoint to the next larger double. -/
def upper (x : Magnitude) : Nat := x.scaled + 2 * x.quarter

/-- Whether the decimal `n * 10 ^ -1076` reads back as `x`. -/
def readsBack (x : Magnitude) (n : Nat) : Bool :=
  if x.significand % 2 = 0 then x.lower ≤ n && n ≤ x.upper else x.lower < n && n < x.upper

/-- The multiple of `step` that reads back as `x`, if one of the two multiples around `x` does; of
two the nearer, and of two equally near ones the larger. -/
def onGrid? (x : Magnitude) (step : Nat) : Option Nat :=
  let below := x.scaled / step
  let lo := below * step
  let hi := lo + step
  match x.readsBack lo, x.readsBack hi with
  | true, true => some (if x.scaled - lo < hi - x.scaled then below else below + 1)
  | true, false => some below
  | false, true => some (below + 1)
  | false, false => none

/-- Tries ever finer grids from `10 ^ place` down, at most `fuel` of them. -/
def search (x : Magnitude) : Nat → Nat → Decimal
  | 0, place => ⟨x.scaled / Nat.pow 10 place, place - 1076⟩
  | fuel + 1, place =>
    match x.onGrid? (Nat.pow 10 place) with
    | some n => ⟨n, place - 1076⟩
    | none => search x fuel (place - 1)

/-- The decimal with the fewest digits that reads back as `x`, the nearest of them.  Seventeen
digits are always enough. -/
def shortest (x : Magnitude) : Decimal :=
  (x.search 17 ((toString x.scaled).length - 1)).trim

end Magnitude

end LetPoly
