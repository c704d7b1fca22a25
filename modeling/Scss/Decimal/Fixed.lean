import Scss.Decimal.Binary

/-!
# Numbers as CSS shows them

A number is shown with at most five decimals. It is first rounded to a multiple of `10⁻⁵` in
double arithmetic, a half away from zero. A whole number below `10¹⁵` is then written as an
integer; any other has its exact value written with five places, an exact tie to the even last
digit, and its closing zeros left out.
-/

namespace Scss.Decimal

/-- A quotient rounded to the nearest whole number, a tie to the even one. -/
def roundDivEven (numerator denominator : Nat) : Nat :=
  let quotient := numerator / denominator
  let twice := 2 * (numerator % denominator)
  if twice < denominator then quotient
  else if denominator < twice then quotient + 1
  else quotient + quotient % 2

/-- A whole number of units `10 ^ -places` in positional notation. -/
def fixedPoint (places units : Nat) : List Char :=
  let digits := Nat.toDigits 10 units
  let padded := List.replicate (places + 1 - digits.length) '0' ++ digits
  padded.take (padded.length - places) ++ '.' :: padded.drop (padded.length - places)

/-- How many decimals are shown. -/
def shownPlaces : Nat := 5

/-- A text without the zeros at its end, and then without a point at its end. -/
def dropClosingZeros (text : List Char) : List Char :=
  ((text.reverse.dropWhile (· == '0')).dropWhile (· == '.')).reverse

/-- A number as it is written in CSS. -/
def format (x : Float) : String :=
  let factor : Float := 100000.0
  let rounded := roundWhole .nearest (x * factor) / factor
  match Binary.ofFloat rounded with
  | .nan => "NaN"
  | .infinite negative => if negative then "-inf" else "inf"
  | .finite negative m q =>
    let up := m * pow2 q.toNat
    let down := pow2 (-q).toNat
    if m = 0 then "0"
    else
      let sign := if negative then ['-'] else []
      if up % down = 0 && up / down < pow10 15 then
        String.ofList (sign ++ Nat.toDigits 10 (up / down))
      else
        String.ofList (sign ++
          dropClosingZeros (fixedPoint shownPlaces (roundDivEven (up * pow10 shownPlaces) down)))

end Scss.Decimal
