import Scss.Decimal.Binary

/-!
# The shortest decimal that reads back

A double stands for every real number nearer to it than to its neighbours. Among the decimals in
that interval `shortest` picks one with the fewest digits, of those the nearest to the exact
value, and of two equally near ones the larger. It is written positionally whatever its size.
-/

namespace Scss.Decimal

/-- A decimal `digits · 10 ^ exponent`. -/
structure Numeral where
  digits : Nat
  exponent : Int
  deriving DecidableEq, Repr

/-- The reals that read back as a double, over one denominator: from `low` to `high` around
`value`, the ends included when `closed`. -/
structure Interval where
  low : Nat
  value : Nat
  high : Nat
  denominator : Nat
  closed : Bool

/-- The interval of `m · 2 ^ q`. The gap below a power of two is half the gap above it. -/
def Interval.around (m : Nat) (q : Int) : Interval :=
  let narrow := m = pow2 52 && q > -1074
  let (low, value, high) := if narrow then (4 * m - 1, 4 * m, 4 * m + 2)
    else (4 * m - 2, 4 * m, 4 * m + 2)
  let up := pow2 (q - 2).toNat
  { low := low * up, value := value * up, high := high * up,
    denominator := pow2 (2 - q).toNat, closed := m % 2 == 0 }

/-- Whether `k · 10 ^ e` lies in the interval. -/
def Interval.holds (i : Interval) (k : Nat) (e : Int) : Bool :=
  let point := k * pow10 e.toNat * i.denominator
  let scale := pow10 (-e).toNat
  if i.closed then i.low * scale ≤ point && point ≤ i.high * scale
  else i.low * scale < point && point < i.high * scale

/-- The grid point of `10 ^ e` that lies in the interval nearest to its value, if any. -/
def Interval.nearest? (i : Interval) (e : Int) : Option Nat :=
  let numerator := i.value * pow10 (-e).toNat
  let cell := pow10 e.toNat * i.denominator
  let k := numerator / cell
  let rest := numerator % cell
  let below := i.holds k e && k != 0
  let above := i.holds (k + 1) e
  if below && above then some (if 2 * rest < cell then k else k + 1)
  else if below then some k
  else if above then some (k + 1)
  else none

/-- The first grid with a point in the interval, from coarse to fine. -/
def Interval.search (i : Interval) : Nat → Int → Option Numeral
  | 0, _ => none
  | steps + 1, e =>
    match i.nearest? e with
    | some k => some ⟨k, e⟩
    | none => i.search steps (e - 1)

/-- How many decimal digits a positive whole number has. -/
def digitCount (n : Nat) : Nat := (Nat.toDigits 10 n).length

/-- The shortest decimal of `m · 2 ^ q`, `m` not zero. -/
def shortest (m : Nat) (q : Int) : Option Numeral :=
  let i := Interval.around m q
  let magnitude : Int := (digitCount i.value : Int) - (digitCount i.denominator : Int) + 1
  i.search 40 magnitude

/-- A decimal in positional notation, without a point if it is whole. -/
def Numeral.positional (d : Numeral) : String :=
  let digits := Nat.toDigits 10 d.digits
  if 0 ≤ d.exponent then
    String.ofList (digits ++ List.replicate d.exponent.toNat '0')
  else
    let places := (-d.exponent).toNat
    let padded := List.replicate (places + 1 - digits.length) '0' ++ digits
    let whole := padded.take (padded.length - places)
    String.ofList (whole ++ '.' :: padded.drop (padded.length - places))

/-- The text of a double: the shortest decimal that reads back as it. -/
def display (x : Float) : String :=
  match Binary.ofFloat x with
  | .nan => "NaN"
  | .infinite negative => if negative then "-inf" else "inf"
  | .finite negative m q =>
    let sign := if negative then "-" else ""
    if m = 0 then sign ++ "0"
    else sign ++ ((shortest m q).map Numeral.positional).getD ""

end Scss.Decimal
