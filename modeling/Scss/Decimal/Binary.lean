/-!
# What a double stands for

Number text is decided by the exact real number a double stands for. `Binary.ofFloat` reads it off
the bits: a sign, a whole number `m` and a power of two. The remainder of two doubles is exact,
so it is computed on the same form, and so is rounding to a whole number.
-/

namespace Scss.Decimal

/-- A power of two. -/
abbrev pow2 (exponent : Nat) : Nat := Nat.pow 2 exponent

/-- A power of ten. -/
abbrev pow10 (exponent : Nat) : Nat := Nat.pow 10 exponent

/-- A double as an exact number: `finite s m q` is `m · 2 ^ q`, negated if `s` is set. -/
inductive Binary where
  | nan
  | infinite (negative : Bool)
  | finite (negative : Bool) (m : Nat) (q : Int)
  deriving DecidableEq, Repr

namespace Binary

/-- The number that 64 bits of the interchange format encode. -/
def ofBits (bits : Nat) : Binary :=
  let negative := bits / pow2 63 % 2 == 1
  let exponent : Nat := bits / pow2 52 % 2048
  let fraction : Nat := bits % pow2 52
  if exponent = 2047 then
    if fraction = 0 then infinite negative else nan
  else if exponent = 0 then finite negative fraction (-1074)
  else finite negative (pow2 52 + fraction) (Int.ofNat exponent - 1075)

def ofFloat (x : Float) : Binary := ofBits x.toBits.toNat

end Binary

/-- The bits of `m · 2 ^ q`, for a number that a double holds exactly. The significand is shifted to
53 bits, or to the least power of two if the number is below the normal ones. -/
def Binary.encode (negative : Bool) (m : Nat) (q : Int) : Nat :=
  let sign := if negative then pow2 63 else 0
  let shift : Int := 52 - (m.log2 : Int)
  let exponent : Int := max (q - shift) (-1074)
  let significand := m * pow2 (q - exponent).toNat / pow2 (exponent - q).toNat
  if m = 0 then sign
  else if 972 ≤ exponent then sign + 2047 * pow2 52
  else if significand < pow2 52 then sign + significand
  else sign + (exponent + 1075).toNat * pow2 52 + (significand - pow2 52)

/-- The double `m · 2 ^ q`, negated if `negative`; exact whenever a double can hold it. -/
def ofScaled (negative : Bool) (m : Nat) (q : Int) : Float :=
  Float.ofBits (UInt64.ofNat (Binary.encode negative m q))

/-- The remainder of `x` by `y` for the quotient cut off toward zero. It has the sign of `x`, and it
is exact: it is a multiple of the smaller of the two powers of two, below both operands. -/
def remainder (x y : Float) : Float :=
  match Binary.ofFloat x, Binary.ofFloat y with
  | .finite s m q, .finite _ n p =>
    if n = 0 then 0.0 / 0.0
    else
      let unit := min q p
      ofScaled s ((m * pow2 (q - unit).toNat) % (n * pow2 (p - unit).toNat)) unit
  | .finite .., .infinite _ => x
  | _, _ => 0.0 / 0.0

/-! ## Rounding to a whole number keeps the sign, also that of zero -/

/-- Which whole number a number between two of them goes to. -/
inductive Toward where
  | nearest
  | below
  | above
  deriving DecidableEq, Repr

/-- The magnitude of a number between `k` and `k + 1`, `rest / unit` of the way up. A number half way
goes away from zero. -/
def Toward.magnitude (toward : Toward) (negative : Bool) (k rest unit : Nat) : Nat :=
  let up : Bool := match toward with
    | .nearest => unit ≤ 2 * rest
    | .below => negative && rest != 0
    | .above => !negative && rest != 0
  if up then k + 1 else k

/-- A number rounded to a whole one; not-a-number and the infinities stay. -/
def roundWhole (toward : Toward) (x : Float) : Float :=
  match Binary.ofFloat x with
  | .finite s m q =>
    if 0 ≤ q then x
    else
      let unit := pow2 (-q).toNat
      ofScaled s (toward.magnitude s (m / unit) (m % unit) unit) 0
  | _ => x

/-- A number cut off to a whole one that fits 64 bits; one beyond them becomes the nearest that fits,
and not-a-number becomes zero. -/
def wholePart (x : Float) : Int :=
  let least : Int := -Int.ofNat (pow2 63)
  let greatest : Int := Int.ofNat (pow2 63) - 1
  match Binary.ofFloat x with
  | .nan => 0
  | .infinite negative => if negative then least else greatest
  | .finite negative m q =>
    let magnitude : Int := (m * pow2 q.toNat / pow2 (-q).toNat : Nat)
    max least (min greatest (if negative then -magnitude else magnitude))

/-! ## Bounds leave not-a-number alone, extremes pass over it -/

/-- A number moved into the range from `low` to `high`. -/
def clamp (low high x : Float) : Float :=
  if x < low then low else if high < x then high else x

def larger (x y : Float) : Float :=
  if x.isNaN then y else if x < y then y else x

def smaller (x y : Float) : Float :=
  if x.isNaN then y else if y < x then y else x

end Scss.Decimal
