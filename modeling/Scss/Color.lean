import Scss.Color.Named
import Scss.Decimal.Fixed

/-!
# Colors

A color has red, green and blue channels from 0 to 255 and an alpha from 0 to 1, all kept as
doubles: only printing rounds them, so that steps of arithmetic do not add up rounding errors.
A color read from text is written as it was spelled until something is done to it.
-/

namespace Scss

structure Color where
  red : Float
  green : Float
  blue : Float
  alpha : Float
  /-- How the color was spelled in the source. -/
  spelling : Option String
  deriving Repr

namespace Color

open Decimal

/-- A color with its channels moved into their ranges. -/
def rgba (red green blue alpha : Float) : Color :=
  ⟨clamp 0 255 red, clamp 0 255 green, clamp 0 255 blue, clamp 0 1 alpha, none⟩

/-! ## Reading -/

def hexDigit? (c : Char) : Option Nat :=
  if c.isDigit then some (c.toNat - '0'.toNat)
  else if 'a' ≤ c ∧ c ≤ 'f' then some (c.toNat - 'a'.toNat + 10)
  else if 'A' ≤ c ∧ c ≤ 'F' then some (c.toNat - 'A'.toNat + 10)
  else none

/-- The color that three, four, six or eight hexadecimal digits spell; a `#` in front is optional.
With three or four every digit stands for two. -/
def ofHex? (text : String) : Option Color := do
  let spelled := match text.toList with
    | '#' :: rest => rest
    | cs => cs
  let digits ← spelled.mapM hexDigit?
  let channels ← match digits with
    | [r, g, b] => some (17 * r, 17 * g, 17 * b, none)
    | [r, g, b, a] => some (17 * r, 17 * g, 17 * b, some (17 * a))
    | [r, s, g, h, b, c] => some (16 * r + s, 16 * g + h, 16 * b + c, none)
    | [r, s, g, h, b, c, a, d] => some (16 * r + s, 16 * g + h, 16 * b + c, some (16 * a + d))
    | _ => none
  let (r, g, b, a) := channels
  let alpha := a.elim 1.0 fun a => Float.ofNat a / 255.0
  some { rgba (Float.ofNat r) (Float.ofNat g) (Float.ofNat b) alpha with
    spelling := some (String.ofList ('#' :: spelled)) }

/-- The color of that name, in whatever case. -/
def named? (name : String) : Option Color :=
  let key := name.toLower
  if key = "transparent" then some { rgba 0 0 0 0 with spelling := some name }
  else (namedChannels.lookup key).map fun (r, g, b) =>
    { rgba (Float.ofNat r) (Float.ofNat g) (Float.ofNat b) 1 with spelling := some name }

/-! ## Hue, saturation and lightness -/

/-- A color from its hue in degrees, and its saturation and lightness in percent. -/
def hsla (hue saturation lightness alpha : Float) : Color :=
  let h := remainder (remainder hue 360 + 360) 360 / 360
  let s := clamp 0 100 saturation / 100
  let l := clamp 0 100 lightness / 100
  let m2 := if l ≤ 0.5 then l * (s + 1) else l + s - l * s
  let m1 := l * 2 - m2
  let channel (turn : Float) : Float :=
    let turn := if turn < 0 then turn + 1 else turn
    let turn := if 1 < turn then turn - 1 else turn
    let share :=
      if turn * 6 < 1 then m1 + (m2 - m1) * turn * 6
      else if turn * 2 < 1 then m2
      else if turn * 3 < 2 then m1 + (m2 - m1) * (2.0 / 3.0 - turn) * 6
      else m1
    share * 255
  rgba (channel (h + 1.0 / 3.0)) (channel h) (channel (h - 1.0 / 3.0)) alpha

/-- The hue in degrees, and the saturation and lightness in percent. -/
def hsl (c : Color) : Float × Float × Float :=
  let r := c.red / 255
  let g := c.green / 255
  let b := c.blue / 255
  let most := larger (larger r g) b
  let least := smaller (smaller r g) b
  let delta := most - least
  let hue :=
    if delta == 0 then 0
    else if most == r then 60 * (g - b) / delta
    else if most == g then 60 * (b - r) / delta + 120
    else 60 * (r - g) / delta + 240
  let lightness := (most + least) / 2
  let saturation :=
    if delta == 0 then 0
    else if lightness < 0.5 then delta / (most + least)
    else delta / (2 - most - least)
  (remainder (hue + 360) 360, saturation * 100, lightness * 100)

/-- The color with its lightness moved by so many points of a hundred. -/
def addLightness (c : Color) (amount : Float) : Color :=
  let (h, s, l) := c.hsl
  hsla h s (clamp 0 100 (l + amount)) c.alpha

/-! ## Arithmetic goes channel by channel -/

def withAlpha (c : Color) (alpha : Float) : Color := rgba c.red c.green c.blue alpha

def mapChannels (c : Color) (op : Float → Float) : Color :=
  rgba (op c.red) (op c.green) (op c.blue) c.alpha

/-- The channels of two colors combined; their alphas must agree up to the last bit of one. -/
def zipChannels? (c d : Color) (op : Float → Float → Float) : Option Color :=
  if 2.220446049250313e-16 < (c.alpha - d.alpha).abs then none
  else some (rgba (op c.red d.red) (op c.green d.green) (op c.blue d.blue) c.alpha)

/-- A channel as it is shown. -/
def channelByte (x : Float) : Nat := (clamp 0 255 (roundWhole .nearest x)).toUInt8.toNat

/-- Whether two colors show alike, however they are spelled. -/
def sameColor (c d : Color) : Bool :=
  channelByte c.red == channelByte d.red && channelByte c.green == channelByte d.green &&
    channelByte c.blue == channelByte d.blue && (c.alpha - d.alpha).abs < 1e-6

/-- Whether two colors agree in every channel and in spelling. -/
def identical (c d : Color) : Bool :=
  c.red == d.red && c.green == d.green && c.blue == d.blue && c.alpha == d.alpha &&
    c.spelling == d.spelling

/-! ## Writing -/

private def hexByte (n : Nat) : List Char := [Nat.digitChar (n / 16), Nat.digitChar (n % 16)]

/-- A color as it is written: its spelling, or else hexadecimal if it is opaque. -/
def text (c : Color) : String :=
  match c.spelling with
  | some spelling => spelling
  | none =>
    let (r, g, b) := (channelByte c.red, channelByte c.green, channelByte c.blue)
    if 1 ≤ c.alpha then String.ofList ('#' :: hexByte r ++ hexByte g ++ hexByte b)
    else
      "rgba(" ++ toString r ++ ", " ++ toString g ++ ", " ++ toString b ++ ", " ++
        format c.alpha ++ ")"

end Color

end Scss
