import Scss.Builtin.Basic
import Scss.Decimal.Shortest

/-!
# Functions of colors

Reading channels, making colors, and moving their lightness.
-/

namespace Scss.Builtin

/-- A function of one color. -/
private def ofColor (name : String) (f : Color → Number) : Builtin :=
  computing name (required ["color"]) fun b => do
    return .number (f (← colorArgument b "color"))

private def channel (x : Float) : Number := ⟨Decimal.roundWhole .nearest x, ""⟩

/-- A channel given as a number or as a percentage of 255. -/
private def channelOf (n : Number) : Float := if n.unit == "%" then n.value * 2.55 else n.value

private def channels (b : BoundArguments Value) : Except ArgumentFault (Float × Float × Float) := do
  let red ← numberArgument b "red"
  let green ← numberArgument b "green"
  let blue ← numberArgument b "blue"
  return (channelOf red, channelOf green, channelOf blue)

private def rgb (b : BoundArguments Value) : Except ArgumentFault Value := do
  let (red, green, blue) ← channels b
  return .color (Color.rgba red green blue 1)

/-- A color from its channels, or a color with another alpha. -/
private def rgba (b : BoundArguments Value) : Except ArgumentFault Value := do
  let isColor := match b.value "red" with
    | .color _ => true
    | _ => false
  if isColor || ((b.value "blue").isNull && (b.value "alpha").isNull) then
    let color ← colorArgument b "red"
    let alpha ← numberArgument b "green"
    return .color (color.withAlpha alpha.value)
  else
    let (red, green, blue) ← channels b
    let alpha ← numberArgument b "alpha"
    return .color (Color.rgba red green blue alpha.value)

private def hslWithAlpha (b : BoundArguments Value) (alpha : Float) :
    Except ArgumentFault Value := do
  let hue ← numberArgument b "hue"
  let saturation ← numberArgument b "saturation"
  let lightness ← numberArgument b "lightness"
  return .color (Color.hsla hue.value saturation.value lightness.value alpha)

private def hsla (b : BoundArguments Value) : Except ArgumentFault Value := do
  let alpha ← numberArgument b "alpha"
  hslWithAlpha b alpha.value

/-- Moves the lightness of a color by a percentage. -/
private def moveLightness (sign : Float) (b : BoundArguments Value) :
    Except ArgumentFault Value := do
  let color ← colorArgument b "color"
  let amount ← numberArgument b "amount"
  if amount.isUnitless || amount.unit == "%" then
    return .color (color.addLightness (sign * amount.value))
  else
    throw (.notPercentage (Decimal.display amount.value ++ amount.unit))

def colorFunctions : List Builtin :=
  [ofColor "red" fun c => channel c.red,
    ofColor "green" fun c => channel c.green,
    ofColor "blue" fun c => channel c.blue,
    ofColor "hue" fun c => ⟨c.hsl.1, "deg"⟩,
    ofColor "saturation" fun c => ⟨c.hsl.2.1, "%"⟩,
    ofColor "lightness" fun c => ⟨c.hsl.2.2, "%"⟩,
    ofColor "alpha" fun c => ⟨c.alpha, ""⟩,
    ofColor "opacity" fun c => ⟨c.alpha, ""⟩,
    computing "rgb" (required ["red", "green", "blue"]) rgb,
    computing "rgba"
      (withDefaults (required ["red"]) [("green", .null), ("blue", .null), ("alpha", .null)]) rgba,
    computing "hsl" (required ["hue", "saturation", "lightness"]) fun b => hslWithAlpha b 1,
    computing "hsla" (required ["hue", "saturation", "lightness", "alpha"]) hsla,
    computing "darken" (required ["color", "amount"]) (moveLightness (-1)),
    computing "lighten" (required ["color", "amount"]) (moveLightness 1)]

end Scss.Builtin
