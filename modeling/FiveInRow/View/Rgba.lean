/-!
Colours on the screen, premultiplied: the channels of a translucent colour are stored as they look
over black. Premultiplying is done on light intensities, to which the channels are related by the
sRGB curve.

* `Rgba.solid`, `Rgba.translucent`: colours from plain channel values;
* `Rgba.light`, `Rgba.channel`: from a channel to an intensity between zero and one, and back.
-/

namespace FiveInRow

/-- A premultiplied colour. -/
structure Rgba where
  red : UInt8
  green : UInt8
  blue : UInt8
  alpha : UInt8
  deriving DecidableEq, Repr

namespace Rgba

/-- No colour at all. -/
def clear : Rgba := ⟨0, 0, 0, 0⟩

/-- The intensity of a channel value. -/
def light (v : UInt8) : Float32 :=
  if v ≤ 10 then v.toFloat32 / 3294.6 else ((v.toFloat32 + 14.025) / 269.025).pow 2.4

/-- The channel value of an intensity. -/
def channel (l : Float32) : UInt8 :=
  if l ≤ 0 then 0
  else if l ≤ 0.0031308 then (3294.6 * l + 0.5).toUInt8
  else if l ≤ 1 then (269.025 * l.pow (1 / 2.4) - 14.025 + 0.5).toUInt8
  else 255

/-- A colour that hides what is below it. -/
def solid (red green blue : UInt8) : Rgba := ⟨red, green, blue, 255⟩

/-- A colour through which the background shows; `alpha` is neither zero nor 255. -/
def translucent (red green blue alpha : UInt8) : Rgba :=
  let share := alpha.toFloat32 / 255
  { red := channel (light red * share)
    green := channel (light green * share)
    blue := channel (light blue * share)
    alpha }

end Rgba

end FiveInRow
