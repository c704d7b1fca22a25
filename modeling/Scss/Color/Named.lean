/-!
# Color names

The names that stand for opaque colors, with their red, green and blue channels.
-/

namespace Scss.Color

def namedChannels : List (String × Nat × Nat × Nat) := [
  ("black", 0, 0, 0),
  ("silver", 192, 192, 192),
  ("gray", 128, 128, 128),
  ("grey", 128, 128, 128),
  ("white", 255, 255, 255),
  ("maroon", 128, 0, 0),
  ("red", 255, 0, 0),
  ("purple", 128, 0, 128),
  ("fuchsia", 255, 0, 255),
  ("magenta", 255, 0, 255),
  ("green", 0, 128, 0),
  ("lime", 0, 255, 0),
  ("olive", 128, 128, 0),
  ("yellow", 255, 255, 0),
  ("navy", 0, 0, 128),
  ("blue", 0, 0, 255),
  ("teal", 0, 128, 128),
  ("aqua", 0, 255, 255),
  ("cyan", 0, 255, 255),
  ("orange", 255, 165, 0),
  ("pink", 255, 192, 203),
  ("brown", 165, 42, 42),
  ("gold", 255, 215, 0),
  ("indigo", 75, 0, 130),
  ("violet", 238, 130, 238),
  ("coral", 255, 127, 80),
  ("tomato", 255, 99, 71),
  ("salmon", 250, 128, 114),
  ("khaki", 240, 230, 140),
  ("crimson", 220, 20, 60),
  ("orchid", 218, 112, 214),
  ("beige", 245, 245, 220),
  ("ivory", 255, 255, 240),
  ("lavender", 230, 230, 250),
  ("turquoise", 64, 224, 208),
  ("tan", 210, 180, 140),
  ("chocolate", 210, 105, 30),
  ("darkgray", 169, 169, 169),
  ("lightgray", 211, 211, 211),
  ("whitesmoke", 245, 245, 245)]

end Scss.Color
