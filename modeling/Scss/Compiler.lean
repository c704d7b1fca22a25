import Scss.Extending
import Scss.Flatten
import Scss.Render

/-!
# Compiling a stylesheet

A stylesheet is flattened, and then the extensions that were recorded are applied to it.
-/

namespace Scss

/-- The plain CSS that a stylesheet stands for. -/
def Stylesheet.compile (s : Stylesheet) : Compile Stylesheet := do
  modify fun c => c.enterRoot s.uri
  let flat ← Flatten.run s.body
  return { s with body := ← Extending.run flat }

end Scss
