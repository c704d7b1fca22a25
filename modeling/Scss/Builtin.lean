import Scss.Builtin.Color
import Scss.Builtin.List
import Scss.Builtin.Number
import Scss.Builtin.Text

/-!
# The built-in functions

All of them, found by name. Unlike the names of a stylesheet, these are matched exactly.
-/

namespace Scss.Builtin

def all : List Builtin := colorFunctions ++ listFunctions ++ numberFunctions ++ textFunctions

def find? (name : String) : Option Builtin := all.find? fun b => b.name == name

end Scss.Builtin
