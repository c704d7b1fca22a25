import Scss.Decimal.Fixed
import Scss.Statistics

/-!
# Reports

What the program prints about its work. How long the work took is known only when it is done, so a
line can hold a place for that.
-/

namespace Scss.CommandLine

/-- A line of output. -/
inductive Line where
  | text (content : String)
  /-- A number of milliseconds between two texts. -/
  | timed (before behind : String)
  deriving DecidableEq, Repr

def Line.render (milliseconds : Nat) : Line → String
  | text content => content
  | timed before behind => before ++ toString milliseconds ++ behind

/-- What lines look like when printed. -/
def renderLines (milliseconds : Nat) (lines : List Line) : String :=
  String.join (lines.map fun line => line.render milliseconds ++ "\n")

/-! ## Reports on a compilation -/

def compiling (input output : String) : Line :=
  .text ("🔨 Compiling " ++ input ++ " -> " ++ output)

private def figure (label : String) (n : Nat) (unit : String) : Line :=
  .text ("   " ++ label ++ ": " ++ toString n ++ unit)

/-- The lines on a compilation that succeeded. -/
def success (s : Statistics) : List Line :=
  [.text "✅ Compilation successful!", figure "Output" s.outputSize " bytes",
    .timed "   Time: " "ms"] ++
  (if 0 < s.warnings then [figure "Warnings" s.warnings ""] else [])

/-- All figures of a compilation, one on a line. -/
def details (s : Statistics) : List Line :=
  [.text "", .text "📈 Detailed Statistics:", figure "Source size" s.sourceSize " bytes",
    figure "Output size" s.outputSize " bytes", figure "Rules" s.blocks.rules "",
    figure "Media blocks" s.blocks.media "", figure "Imports" s.imports "",
    figure "Extensions" s.extensions "", figure "Warnings" s.warnings "",
    .timed "   Compile time: " "ms"]

/-- All figures of a compilation as a JSON object. -/
def detailsAsJson (s : Statistics) : List Line :=
  let field (key : String) (n : Nat) : Line :=
    .text ("  \"" ++ key ++ "\": " ++ toString n ++ ",")
  [.text "\x7b", field "source_size" s.sourceSize, field "output_size" s.outputSize,
    field "rule_count" s.blocks.rules, field "media_count" s.blocks.media,
    field "import_count" s.imports, field "extension_count" s.extensions,
    field "warning_count" s.warnings, .timed "  \"compile_time_ms\": " "", .text "\x7d"]

/-! ## Reports on a check -/

def checking (path : String) : Line := .text ("🔍 Checking " ++ path)

def noIssues (path : String) : Line := .text ("✅ " ++ path ++ " - No issues found")

def issue (path message : String) : Line := .text ("❌ " ++ path ++ " - " ++ message)

/-- A share in percent with one decimal. -/
def percentage (part whole : Nat) : String :=
  let share : Float := part.toFloat / whole.toFloat * 100.0
  match Decimal.Binary.ofFloat share with
  | .finite _ m q =>
    String.ofList (Decimal.fixedPoint 1
      (Decimal.roundDivEven (m * Decimal.pow2 q.toNat * 10) (Decimal.pow2 (-q).toNat)))
  | _ => ""

/-- The lines that sum up a check of many files. -/
def summary (files failed : Nat) : List Line :=
  [.text "", .text "📊 Check Summary:", figure "Total files" files "",
    figure "Files with errors" failed ""] ++
  (if 0 < files then [.text ("   Success rate: " ++ percentage (files - failed) files ++ "%")]
    else [])

end Scss.CommandLine
