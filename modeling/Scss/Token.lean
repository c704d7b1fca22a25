import Scss.Decimal.Shortest
import Scss.Position

/-!
# Tokens

A stylesheet is read as a list of tokens. A token knows the text it was written as, so the source
of a selector or a query can be put together again, and where that text begins and ends, so
that touching tokens can be told from separated ones.
-/

namespace Scss

/-- Marks that carry no text of their own. -/
inductive Mark where
  | interpolation
  | openBrace | closeBrace | openParen | closeParen | openBracket | closeBracket
  | colon | semicolon | comma | dot | ampersand | tilde
  | plus | minus | star | slash | percent
  | equal | notEqual | less | lessEqual | greater | greaterEqual
  deriving DecidableEq, Repr

def Mark.text : Mark → String
  | interpolation => "#\x7b"
  | openBrace => "\x7b" | closeBrace => "\x7d"
  | openParen => "(" | closeParen => ")"
  | openBracket => "[" | closeBracket => "]"
  | colon => ":" | semicolon => ";" | comma => "," | dot => "." | ampersand => "&" | tilde => "~"
  | plus => "+" | minus => "-" | star => "*" | slash => "/" | percent => "%"
  | equal => "==" | notEqual => "!="
  | less => "<" | lessEqual => "<=" | greater => ">" | greaterEqual => ">="

namespace Token

inductive Kind where
  | word (name : String)
  | variable (name : String)
  | atWord (name : String)
  | number (value : Float) (unit : String)
  /-- A word behind `#`, a color or an id. -/
  | hash (name : String)
  /-- A string; its text is kept as it stands between the quotes. -/
  | quoted (text : String) (quote : Char)
  /-- A function whose argument is not read as an expression. -/
  | rawCall (name argument : String)
  | mark (m : Mark)
  /-- A flag such as `!default`. -/
  | flag (name : String)
  | blank
  | comment (text : String)
  /-- A character with no meaning of its own. -/
  | stray (c : Char)
  | finish
  deriving Repr

/-- How messages name a token. -/
def Kind.describe : Kind → String
  | .word name => "identifier '" ++ name ++ "'"
  | .variable name => "variable '$" ++ name ++ "'"
  | .atWord name => "'@" ++ name ++ "'"
  | .number value unit => "number '" ++ Decimal.display value ++ unit ++ "'"
  | .hash name => "'#" ++ name ++ "'"
  | .quoted text quote => "string " ++ quote.toString ++ text ++ quote.toString
  | .rawCall name _ => "'" ++ name ++ "(...)'"
  | .mark m => "'" ++ m.text ++ "'"
  | .flag name => "'!" ++ name ++ "'"
  | .blank => "whitespace"
  | .comment _ => "comment"
  | .stray c => "'" ++ c.toString ++ "'"
  | .finish => "end of file"

/-- Whether the token only separates others. -/
def Kind.isBlank : Kind → Bool
  | .blank | .comment _ => true
  | _ => false

/-- Whether a dash right behind this token subtracts, so that it cannot begin a negative number. -/
def Kind.endsOperand : Kind → Bool
  | .word _ | .variable _ | .number .. | .quoted .. | .hash _ => true
  | .mark .closeParen | .mark .closeBracket => true
  | _ => false

end Token

/-- A token with its place: the characters from `start` up to `stop` of the text it was read from. -/
structure Token where
  kind : Token.Kind
  position : Position
  start : Nat
  stop : Nat
  text : String
  deriving Repr

end Scss
