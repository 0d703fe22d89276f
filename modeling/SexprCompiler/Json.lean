import SexprCompiler.Text

/-!
# JSON text

The values that listings are made of, and their two layouts: compact without any blanks, and
pretty with one entry a line and two blanks for each level. Strings escape the quote, the
backslash and the characters below the blank; all others stand for themselves.
-/
namespace SexprCompiler

inductive Json where
  | number (value : Nat)
  | string (text : String)
  | array (items : List Json)
  | object (fields : List (String × Json))

namespace Json

def escapeChar : Char → List Char
  | '"' => ['\\', '"']
  | '\\' => ['\\', '\\']
  | '\x08' => ['\\', 'b']
  | '\x0c' => ['\\', 'f']
  | '\n' => ['\\', 'n']
  | '\r' => ['\\', 'r']
  | '\t' => ['\\', 't']
  | c => if c.toNat < 0x20 then '\\' :: 'u' :: Text.hex 4 c.toNat else [c]

def quote (text : String) : String :=
  "\"" ++ String.ofList (text.toList.flatMap escapeChar) ++ "\""

mutual

/-- A value without blanks. -/
def compact : Json → String
  | number value => value.repr
  | string text => quote text
  | array items => "[" ++ compactItems items ++ "]"
  | object fields => "\x7b" ++ compactFields fields ++ "\x7d"

def compactItems : List Json → String
  | [] => ""
  | [item] => item.compact
  | item :: next :: items => item.compact ++ "," ++ compactItems (next :: items)

def compactFields : List (String × Json) → String
  | [] => ""
  | [(key, value)] => quote key ++ ":" ++ value.compact
  | (key, value) :: next :: fields =>
    quote key ++ ":" ++ value.compact ++ "," ++ compactFields (next :: fields)

end

/-- The start of a line at the given level. -/
def newLine : Nat → String
  | 0 => "\n"
  | level + 1 => newLine level ++ "  "

mutual

/-- A value over several lines, the first of which stands at the given level. -/
def prettyAt (level : Nat) : Json → String
  | number value => value.repr
  | string text => quote text
  | array [] => "[]"
  | array (item :: items) =>
    "[" ++ prettyItems (level + 1) (item :: items) ++ newLine level ++ "]"
  | object [] => "\x7b\x7d"
  | object (field :: fields) =>
    "\x7b" ++ prettyFields (level + 1) (field :: fields) ++ newLine level ++ "\x7d"

def prettyItems (level : Nat) : List Json → String
  | [] => ""
  | [item] => newLine level ++ item.prettyAt level
  | item :: next :: items =>
    newLine level ++ item.prettyAt level ++ "," ++ prettyItems level (next :: items)

def prettyFields (level : Nat) : List (String × Json) → String
  | [] => ""
  | [(key, value)] => newLine level ++ quote key ++ ": " ++ value.prettyAt level
  | (key, value) :: next :: fields =>
    newLine level ++ quote key ++ ": " ++ value.prettyAt level ++ ","
      ++ prettyFields level (next :: fields)

end

def pretty (json : Json) : String := json.prettyAt 0

end Json

end SexprCompiler
