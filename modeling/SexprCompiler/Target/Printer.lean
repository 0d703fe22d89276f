import SexprCompiler.Target.Basic
import SexprCompiler.Text

/-!
# The text of a target file

One statement a line, indented by one tab for each block around it. Functions are set off by
blank lines, and so are the imports: one on a line of its own, several in parentheses. In a string
literal the quote, the backslash and the control characters are written as escapes, so the literal
stays on one line and ends at its last character.
-/
namespace SexprCompiler.Target

/-- The characters of the Unicode category `Cc`. -/
def isControl (c : Char) : Bool := c.toNat < 0x20 || 0x7F ≤ c.toNat && c.toNat < 0xA0

def escapeChar : Char → List Char
  | '"' => ['\\', '"']
  | '\\' => ['\\', '\\']
  | '\n' => ['\\', 'n']
  | '\r' => ['\\', 'r']
  | '\t' => ['\\', 't']
  | c => if isControl c then '\\' :: 'u' :: Text.hex 4 c.toNat else [c]

def escape (text : String) : String := String.ofList (text.toList.flatMap escapeChar)

def quote (text : String) : String := "\"" ++ escape text ++ "\""

mutual

def Expr.text : Expr → String
  | .ident name => name
  | .literal _ text => text
  | .member base name => base.text ++ "." ++ name
  | .call function arguments => function.text ++ "(" ++ Expr.listText arguments ++ ")"

def Expr.listText : List Expr → String
  | [] => ""
  | [value] => value.text
  | value :: next :: values => value.text ++ ", " ++ Expr.listText (next :: values)

end

/-- The blanks at the front of a line inside the given number of blocks. -/
def indentation : Nat → String
  | 0 => ""
  | depth + 1 => "\t" ++ indentation depth

mutual

/-- A statement inside the given number of blocks, without its indentation and line end. -/
def Stmt.text (depth : Nat) : Stmt → String
  | .declare name type => "var " ++ name ++ " " ++ type.text
  | .assign left op right =>
    Expr.listText left ++ " " ++ op.text ++ " " ++ Expr.listText right
  | .evaluate value => value.text
  | .branch test body none =>
    "if " ++ test.text ++ " \x7b\n" ++ Stmt.lines (depth + 1) body ++ indentation depth ++ "\x7d"
  | .branch test body (some otherwise) =>
    "if " ++ test.text ++ " \x7b\n" ++ Stmt.lines (depth + 1) body ++ indentation depth
      ++ "\x7d else \x7b\n" ++ Stmt.lines (depth + 1) otherwise ++ indentation depth ++ "\x7d"

def Stmt.lines (depth : Nat) : List Stmt → String
  | [] => ""
  | stmt :: stmts => indentation depth ++ stmt.text depth ++ "\n" ++ Stmt.lines depth stmts

end

def Func.text (function : Func) : String :=
  "func " ++ function.name ++ "() \x7b\n" ++ Stmt.lines 1 function.body ++ "\x7d\n"

/-- The imports of a file, with a blank line before them. -/
def importText : List String → String
  | [] => ""
  | [path] => "\nimport " ++ quote path ++ "\n"
  | paths =>
    "\nimport (\n" ++ String.join (paths.map fun path => "\t" ++ quote path ++ "\n") ++ ")\n"

def File.text (file : File) : String :=
  "package " ++ file.package ++ "\n" ++ importText file.imports
    ++ String.join (file.functions.map fun function => "\n" ++ function.text)

end SexprCompiler.Target
