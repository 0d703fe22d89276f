/-!
# Tokens

A token is a piece of source text together with its kind and the number of the line on which it
ends. A reader of nested groups does not look at the kind itself but only at the token's role:
whether it opens a group, closes one, ends the input, or stands for itself.
-/
namespace SexprCompiler

/-- The lexical classes of the source notation. -/
inductive Token.Kind where
  | leftParen | rightParen
  | eof | invalid
  | string | name | keyword | number
  | plus | minus | star | slash
  | bang | equal | greater | less
  | bangEqual | equalEqual | greaterEqual | lessEqual
deriving DecidableEq

structure Token where
  kind : Token.Kind
  lexeme : String
  line : Nat
deriving DecidableEq

namespace Token

/-- The token that ends an input, on the given line. -/
def endOn (line : Nat) : Token := ⟨.eof, "", line⟩

/-- What a token does to the nesting of groups. -/
inductive Role where
  | opening | closing | ending | atom
deriving DecidableEq

namespace Kind

def label : Kind → String
  | leftParen => "LEFT_PAREN"
  | rightParen => "RIGHT_PAREN"
  | eof => "EOF"
  | invalid => "INVALID"
  | string => "STRING"
  | name => "NAME"
  | keyword => "KEYWORD"
  | number => "NUMBER"
  | plus => "PLUS"
  | minus => "MINUS"
  | star => "STAR"
  | slash => "SLASH"
  | bang => "BANG"
  | equal => "EQUAL"
  | greater => "GREATER"
  | less => "LESS"
  | bangEqual => "BANG_EQUAL"
  | equalEqual => "EQUAL_EQUAL"
  | greaterEqual => "GREATER_EQUAL"
  | lessEqual => "LESS_EQUAL"

def all : List Kind :=
  [leftParen, rightParen, eof, invalid, string, name, keyword, number, plus, minus, star, slash,
    bang, equal, greater, less, bangEqual, equalEqual, greaterEqual, lessEqual]

def ofLabel? (text : String) : Option Kind :=
  all.find? fun kind => kind.label == text

theorem ofLabel?_label (kind : Kind) : ofLabel? kind.label = some kind := by
  cases kind <;> decide

def role : Kind → Role
  | leftParen => .opening
  | rightParen => .closing
  | eof => .ending
  | _ => .atom

end Kind

def role (token : Token) : Role := token.kind.role

@[simp] theorem role_endOn (line : Nat) : (endOn line).role = .ending := rfl

end Token

end SexprCompiler
