import SexprCompiler.Text
import SexprCompiler.Token.Basic

/-!
# Cutting a text into tokens

At every place the scanner takes one piece: the longest text of its class that starts there.
A piece either becomes a token or is skipped (separators, and a string that is never closed,
which takes all the rest). Every piece is a stretch of the text, so nothing is lost or altered,
and a token's line is one more than the number of line feeds up to the end of its piece.
Every text can be scanned; characters of no class become `invalid` tokens.
-/
namespace SexprCompiler.Token

def endsKeyword (c : Char) : Bool :=
  c == ',' || c == '(' || c == ')' || Text.isBlank c

/-- The number of characters from after an opening quote up to and with the closing one. A
backslash takes the character after it along. -/
def closingQuote : List Char → Option Nat
  | [] => none
  | '"' :: _ => some 1
  | ['\\'] => none
  | '\\' :: _ :: rest => (closingQuote rest).map (· + 2)
  | _ :: rest => (closingQuote rest).map (· + 1)

/-- What starts at a place of the text: the kind of its token, or `none` for skipped text, and
the number of characters that belong to it after the first. -/
structure Piece where
  kind : Option Kind
  extra : Nat
deriving DecidableEq

def run (p : Char → Bool) (cs : List Char) : Nat := (cs.takeWhile p).length

def comparison (alone doubled : Kind) : List Char → Piece
  | '=' :: _ => ⟨some doubled, 1⟩
  | _ => ⟨some alone, 0⟩

/-- A number after its first digit. A decimal point without a digit behind it spoils it. -/
def number (cs : List Char) : Piece :=
  let whole := run Char.isDigit cs
  match cs.drop whole with
  | '.' :: rest =>
    let fraction := run Char.isDigit rest
    if fraction = 0 then ⟨some .invalid, whole + 1⟩ else ⟨some .number, whole + 1 + fraction⟩
  | _ => ⟨some .number, whole⟩

/-- A string after its opening quote. One that is never closed is skipped to the end. -/
def quoted (cs : List Char) : Piece :=
  match closingQuote cs with
  | some extra => ⟨some .string, extra⟩
  | none => ⟨none, cs.length⟩

def piece (c : Char) (cs : List Char) : Piece :=
  match c with
  | '(' => ⟨some .leftParen, 0⟩
  | ')' => ⟨some .rightParen, 0⟩
  | ',' | ' ' | '\t' | '\r' | '\n' => ⟨none, 0⟩
  | ':' => ⟨some .keyword, run (fun c => !endsKeyword c) cs⟩
  | '"' => quoted cs
  | '+' => ⟨some .plus, 0⟩
  | '-' => ⟨some .minus, 0⟩
  | '*' => ⟨some .star, 0⟩
  | '/' => ⟨some .slash, 0⟩
  | '!' => comparison .bang .bangEqual cs
  | '=' => comparison .equal .equalEqual cs
  | '>' => comparison .greater .greaterEqual cs
  | '<' => comparison .less .lessEqual cs
  | c =>
    if Text.isLetter c then ⟨some .name, run Text.isLetter cs⟩
    else if c.isDigit then number cs
    else ⟨some .invalid, 0⟩

def scanFrom (line : Nat) : List Char → List Token
  | [] => [endOn line]
  | c :: cs =>
    let found := piece c cs
    let text := c :: cs.take found.extra
    let line := line + text.count '\n'
    let rest := scanFrom line (cs.drop found.extra)
    match found.kind with
    | some kind => ⟨kind, String.ofList text, line⟩ :: rest
    | none => rest
termination_by cs => cs.length

def scan (source : String) : List Token := scanFrom 1 source.toList

end SexprCompiler.Token
