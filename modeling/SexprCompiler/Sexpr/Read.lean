import SexprCompiler.Sexpr.Basic
import SexprCompiler.Token.Basic

/-!
# Reading one tree from tokens

The reader goes through the tokens once and keeps the groups that are still open, innermost
first. A tree that is complete goes into the innermost open group, or is the answer when none is
open. The answer always comes with the tokens that are left, after an error too, so that reading
can go on from there: the faulty token itself is left in place, except that an opening token
that would nest too deep is taken.
-/
namespace SexprCompiler

inductive ReadError where
  | unexpectedEnd
  | unexpectedClosing (line : Nat)
  | unclosedGroup (line : Nat)
  | emptyGroup (line : Nat)
  | invalidTag (lexeme : String) (line : Nat)
  | tooDeep (line : Nat)
deriving DecidableEq

namespace Sexpr

def maxDepth : Nat := 256

end Sexpr

namespace ReadError

def message : ReadError → String
  | unexpectedEnd => "unexpected end of input"
  | unexpectedClosing line => "unexpected closing bracket ')' on line " ++ line.repr
  | unclosedGroup line => "unclosed '(' opened on line " ++ line.repr
  | emptyGroup line => "empty group '()' on line " ++ line.repr
  | invalidTag lexeme line => "invalid group tag '" ++ lexeme ++ "' on line " ++ line.repr
  | tooDeep line =>
    "groups nested deeper than " ++ Sexpr.maxDepth.repr ++ " levels on line " ++ line.repr

end ReadError

namespace Token

/-- The tokens with an end token after them, on the line of the last one, unless they have it. -/
def withEnd (tokens : List Token) : List Token :=
  match tokens.getLast? with
  | none => [endOn 1]
  | some last => if last.role = .ending then tokens else tokens ++ [endOn last.line]

def atEnd : List Token → Bool
  | [] => true
  | token :: _ => token.role == .ending

end Token

namespace Sexpr

/-- A group whose closing token has not been reached: the line of its opening token, its tag,
and its children so far, the latest first. -/
structure OpenGroup where
  line : Nat
  tag : Token
  children : List Sexpr

namespace OpenGroup

def push (group : OpenGroup) (tree : Sexpr) : OpenGroup :=
  { group with children := tree :: group.children }

def close (group : OpenGroup) : Sexpr :=
  ⟨group.tag.lexeme, group.tag.line, group.children.reverse⟩

end OpenGroup

/-- Where the reader is: the line of an opening token whose tag comes next, if one was just read,
and the open groups, innermost first. -/
structure Nesting where
  pending : Option Nat
  groups : List OpenGroup

namespace Nesting

def outside : Nesting := ⟨none, []⟩

def endError : Nesting → ReadError
  | ⟨some line, _⟩ => .unclosedGroup line
  | ⟨none, group :: _⟩ => .unclosedGroup group.line
  | ⟨none, []⟩ => .unexpectedEnd

end Nesting

/-- What a token leads to: on to the next one, to the finished tree, or to a fault, which takes the
token or leaves it. -/
inductive Progress where
  | more (nesting : Nesting)
  | done (tree : Sexpr)
  | fault (error : ReadError) (taken : Bool)

/-- A complete tree goes into the innermost open group. -/
def settle (tree : Sexpr) : List OpenGroup → Progress
  | [] => .done tree
  | group :: outer => .more ⟨none, group.push tree :: outer⟩

def stepTag (line : Nat) (groups : List OpenGroup) (token : Token) : Progress :=
  match token.role with
  | .opening => .fault (.invalidTag token.lexeme token.line) false
  | .closing => .fault (.emptyGroup line) false
  | .ending => .fault (.unclosedGroup line) false
  | .atom => .more ⟨none, ⟨line, token, []⟩ :: groups⟩

def stepTree (groups : List OpenGroup) (token : Token) : Progress :=
  match token.role with
  | .opening =>
    if groups.length = maxDepth then .fault (.tooDeep token.line) true
    else .more ⟨some token.line, groups⟩
  | .closing =>
    match groups with
    | [] => .fault (.unexpectedClosing token.line) false
    | group :: outer => settle group.close outer
  | .ending => .fault (Nesting.endError ⟨none, groups⟩) false
  | .atom => settle (leaf token.lexeme token.line) groups

def step (nesting : Nesting) (token : Token) : Progress :=
  match nesting.pending with
  | some line => stepTag line nesting.groups token
  | none => stepTree nesting.groups token

/-- Reads on from a place among groups. The second part of the answer is what is left. -/
def readFrom (nesting : Nesting) : List Token → Except ReadError Sexpr × List Token
  | [] => (.error nesting.endError, [])
  | token :: rest =>
    match step nesting token with
    | .more nesting => readFrom nesting rest
    | .done tree => (.ok tree, rest)
    | .fault error true => (.error error, rest)
    | .fault error false => (.error error, token :: rest)

def read (tokens : List Token) : Except ReadError Sexpr × List Token :=
  readFrom Nesting.outside tokens

/-- Reading takes tokens off the front and changes none of the others. -/
theorem readFrom_suffix (nesting : Nesting) (tokens : List Token) :
    (readFrom nesting tokens).2 <:+ tokens := by
  induction tokens generalizing nesting with
  | nil => exact List.suffix_refl []
  | cons token rest ih =>
    rw [readFrom]
    split
    · exact (ih _).trans (List.suffix_cons token rest)
    · exact List.suffix_cons token rest
    · exact List.suffix_cons token rest
    · exact List.suffix_refl _

theorem read_suffix (tokens : List Token) : (read tokens).2 <:+ tokens :=
  readFrom_suffix _ tokens

end Sexpr

end SexprCompiler
