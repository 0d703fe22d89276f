import SexprCompiler.Sexpr.Basic
import SexprCompiler.Target.Printer
import SexprCompiler.Term.Basic

/-!
# The term of a tree

Each construct asks for a number of children and for leaves in some places; a tree that does not
have this shape is refused with the first fault found. Sequences inside sequences are flattened,
so that no item of a sequence or of a branch is itself a sequence. A name is written with a colon
before it, between quotes, or bare, and has to be a word; a word that the target language keeps for
itself gets a low line at its end.
-/
namespace SexprCompiler

namespace Name

/-- The words that cannot name a local: keywords, predeclared constants, the blank name and the
one package that programs import. -/
def reserved : List String :=
  ["_", "break", "case", "chan", "const", "continue", "default", "defer", "else", "fallthrough",
    "false", "fmt", "for", "func", "go", "goto", "if", "import", "interface", "iota", "map",
    "nil", "package", "range", "return", "select", "struct", "switch", "true", "type", "var"]

def bare : List Char → List Char
  | ':' :: cs => cs
  | cs => Text.unquote cs

def escape (word : String) : String := if word ∈ reserved then word ++ "_" else word

def ofText? (text : String) : Option String :=
  let word := bare text.toList
  if Text.isWord word then some (escape (String.ofList word)) else none

end Name

open Target (LitKind)

inductive ShapeError where
  | arity (tag : String) (expected : List Nat) (found line : Nat)
  | unsupportedSend (receiver selector : String) (line : Nat)
  | invalidName (text : String)
  | invalidTarget (tag : String) (line : Nat)
  | invalidLiteral (tag found : String) (line : Nat)
deriving DecidableEq

def ShapeError.message : ShapeError → String
  | arity tag expected found line =>
    "'" ++ tag ++ "' on line " ++ line.repr ++ " expects "
      ++ " or ".intercalate (expected.map Nat.repr) ++ " children, found " ++ found.repr
  | unsupportedSend receiver selector line =>
    "unsupported call on line " ++ line.repr ++ ": receiver '" ++ receiver ++ "', selector '"
      ++ selector ++ "'"
  | invalidName text => "'" ++ text ++ "' is not a valid identifier"
  | invalidTarget tag line => "invalid assignment target '" ++ tag ++ "' on line " ++ line.repr
  | invalidLiteral tag found line =>
    "'" ++ tag ++ "' on line " ++ line.repr ++ " expects a literal, found '" ++ found ++ "'"

namespace Term

def nameOfText (text : String) : Except ShapeError String :=
  match Name.ofText? text with
  | some name => .ok name
  | none => .error (.invalidName text)

/-- The local that a tree names, by its own tag or by that of its only child. -/
def nameOf (tree : Sexpr) : Except ShapeError String :=
  match tree.children with
  | [] => nameOfText tree.tag
  | [child] =>
    if child.isLeaf then nameOfText child.tag else .error (.invalidTarget tree.tag tree.line)
  | _ => .error (.invalidTarget tree.tag tree.line)

/-- How a blank that breaks a line or moves along it is written in a literal. -/
def visible : Char → List Char
  | '\n' => ['\\', 'n']
  | '\r' => ['\\', 'r']
  | '\t' => ['\\', 't']
  | c => [c]

/-- The target's literal for a lexeme. Text between quotes already has its escapes. -/
def stringLiteral (lexeme : String) : String :=
  match Text.quotedBody? lexeme.toList with
  | some body => "\"" ++ String.ofList (body.flatMap visible) ++ "\""
  | none => Target.quote lexeme

def literalText : LitKind → String → String
  | .string, lexeme => stringLiteral lexeme
  | _, lexeme => String.ofList (Text.unquote lexeme.toList)

/-- A child of a tree with the term that it means, if it means one. -/
structure Part where
  tree : Sexpr
  term : Except ShapeError Term

namespace Part

/-- The items of a part that is a branch. The leaf that stands for nothing has none. -/
def body (part : Part) : Except ShapeError (List Term) :=
  if part.tree.isNil then .ok [] else items <$> part.term

/-- The items of a part that is a second branch, which may stand for nothing. -/
def otherwise (part : Part) : Except ShapeError (Option (List Term)) :=
  if part.tree.isNil then .ok none else some <$> part.body

def sequence : List Part → Except ShapeError (List Term)
  | [] => .ok []
  | part :: parts => do
    let first ← part.term
    let others ← sequence parts
    return first.items ++ others

end Part

/-- The routine that is called when nothing receives a selector. -/
def routineOf? (receiver selector : Sexpr) : Option Routine :=
  if receiver.isNil ∧ selector.isLeaf then Routine.ofSelector? selector.tag else none

def ofParts (construct : Construct) (line : Nat) (parts : List Part) : Except ShapeError Term :=
  let wrongArity (expected : List Nat) : Except ShapeError Term :=
    .error (.arity construct.tag expected parts.length line)
  match construct, parts with
  | .bool value, [] => .ok (.bool value)
  | .bool _, _ => wrongArity [0]
  | .literal kind, [part] =>
    if part.tree.isLeaf then .ok (.literal kind (literalText kind part.tree.tag))
    else .error (.invalidLiteral construct.tag part.tree.tag part.tree.line)
  | .literal kind, [sign, digits] =>
    if kind ≠ .string ∧ sign.tree.isLeaf ∧ sign.tree.tag = "-" ∧ digits.tree.isLeaf then
      .ok (.literal kind ("-" ++ literalText kind digits.tree.tag))
    else wrongArity [1]
  | .literal _, _ => wrongArity [1]
  | .var, [name] => .var <$> nameOf name.tree
  | .var, _ => wrongArity [1]
  | .assign, [target, value] => do
    let name ← nameOf target.tree
    let value ← value.term
    return .assign name value line
  | .assign, _ => wrongArity [2]
  | .cond, [test, body] => do
    let test ← test.term
    let body ← body.body
    return .cond test body none
  | .cond, [test, body, otherwise] => do
    let otherwise ← otherwise.otherwise
    let test ← test.term
    let body ← body.body
    return .cond test body otherwise
  | .cond, _ => wrongArity [2, 3]
  | .send, [receiver, selector, argument] =>
    match routineOf? receiver.tree selector.tree with
    | some routine => .print routine <$> argument.term
    | none => .error (.unsupportedSend receiver.tree.tag selector.tree.tag line)
  | .send, _ => wrongArity [3]
  | .seq, parts => .seq <$> Part.sequence parts

mutual

def ofSexpr : Sexpr → Except ShapeError Term
  | ⟨tag, line, children⟩ =>
    match Construct.ofTag? tag with
    | some construct => ofParts construct line (partsOf children)
    | none => .ok (.unknown tag line)

def partsOf : List Sexpr → List Part
  | [] => []
  | tree :: trees => ⟨tree, ofSexpr tree⟩ :: partsOf trees

end

theorem partsOf_eq_map (trees : List Sexpr) :
    partsOf trees = trees.map fun tree => ⟨tree, ofSexpr tree⟩ := by
  induction trees with
  | nil => simp [partsOf]
  | cons tree trees ih => simp [partsOf, ih]

theorem ofSexpr_of_ofTag? {tree : Sexpr} {construct : Construct}
    (h : Construct.ofTag? tree.tag = some construct) :
    ofSexpr tree =
      ofParts construct tree.line (tree.children.map fun child => ⟨child, ofSexpr child⟩) := by
  obtain ⟨tag, line, children⟩ := tree
  rw [ofSexpr, h, partsOf_eq_map]

theorem ofSexpr_of_ofTag?_none {tree : Sexpr} (h : Construct.ofTag? tree.tag = none) :
    ofSexpr tree = .ok (.unknown tree.tag tree.line) := by
  obtain ⟨tag, line, children⟩ := tree
  rw [ofSexpr, h]

end Term

end SexprCompiler
