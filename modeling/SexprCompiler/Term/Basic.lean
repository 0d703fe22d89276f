import SexprCompiler.Target.Basic

/-!
# Terms

What a tree of groups means. The groups are the printed syntax tree of a small part of Ruby: a
program over local variables with literals, assignments, conditionals, printing and sequences. A
group whose tag has no meaning is kept as an unknown term, since only its use is an error.
-/
namespace SexprCompiler

open Target (LitKind)

/-- The two ways to print a value. -/
inductive Routine where
  | println | print
deriving DecidableEq

namespace Routine

def package : String := "fmt"

def member : Routine → String
  | println => "Println"
  | print => "Print"

/-- The routine that a selector of the source notation stands for. -/
def ofSelector? (selector : String) : Option Routine :=
  if selector = ":puts" then some println
  else if selector = ":print" then some print
  else none

end Routine

inductive Term where
  | bool (value : Bool)
  | literal (kind : LitKind) (text : String)
  | var (name : String)
  | assign (name : String) (value : Term) (line : Nat)
  | cond (test : Term) (body : List Term) (otherwise : Option (List Term))
  | print (routine : Routine) (argument : Term)
  | seq (items : List Term)
  | unknown (tag : String) (line : Nat)

/-- The constructs that have a tag of their own. -/
inductive Construct where
  | bool (value : Bool)
  | literal (kind : LitKind)
  | var | assign | cond | send | seq
deriving DecidableEq

namespace Construct

def tag : Construct → String
  | bool true => ":true"
  | bool false => ":false"
  | literal .int => ":int"
  | literal .float => ":float"
  | literal .string => ":str"
  | var => ":lvar"
  | assign => ":lvasgn"
  | cond => ":if"
  | send => ":send"
  | seq => ":begin"

def all : List Construct :=
  [bool true, bool false, literal .int, literal .float, literal .string, var, assign, cond, send,
    seq]

def ofTag? (tag : String) : Option Construct :=
  all.find? fun construct => construct.tag == tag

theorem ofTag?_tag (construct : Construct) : ofTag? construct.tag = some construct := by
  rcases construct with (_ | _) | (_ | _ | _) | _ | _ | _ | _ | _ <;> decide

theorem tag_of_ofTag? {tag : String} {construct : Construct} (h : ofTag? tag = some construct) :
    construct.tag = tag := by
  simpa using List.find?_some h

end Construct

namespace Term

def tag : Term → String
  | bool value => (Construct.bool value).tag
  | literal kind _ => (Construct.literal kind).tag
  | var _ => Construct.var.tag
  | assign _ _ _ => Construct.assign.tag
  | cond _ _ _ => Construct.cond.tag
  | print _ _ => Construct.send.tag
  | seq _ => Construct.seq.tag
  | unknown tag _ => tag

/-- The terms that a term contributes to a sequence: a sequence gives its own items. -/
def items : Term → List Term
  | seq items => items
  | term => [term]

end Term

end SexprCompiler
