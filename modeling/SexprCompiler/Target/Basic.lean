/-!
# The target language

The part of Go that is produced: a file with imports and functions without parameters, whose
bodies declare and assign variables, call functions of packages and branch. Names and literals
are kept as they will be written.
-/
namespace SexprCompiler.Target

inductive Ty where
  | bool | int | float | string
deriving DecidableEq

def Ty.text : Ty → String
  | bool => "bool"
  | int => "int"
  | float => "float64"
  | string => "string"

inductive LitKind where
  | int | float | string
deriving DecidableEq

def LitKind.type : LitKind → Ty
  | int => .int
  | float => .float
  | string => .string

inductive Expr where
  | ident (name : String)
  | literal (kind : LitKind) (text : String)
  | member (base : Expr) (name : String)
  | call (function : Expr) (arguments : List Expr)

/-- An assignment to new variables or to existing ones. -/
inductive AssignOp where
  | define | update
deriving DecidableEq

def AssignOp.text : AssignOp → String
  | define => ":="
  | update => "="

inductive Stmt where
  | declare (name : String) (type : Ty)
  | assign (left : List Expr) (op : AssignOp) (right : List Expr)
  | evaluate (value : Expr)
  | branch (test : Expr) (body : List Stmt) (otherwise : Option (List Stmt))

/-- A function without parameters and results. -/
structure Func where
  name : String
  body : List Stmt

structure File where
  package : String
  imports : List String
  functions : List Func

end SexprCompiler.Target
