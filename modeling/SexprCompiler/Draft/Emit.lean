import SexprCompiler.Draft.Basic
import SexprCompiler.Term.Shape

/-!
# Statements of a term

A term is used either for its value, which is then a typed expression, or as statements. A term
that has a value and is used as a statement assigns it to the blank name. Emitting statements
registers imports and locals as it goes, and what was registered before a fault stays registered;
the statements themselves are added to a draft all together or not at all.
-/
namespace SexprCompiler

open Target (Ty Expr Stmt)

inductive TypeError where
  | unknownTag (tag : String) (line : Nat)
  | notAValue (tag : String)
  | undefinedLocal (name : String)
  | nonBooleanTest (found : Ty)
  | typeMismatch (name : String) (declared found : Ty)
deriving DecidableEq

def TypeError.message : TypeError → String
  | unknownTag tag line => "unexpected node type '" ++ tag ++ "' on line " ++ line.repr
  | notAValue tag => "'" ++ tag ++ "' cannot be used as a value"
  | undefinedLocal name => "undefined local variable '" ++ name ++ "'"
  | nonBooleanTest found => "condition must be bool, found " ++ found.text
  | typeMismatch name declared found =>
    "cannot assign " ++ found.text ++ " to '" ++ name ++ "' declared as " ++ declared.text

structure TypedExpr where
  expr : Expr
  type : Ty

/-- Where a statement stands: in the function's own block or inside a branch. -/
inductive Place where
  | main | branch
deriving DecidableEq

/-- Computations that change a scope, and keep their changes when they fail. -/
abbrev Emit := EStateM TypeError Scope

namespace Term

def value (scope : Scope) : Term → Except TypeError TypedExpr
  | .bool value => .ok ⟨.ident (if value then "true" else "false"), .bool⟩
  | .literal kind text => .ok ⟨.literal kind text, kind.type⟩
  | .var name =>
    match scope.find? name with
    | some entry => .ok ⟨.ident name, entry.type⟩
    | none => .error (.undefinedLocal name)
  | .unknown tag line => .error (.unknownTag tag line)
  | term => .error (.notAValue term.tag)

def emitValue (term : Term) : Emit TypedExpr := do
  match term.value (← get) with
  | .ok typed => return typed
  | .error error => throw error

/-- An assignment. The first one to a name declares the local, in place or ahead of all. -/
def emitAssign (place : Place) (name : String) (term : Term) (line : Nat) : Emit Stmt := do
  let typed ← term.emitValue
  let scope ← get
  match scope.find? name, place with
  | some entry, _ =>
    if entry.type = typed.type then return .assign [.ident name] .update [typed.expr]
    else throw (.typeMismatch name entry.type typed.type)
  | none, .main =>
    set (scope.declare ⟨name, typed.type, line, false⟩)
    return .assign [.ident name] .define [typed.expr]
  | none, .branch =>
    set (scope.declare ⟨name, typed.type, line, true⟩)
    return .assign [.ident name] .update [typed.expr]

def emitTest (term : Term) : Emit Expr := do
  let typed ← term.emitValue
  if typed.type = .bool then return typed.expr else throw (.nonBooleanTest typed.type)

/-- A call of a printing routine, whose package is imported first. -/
def emitPrint (routine : Routine) (argument : Term) : Emit Stmt := do
  modify (·.addImport Routine.package)
  let typed ← argument.emitValue
  return .evaluate (.call (.member (.ident Routine.package) routine.member) [typed.expr])

def emitUnused (term : Term) : Emit Stmt := do
  let typed ← term.emitValue
  return .assign [.ident "_"] .update [typed.expr]

mutual

def emit (place : Place) : Term → Emit (List Stmt)
  | .bool value => return [← emitUnused (.bool value)]
  | .literal kind text => return [← emitUnused (.literal kind text)]
  | .var name => return [← emitUnused (.var name)]
  | .unknown tag line => return [← emitUnused (.unknown tag line)]
  | .assign name value line => return [← emitAssign place name value line]
  | .print routine argument => return [← emitPrint routine argument]
  | .seq items => emitAll place items
  | .cond test body none => do
    let test ← test.emitTest
    let body ← emitAll .branch body
    return [.branch test body none]
  | .cond test body (some otherwise) => do
    let test ← test.emitTest
    let body ← emitAll .branch body
    let otherwise ← emitAll .branch otherwise
    return [.branch test body (some otherwise)]

def emitAll (place : Place) : List Term → Emit (List Stmt)
  | [] => return []
  | term :: terms => do
    let first ← term.emit place
    let others ← emitAll place terms
    return first ++ others

end

end Term

namespace Draft

/-- Adds the statements of a term, if it has any. Registered imports and locals stay either way. -/
def add (draft : Draft) (term : Term) : Except TypeError Unit × Draft :=
  match term.emit .main draft.toScope with
  | .ok stmts scope =>
    (.ok (), { draft with toScope := scope, statements := draft.statements ++ stmts })
  | .error error scope => (.error error, { draft with toScope := scope })

end Draft

end SexprCompiler
