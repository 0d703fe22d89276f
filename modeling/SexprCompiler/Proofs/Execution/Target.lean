import SexprCompiler.Proofs.Execution.Term

/-!
# Running target programs

A machine for the statements of a function body. Variables live in blocks: a declaration puts one
into the innermost block, an update changes the innermost visible one of its name, and leaving a
block drops its variables. A variable keeps the type that it started with. Whatever the language
does not allow is a fault: a name that is not visible, a second declaration in the same block, a
value of another type, a package that is not imported or is hidden by a variable.
-/
namespace SexprCompiler

open Target (Ty)

/-- The value of a variable that was declared and not assigned. -/
def Value.zero : Ty → Value
  | .bool => .bool false
  | .int => .literal .int "0"
  | .float => .literal .float "0.0"
  | .string => .literal .string "\"\""

@[simp] theorem Value.type_zero (type : Ty) : (zero type).type = type := by
  cases type <;> rfl

def Routine.ofMember? (member : String) : Option Routine :=
  if member = println.member then some println
  else if member = print.member then some print
  else none

theorem Routine.ofMember?_member (routine : Routine) : ofMember? routine.member = some routine := by
  cases routine <;> decide

namespace Target

inductive Fault where
  | undefined (name : String)
  | redeclared (name : String)
  | mismatched (name : String)
  | notBoolean
  | unsupported
deriving DecidableEq

abbrev Block := String → Option Value

def Block.empty : Block := fun _ => none

def lookup (name : String) : List Block → Option Value
  | [] => none
  | block :: outer => (block name).or (lookup name outer)

/-- Puts a new variable into the innermost block. -/
def introduce (name : String) (value : Value) : List Block → Except Fault (List Block)
  | [] => .error .unsupported
  | block :: outer =>
    if (block name).isSome then .error (.redeclared name)
    else .ok (Function.update block name (some value) :: outer)

/-- Changes the innermost visible variable of a name. -/
def store (name : String) (value : Value) : List Block → Except Fault (List Block)
  | [] => .error (.undefined name)
  | block :: outer =>
    match block name with
    | some old =>
      if old.type = value.type then .ok (Function.update block name (some value) :: outer)
      else .error (.mismatched name)
    | none => (block :: ·) <$> store name value outer

/-- The open blocks, innermost first, and what was printed. -/
structure Machine where
  blocks : List Block
  trace : Trace

namespace Machine

/-- At the start of a function only its own block is open. -/
def start : Machine := ⟨[Block.empty], []⟩

def enter (machine : Machine) : Machine := { machine with blocks := Block.empty :: machine.blocks }

def leave (machine : Machine) : Machine := { machine with blocks := machine.blocks.tail }

def eval (machine : Machine) : Expr → Except Fault Value
  | .ident name =>
    match lookup name machine.blocks with
    | some value => .ok value
    | none =>
      -- The predeclared constants lie outside all blocks.
      if name = "true" then .ok (.bool true)
      else if name = "false" then .ok (.bool false)
      else .error (.undefined name)
  | .literal kind text => .ok (.literal kind text)
  | _ => .error .unsupported

def truth (machine : Machine) (test : Expr) : Except Fault Bool := do
  match ← machine.eval test with
  | .bool value => return value
  | .literal _ _ => throw .notBoolean

/-- The routine that an expression names, as a member of an imported package. -/
def routine (imports : List String) (machine : Machine) : Expr → Except Fault Routine
  | .member (.ident package) member =>
    if package ∈ imports ∧ package = Routine.package ∧ lookup package machine.blocks = none then
      match Routine.ofMember? member with
      | some routine => .ok routine
      | none => .error (.undefined member)
    else .error (.undefined package)
  | _ => .error .unsupported

/-- An assignment of a value to a name. The blank name takes any value and is never declared. -/
def assign (machine : Machine) (name : String) (value : Value) : AssignOp → Except Fault Machine
  | .define => do
    if name = "_" then throw (.undefined name)
    return { machine with blocks := ← introduce name value machine.blocks }
  | .update => do
    if name = "_" then return machine
    return { machine with blocks := ← store name value machine.blocks }

@[simp] theorem assign_blank (machine : Machine) (value : Value) :
    machine.assign "_" value .update = .ok machine := rfl

theorem assign_define {machine : Machine} {name : String} {value : Value} {blocks : List Block}
    (hname : name ≠ "_") (h : introduce name value machine.blocks = .ok blocks) :
    machine.assign name value .define = .ok { machine with blocks := blocks } := by
  simp only [assign, hname, h, if_false]
  rfl

theorem assign_update {machine : Machine} {name : String} {value : Value} {blocks : List Block}
    (hname : name ≠ "_") (h : store name value machine.blocks = .ok blocks) :
    machine.assign name value .update = .ok { machine with blocks := blocks } := by
  simp only [assign, hname, h, if_false]
  rfl

end Machine

mutual

def Stmt.exec (imports : List String) (machine : Machine) : Stmt → Except Fault Machine
  | .declare name type => do
    if name = "_" then return machine
    return { machine with blocks := ← introduce name (.zero type) machine.blocks }
  | .assign [.ident name] op [right] => do
    let value ← machine.eval right
    machine.assign name value op
  | .evaluate (.call function [argument]) => do
    let routine ← machine.routine imports function
    let value ← machine.eval argument
    return { machine with trace := machine.trace ++ [(routine, value)] }
  | .branch test body none => do
    if ← machine.truth test then
      return (← Stmt.execAll imports machine.enter body).leave
    else return machine
  | .branch test body (some otherwise) => do
    if ← machine.truth test then
      return (← Stmt.execAll imports machine.enter body).leave
    else return (← Stmt.execAll imports machine.enter otherwise).leave
  | _ => .error .unsupported

def Stmt.execAll (imports : List String) (machine : Machine) : List Stmt → Except Fault Machine
  | [] => return machine
  | stmt :: stmts => do
    let next ← stmt.exec imports machine
    Stmt.execAll imports next stmts

end

def File.run (file : File) : Except Fault Machine :=
  match file.functions.find? (·.name == "main") with
  | some function => Stmt.execAll file.imports Machine.start function.body
  | none => .error (.undefined "main")

end Target

end SexprCompiler
