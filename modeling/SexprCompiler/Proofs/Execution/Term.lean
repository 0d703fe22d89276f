import Mathlib.Logic.Function.Basic
import SexprCompiler.Term.Basic

/-!
# Running terms

Terms run in order over one flat set of locals, each of which holds a value once it has been
assigned. A run prints values by the two routines, and what it printed is its trace. A run stops
early where no next step makes sense, above all at a local that has not been assigned so far.
-/
namespace SexprCompiler

open Target (Ty LitKind)

/-- What a local can hold. A literal denotes its kind and its text. -/
inductive Value where
  | bool (value : Bool)
  | literal (kind : LitKind) (text : String)
deriving DecidableEq

def Value.type : Value → Ty
  | bool _ => .bool
  | literal kind _ => kind.type

/-- What was printed and by which routine, in order. -/
abbrev Trace := List (Routine × Value)

namespace Term

inductive Fault where
  | unassigned (name : String)
  | notAValue (tag : String)
  | notBoolean
deriving DecidableEq

/-- The locals that have been assigned so far, with their values. -/
abbrev Store := String → Option Value

structure State where
  store : Store
  trace : Trace

namespace State

def start : State := ⟨fun _ => none, []⟩

def assign (state : State) (name : String) (value : Value) : State :=
  { state with store := Function.update state.store name (some value) }

def print (state : State) (routine : Routine) (value : Value) : State :=
  { state with trace := state.trace ++ [(routine, value)] }

end State

/-- The value of a term, which only reads locals. -/
def eval (store : Store) : Term → Except Fault Value
  | .bool value => .ok (.bool value)
  | .literal kind text => .ok (.literal kind text)
  | .var name =>
    match store name with
    | some value => .ok value
    | none => .error (.unassigned name)
  | term => .error (.notAValue term.tag)

def truth (store : Store) (test : Term) : Except Fault Bool := do
  match ← test.eval store with
  | .bool value => return value
  | .literal _ _ => throw .notBoolean

mutual

/-- Runs a term as a statement. One that only has a value is read and changes nothing. -/
def run (state : State) : Term → Except Fault State
  | .assign name value _ => do
    let found ← value.eval state.store
    return state.assign name found
  | .print routine argument => do
    let found ← argument.eval state.store
    return state.print routine found
  | .cond test body none => do
    if ← test.truth state.store then runAll state body else return state
  | .cond test body (some otherwise) => do
    if ← test.truth state.store then runAll state body else runAll state otherwise
  | .seq items => runAll state items
  | term => do
    let _ ← term.eval state.store
    return state

def runAll (state : State) : List Term → Except Fault State
  | [] => return state
  | term :: terms => do
    let next ← term.run state
    runAll next terms

end

end Term

end SexprCompiler
