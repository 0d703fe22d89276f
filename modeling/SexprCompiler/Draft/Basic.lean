import SexprCompiler.Target.Printer

/-!
# Programs under construction

A draft collects the statements of a function `main` together with what they rely on: the
packages to import and the locals in use. A local is declared where it is first assigned, or, when
that is inside a branch, hoisted: declared ahead of all statements. Imports and locals keep the
order in which they came, and what is registered once is never changed.
-/
namespace SexprCompiler

open Target (Ty Stmt File)

/-- A local variable: its type, the line of its first assignment, and whether its declaration
stands ahead of all statements. -/
structure Local where
  name : String
  type : Ty
  line : Nat
  hoisted : Bool
deriving DecidableEq

structure Scope where
  imports : List String
  locals : List Local
deriving DecidableEq

namespace Scope

def empty : Scope := ⟨[], []⟩

def hasImport (scope : Scope) (path : String) : Bool := scope.imports.contains path

def addImport (scope : Scope) (path : String) : Scope :=
  if scope.hasImport path then scope else { scope with imports := scope.imports ++ [path] }

def find? (scope : Scope) (name : String) : Option Local :=
  scope.locals.find? fun entry => entry.name == name

/-- Adds a local, unless one of its name is there. -/
def declare (scope : Scope) (entry : Local) : Scope :=
  if (scope.find? entry.name).isSome then scope
  else { scope with locals := scope.locals ++ [entry] }

def hoisted (scope : Scope) : List Local := scope.locals.filter (·.hoisted)

theorem find?_name {scope : Scope} {name : String} {entry : Local}
    (h : scope.find? name = some entry) : entry.name = name := by
  simpa using List.find?_some h

/-- A look-up after a declaration finds what it found before, or else the new local. -/
theorem find?_declare (scope : Scope) (entry : Local) (name : String) :
    (scope.declare entry).find? name =
      (scope.find? name).or (if entry.name = name then some entry else none) := by
  unfold declare
  split
  · rename_i h
    by_cases hn : entry.name = name
    · subst hn
      obtain ⟨found, hf⟩ := Option.isSome_iff_exists.mp h
      simp [hf]
    · simp [hn]
  · simp only [find?, List.find?_append]
    simp [List.find?_singleton]

theorem mem_imports_addImport (scope : Scope) (path other : String) :
    other ∈ (scope.addImport path).imports ↔ other ∈ scope.imports ∨ other = path := by
  unfold addImport hasImport
  split
  · rename_i h
    constructor
    · exact Or.inl
    · rintro (hm | rfl)
      · exact hm
      · simpa using h
  · simp

end Scope

structure Draft extends Scope where
  package : String
  statements : List Stmt

namespace Draft

/-- The package of programs that ask for none. -/
def defaultPackage : String := "main"

def empty (package : String) : Draft := { Scope.empty with package, statements := [] }

def append (draft : Draft) (stmt : Stmt) : Draft :=
  { draft with statements := draft.statements ++ [stmt] }

/-- The body of `main`: the hoisted declarations and then the statements. -/
def body (draft : Draft) : List Stmt :=
  draft.hoisted.map (fun entry => .declare entry.name entry.type) ++ draft.statements

def file (draft : Draft) : File :=
  ⟨draft.package, draft.imports, [⟨"main", draft.body⟩]⟩

def text (draft : Draft) : String := draft.file.text

end Draft

end SexprCompiler
