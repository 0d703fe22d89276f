import SexprCompiler.Proofs.Session

/-!
# Imports and their use

A package is used where one of its members is named. Printing imports its package before it is
known whether the statement can be made, and an import that was registered before a fault stays in
the scope. Trees with a fault are not added to a draft, though, so what a draft imports is exactly
what its statements use: one package, if a routine of it is called at some depth, or none.
-/
namespace SexprCompiler

open Target (Expr Stmt File Func)

namespace Target

mutual

def Expr.packages : Expr → List String
  | .ident _ => []
  | .literal _ _ => []
  | .member (.ident package) _ => [package]
  | .member base _ => base.packages
  | .call function arguments => function.packages ++ Expr.packagesAll arguments

def Expr.packagesAll : List Expr → List String
  | [] => []
  | value :: values => value.packages ++ Expr.packagesAll values

end

namespace Stmt

def isCallFrom (package : String) : Stmt → Bool
  | .evaluate (.call (.member (.ident base) _) _) => base == package
  | _ => false

/-- The expressions of a statement, without those of the statements inside it. -/
def expressions : Stmt → List Expr
  | .declare _ _ => []
  | .assign left _ right => left ++ right
  | .evaluate value => [value]
  | .branch test _ _ => [test]

mutual

/-- A statement with all statements in the blocks inside it. -/
def nested : Stmt → List Stmt
  | .branch test body none => .branch test body none :: nestedAll body
  | .branch test body (some otherwise) =>
    .branch test body (some otherwise) :: (nestedAll body ++ nestedAll otherwise)
  | stmt => [stmt]

def nestedAll : List Stmt → List Stmt
  | [] => []
  | stmt :: stmts => stmt.nested ++ nestedAll stmts

end

@[simp] theorem nestedAll_append (stmts others : List Stmt) :
    nestedAll (stmts ++ others) = nestedAll stmts ++ nestedAll others := by
  induction stmts with
  | nil => rfl
  | cons stmt stmts ih => simp [nestedAll, ih]

def packages (stmt : Stmt) : List String := stmt.expressions.flatMap Expr.packages

theorem mem_packages_of_isCallFrom {stmt : Stmt} {path : String}
    (h : stmt.isCallFrom path = true) : path ∈ stmt.packages := by
  unfold isCallFrom at h
  split at h
  · obtain rfl := eq_of_beq h
    simp [packages, expressions, Expr.packages]
  · cases h

end Stmt

def File.packages (file : File) : List String :=
  file.functions.flatMap fun function => (Stmt.nestedAll function.body).flatMap Stmt.packages

end Target

/-! ## What emitting imports -/

namespace Scope

/-- A scope imports the package of the routines if it is used, and nothing else. -/
def ImportsFor (scope : Scope) (used : Bool) : Prop :=
  scope.imports = if used then [Routine.package] else []

theorem ImportsFor.addImport {scope : Scope} {used : Bool} (h : scope.ImportsFor used) :
    (scope.addImport Routine.package).ImportsFor true := by
  unfold ImportsFor at h ⊢
  cases used <;> simp_all [Scope.addImport, hasImport]

theorem imports_declare (scope : Scope) (entry : Local) :
    (scope.declare entry).imports = scope.imports := by
  unfold declare
  split <;> rfl

end Scope

section

variable {place : Place} {scope scope' : Scope} {term : Term} {terms : List Term} {stmt : Stmt}
  {stmts : List Stmt}

theorem packages_of_value {typed : TypedExpr} (h : term.value scope = .ok typed) :
    typed.expr.packages = [] := by
  cases Term.valued_of_value h <;> rfl

theorem EmitsOne.packages (h : EmitsOne place scope term stmt scope') :
    ∀ path ∈ stmt.packages, path = Routine.package ∧ stmt.isCallFrom path = true := by
  cases h with
  | unused hvalue | update hvalue | define hvalue | hoist hvalue =>
    simp [Stmt.packages, Stmt.expressions, Expr.packages, packages_of_value hvalue]
  | print hvalue =>
    simp [Stmt.packages, Stmt.expressions, Expr.packages, Expr.packagesAll,
      packages_of_value hvalue, Stmt.isCallFrom]

theorem EmitsOne.nested (h : EmitsOne place scope term stmt scope') : stmt.nested = [stmt] := by
  cases h <;> rfl

theorem EmitsOne.importsFor (h : EmitsOne place scope term stmt scope') {used : Bool}
    (hscope : scope.ImportsFor used) :
    scope'.ImportsFor (used || stmt.isCallFrom Routine.package) := by
  cases h with
  | unused | update => simpa [Stmt.isCallFrom] using hscope
  | define | hoist =>
    simpa [Stmt.isCallFrom, Scope.ImportsFor, Scope.imports_declare] using hscope
  | print => simpa [Stmt.isCallFrom] using hscope.addImport

theorem packages_branch {test : Expr} {body : List Stmt} {otherwise : Option (List Stmt)}
    (h : test.packages = []) : (Stmt.branch test body otherwise).packages = [] := by
  simp [Stmt.packages, Stmt.expressions, h]

/-- At whatever depth, only calls from the package of the routines use a package. -/
theorem Emits.packages (h : Emits place scope terms stmts scope') :
    ∀ stmt ∈ Stmt.nestedAll stmts, ∀ path ∈ stmt.packages,
      path = Routine.package ∧ stmt.isCallFrom path = true := by
  induction h with
  | nil => exact List.forall_mem_nil _
  | one hone _ ih =>
    rw [Stmt.nestedAll, hone.nested, List.singleton_append, List.forall_mem_cons]
    exact ⟨hone.packages, ih⟩
  | seq _ _ ihitems ihrest =>
    rw [Stmt.nestedAll_append, List.forall_mem_append]
    exact ⟨ihitems, ihrest⟩
  | cond htest _ _ ihbody ihrest =>
    simp only [Stmt.nestedAll, Stmt.nested, List.forall_mem_append, List.forall_mem_cons,
      packages_branch (packages_of_value htest)]
    exact ⟨⟨List.forall_mem_nil _, ihbody⟩, ihrest⟩
  | condElse htest _ _ _ ihbody ihother ihrest =>
    simp only [Stmt.nestedAll, Stmt.nested, List.forall_mem_append, List.forall_mem_cons,
      packages_branch (packages_of_value htest)]
    exact ⟨⟨List.forall_mem_nil _, ihbody, ihother⟩, ihrest⟩

/-- A row imports the package of the routines if it was imported before or is called from
somewhere in the row. -/
theorem Emits.importsFor (h : Emits place scope terms stmts scope') {used : Bool}
    (hscope : scope.ImportsFor used) :
    scope'.ImportsFor
      (used || (Stmt.nestedAll stmts).any (Stmt.isCallFrom Routine.package)) := by
  induction h generalizing used with
  | nil => simpa [Stmt.nestedAll] using hscope
  | one hone _ ih =>
    have hrest := ih (hone.importsFor hscope)
    simpa [Stmt.nestedAll, hone.nested, Bool.or_assoc] using hrest
  | seq _ _ ihitems ihrest =>
    have hrest := ihrest (ihitems hscope)
    simpa [Bool.or_assoc] using hrest
  | cond _ _ _ ihbody ihrest =>
    have hrest := ihrest (ihbody hscope)
    simpa [Stmt.nestedAll, Stmt.nested, Stmt.isCallFrom, Bool.or_assoc] using hrest
  | condElse _ _ _ _ ihbody ihother ihrest =>
    have hrest := ihrest (ihother (ihbody hscope))
    simpa [Stmt.nestedAll, Stmt.nested, Stmt.isCallFrom, Bool.or_assoc] using hrest

end

/-! ## The imports of a draft -/

namespace Draft

/-- Whether some statement of a draft, at whatever depth, is a call from a package. -/
def calls (draft : Draft) (package : String) : Bool :=
  (Stmt.nestedAll draft.statements).any (Stmt.isCallFrom package)

/-- What holds of the statements of a draft and the packages that they use. -/
structure Importing (draft : Draft) : Prop where
  imports : draft.toScope.ImportsFor (draft.calls Routine.package)
  packages : ∀ stmt ∈ Stmt.nestedAll draft.statements, ∀ path ∈ stmt.packages,
    path = Routine.package ∧ stmt.isCallFrom path = true

theorem importing_empty (package : String) : (empty package).Importing :=
  ⟨rfl, List.forall_mem_nil _⟩

theorem Importing.grow {draft : Draft} (h : draft.Importing) {term : Term} {stmts : List Stmt}
    {scope : Scope} (hemits : Emits .main draft.toScope [term] stmts scope) :
    (draft.grow scope stmts).Importing where
  imports := by
    rw [calls, statements_grow, Stmt.nestedAll_append, List.any_append]
    exact hemits.importsFor h.imports
  packages := by
    rw [statements_grow, Stmt.nestedAll_append, List.forall_mem_append]
    exact ⟨h.packages, hemits.packages⟩

theorem importing_attemptAll (package : String) (trees : List Sexpr) :
    ((empty package).attemptAll trees).Importing :=
  attemptAll_preserves Importing (fun _ hemits h => h.grow hemits) trees (importing_empty package)

/-- Declarations use no packages, so the file of a draft uses those that its statements use. -/
theorem packages_file (draft : Draft) :
    draft.file.packages = (Stmt.nestedAll draft.statements).flatMap Stmt.packages := by
  have hdeclare (entries : List Local) :
      (Stmt.nestedAll (entries.map fun entry => .declare entry.name entry.type)).flatMap
        Stmt.packages = [] := by
    induction entries with
    | nil => rfl
    | cons entry entries ih =>
      simpa [Stmt.nestedAll, Stmt.nested, Stmt.packages, Stmt.expressions] using ih
  simp [File.packages, file, body, hdeclare]

theorem Importing.mem_packages_iff {draft : Draft} (h : draft.Importing) {path : String} :
    path ∈ draft.file.packages ↔ path = Routine.package ∧ draft.calls path = true := by
  rw [packages_file, List.mem_flatMap, calls, List.any_eq_true]
  constructor
  · rintro ⟨stmt, hstmt, hpath⟩
    obtain ⟨rfl, hcall⟩ := h.packages stmt hstmt path hpath
    exact ⟨rfl, stmt, hstmt, hcall⟩
  · rintro ⟨-, stmt, hstmt, hcall⟩
    exact ⟨stmt, hstmt, Stmt.mem_packages_of_isCallFrom hcall⟩

structure ImportsMatchUse (draft : Draft) : Prop where
  /-- One package is imported if a statement is a call from it, and otherwise none is. -/
  listed : draft.imports = if draft.calls "fmt" then ["fmt"] else []
  /-- No import of the finished file is repeated. -/
  once : draft.file.imports.Nodup
  /-- No import of the finished file is unused, and none is missing. -/
  used : ∀ path, path ∈ draft.file.imports ↔ path ∈ draft.file.packages
  /-- The finished text has the import on a line of its own, or no imports. -/
  written : draft.text =
    "package " ++ draft.package ++ "\n" ++ (if draft.calls "fmt" then "\nimport \"fmt\"\n" else "")
      ++ "\n" ++ Func.text ⟨"main", draft.body⟩

theorem Importing.importsMatchUse {draft : Draft} (h : draft.Importing) :
    draft.ImportsMatchUse := by
  have hlisted : draft.imports = if draft.calls "fmt" then ["fmt"] else [] := h.imports
  refine ⟨hlisted, ?_, ?_, ?_⟩
  · change draft.imports.Nodup
    rw [hlisted]
    split <;> simp
  · intro path
    change path ∈ draft.imports ↔ _
    rw [h.mem_packages_iff, hlisted]
    by_cases hpath : path = "fmt"
    · subst hpath
      cases draft.calls "fmt" <;> simp [Routine.package]
    · cases draft.calls "fmt" <;> simp [Routine.package, hpath]
  · have himports : Target.importText draft.imports =
        if draft.calls "fmt" then "\nimport \"fmt\"\n" else "" := by
      rw [hlisted]
      split <;> decide
    have hfunction (function : Func) :
        String.join ([function].map fun function => "\n" ++ function.text) =
          "\n" ++ function.text := by
      simp
    rw [text, File.text, file, himports, hfunction, ← String.append_assoc]

end Draft

/-- However trees are added to an empty draft, whether they can be added or not, what it imports is
what its statements use. -/
theorem attempted_draft_imports_match_use (package : String) (trees : List Sexpr) :
    ((Draft.empty package).attemptAll trees).ImportsMatchUse :=
  (Draft.importing_attemptAll package trees).importsMatchUse

end SexprCompiler
