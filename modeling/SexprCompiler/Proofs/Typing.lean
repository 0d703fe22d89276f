import SexprCompiler.Proofs.Session

/-!
# Emitted programs are well typed

The type of a variable is the one that its first assignment gave it. Emitted statements keep to
the types of the scope after them, and of every scope that this grows into. So what was emitted
stays well typed whatever is added later.
-/
namespace SexprCompiler

open Target (Ty Expr Stmt)

namespace Target

/-- The type of an expression that has no call inside, given the types of variables. -/
def Expr.type? (types : String → Option Ty) : Expr → Option Ty
  | .ident name => (types name).or (if name = "true" ∨ name = "false" then some .bool else none)
  | .literal .int _ => some .int
  | .literal .float _ => some .float
  | .literal .string _ => some .string
  | .member _ _ | .call _ _ => none

/-- The typing rules for statements in a row, at any depth. -/
inductive WellTyped (types : String → Option Ty) : List Stmt → Prop where
  | nil : WellTyped types []
  | declare {name type stmts} (hname : types name = some type) (hrest : WellTyped types stmts) :
      WellTyped types (.declare name type :: stmts)
  | assign {name op value type stmts} (hname : types name = some type)
      (hvalue : value.type? types = some type) (hrest : WellTyped types stmts) :
      WellTyped types (.assign [.ident name] op [value] :: stmts)
  | discard {value type stmts} (hblank : types "_" = none)
      (hvalue : value.type? types = some type) (hrest : WellTyped types stmts) :
      WellTyped types (.assign [.ident "_"] .update [value] :: stmts)
  | print {routine value type stmts} (hpackage : types "fmt" = none)
      (hvalue : value.type? types = some type) (hrest : WellTyped types stmts) :
      WellTyped types (.evaluate (.call (.member (.ident "fmt") routine) [value]) :: stmts)
  | branch {test body stmts} (htest : test.type? types = some .bool)
      (hbody : WellTyped types body) (hrest : WellTyped types stmts) :
      WellTyped types (.branch test body none :: stmts)
  | branchElse {test body otherwise stmts} (htest : test.type? types = some .bool)
      (hbody : WellTyped types body) (hotherwise : WellTyped types otherwise)
      (hrest : WellTyped types stmts) :
      WellTyped types (.branch test body (some otherwise) :: stmts)

theorem WellTyped.append {types : String → Option Ty} {stmts others : List Stmt}
    (h : WellTyped types stmts) (hothers : WellTyped types others) :
    WellTyped types (stmts ++ others) := by
  induction h with
  | nil => exact hothers
  | declare hname _ ih => exact .declare hname ih
  | assign hname hvalue _ ih => exact .assign hname hvalue ih
  | discard hblank hvalue _ ih => exact .discard hblank hvalue ih
  | print hpackage hvalue _ ih => exact .print hpackage hvalue ih
  | branch htest hbody _ _ ih => exact .branch htest hbody ih
  | branchElse htest hbody hotherwise _ _ _ ih => exact .branchElse htest hbody hotherwise ih

end Target

namespace Scope

def type? (scope : Scope) (name : String) : Option Ty := (scope.find? name).map Local.type

theorem Grows.type? {scope scope' : Scope} (h : scope.Grows scope') {name : String} {type : Ty}
    (htype : scope.type? name = some type) : scope'.type? name = some type := by
  obtain ⟨entry, hfound, rfl⟩ := Option.map_eq_some_iff.mp htype
  exact Option.map_eq_some_iff.mpr ⟨entry, h.find? hfound, rfl⟩

theorem type?_of_find? {scope : Scope} {name : String} {entry : Local}
    (h : scope.find? name = some entry) : scope.type? name = some entry.type := by
  rw [Scope.type?, h, Option.map_some]

theorem type?_declare_self {scope : Scope} {entry : Local} (hnew : scope.find? entry.name = none) :
    (scope.declare entry).type? entry.name = some entry.type :=
  type?_of_find? (find?_declare_self hnew)

/-- Names that no local may have are free for constants and packages. -/
theorem Named.type?_eq_none {scope : Scope} (h : scope.Named) {name : String}
    (hname : name ∈ Target.fixedNames) : scope.type? name = none := by
  cases hfound : scope.find? name with
  | none => rw [Scope.type?, hfound, Option.map_none]
  | some entry => exact absurd (List.mem_append_right _ hname) (h.of_find? hfound).free

end Scope

section

variable {place : Place} {scope scope' final : Scope} {term : Term}

theorem type?_of_value {typed : TypedExpr} (hvalue : term.value scope = .ok typed)
    (hgrows : scope.Grows final) (hnamed : final.Named) :
    typed.expr.type? final.type? = some typed.type := by
  cases Term.valued_of_value hvalue with
  | bool value =>
    have htrue : final.type? "true" = none := hnamed.type?_eq_none (by decide)
    have hfalse : final.type? "false" = none := hnamed.type?_eq_none (by decide)
    cases value <;> simp [Expr.type?, htrue, hfalse]
  | literal kind text => cases kind <;> rfl
  | var hfound =>
    have htype := hgrows.type? (Scope.type?_of_find? hfound)
    simp [Expr.type?, htype]

theorem EmitsOne.wellTyped {stmt : Stmt} (h : EmitsOne place scope term stmt scope')
    (hgrows : scope'.Grows final) (hnamed : final.Named) {stmts : List Stmt}
    (hrest : Target.WellTyped final.type? stmts) :
    Target.WellTyped final.type? (stmt :: stmts) := by
  have hscope : scope.Grows final := h.grows.trans hgrows
  cases h with
  | unused hvalue =>
    exact .discard (hnamed.type?_eq_none (by decide)) (type?_of_value hvalue hscope hnamed) hrest
  | update hvalue hfound htype =>
    have hname := hscope.type? (Scope.type?_of_find? hfound)
    rw [htype] at hname
    exact .assign hname (type?_of_value hvalue hscope hnamed) hrest
  | define hvalue hnew | hoist hvalue hnew =>
    have hname := hgrows.type? (Scope.type?_declare_self hnew)
    exact .assign hname (type?_of_value hvalue hscope hnamed) hrest
  | print hvalue =>
    exact .print (hnamed.type?_eq_none (by decide)) (type?_of_value hvalue hscope hnamed) hrest

/-- A row of emitted statements keeps to the types of any later scope. -/
theorem Emits.wellTyped {terms : List Term} {stmts : List Stmt}
    (h : Emits place scope terms stmts scope') (hgrows : scope'.Grows final)
    (hnamed : final.Named) : Target.WellTyped final.type? stmts := by
  induction h with
  | nil => exact .nil
  | one hone hrest ih => exact hone.wellTyped (hrest.grows.trans hgrows) hnamed (ih hgrows)
  | seq hitems hrest ihitems ihrest =>
    exact (ihitems (hrest.grows.trans hgrows)).append (ihrest hgrows)
  | cond htest hbody hrest ihbody ihrest =>
    have hafter := hrest.grows.trans hgrows
    have htype := type?_of_value htest (hbody.grows.trans hafter) hnamed
    exact .branch htype (ihbody hafter) (ihrest hgrows)
  | condElse htest hbody hother hrest ihbody ihother ihrest =>
    have hafter := hrest.grows.trans hgrows
    have hbetween := hother.grows.trans hafter
    have htype := type?_of_value htest (hbody.grows.trans hbetween) hnamed
    exact .branchElse htype (ihbody hbetween) (ihother hafter) (ihrest hgrows)

end

namespace Draft

/-- The statements keep to the types of the draft's locals, and do so when the scope grows. -/
def Typed (draft : Draft) : Prop :=
  ∀ final : Scope, draft.toScope.Grows final → final.Named →
    Target.WellTyped final.type? draft.statements

theorem typed_attemptAll (package : String) (trees : List Sexpr) :
    ((empty package).attemptAll trees).Typed := by
  refine attemptAll_preserves Typed ?_ trees fun _ _ _ => .nil
  intro draft tree term stmts scope _ hemits h final hgrows hnamed
  exact (h final (hemits.grows.trans hgrows) hnamed).append (hemits.wellTyped hgrows hnamed)

theorem wellTyped_declarations {types : String → Option Ty} {entries : List Local}
    (h : ∀ entry ∈ entries, types entry.name = some entry.type) :
    Target.WellTyped types (entries.map fun entry => .declare entry.name entry.type) := by
  induction entries with
  | nil => exact .nil
  | cons entry entries ih =>
    rw [List.forall_mem_cons] at h
    exact .declare h.1 (ih h.2)

theorem wellTyped_body {draft : Draft} (hdistinct : draft.toScope.Distinct)
    (h : Target.WellTyped draft.type? draft.statements) :
    Target.WellTyped draft.type? draft.body := by
  refine (wellTyped_declarations ?_).append h
  intro entry hentry
  have hmem := List.mem_of_mem_filter hentry
  exact Scope.type?_of_find? ((Scope.find?_eq_some_iff hdistinct).mpr ⟨hmem, rfl⟩)

end Draft

/-- However trees are added to an empty draft, whether they can be added or not, the body of `main`
is well typed by the types of the draft's locals, and whatever is tried next keeps these types. -/
theorem attempted_draft_wellTyped (package : String) (trees later : List Sexpr) :
    Target.WellTyped ((Draft.empty package).attemptAll trees).type?
        ((Draft.empty package).attemptAll trees).body ∧
      ∀ name type, ((Draft.empty package).attemptAll trees).type? name = some type →
        (((Draft.empty package).attemptAll trees).attemptAll later).type? name = some type := by
  have hnamed := Draft.named_attemptAll package trees
  have htyped := Draft.typed_attemptAll package trees _ (.refl _) hnamed
  refine ⟨Draft.wellTyped_body (Draft.distinct_attemptAll package trees) htyped, ?_⟩
  intro name type htype
  exact (Draft.grows_attemptAll _ later).type? htype

end SexprCompiler
