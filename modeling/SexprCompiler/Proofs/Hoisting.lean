import Mathlib.Data.List.Forall2
import SexprCompiler.Proofs.Checking

/-!
# First assignments and hoisted declarations

The assignments of a term are met in a fixed order, and the first one to a name declares the local.
So the locals of a draft are the first assignments, one by one, and the declarations ahead of all
statements are those of them that stand inside a branch. Such a declaration names a type, and the
name of a type is a word like any other: it keeps its meaning only as long as no local ahead of it
is called by it.
-/
namespace SexprCompiler

open Target (Ty Stmt)

/-- An assignment that is met on the way through a term, and where it stands. -/
structure Assignment where
  name : String
  value : Term
  line : Nat
  place : Place

namespace Term

mutual

/-- The assignments of a term at a place, in the order in which they are met. -/
def assignments (place : Place) : Term → List Assignment
  | .assign name value line => [⟨name, value, line, place⟩]
  | .seq items => assignmentsAll place items
  | .cond _ body none => assignmentsAll .branch body
  | .cond _ body (some otherwise) =>
    assignmentsAll .branch body ++ assignmentsAll .branch otherwise
  | _ => []

def assignmentsAll (place : Place) : List Term → List Assignment
  | [] => []
  | term :: terms => term.assignments place ++ assignmentsAll place terms

end

theorem assignments_of_value {place : Place} {scope : Scope} {term : Term} {typed : TypedExpr}
    (h : term.value scope = .ok typed) : term.assignments place = [] := by
  cases valued_of_value h with
  | bool | literal | var => rfl

end Term

namespace Assignment

/-- The assignments to names that are neither known nor assigned further ahead. -/
def fresh (known : List String) : List Assignment → List Assignment
  | [] => []
  | assignment :: others =>
    if assignment.name ∈ known then fresh known others
    else assignment :: fresh (known ++ [assignment.name]) others

theorem fresh_append (known : List String) (assigned others : List Assignment) :
    fresh known (assigned ++ others) =
      fresh known assigned ++ fresh (known ++ (fresh known assigned).map name) others := by
  induction assigned generalizing known with
  | nil => simp [fresh]
  | cons assignment assigned ih =>
    by_cases h : assignment.name ∈ known
    · simp [fresh, h, ih]
    · simp [fresh, h, ih, List.append_assoc]

/-- The local that an assignment declares, its type being that of the value. -/
structure Declares (types : TypeTable) (assignment : Assignment) (entry : Local) : Prop where
  name : entry.name = assignment.name
  line : entry.line = assignment.line
  hoisted : entry.hoisted = true ↔ assignment.place = .branch
  type : assignment.value.type? types = some entry.type

theorem Declares.of_extends {types known : TypeTable} (hkeeps : types.Extends known)
    {assignment : Assignment} {entry : Local} (h : assignment.Declares known entry) :
    assignment.Declares types entry :=
  { h with type := Term.type?_of_extends hkeeps h.type }

theorem map_name_of_declares {types : TypeTable} {assigned : List Assignment}
    {entries : List Local} (h : List.Forall₂ (Declares types) assigned entries) :
    entries.map Local.name = assigned.map name := by
  induction h with
  | nil => rfl
  | cons hfirst _ ih => rw [List.map_cons, List.map_cons, hfirst.name, ih]

end Assignment

open Assignment (fresh Declares)

theorem Scope.Grows.extends {scope scope' : Scope} (h : scope.Grows scope') :
    TypeTable.Extends scope'.type? scope.type? :=
  fun _ _ htype => h.type? htype

/-! ## Emitting registers the first assignments -/

/-- The locals that one scope has beyond another are those that the first assignments declare. -/
def Scope.Registers (scope : Scope) (assigned : List Assignment) (scope' : Scope) : Prop :=
  ∃ added, scope'.locals = scope.locals ++ added ∧
    List.Forall₂ (Declares scope'.type?) (fresh (scope.locals.map Local.name) assigned) added

namespace Scope.Registers

theorem of_locals_eq {scope scope' : Scope} (h : scope'.locals = scope.locals) :
    scope.Registers [] scope' :=
  ⟨[], by rw [h, List.append_nil], .nil⟩

theorem append {scope scope₁ scope₂ : Scope} {assigned others : List Assignment}
    (h : scope.Registers assigned scope₁) (hothers : scope₁.Registers others scope₂)
    (hgrows : scope₁.Grows scope₂) : scope.Registers (assigned ++ others) scope₂ := by
  obtain ⟨added, hadded, hdeclares⟩ := h
  obtain ⟨more, hmore, hdeclares'⟩ := hothers
  refine ⟨added ++ more, by rw [hmore, hadded, List.append_assoc], ?_⟩
  -- What the first part declares is known to the second.
  have hknown : scope₁.locals.map Local.name =
      scope.locals.map Local.name ++
        (fresh (scope.locals.map Local.name) assigned).map Assignment.name := by
    rw [hadded, List.map_append, Assignment.map_name_of_declares hdeclares]
  rw [Assignment.fresh_append, ← hknown]
  exact List.rel_append (hdeclares.imp fun _ _ => Declares.of_extends hgrows.extends) hdeclares'

end Scope.Registers

section

variable {place : Place} {scope scope' : Scope}

theorem Scope.registers_declare {name : String} {value : Term} {line : Nat} {typed : TypedExpr}
    {hoisted : Bool} (hvalue : value.value scope = .ok typed) (hnew : scope.find? name = none)
    (hplace : hoisted = true ↔ place = .branch) :
    scope.Registers [⟨name, value, line, place⟩]
      (scope.declare ⟨name, typed.type, line, hoisted⟩) := by
  have hfresh : name ∉ scope.locals.map Local.name := by
    rw [← Scope.isSome_find?_iff, hnew]
    decide
  refine ⟨[⟨name, typed.type, line, hoisted⟩], Scope.locals_declare hnew, ?_⟩
  rw [fresh, if_neg hfresh]
  have hkeeps := (Scope.grows_declare scope ⟨name, typed.type, line, hoisted⟩).extends
  exact .cons ⟨rfl, rfl, hplace, Term.type?_of_extends hkeeps (Term.type?_of_value hvalue)⟩ .nil

theorem EmitsOne.registers {term : Term} {stmt : Stmt}
    (h : EmitsOne place scope term stmt scope') :
    scope.Registers (term.assignments place) scope' := by
  cases h with
  | unused hvalue =>
    rw [Term.assignments_of_value hvalue]
    exact .of_locals_eq rfl
  | update _ hfound =>
    have hknown := Scope.isSome_find?_iff.mp (Option.isSome_of_mem hfound)
    refine ⟨[], (List.append_nil _).symm, ?_⟩
    rw [Term.assignments, fresh, if_pos hknown]
    exact .nil
  | define hvalue hnew => exact Scope.registers_declare hvalue hnew (by simp)
  | hoist hvalue hnew => exact Scope.registers_declare hvalue hnew (by simp)
  | print => exact .of_locals_eq (Scope.locals_addImport _ _)

/-- A row of statements declares the locals that are first assigned in it. -/
theorem Emits.registers {terms : List Term} {stmts : List Stmt}
    (h : Emits place scope terms stmts scope') :
    scope.Registers (Term.assignmentsAll place terms) scope' := by
  induction h with
  | nil => exact .of_locals_eq rfl
  | one hone hrest ih => exact hone.registers.append ih hrest.grows
  | seq _ hrest ihitems ihrest => exact ihitems.append ihrest hrest.grows
  | cond _ _ hrest ihbody ihrest => exact ihbody.append ihrest hrest.grows
  | condElse _ _ hother hrest ihbody ihother ihrest =>
    exact (ihbody.append ihother hother.grows).append ihrest hrest.grows

theorem Emits.declare_not_mem {terms : List Term} {stmts : List Stmt}
    (h : Emits place scope terms stmts scope') (name : String) (type : Ty) :
    .declare name type ∉ stmts := by
  induction h with
  | nil => exact List.not_mem_nil
  | one hone _ ih =>
    cases hone with
    | unused | update | define | hoist | print => simpa using ih
  | seq _ _ ihitems ihrest => simpa using ⟨ihitems, ihrest⟩
  | cond _ _ _ _ ihrest => simpa using ihrest
  | condElse _ _ _ _ _ _ ihrest => simpa using ihrest

end

/-! ## The names of types -/

namespace Target

/-- The first statement takes the name of the type that the second one declares a local of. -/
def Stmt.Captures (earlier later : Stmt) : Prop :=
  ∃ type other name, earlier = .declare type.text other ∧ later = .declare name type

/-- No declaration of a local comes after one that takes the name of its type. -/
def KeepsTypeNames (stmts : List Stmt) : Prop :=
  stmts.Pairwise fun earlier later => ¬ earlier.Captures later

theorem Stmt.captures_declare_iff {name other : String} {type type' : Ty} :
    (Stmt.declare other type').Captures (.declare name type) ↔ other = type.text := by
  constructor
  · rintro ⟨_, _, _, hearlier, hlater⟩
    cases hearlier
    cases hlater
    rfl
  · rintro rfl
    exact ⟨type, type', name, rfl, rfl⟩

end Target

theorem Draft.keepsTypeNames_body_iff {draft : Draft}
    (h : ∀ name type, .declare name type ∉ draft.statements) :
    Target.KeepsTypeNames draft.body ↔
      draft.hoisted.Pairwise fun earlier later => earlier.name ≠ later.type.text := by
  have hnone : ∀ stmt ∈ draft.statements, ∀ earlier, ¬ Stmt.Captures earlier stmt := by
    rintro stmt hstmt earlier ⟨type, _, name, -, rfl⟩
    exact h name type hstmt
  have hrest : draft.statements.Pairwise fun earlier later => ¬ earlier.Captures later :=
    List.pairwise_of_forall_mem_list fun earlier _ later hlater => hnone later hlater earlier
  simp only [Target.KeepsTypeNames, Draft.body, List.pairwise_append, List.pairwise_map,
    Stmt.captures_declare_iff, ne_eq]
  exact ⟨And.left, fun hhoisted => ⟨hhoisted, hrest, fun earlier _ later hlater =>
    hnone later hlater earlier⟩⟩

section

variable {α β : Type} {related : α → β → Prop} {as : List α} {bs : List β}

theorem forall_mem_iff_of_forall₂ {holds : α → Prop} {holds' : β → Prop}
    (hiff : ∀ a b, related a b → (holds a ↔ holds' b)) (h : List.Forall₂ related as bs) :
    (∀ a ∈ as, holds a) ↔ ∀ b ∈ bs, holds' b := by
  induction h with
  | nil => simp
  | cons hfirst _ ih => rw [List.forall_mem_cons, List.forall_mem_cons, hiff _ _ hfirst, ih]

/-- Lists that are related element by element agree on what holds of all pairs in order. -/
theorem pairwise_iff_of_forall₂ {holds : α → α → Prop} {holds' : β → β → Prop}
    (hiff : ∀ a b a' b', related a b → related a' b' → (holds a a' ↔ holds' b b'))
    (h : List.Forall₂ related as bs) : as.Pairwise holds ↔ bs.Pairwise holds' := by
  induction h with
  | nil => simp
  | cons hfirst hrest ih =>
    rw [List.pairwise_cons, List.pairwise_cons, ih]
    exact and_congr_left' (forall_mem_iff_of_forall₂ (fun a' b' => hiff _ _ a' b' hfirst) hrest)

end

namespace Term

def hoistedAssignments (term : Term) : List Assignment :=
  (fresh [] (term.assignments .main)).filter fun assignment => assignment.place = .branch

end Term

theorem Draft.forall₂_locals {package : String} {term : Term} {stmts : List Stmt} {scope : Scope}
    (h : Emits .main (Draft.empty package).toScope [term] stmts scope) :
    List.Forall₂ (Declares scope.type?) (fresh [] (term.assignments .main)) scope.locals := by
  obtain ⟨added, hadded, hdeclares⟩ := h.registers
  have hrow : Term.assignmentsAll .main [term] = term.assignments .main := by
    simp [Term.assignmentsAll]
  obtain rfl : scope.locals = added := hadded
  rw [hrow] at hdeclares
  exact hdeclares

theorem Draft.forall₂_hoisted {package : String} {term : Term} {stmts : List Stmt} {scope : Scope}
    (h : Emits .main (Draft.empty package).toScope [term] stmts scope) :
    List.Forall₂ (Declares scope.type?) term.hoistedAssignments scope.hoisted :=
  List.rel_filter (fun _ _ hentry => by simpa using hentry.hoisted.symm) (Draft.forall₂_locals h)

/-- In the program of a source text, the names of types keep their meaning exactly when, among the
first assignments inside branches, none to a local called by the name of a type comes before one
whose value has this type. The types are those of any table that admits what is visited. -/
theorem type_names_kept_iff {package source : String} {draft : Draft}
    (h : Draft.ofSource package source = .ok draft) :
    ∃ tree term, Sexpr.ofSource source = .ok tree ∧ Term.ofSexpr tree = .ok term ∧
      (∃ types, Admits (fun _ => none) types term.visits) ∧
      ∀ types, Admits (fun _ => none) types term.visits →
        (Target.KeepsTypeNames draft.body ↔
          term.hoistedAssignments.Pairwise fun earlier later =>
            ∀ type, later.value.type? types = some type → earlier.name ≠ type.text) := by
  obtain ⟨tree, term, stmts, scope, htree, hterm, hemits, rfl⟩ := Draft.exists_emits_of_ofSource h
  have hpass : Pass (fun _ => none) term.visits scope.type? := hemits.pass_singleton
  refine ⟨tree, term, htree, hterm, ⟨_, hpass.admits⟩, fun types htypes => ?_⟩
  rw [Draft.keepsTypeNames_body_iff hemits.declare_not_mem]
  have hdeclares := (Draft.forall₂_hoisted hemits).imp fun _ _ =>
    Declares.of_extends (htypes.extends_pass hpass)
  refine (pairwise_iff_of_forall₂ ?_ hdeclares).symm
  intro earlier entry later entry' hearlier hlater
  rw [hearlier.name, hlater.type]
  simp

def branchTree (items : List Sexpr) : Sexpr :=
  ⟨":if", 1, [.leaf ":true" 1, ⟨":begin", 1, items⟩]⟩

def numberTree : Sexpr := ⟨":lvasgn", 1, [.leaf ":x" 1, ⟨":int", 1, [.leaf "1" 1]⟩]⟩

/-- An assignment to a local that is called by the type of numbers. -/
def takingTree : Sexpr := ⟨":lvasgn", 1, [.leaf ":int" 1, ⟨":str", 1, [.leaf "\"a\"" 1]⟩]⟩

def orderedSource : String :=
  "(:if (:true) (:begin (:lvasgn :x (:int 1)) (:lvasgn :int (:str \"a\"))))"

theorem ordered_declarations_keep_type_names :
    ∃ draft, Draft.ofSource "main" orderedSource = .ok draft ∧
      Target.KeepsTypeNames draft.body := by
  have hread : Sexpr.ofSource orderedSource = .ok (branchTree [numberTree, takingTree]) :=
    Outcome.eq_ok_of_toOption (by decide +kernel)
  obtain ⟨draft, hdraft⟩ : ∃ draft, Draft.ofSource "main" orderedSource = .ok draft := by
    rw [Draft.ofSource, hread]
    exact ⟨_, rfl⟩
  obtain ⟨tree, term, htree, hterm, ⟨types, htypes⟩, hiff⟩ := type_names_kept_iff hdraft
  obtain rfl : branchTree [numberTree, takingTree] = tree :=
    Except.ok.inj (hread.symm.trans htree)
  cases hterm
  refine ⟨draft, hdraft, (hiff types htypes).mpr (.cons ?_ (List.pairwise_singleton _ _))⟩
  intro later hlater type htype
  cases List.mem_singleton.mp hlater
  cases htype
  decide

def capturingSource : String :=
  "(:if (:true) (:begin (:lvasgn :int (:str \"a\")) (:lvasgn :x (:int 1))))"

/-- The number is declared of a type whose name now stands for a local. -/
theorem type_name_is_captured :
    (compile "main" capturingSource).toOption =
        some ("package main\n\nfunc main() \x7b\n\tvar int string\n\tvar x int\n" ++
          "\tif true \x7b\n\t\tint = \"a\"\n\t\tx = 1\n\t\x7d\n\x7d\n") ∧
      ∃ draft, Draft.ofSource "main" capturingSource = .ok draft ∧
        ¬ Target.KeepsTypeNames draft.body := by
  have hread : Sexpr.ofSource capturingSource = .ok (branchTree [takingTree, numberTree]) :=
    Outcome.eq_ok_of_toOption (by decide +kernel)
  refine ⟨by decide +kernel, ?_⟩
  rw [Draft.ofSource, hread]
  refine ⟨_, rfl, fun h => ?_⟩
  cases h with
  | cons hfirst _ => exact hfirst _ List.mem_cons_self ⟨.int, .string, "x", rfl, rfl⟩

end SexprCompiler
