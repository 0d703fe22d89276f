import SexprCompiler.Compile
import SexprCompiler.Proofs.Emission

/-!
# Drafts that grow tree by tree

Trees are added to a draft one after another. A tree that cannot be added leaves the draft as it
was, so every draft that comes up in this way is reached by successful additions alone, and what
each of these keeps holds of all such drafts.
-/
namespace SexprCompiler

open Target (Stmt LocalName)
open Outcome (both)

namespace Scope

def Named (scope : Scope) : Prop := ∀ entry ∈ scope.locals, LocalName entry.name

theorem Named.of_find? {scope : Scope} (h : scope.Named) {name : String} {entry : Local}
    (hfound : scope.find? name = some entry) : LocalName name := by
  rw [← find?_name hfound]
  exact h entry (List.mem_of_find?_eq_some hfound)

end Scope

/-- A term of a tree gives all locals that it adds a proper name. -/
theorem Emits.named {place : Place} {scope scope' : Scope} {tree : Sexpr} {term : Term}
    {stmts : List Stmt} (h : Emits place scope [term] stmts scope')
    (hterm : Term.ofSexpr tree = .ok term) (hscope : scope.Named) : scope'.Named := by
  intro entry hentry
  rcases h.mem_locals hentry with hentry | ⟨_, hsingle, value, hinside⟩
  · exact hscope entry hentry
  · obtain rfl := List.mem_singleton.mp hsingle
    exact Term.localName_of_inside hterm hinside

namespace Draft

/-- The draft with more statements and a scope that has grown for them. -/
def grow (draft : Draft) (scope : Scope) (stmts : List Stmt) : Draft :=
  { draft with toScope := scope, statements := draft.statements ++ stmts }

@[simp] theorem toScope_grow (draft : Draft) (scope : Scope) (stmts : List Stmt) :
    (draft.grow scope stmts).toScope = scope := rfl

@[simp] theorem statements_grow (draft : Draft) (scope : Scope) (stmts : List Stmt) :
    (draft.grow scope stmts).statements = draft.statements ++ stmts := rfl

theorem add_eq_ok {draft draft' : Draft} {term : Term} :
    draft.add term = (.ok (), draft') ↔
      ∃ stmts scope, Emits .main draft.toScope [term] stmts scope ∧
        draft' = draft.grow scope stmts := by
  simp only [← Term.emit_eq_ok_iff, add]
  cases term.emit .main draft.toScope with
  | ok stmts scope => simp [grow, eq_comm, and_assoc]
  | error error scope => simp

theorem addTree_of_error {draft : Draft} {tree : Sexpr} {error : ShapeError}
    (h : Term.ofSexpr tree = .error error) :
    draft.addTree tree = (.error (.shape error), draft) := by
  simp [addTree, h]

theorem addTree_of_ok {draft : Draft} {tree : Sexpr} {term : Term}
    (h : Term.ofSexpr tree = .ok term) :
    draft.addTree tree = (both BuildError.type id (draft.add term).1, (draft.add term).2) := by
  rcases hadd : draft.add term with ⟨_ | ⟨⟩, next⟩ <;> simp [addTree, h, hadd, both]

theorem extend_eq (draft : Draft) (tree : Sexpr) :
    draft.extend tree = both id (fun _ => (draft.addTree tree).2) (draft.addTree tree).1 := by
  rcases hadd : draft.addTree tree with ⟨_ | ⟨⟩, next⟩ <;> simp [extend, hadd, both]

theorem extend_of_error {draft : Draft} {tree : Sexpr} {error : ShapeError}
    (h : Term.ofSexpr tree = .error error) : draft.extend tree = .error (.shape error) := by
  rw [extend_eq, addTree_of_error h]
  rfl

theorem extend_of_ok {draft : Draft} {tree : Sexpr} {term : Term}
    (h : Term.ofSexpr tree = .ok term) :
    draft.extend tree = both BuildError.type (fun _ => (draft.add term).2) (draft.add term).1 := by
  rw [extend_eq, addTree_of_ok h]
  cases (draft.add term).1 <;> rfl

theorem extend_eq_ok {draft draft' : Draft} {tree : Sexpr} :
    draft.extend tree = .ok draft' ↔
      ∃ term, Term.ofSexpr tree = .ok term ∧ draft.add term = (.ok (), draft') := by
  unfold extend addTree
  cases Term.ofSexpr tree with
  | error error => simp
  | ok term =>
    rcases hadd : draft.add term with ⟨_ | ⟨⟩, next⟩ <;> simp [hadd]

theorem ofSource_eq_ok {package source : String} {draft : Draft} :
    ofSource package source = .ok draft ↔
      ∃ tree, Sexpr.ofSource source = .ok tree ∧ (empty package).extend tree = .ok draft := by
  unfold ofSource
  cases Sexpr.ofSource source with
  | error error => simp
  | ok tree => cases hextend : (empty package).extend tree <;> simp [hextend]

/-- The draft of a source text comes from the statements of one term. -/
theorem exists_emits_of_ofSource {package source : String} {draft : Draft}
    (h : ofSource package source = .ok draft) :
    ∃ tree term stmts scope, Sexpr.ofSource source = .ok tree ∧ Term.ofSexpr tree = .ok term ∧
      Emits .main (empty package).toScope [term] stmts scope ∧
      draft = (empty package).grow scope stmts := by
  obtain ⟨tree, htree, hextend⟩ := ofSource_eq_ok.mp h
  obtain ⟨term, hterm, hadd⟩ := extend_eq_ok.mp hextend
  obtain ⟨stmts, scope, hemits, hdraft⟩ := add_eq_ok.mp hadd
  exact ⟨tree, term, stmts, scope, htree, hterm, hemits, hdraft⟩

/-- The draft after a tree was added, or as it was if the tree cannot be added. -/
def attempt (draft : Draft) (tree : Sexpr) : Draft :=
  match draft.extend tree with
  | .ok next => next
  | .error _ => draft

/-- The draft after all of the trees were tried in turn. -/
def attemptAll (draft : Draft) (trees : List Sexpr) : Draft := trees.foldl attempt draft

/-- What every successful addition keeps holds after trees were tried in turn. -/
theorem attemptAll_preserves (holds : Draft → Prop)
    (hadd : ∀ {draft tree term stmts scope}, Term.ofSexpr tree = .ok term →
      Emits .main draft.toScope [term] stmts scope → holds draft → holds (draft.grow scope stmts))
    {draft : Draft} (trees : List Sexpr) (hdraft : holds draft) :
    holds (draft.attemptAll trees) := by
  induction trees generalizing draft with
  | nil => exact hdraft
  | cons tree trees ih =>
    apply ih
    unfold attempt
    split
    · rename_i next hnext
      obtain ⟨term, hterm, hadded⟩ := extend_eq_ok.mp hnext
      obtain ⟨stmts, scope, hemits, rfl⟩ := add_eq_ok.mp hadded
      exact hadd hterm hemits hdraft
    · exact hdraft

theorem distinct_empty (package : String) : (empty package).toScope.Distinct :=
  List.nodup_nil

theorem named_empty (package : String) : (empty package).toScope.Named :=
  fun _ hentry => absurd hentry List.not_mem_nil

theorem distinct_attemptAll (package : String) (trees : List Sexpr) :
    ((empty package).attemptAll trees).toScope.Distinct :=
  attemptAll_preserves (fun draft => draft.toScope.Distinct)
    (fun _ hemits h => hemits.distinct h) trees (distinct_empty package)

theorem named_attemptAll (package : String) (trees : List Sexpr) :
    ((empty package).attemptAll trees).toScope.Named :=
  attemptAll_preserves (fun draft => draft.toScope.Named)
    (fun hterm hemits h => hemits.named hterm h) trees (named_empty package)

/-- Whatever trees are tried, what is registered stays registered. -/
theorem grows_attemptAll (draft : Draft) (trees : List Sexpr) :
    draft.toScope.Grows (draft.attemptAll trees).toScope :=
  attemptAll_preserves (fun next => draft.toScope.Grows next.toScope)
    (fun _ hemits h => h.trans hemits.grows) trees (.refl _)

end Draft

end SexprCompiler
