import SexprCompiler.Proofs.Session
import SexprCompiler.Proofs.Tracking

/-!
# Programs under arbitrary operations

A program under construction is worked on by operations in any order and with any arguments:
imports and locals are registered by hand, statements are put in, trees and terms are added, with
faults or without. A session does these operations on tables, with the number of open branches
going from one operation to the next. What holds of a session between operations is shown for one
operation and from there for all sequences of them, and so is that the session stands for the
draft on which the same operations were done.
-/
namespace SexprCompiler

open Target (Ty Stmt File)
open Outcome (both)

inductive Operation where
  | addImport (path : String)
  | declare (name : String) (symbol : Symbol)
  | hoist (name : String) (symbol : Symbol)
  | append (stmt : Stmt)
  | addTree (tree : Sexpr)
  | extend (tree : Sexpr)
  | add (term : Term)
  | value (term : Term)

/-- What an operation that succeeds answers: whether an import is new, or the value of a term. -/
inductive Reply where
  | done
  | fresh (new : Bool)
  | value (typed : TypedExpr)

/-- What an operation answers or why it fails, and the draft after it. -/
def Operation.run (draft : Draft) : Operation → Except BuildError Reply × Draft
  | addImport path =>
    (.ok (.fresh !draft.hasImport path), { draft with toScope := draft.addImport path })
  | declare name symbol =>
    (.ok .done, { draft with toScope := draft.declare ⟨name, symbol.type, symbol.line, false⟩ })
  | hoist name symbol =>
    (.ok .done, { draft with toScope := draft.declare ⟨name, symbol.type, symbol.line, true⟩ })
  | append stmt => (.ok .done, draft.append stmt)
  | addTree tree => (both id (fun _ => .done) (draft.addTree tree).1, (draft.addTree tree).2)
  | extend tree =>
    match draft.extend tree with
    | .ok next => (.ok .done, next)
    | .error error => (.error error, draft)
  | add term => (both .type (fun _ => .done) (draft.add term).1, (draft.add term).2)
  | value term => (both .type .value (term.value draft.toScope), draft)

def Draft.runAll (draft : Draft) (operations : List Operation) : Draft :=
  operations.foldl (fun draft operation => (operation.run draft).2) draft

/-- A program under construction, kept in tables, and the number of branches that are open. -/
structure Session extends Tracker where
  package : String
  statements : List Stmt

namespace Session

def empty (package : String) : Session :=
  { Registry.empty with requests := [], depth := 0, package, statements := [] }

/-- The finished program. The hoisted names are looked up again for their declarations. -/
def text (session : Session) : String :=
  File.text ⟨session.package, session.imports,
    [⟨"main", session.declarations ++ session.statements⟩]⟩

def add (session : Session) (term : Term) : Except TypeError Unit × Session :=
  match term.track session.toTracker with
  | .ok stmts tracker =>
    (.ok (), { session with toTracker := tracker, statements := session.statements ++ stmts })
  | .error error tracker => (.error error, { session with toTracker := tracker })

def addTree (session : Session) (tree : Sexpr) : Except BuildError Unit × Session :=
  match Term.ofSexpr tree with
  | .error error => (.error (.shape error), session)
  | .ok term => (both .type id (session.add term).1, (session.add term).2)

/-- Adds a tree to a copy that has no branch open, which replaces the session if that succeeds. -/
def extend (session : Session) (tree : Sexpr) : Except BuildError Unit × Session :=
  match ({ session with depth := 0 } : Session).addTree tree with
  | (.ok (), next) => (.ok (), { next with depth := session.depth })
  | (.error error, _) => (.error error, session)

end Session

/-- What an operation answers or why it fails, and the session after it. -/
def Operation.perform (session : Session) : Operation → Except BuildError Reply × Session
  | addImport path =>
    (.ok (.fresh (session.addImport path).1),
      { session with toLedger := session.toLedger.request path })
  | declare name symbol =>
    (.ok .done, { session with toLedger := session.toLedger.declare name symbol })
  | hoist name symbol =>
    (.ok .done, { session with toLedger := session.toLedger.hoist name symbol })
  | append stmt => (.ok .done, { session with statements := session.statements ++ [stmt] })
  | addTree tree => (both id (fun _ => .done) (session.addTree tree).1, (session.addTree tree).2)
  | extend tree => (both id (fun _ => .done) (session.extend tree).1, (session.extend tree).2)
  | add term => (both .type (fun _ => .done) (session.add term).1, (session.add term).2)
  | value term =>
    match term.trackValue session.toTracker with
    | .ok typed tracker => (.ok (.value typed), { session with toTracker := tracker })
    | .error error tracker => (.error (.type error), { session with toTracker := tracker })

def Session.performAll (session : Session) (operations : List Operation) : Session :=
  operations.foldl (fun session operation => (operation.perform session).2) session

/-! ## One operation -/

namespace Session

structure Represents (session : Session) (draft : Draft) : Prop where
  registry : session.toRegistry.Represents draft.toScope
  package : session.package = draft.package
  statements : session.statements = draft.statements

theorem Represents.text {session : Session} {draft : Draft} (h : session.Represents draft) :
    session.text = draft.text := by
  rw [Session.text, Draft.text, Draft.file, Draft.body, h.registry.declarations, h.package,
    h.registry.imports, h.statements]

/-- What an operation on a session does: requests and declarations are all that changes the tables,
the depth stays, and statements are added at the end, but not without success. What is done to the
draft for which the session stands has the same answer, and the session goes on standing for it. -/
structure Goes {ε α : Type} (session : Session) (result : Except ε α × Session)
    (plain : Except ε α × Draft) : Prop where
  changes : Ledger.Changes session.toLedger result.2.toLedger
  depth : result.2.depth = session.depth
  statements : ∃ stmts, result.2.statements = session.statements ++ stmts ∧
    ((∃ a, result.1 = .ok a) ∨ stmts = [])
  answer : result.1 = plain.1
  represents : result.2.Represents plain.2

section

variable {session : Session} {draft : Draft} {ε α : Type}

theorem Goes.both {result : Except ε α × Session} {plain : Except ε α × Draft}
    (h : session.Goes result plain) {ε' α' : Type} (onError : ε → ε') (onValue : α → α') :
    session.Goes (Outcome.both onError onValue result.1, result.2)
      (Outcome.both onError onValue plain.1, plain.2) := by
  refine ⟨h.changes, h.depth, ?_, by rw [h.answer], h.represents⟩
  obtain ⟨stmts, hstmts, ⟨a, hok⟩ | hnone⟩ := h.statements
  · exact ⟨stmts, hstmts, .inl ⟨onValue a, by rw [hok]; rfl⟩⟩
  · exact ⟨stmts, hstmts, .inr hnone⟩

theorem goes_tables (h : session.Represents draft) {ledger : Ledger} {scope : Scope}
    (changes : Ledger.Changes session.toLedger ledger) (represents : ledger.Represents scope)
    (answer : Except ε α) :
    session.Goes (answer, { session with toLedger := ledger })
      (answer, { draft with toScope := scope }) :=
  ⟨changes, rfl, ⟨[], (List.append_nil _).symm, .inr rfl⟩, rfl, represents, h.package, h.statements⟩

theorem goes_self (h : session.Represents draft) (answer : Except ε α) :
    session.Goes (answer, session) (answer, draft) :=
  goes_tables h .none h.registry answer

theorem goes_append (h : session.Represents draft) {ledger : Ledger} {scope : Scope}
    (changes : Ledger.Changes session.toLedger ledger) (represents : ledger.Represents scope)
    (stmts : List Stmt) (a : α) :
    session.Goes ((.ok a : Except ε α),
        { session with toLedger := ledger, statements := session.statements ++ stmts })
      (.ok a, { draft with toScope := scope, statements := draft.statements ++ stmts }) :=
  ⟨changes, rfl, ⟨stmts, rfl, .inl ⟨a, rfl⟩⟩, rfl, represents, h.package,
    congrArg (· ++ stmts) h.statements⟩

theorem goes_add (h : session.Represents draft) (hdepth : session.depth = 0) (term : Term) :
    session.Goes (session.add term) (draft.add term) := by
  have hplace : session.toTracker.place = .main := if_pos hdepth
  have hagrees := term.follows_track session.toTracker draft.toScope h.registry
  rw [hplace] at hagrees
  dsimp only at hagrees
  unfold add Draft.add
  generalize term.track session.toTracker = result at hagrees
  generalize term.emit .main draft.toScope = plain at hagrees
  cases hagrees with
  | ok changes represents => exact goes_append h changes represents _ ()
  | error changes represents => exact goes_tables h changes represents _

theorem goes_addTree (h : session.Represents draft) (hdepth : session.depth = 0) (tree : Sexpr) :
    session.Goes (session.addTree tree) (draft.addTree tree) := by
  unfold addTree
  cases hterm : Term.ofSexpr tree with
  | error error =>
    rw [Draft.addTree_of_error hterm]
    exact goes_self h _
  | ok term =>
    rw [Draft.addTree_of_ok hterm]
    exact (goes_add h hdepth term).both _ _

/-- A tree that cannot be added to the copy leaves the session as it was. -/
theorem goes_extend (h : session.Represents draft) (tree : Sexpr) :
    session.Goes (both id (fun _ => Reply.done) (session.extend tree).1, (session.extend tree).2)
      (Operation.run draft (.extend tree)) := by
  have hcopy : ({ session with depth := 0 } : Session).Represents draft :=
    ⟨h.registry, h.package, h.statements⟩
  have hgoes := goes_addTree hcopy rfl tree
  unfold extend
  rw [Operation.run, Draft.extend_eq]
  generalize ({ session with depth := 0 } : Session).addTree tree = result at hgoes
  generalize draft.addTree tree = plain at hgoes
  obtain ⟨outcome, next⟩ := result
  obtain ⟨_, after⟩ := plain
  obtain rfl := hgoes.answer
  cases outcome with
  | error error => exact goes_self h _
  | ok =>
    obtain ⟨stmts, hstmts, -⟩ := hgoes.statements
    exact ⟨hgoes.changes, rfl, ⟨stmts, hstmts, .inl ⟨_, rfl⟩⟩, rfl,
      ⟨hgoes.represents.registry, hgoes.represents.package, hgoes.represents.statements⟩⟩

end

end Session

theorem Operation.goes_perform {session : Session} {draft : Draft} (h : session.Represents draft)
    (hdepth : session.depth = 0) (operation : Operation) :
    session.Goes (operation.perform session) (operation.run draft) := by
  cases operation with
  | addImport path =>
    rw [perform, run, h.registry.fst_addImport]
    exact Session.goes_tables h (.request .none path) (h.registry.addImport path) _
  | declare name symbol =>
    exact Session.goes_tables h (.declare .none name symbol)
      (h.registry.register ⟨name, _, _, false⟩) _
  | hoist name symbol =>
    exact Session.goes_tables h (.hoist .none name symbol)
      (h.registry.register ⟨name, _, _, true⟩) _
  | append stmt => exact Session.goes_append h .none h.registry [stmt] _
  | addTree tree => exact (Session.goes_addTree h hdepth tree).both _ _
  | extend tree => exact Session.goes_extend h tree
  | add term => exact (Session.goes_add h hdepth term).both _ _
  | value term =>
    have hvalue : session.value term = term.value draft.toScope := h.registry.value term
    rw [perform, run]
    cases hplain : term.value draft.toScope with
    | ok typed =>
      rw [Term.trackValue_of_ok (hvalue.trans hplain)]
      exact Session.goes_self h _
    | error error =>
      rw [Term.trackValue_of_error (hvalue.trans hplain)]
      exact Session.goes_self h _

/-! ## All operations -/

namespace Session

structure Upheld (session : Session) : Prop where
  depth : session.depth = 0
  imports : session.imports = session.requests.eraseDups
  imports_nodup : session.imports.Nodup
  imported : ∀ path, path ∈ session.imported ↔ path ∈ session.imports
  hoisted_nodup : session.hoisted.Nodup
  hoisted_found : ∀ name ∈ session.hoisted, ∃ symbol, session.lookup name = some symbol
  text : ∃ declarations : List Stmt,
    List.Forall₂ (fun name stmt => ∃ symbol, session.lookup name = some symbol ∧
      stmt = .declare name symbol.type) session.hoisted declarations ∧
    session.text = File.text ⟨session.package, session.imports,
      [⟨"main", declarations ++ session.statements⟩]⟩

theorem upheld_of_sound {session : Session} (hdepth : session.depth = 0)
    (h : session.toLedger.Sound) : session.Upheld :=
  ⟨hdepth, h.imports, h.imports_nodup, h.imported, h.hoisted_nodup, h.hoisted_found,
    session.declarations, Registry.forall₂_declarations h.hoisted_found, rfl⟩

structure Continues {ε α : Type} (session : Session) (result : Except ε α × Session) : Prop where
  imports : session.imports <+: result.2.imports
  hoisted : session.hoisted <+: result.2.hoisted
  statements : session.statements <+: result.2.statements
  found : ∀ {name symbol}, session.lookup name = some symbol → result.2.lookup name = some symbol
  failed : ∀ {error}, result.1 = .error error → result.2.statements = session.statements

theorem Goes.continues {ε α : Type} {session : Session} {result : Except ε α × Session}
    {plain : Except ε α × Draft} (h : session.Goes result plain) : session.Continues result := by
  have hgrows := h.changes.grows
  obtain ⟨stmts, hstmts, hdone⟩ := h.statements
  refine ⟨hgrows.imports, hgrows.hoisted, hstmts ▸ List.prefix_append _ _, hgrows.lookup, ?_⟩
  intro error herror
  rcases hdone with ⟨a, hok⟩ | rfl
  · rw [hok] at herror
    cases herror
  · rw [hstmts, List.append_nil]

/-- A session without open branches, with tables that fit together and a draft for which it stands
stays so. -/
theorem performAll_spec {session : Session} {draft : Draft} (h : session.Represents draft)
    (hdepth : session.depth = 0) (hsound : session.toLedger.Sound) (operations : List Operation) :
    (session.performAll operations).Represents (draft.runAll operations) ∧
      (session.performAll operations).depth = 0 ∧
        (session.performAll operations).toLedger.Sound := by
  induction operations generalizing session draft with
  | nil => exact ⟨h, hdepth, hsound⟩
  | cons operation operations ih =>
    have hgoes := operation.goes_perform h hdepth
    rw [performAll, Draft.runAll, List.foldl_cons, List.foldl_cons]
    exact ih hgoes.represents (hgoes.depth.trans hdepth) (hgoes.changes.sound hsound)

theorem represents_empty (package : String) : (empty package).Represents (.empty package) :=
  ⟨Registry.represents_empty, rfl, rfl⟩

end Session

/-- After any operations, failed ones included, no branch is open, the imports are those of the set,
in the order of their first requests, and there is one declaration ahead of all statements for each
hoisted local. Another operation adds to what there is, changes nothing of it, and adds no statement
if it fails. The draft on which the same operations were done has the same text and the same
answers. -/
theorem operations_uphold_session (package : String) (operations : List Operation) :
    let session := (Session.empty package).performAll operations
    let draft := (Draft.empty package).runAll operations
    session.Upheld ∧ session.Represents draft ∧ session.text = draft.text ∧
      ∀ operation : Operation, session.Continues (operation.perform session) ∧
        (operation.perform session).1 = (operation.run draft).1 := by
  intro session draft
  obtain ⟨hrepresents, hdepth, hsound⟩ : session.Represents draft ∧ _ ∧ _ :=
    Session.performAll_spec (Session.represents_empty package) rfl Ledger.sound_empty operations
  refine ⟨Session.upheld_of_sound hdepth hsound, hrepresents, hrepresents.text, ?_⟩
  intro operation
  have hgoes := operation.goes_perform hrepresents hdepth
  exact ⟨hgoes.continues, hgoes.answer⟩

end SexprCompiler
