import SexprCompiler.Proofs.Execution.Target
import SexprCompiler.Proofs.Lines.Compiling

/-!
# Statements read back

Statements can be read as the terms that they stand for, block by block. What is emitted for a term
reads back to the statements of the term, in their order and at every depth, so none is lost, made
twice or moved. Sequences leave no trace of their own: they stand for their items. The reading goes
by names, and is right because no local is called like the blank name or a constant.
-/
namespace SexprCompiler

open Target (AssignOp Expr Stmt LocalName)

namespace Target

def Expr.reading? : Expr → Option Term
  | .ident name =>
    if name = "true" then some (.bool true)
    else if name = "false" then some (.bool false)
    else some (.var name)
  | .literal kind text => some (.literal kind text)
  | _ => none

namespace Stmt

mutual

/-- The term that a statement stands for. It has no lines. -/
def reading? : Stmt → Option Term
  | .assign [.ident name] op [value] => do
    let value ← value.reading?
    return if name = "_" ∧ op = .update then value else .assign name value 0
  | .evaluate (.call (.member (.ident package) member) [argument]) =>
    if package = Routine.package then do
      return .print (← Routine.ofMember? member) (← argument.reading?)
    else none
  | .branch test body none => do
    return .cond (← test.reading?) (← readingAll? body) none
  | .branch test body (some otherwise) => do
    return .cond (← test.reading?) (← readingAll? body) (some (← readingAll? otherwise))
  | _ => none

def readingAll? : List Stmt → Option (List Term)
  | [] => some []
  | stmt :: stmts => do return (← stmt.reading?) :: (← readingAll? stmts)

end

theorem readingAll?_append {stmts rest : List Stmt} {terms others : List Term}
    (h : readingAll? stmts = some terms) (hrest : readingAll? rest = some others) :
    readingAll? (stmts ++ rest) = some (terms ++ others) := by
  induction stmts generalizing terms with
  | nil =>
    cases h
    exact hrest
  | cons stmt stmts ih =>
    simp only [readingAll?, Option.bind_eq_bind, Option.bind_eq_some_iff] at h
    obtain ⟨term, hterm, terms, hterms, ⟨⟩⟩ := h
    simp [readingAll?, hterm, ih hterms]

end Stmt

end Target

namespace Term

mutual

/-- The terms that become statements of their own, with sequences replaced by their items. -/
def statements : Term → List Term
  | .seq items => statementsAll items
  | .cond test body none => [.cond test (statementsAll body) none]
  | .cond test body (some otherwise) =>
    [.cond test (statementsAll body) (some (statementsAll otherwise))]
  | term => [term]

def statementsAll : List Term → List Term
  | [] => []
  | term :: terms => term.statements ++ statementsAll terms

end

/-- A value is read back, as the names of locals are not those of constants. -/
theorem reading?_of_value {scope : Scope} {term : Term} {typed : TypedExpr}
    (h : term.value scope = .ok typed) (hnamed : term.Named) :
    typed.expr.reading? = some term.eraseLines := by
  cases valued_of_value h with
  | bool value => cases value <;> rfl
  | literal kind text => rfl
  | @var name entry hfound =>
    have hname : LocalName name := hnamed (.var name) name .self rfl
    have htrue : name ≠ "true" := hname.ne (by decide)
    have hfalse : name ≠ "false" := hname.ne (by decide)
    simp [Expr.reading?, htrue, hfalse, eraseLines]

end Term

/-- An assignment is read back, as no local has the blank name. -/
theorem Target.Stmt.reading?_assign {name : String} {value : Term} {line : Nat} {op : AssignOp}
    {expr : Expr} (hread : expr.reading? = some value.eraseLines)
    (hnamed : (Term.assign name value line).Named) :
    (Stmt.assign [.ident name] op [expr]).reading? =
      some (Term.assign name value line).eraseLines := by
  have hname : LocalName name := hnamed (.assign name value line) name .self rfl
  have hblank : name ≠ "_" := hname.ne (by decide)
  simp [reading?, hread, hblank, Term.eraseLines]

theorem EmitsOne.reading? {place : Place} {scope scope' : Scope} {term : Term} {stmt : Stmt}
    (h : EmitsOne place scope term stmt scope') (hnamed : term.Named) :
    stmt.reading? = some term.eraseLines := by
  cases h with
  | unused hvalue => simp [Stmt.reading?, Term.reading?_of_value hvalue hnamed]
  | update hvalue | define hvalue | hoist hvalue =>
    have hread := Term.reading?_of_value hvalue (hnamed.inner (.value .self))
    exact Stmt.reading?_assign hread hnamed
  | print hvalue =>
    have hread := Term.reading?_of_value hvalue (hnamed.inner (.argument .self))
    simp [Stmt.reading?, Routine.ofMember?_member, hread, Term.eraseLines]

theorem EmitsOne.statements {place : Place} {scope scope' : Scope} {term : Term} {stmt : Stmt}
    (h : EmitsOne place scope term stmt scope') : term.statements = [term] := by
  cases h with
  | unused hvalue => cases Term.valued_of_value hvalue <;> rfl
  | update | define | hoist | print => rfl

theorem Emits.readingAll? {place : Place} {scope scope' : Scope} {terms : List Term}
    {stmts : List Stmt} (h : Emits place scope terms stmts scope')
    (hnamed : ∀ term ∈ terms, term.Named) :
    Stmt.readingAll? stmts = some ((Term.statementsAll terms).map Term.eraseLines) := by
  induction h with
  | nil => rfl
  | one hone _ ih =>
    rw [List.forall_mem_cons] at hnamed
    simp [Stmt.readingAll?, Term.statementsAll, hone.reading? hnamed.1, hone.statements,
      ih hnamed.2]
  | seq _ _ ihitems ihrest =>
    rw [List.forall_mem_cons] at hnamed
    have hitems := ihitems fun item hitem => hnamed.1.inner (.item hitem .self)
    rw [Term.statementsAll, Term.statements, List.map_append]
    exact Stmt.readingAll?_append hitems (ihrest hnamed.2)
  | cond htest _ _ ihbody ihrest =>
    rw [List.forall_mem_cons] at hnamed
    have hread := Term.reading?_of_value htest (hnamed.1.inner (.test .self))
    have hbody := ihbody fun item hitem => hnamed.1.inner (.body hitem .self)
    simp [Stmt.readingAll?, Stmt.reading?, Term.statementsAll, Term.statements, hread, hbody,
      ihrest hnamed.2, Term.eraseLines_cond]
  | condElse htest _ _ _ ihbody ihother ihrest =>
    rw [List.forall_mem_cons] at hnamed
    have hread := Term.reading?_of_value htest (hnamed.1.inner (.test .self))
    have hbody := ihbody fun item hitem => hnamed.1.inner (.body hitem .self)
    have hother := ihother fun item hitem => hnamed.1.inner (.otherwise hitem .self)
    simp [Stmt.readingAll?, Stmt.reading?, Term.statementsAll, Term.statements, hread, hbody,
      hother, ihrest hnamed.2, Term.eraseLines_cond]

/-- What is added to a draft for the term of a tree, after all that was there before, reads back to
the statements of the term. -/
theorem added_statements_read_back {tree : Sexpr} {term : Term} {draft next : Draft}
    (hterm : Term.ofSexpr tree = .ok term) (hadd : draft.add term = (.ok (), next)) :
    ∃ stmts, next.statements = draft.statements ++ stmts ∧
      Stmt.readingAll? stmts = some (term.statements.map Term.eraseLines) := by
  obtain ⟨stmts, scope, hemits, rfl⟩ := Draft.add_eq_ok.mp hadd
  have hread := hemits.readingAll? (List.forall_mem_singleton.mpr (Term.named_of_ofSexpr hterm))
  rw [Term.statementsAll, Term.statementsAll, List.append_nil] at hread
  exact ⟨stmts, rfl, hread⟩

def steppedTree : Sexpr :=
  ⟨":begin", 1, [⟨":lvasgn", 1, [.leaf ":x" 1, ⟨":int", 1, [.leaf "1" 1]⟩]⟩,
    ⟨":if", 2, [.leaf ":true" 2,
      ⟨":begin", 3, [⟨":lvar", 3, [.leaf ":x" 3]⟩,
        ⟨":begin", 4, [⟨":send", 4, [.leaf "nil" 4, .leaf ":puts" 4,
          ⟨":lvar", 4, [.leaf ":x" 4]⟩]⟩]⟩]⟩]⟩]⟩

def steppedTerm : Term :=
  .seq [.assign "x" (.literal .int "1") 1,
    .cond (.bool true) [.var "x", .print .println (.var "x")] none]

/-- A draft with a statement already, in which a local is called like a constant. -/
def shadowedDraft : Draft :=
  { Draft.empty "main" with
    locals := [⟨"true", .int, 1, false⟩]
    statements := [.assign [.ident "true"] .define [.literal .int "0"]] }

theorem stepped_tree_reads_back :
    Term.ofSexpr steppedTree = .ok steppedTerm ∧
      ∃ next, shadowedDraft.add steppedTerm = (.ok (), next) ∧
        ∃ stmts, next.statements = shadowedDraft.statements ++ stmts ∧
          Stmt.readingAll? stmts =
            some [.assign "x" (.literal .int "1") 0,
              .cond (.bool true) [.var "x", .print .println (.var "x")] none] := by
  have hterm : Term.ofSexpr steppedTree = .ok steppedTerm := rfl
  have hadd : shadowedDraft.add steppedTerm = (.ok (), (shadowedDraft.add steppedTerm).2) := rfl
  exact ⟨hterm, _, hadd, added_statements_read_back hterm hadd⟩

end SexprCompiler
