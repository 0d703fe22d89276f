import SexprCompiler.Proofs.Lines.Reading
import SexprCompiler.Proofs.Typing

/-!
# Compiling without lines

Lines are handed from trees to terms, from terms to locals, and from all of them to errors, but no
decision looks at them. So each stage can be run on what is left without lines, and gives the same
result as before, without its lines. Two texts whose tokens differ in their lines only are the same
text without lines, and what is compiled from them is the same.
-/
namespace SexprCompiler

open Target (Expr Stmt)

/-! ## Terms -/

namespace Term

mutual

/-- A term without its line numbers. -/
def eraseLines : Term → Term
  | .bool value => .bool value
  | .literal kind text => .literal kind text
  | .var name => .var name
  | .assign name value _ => .assign name value.eraseLines 0
  | .cond test body none => .cond test.eraseLines (eraseAll body) none
  | .cond test body (some otherwise) =>
    .cond test.eraseLines (eraseAll body) (some (eraseAll otherwise))
  | .print routine argument => .print routine argument.eraseLines
  | .seq items => .seq (eraseAll items)
  | .unknown tag _ => .unknown tag 0

def eraseAll : List Term → List Term
  | [] => []
  | term :: terms => term.eraseLines :: eraseAll terms

end

theorem eraseAll_eq_map (terms : List Term) : eraseAll terms = terms.map eraseLines := by
  induction terms with
  | nil => rfl
  | cons term terms ih => rw [eraseAll, ih, List.map_cons]

theorem eraseLines_cond (test : Term) (body : List Term) (otherwise : Option (List Term)) :
    (cond test body otherwise).eraseLines =
      .cond test.eraseLines (body.map eraseLines) (otherwise.map (List.map eraseLines)) := by
  cases otherwise with
  | none => simp [eraseLines, eraseAll_eq_map]
  | some otherwise => simp [eraseLines, eraseAll_eq_map]

theorem eraseLines_seq (items : List Term) :
    (seq items).eraseLines = .seq (items.map eraseLines) := by
  rw [eraseLines, eraseAll_eq_map]

theorem items_eraseLines (term : Term) : term.eraseLines.items = term.items.map eraseLines := by
  cases term with
  | seq items => rw [eraseLines_seq]; rfl
  | cond test body otherwise => rw [eraseLines_cond]; simp [items, eraseLines_cond]
  | bool | literal | var | assign | print | unknown => rfl

end Term

/-- The error without its line. -/
def ShapeError.eraseLine : ShapeError → ShapeError
  | .arity tag expected found _ => .arity tag expected found 0
  | .unsupportedSend receiver selector _ => .unsupportedSend receiver selector 0
  | .invalidName text => .invalidName text
  | .invalidTarget tag _ => .invalidTarget tag 0
  | .invalidLiteral tag found _ => .invalidLiteral tag found 0

namespace Sexpr

@[simp] theorem tag_eraseLines (tree : Sexpr) : tree.eraseLines.tag = tree.tag := by
  obtain ⟨tag, line, children⟩ := tree
  rfl

@[simp] theorem line_eraseLines (tree : Sexpr) : tree.eraseLines.line = 0 := by
  obtain ⟨tag, line, children⟩ := tree
  rfl

@[simp] theorem children_eraseLines (tree : Sexpr) :
    tree.eraseLines.children = tree.children.map eraseLines := by
  obtain ⟨tag, line, children⟩ := tree
  rw [eraseLines_eq]

@[simp] theorem isLeaf_eraseLines (tree : Sexpr) : tree.eraseLines.isLeaf = tree.isLeaf := by
  simp [isLeaf]

@[simp] theorem isNil_eraseLines (tree : Sexpr) : tree.eraseLines.isNil = tree.isNil := by
  simp [isNil]

end Sexpr

namespace Term

open Outcome (both bind_both map_both)

/-- The meaning of a tree without its lines. -/
abbrev eraseMeaning : Except ShapeError Term → Except ShapeError Term :=
  both ShapeError.eraseLine eraseLines

theorem nameOfText_eq_both (text : String) :
    nameOfText text = both ShapeError.eraseLine id (nameOfText text) := by
  unfold nameOfText
  split <;> rfl

theorem nameOf_eraseLines (tree : Sexpr) :
    nameOf tree.eraseLines = both ShapeError.eraseLine id (nameOf tree) := by
  obtain ⟨tag, line, _ | ⟨child, _ | ⟨next, others⟩⟩⟩ := tree
  · exact nameOfText_eq_both tag
  · simp only [nameOf, Sexpr.children_eraseLines, List.map_cons, List.map_nil,
      Sexpr.isLeaf_eraseLines, Sexpr.tag_eraseLines, Sexpr.line_eraseLines]
    by_cases hleaf : child.isLeaf = true
    · simp only [hleaf, if_true]
      exact nameOfText_eq_both child.tag
    · simp only [hleaf, if_false, Bool.false_eq_true]
      rfl
  · simp [nameOf, both, ShapeError.eraseLine]

namespace Part

def eraseLines (part : Part) : Part := ⟨part.tree.eraseLines, eraseMeaning part.term⟩

theorem body_eraseLines (part : Part) :
    part.eraseLines.body =
      both ShapeError.eraseLine (List.map Term.eraseLines) part.body := by
  simp only [body, eraseLines, Sexpr.isNil_eraseLines]
  by_cases hnil : part.tree.isNil = true
  · simp only [hnil, if_true]
    rfl
  · simp only [hnil, if_false, Bool.false_eq_true]
    exact map_both items_eraseLines

theorem otherwise_eraseLines (part : Part) :
    part.eraseLines.otherwise =
      both ShapeError.eraseLine (Option.map (List.map Term.eraseLines)) part.otherwise := by
  rw [otherwise, otherwise, body_eraseLines]
  simp only [eraseLines, Sexpr.isNil_eraseLines]
  by_cases hnil : part.tree.isNil = true
  · simp only [hnil, if_true]
    rfl
  · simp only [hnil, if_false, Bool.false_eq_true]
    exact map_both fun _ => rfl

theorem sequence_eraseLines (parts : List Part) :
    sequence (parts.map eraseLines) =
      both ShapeError.eraseLine (List.map Term.eraseLines) (sequence parts) := by
  induction parts with
  | nil => rfl
  | cons part parts ih =>
    rw [List.map_cons, sequence, sequence, ih]
    refine bind_both fun first => bind_both fun others => ?_
    simp [both, pure, Except.pure, items_eraseLines]

end Part

theorem ofParts_eraseLines (construct : Construct) (line : Nat) (parts : List Part) :
    ofParts construct 0 (parts.map Part.eraseLines) =
      eraseMeaning (ofParts construct line parts) := by
  cases construct with
  | bool value =>
    cases parts with
    | nil => rfl
    | cons part parts => simp [ofParts, both, ShapeError.eraseLine]
  | literal kind =>
    rcases parts with _ | ⟨first, _ | ⟨second, _ | ⟨third, others⟩⟩⟩
    · rfl
    · simp only [ofParts, List.map_cons, List.map_nil, Part.eraseLines, Sexpr.isLeaf_eraseLines,
        Sexpr.tag_eraseLines, Sexpr.line_eraseLines]
      split <;> rfl
    · simp only [ofParts, List.map_cons, List.map_nil, Part.eraseLines, Sexpr.isLeaf_eraseLines,
        Sexpr.tag_eraseLines]
      split <;> rfl
    · simp [ofParts, both, ShapeError.eraseLine]
  | var =>
    rcases parts with _ | ⟨name, _ | ⟨second, others⟩⟩
    · rfl
    · simp only [ofParts, List.map_cons, List.map_nil, Part.eraseLines, nameOf_eraseLines]
      exact map_both fun _ => rfl
    · simp [ofParts, both, ShapeError.eraseLine]
  | assign =>
    rcases parts with _ | ⟨target, _ | ⟨value, _ | ⟨third, others⟩⟩⟩
    · rfl
    · rfl
    · simp only [ofParts, List.map_cons, List.map_nil, Part.eraseLines, nameOf_eraseLines]
      exact bind_both fun _ => bind_both fun _ => rfl
    · simp [ofParts, both, ShapeError.eraseLine]
  | cond =>
    rcases parts with _ | ⟨test, _ | ⟨body, _ | ⟨otherwise, _ | ⟨fourth, others⟩⟩⟩⟩
    · rfl
    · rfl
    · simp only [ofParts, List.map_cons, List.map_nil, Part.body_eraseLines]
      refine bind_both fun _ => bind_both fun _ => ?_
      exact congrArg Except.ok (eraseLines_cond _ _ none).symm
    · simp only [ofParts, List.map_cons, List.map_nil, Part.body_eraseLines,
        Part.otherwise_eraseLines]
      refine bind_both fun _ => bind_both fun _ => bind_both fun _ => ?_
      exact congrArg Except.ok (eraseLines_cond _ _ _).symm
    · simp [ofParts, both, ShapeError.eraseLine]
  | send =>
    rcases parts with _ | ⟨receiver, _ | ⟨selector, _ | ⟨argument, _ | ⟨fourth, others⟩⟩⟩⟩
    · rfl
    · rfl
    · rfl
    · simp only [ofParts, List.map_cons, List.map_nil, Part.eraseLines, routineOf?,
        Sexpr.isNil_eraseLines, Sexpr.isLeaf_eraseLines, Sexpr.tag_eraseLines]
      split
      · exact map_both fun _ => rfl
      · rfl
    · simp [ofParts, both, ShapeError.eraseLine]
  | seq =>
    simp only [ofParts, Part.sequence_eraseLines]
    exact map_both fun items => (eraseLines_seq items).symm

/-- The meaning of a tree without lines is its meaning with the lines left out. -/
theorem ofSexpr_eraseLines (tree : Sexpr) :
    ofSexpr tree.eraseLines = eraseMeaning (ofSexpr tree) := by
  induction tree using Sexpr.induction_children with
  | step tree ih =>
    cases hconstruct : Construct.ofTag? tree.tag with
    | none =>
      have herased : Construct.ofTag? tree.eraseLines.tag = none := by simpa using hconstruct
      rw [ofSexpr_of_ofTag?_none hconstruct, ofSexpr_of_ofTag?_none herased]
      simp [both, eraseLines]
    | some construct =>
      have herased : Construct.ofTag? tree.eraseLines.tag = some construct := by
        simpa using hconstruct
      rw [ofSexpr_of_ofTag? hconstruct, ofSexpr_of_ofTag? herased, Sexpr.line_eraseLines,
        ← ofParts_eraseLines, Sexpr.children_eraseLines, List.map_map, List.map_map]
      congr 1
      refine List.map_congr_left fun child hchild => ?_
      simp [Part.eraseLines, ih child hchild]

end Term

/-! ## Statements -/

/-- The error without its line. -/
def TypeError.eraseLine : TypeError → TypeError
  | .unknownTag tag _ => .unknownTag tag 0
  | error => error

def Local.eraseLine (entry : Local) : Local := { entry with line := 0 }

namespace Scope

def eraseLines (scope : Scope) : Scope :=
  { scope with locals := scope.locals.map Local.eraseLine }

theorem find?_eraseLines (scope : Scope) (name : String) :
    scope.eraseLines.find? name = (scope.find? name).map Local.eraseLine := by
  rw [find?, eraseLines, List.find?_map]
  rfl

theorem addImport_eraseLines (scope : Scope) (path : String) :
    scope.eraseLines.addImport path = (scope.addImport path).eraseLines := by
  have himport : scope.eraseLines.hasImport path = scope.hasImport path := rfl
  by_cases hknown : scope.hasImport path = true
  · rw [addImport, addImport, himport, if_pos hknown, if_pos hknown]
  · rw [addImport, addImport, himport, if_neg hknown, if_neg hknown]
    rfl

theorem declare_eraseLines (scope : Scope) (entry : Local) :
    scope.eraseLines.declare entry.eraseLine = (scope.declare entry).eraseLines := by
  have hname : entry.eraseLine.name = entry.name := rfl
  simp only [declare, hname, find?_eraseLines, Option.isSome_map]
  split
  · rfl
  · simp [eraseLines]

end Scope

namespace Emit

variable {α β : Type}

/-- The result of a computation without lines. -/
def eraseResult : EStateM.Result TypeError Scope α → EStateM.Result TypeError Scope α
  | .ok a scope => .ok a scope.eraseLines
  | .error error scope => .error error.eraseLine scope.eraseLines

/-- The second computation does without lines what the first one does. -/
def Erases (x y : Emit α) : Prop := ∀ scope : Scope, y scope.eraseLines = eraseResult (x scope)

theorem Erases.pure (a : α) : Erases (Pure.pure a) (Pure.pure a) := fun _ => rfl

theorem Erases.bind {x y : Emit α} {f g : α → Emit β} (h : Erases x y)
    (hnext : ∀ a, Erases (f a) (g a)) : Erases (x >>= f) (y >>= g) := by
  intro scope
  have hscope := h scope
  simp only [Bind.bind, EStateM.bind]
  rw [hscope]
  cases x scope with
  | ok a after => exact hnext a after
  | error error after => rfl

end Emit

namespace Term

open Emit (Erases)
open Outcome (both)

theorem value_eraseLines (scope : Scope) (term : Term) :
    term.eraseLines.value scope.eraseLines = both TypeError.eraseLine id (term.value scope) := by
  cases term with
  | bool | literal | unknown => rfl
  | var name =>
    simp only [eraseLines, value, Scope.find?_eraseLines]
    cases scope.find? name <;> rfl
  | cond test body otherwise => rw [eraseLines_cond]; rfl
  | assign | print | seq => rfl

theorem erases_emitValue (term : Term) : Erases term.emitValue term.eraseLines.emitValue := by
  intro scope
  have herased := value_eraseLines scope term
  cases hvalue : term.value scope with
  | ok typed =>
    rw [hvalue] at herased
    rw [emitValue_eq_ok.mpr ⟨hvalue, rfl⟩, emitValue_eq_ok.mpr ⟨herased, rfl⟩]
    rfl
  | error error =>
    rw [hvalue] at herased
    rw [emitValue_of_error hvalue, emitValue_of_error herased]
    rfl

theorem erases_emitTest (term : Term) : Erases term.emitTest term.eraseLines.emitTest := by
  refine (erases_emitValue term).bind fun typed => ?_
  by_cases hbool : typed.type = .bool
  · simp only [hbool, if_true]
    exact .pure _
  · simp only [hbool, if_false]
    exact fun _ => rfl

theorem erases_emitUnused (term : Term) : Erases term.emitUnused term.eraseLines.emitUnused :=
  (erases_emitValue term).bind fun _ => .pure _

theorem erases_emitPrint (routine : Routine) (argument : Term) :
    Erases (emitPrint routine argument) (emitPrint routine argument.eraseLines) := by
  refine Erases.bind (fun scope => ?_) fun _ => (erases_emitValue argument).bind fun _ => .pure _
  exact congrArg (EStateM.Result.ok PUnit.unit) (Scope.addImport_eraseLines scope Routine.package)

theorem erases_emitAssign (place : Place) (name : String) (term : Term) (line : Nat) :
    Erases (emitAssign place name term line) (emitAssign place name term.eraseLines 0) := by
  refine (erases_emitValue term).bind fun typed scope => ?_
  rw [Emit.get_bind, Emit.get_bind, Scope.find?_eraseLines]
  cases scope.find? name with
  | some entry =>
    have htype : entry.eraseLine.type = entry.type := rfl
    simp only [Option.map_some, htype]
    split <;> rfl
  | none =>
    have hdeclare (hoisted : Bool) :=
      Scope.declare_eraseLines scope ⟨name, typed.type, line, hoisted⟩
    cases place with
    | main => exact congrArg (EStateM.Result.ok _) (hdeclare false)
    | branch => exact congrArg (EStateM.Result.ok _) (hdeclare true)

mutual

theorem erases_emit (place : Place) :
    (term : Term) → Erases (term.emit place) (term.eraseLines.emit place)
  | .bool value => by
    rw [eraseLines, emit]
    exact (erases_emitUnused (.bool value)).bind fun _ => .pure _
  | .literal kind text => by
    rw [eraseLines, emit]
    exact (erases_emitUnused (.literal kind text)).bind fun _ => .pure _
  | .var name => by
    rw [eraseLines, emit]
    exact (erases_emitUnused (.var name)).bind fun _ => .pure _
  | .unknown tag line => by
    rw [eraseLines, emit, emit]
    exact (erases_emitUnused (.unknown tag line)).bind fun _ => .pure _
  | .assign name value line => by
    rw [eraseLines, emit, emit]
    exact (erases_emitAssign place name value line).bind fun _ => .pure _
  | .print routine argument => by
    rw [eraseLines, emit, emit]
    exact (erases_emitPrint routine argument).bind fun _ => .pure _
  | .seq items => by
    rw [eraseLines, emit, emit]
    exact erases_emitAll place items
  | .cond test body none => by
    rw [eraseLines, emit, emit]
    exact (erases_emitTest test).bind fun _ => (erases_emitAll .branch body).bind fun _ => .pure _
  | .cond test body (some otherwise) => by
    rw [eraseLines, emit, emit]
    exact (erases_emitTest test).bind fun _ => (erases_emitAll .branch body).bind fun _ =>
      (erases_emitAll .branch otherwise).bind fun _ => .pure _

/-- What is emitted does not depend on lines, and what is registered does only in its lines. -/
theorem erases_emitAll (place : Place) :
    (terms : List Term) → Erases (emitAll place terms) (emitAll place (eraseAll terms))
  | [] => .pure []
  | term :: terms => by
    rw [eraseAll, emitAll, emitAll]
    exact (erases_emit place term).bind fun _ => (erases_emitAll place terms).bind fun _ => .pure _

end

end Term

/-! ## From text to text -/

def BuildError.eraseLine : BuildError → BuildError
  | .shape error => .shape error.eraseLine
  | .type error => .type error.eraseLine

def CompileError.eraseLine : CompileError → CompileError
  | .read error => .read error.eraseLine
  | .build error => .build error.eraseLine

namespace Draft

open Outcome (both)

def eraseLines (draft : Draft) : Draft := { draft with toScope := draft.toScope.eraseLines }

theorem add_eraseLines (draft : Draft) (term : Term) :
    draft.eraseLines.add term.eraseLines =
      (both TypeError.eraseLine id (draft.add term).1, (draft.add term).2.eraseLines) := by
  have hemit : term.eraseLines.emit .main draft.eraseLines.toScope =
      Emit.eraseResult (term.emit .main draft.toScope) := Term.erases_emit .main term draft.toScope
  rw [add, add, hemit]
  cases term.emit .main draft.toScope <;> rfl

/-- A tree without lines is added to a draft without lines as it is with them. -/
theorem extend_eraseLines (draft : Draft) (tree : Sexpr) :
    draft.eraseLines.extend tree.eraseLines =
      both BuildError.eraseLine eraseLines (draft.extend tree) := by
  have herased := Term.ofSexpr_eraseLines tree
  cases hterm : Term.ofSexpr tree with
  | error error =>
    rw [hterm] at herased
    rw [extend_of_error hterm, extend_of_error herased]
    rfl
  | ok term =>
    rw [hterm] at herased
    rw [extend_of_ok hterm, extend_of_ok herased, add_eraseLines]
    cases (draft.add term).1 <;> rfl

/-- Two drafts are the same program: their lines may differ, but nothing that is printed. -/
structure SameProgram (draft other : Draft) : Prop where
  statements : draft.statements = other.statements
  imports : draft.imports = other.imports
  hoisted : draft.hoisted.map Local.name = other.hoisted.map Local.name
  types : ∀ name, draft.type? name = other.type? name
  text : draft.text = other.text

theorem hoisted_eraseLines (draft : Draft) :
    draft.eraseLines.hoisted = draft.hoisted.map Local.eraseLine := by
  change (draft.locals.map Local.eraseLine).filter _ = _
  rw [List.filter_map]
  rfl

theorem hoistedNames_eraseLines (draft : Draft) :
    draft.eraseLines.hoisted.map Local.name = draft.hoisted.map Local.name := by
  rw [hoisted_eraseLines, List.map_map]
  rfl

theorem type?_eraseLines (draft : Draft) (name : String) :
    draft.eraseLines.type? name = draft.type? name := by
  change (draft.toScope.eraseLines.find? name).map Local.type = _
  rw [Scope.find?_eraseLines, Option.map_map]
  rfl

theorem text_eraseLines (draft : Draft) : draft.eraseLines.text = draft.text := by
  have hbody : draft.eraseLines.body = draft.body := by
    rw [body, body, hoisted_eraseLines, List.map_map]
    rfl
  rw [text, text, file, file, hbody]
  rfl

/-- Drafts that are equal without lines are the same program. -/
theorem sameProgram_of_eraseLines {draft other : Draft} (h : draft.eraseLines = other.eraseLines) :
    draft.SameProgram other where
  statements := by simpa [eraseLines] using congrArg statements h
  imports := by simpa [eraseLines, Scope.eraseLines] using congrArg (fun next => next.imports) h
  hoisted := by rw [← hoistedNames_eraseLines draft, h, hoistedNames_eraseLines]
  types := by
    intro name
    rw [← type?_eraseLines draft, h, type?_eraseLines]
  text := by rw [← text_eraseLines draft, h, text_eraseLines]

end Draft

namespace Outcome

variable {ε ε' α β : Type}

/-- Two computations both give values or both fail, with values or errors that are related. -/
inductive Alike (errors : ε → ε → Prop) (values : α → α → Prop) :
    Except ε α → Except ε α → Prop where
  | ok {a b} (h : values a b) : Alike errors values (.ok a) (.ok b)
  | error {error other} (h : errors error other) : Alike errors values (.error error) (.error other)

theorem alike_of_both_eq {onError : ε → ε'} {onValue : α → β} {x y : Except ε α}
    (h : both onError onValue x = both onError onValue y) :
    Alike (fun error other => onError error = onError other)
      (fun a b => onValue a = onValue b) x y := by
  cases x with
  | ok a =>
    cases y with
    | ok b => exact .ok (Except.ok.inj h)
    | error error => cases h
  | error error =>
    cases y with
    | ok b => cases h
    | error other => exact .error (Except.error.inj h)

end Outcome

/-- The term of a source text. -/
def Term.ofSource (source : String) : Except CompileError Term :=
  match Sexpr.ofSource source with
  | .error error => .error (.read error)
  | .ok tree =>
    match ofSexpr tree with
    | .error error => .error (.build (.shape error))
    | .ok term => .ok term

open Outcome (Alike)

/-- Two texts are compiled alike. At each stage, both give the same but for lines or both fail with
the same error but for its line. The kind of an error says at which stage it came up. -/
structure CompiledAlike (package source other : String) : Prop where
  trees : Alike (fun error error' => error.eraseLine = error'.eraseLine)
    (fun tree tree' => tree.eraseLines = tree'.eraseLines)
    (Sexpr.ofSource source) (Sexpr.ofSource other)
  terms : Alike (fun error error' => error.eraseLine = error'.eraseLine)
    (fun term term' => term.eraseLines = term'.eraseLines)
    (Term.ofSource source) (Term.ofSource other)
  drafts : Alike (fun error error' => error.eraseLine = error'.eraseLine) Draft.SameProgram
    (Draft.ofSource package source) (Draft.ofSource package other)
  texts : Alike (fun error error' => error.eraseLine = error'.eraseLine)
    (fun text text' => text = text') (compile package source) (compile package other)

section

variable {source other : String}

theorem alike_terms
    (h : Sexpr.eraseResult (Sexpr.ofSource source) = Sexpr.eraseResult (Sexpr.ofSource other)) :
    Alike (fun error error' => error.eraseLine = error'.eraseLine)
      (fun term term' => term.eraseLines = term'.eraseLines)
      (Term.ofSource source) (Term.ofSource other) := by
  unfold Term.ofSource
  generalize Sexpr.ofSource source = result, Sexpr.ofSource other = result' at h ⊢
  cases Outcome.alike_of_both_eq h with
  | error herror => exact .error (congrArg CompileError.read herror)
  | @ok tree tree' htree =>
    have hterm :
        Term.eraseMeaning (Term.ofSexpr tree) = Term.eraseMeaning (Term.ofSexpr tree') := by
      rw [← Term.ofSexpr_eraseLines, htree, Term.ofSexpr_eraseLines]
    dsimp only
    generalize Term.ofSexpr tree = meaning, Term.ofSexpr tree' = meaning' at hterm ⊢
    cases Outcome.alike_of_both_eq hterm with
    | error herror => exact .error (congrArg (CompileError.build ∘ BuildError.shape) herror)
    | ok hlines => exact .ok hlines

theorem alike_drafts (package : String)
    (h : Sexpr.eraseResult (Sexpr.ofSource source) = Sexpr.eraseResult (Sexpr.ofSource other)) :
    Alike (fun error error' => error.eraseLine = error'.eraseLine) Draft.SameProgram
      (Draft.ofSource package source) (Draft.ofSource package other) := by
  unfold Draft.ofSource
  generalize Sexpr.ofSource source = result, Sexpr.ofSource other = result' at h ⊢
  cases Outcome.alike_of_both_eq h with
  | error herror => exact .error (congrArg CompileError.read herror)
  | @ok tree tree' htree =>
    have hdraft := Draft.extend_eraseLines (Draft.empty package) tree
    rw [htree, Draft.extend_eraseLines] at hdraft
    dsimp only
    generalize (Draft.empty package).extend tree = draft at hdraft ⊢
    generalize (Draft.empty package).extend tree' = draft' at hdraft ⊢
    cases Outcome.alike_of_both_eq hdraft.symm with
    | error herror => exact .error (congrArg CompileError.build herror)
    | ok hsame => exact .ok (Draft.sameProgram_of_eraseLines hsame)

theorem Outcome.Alike.texts {errors : CompileError → CompileError → Prop}
    {result result' : Except CompileError Draft}
    (h : Alike errors Draft.SameProgram result result') :
    Alike errors (fun text text' => text = text') (Draft.text <$> result)
      (Draft.text <$> result') := by
  cases h with
  | ok hsame => exact .ok hsame.text
  | error herror => exact .error herror

/-- Texts whose tokens have the same lexemes and roles, whatever stands between them and on
whatever lines they are, are compiled alike. -/
theorem layout_does_not_matter (package : String)
    (h : (Token.scan source).map Token.face = (Token.scan other).map Token.face) :
    CompiledAlike package source other := by
  have hread := Sexpr.eraseResult_ofSource h
  have hdrafts := alike_drafts package hread
  exact ⟨Outcome.alike_of_both_eq hread, alike_terms hread, hdrafts, hdrafts.texts⟩

end

/-- A conditional on one line. -/
def flatSource : String := "(:if (:true) (:lvasgn :x (:int 1)) nil)"

/-- The same conditional on many lines, with commas. -/
def tallSource : String := "(:if, (:true),\n\t(:lvasgn,\n\t\t:x,\n\t\t(:int 1)),\r\n\tnil\n)\n"

theorem tall_source_compiles_alike :
    Token.scan flatSource ≠ Token.scan tallSource ∧
      (Token.scan flatSource).map Token.face = (Token.scan tallSource).map Token.face ∧
        CompiledAlike "main" flatSource tallSource := by
  have hfaces :
      (Token.scan flatSource).map Token.face = (Token.scan tallSource).map Token.face := by
    decide +kernel
  exact ⟨by decide +kernel, hfaces, layout_does_not_matter "main" hfaces⟩

end SexprCompiler
