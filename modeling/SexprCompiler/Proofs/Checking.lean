import Mathlib.Logic.Function.Basic
import SexprCompiler.Proofs.Typing

/-!
# The terms that can be emitted

On the way through a term its values are visited one after another: sequences in order, and of a
conditional first the test, then the body, then the other branch. A table of types admits the
visits if every value is simple and in scope where it is visited, every assignment keeps to the
type of its local, and every test is a truth value. A term can be emitted exactly when some table
admits its visits. The types are found out in one pass, step by step along the visits, and no
other types are possible.
-/
namespace SexprCompiler

open Target (Ty Stmt)

abbrev TypeTable := String → Option Ty

/-- One table has all entries of another. -/
def TypeTable.Extends (types known : TypeTable) : Prop :=
  ∀ name type, known name = some type → types name = some type

theorem TypeTable.Extends.trans {types next known : TypeTable} (h : types.Extends next)
    (h' : next.Extends known) : types.Extends known :=
  fun name type hknown => h name type (h' name type hknown)

theorem TypeTable.Extends.refl (types : TypeTable) : types.Extends types := fun _ _ => id

/-- A value that is met on the way through a term, and what it is used for. -/
inductive Visit where
  | use (value : Term)
  | test (value : Term)
  | assign (name : String) (value : Term)

def Visit.value : Visit → Term
  | use value | test value | assign _ value => value

namespace Term

mutual

def visits : Term → List Visit
  | .assign name value _ => [.assign name value]
  | .print _ argument => [.use argument]
  | .seq items => visitsAll items
  | .cond test body none => .test test :: visitsAll body
  | .cond test body (some otherwise) => .test test :: (visitsAll body ++ visitsAll otherwise)
  | term => [.use term]

def visitsAll : List Term → List Visit
  | [] => []
  | term :: terms => term.visits ++ visitsAll terms

end

/-- The literals and locals, which are the only terms with a value. -/
def isSimple : Term → Bool
  | .bool _ | .literal _ _ | .var _ => true
  | _ => false

def type? (types : TypeTable) : Term → Option Ty
  | .bool _ => some .bool
  | .literal .int _ => some .int
  | .literal .float _ => some .float
  | .literal .string _ => some .string
  | .var name => types name
  | _ => none

end Term

/-- The types that locals may have for a row of visits, given the locals that are known before. -/
structure Admits (known types : TypeTable) (visits : List Visit) : Prop where
  /-- What is known stays as it is. -/
  keeps : types.Extends known
  /-- Only literals and locals are used as values. -/
  simple : ∀ visit ∈ visits, visit.value.isSimple = true
  /-- A local that is read is known or has been assigned earlier. -/
  bound : ∀ before visit after name, visits = before ++ visit :: after →
    visit.value = .var name → (known name).isSome ∨ ∃ value, .assign name value ∈ before
  /-- A value that is assigned has the type of its local. -/
  assigned : ∀ name value, .assign name value ∈ visits →
    ∃ type, types name = some type ∧ value.type? types = some type
  /-- A test is a truth value. -/
  boolean : ∀ value, .test value ∈ visits → value.type? types = some .bool

/-! ## One pass along the visits -/

/-- The effect of a visit on what is known. An assignment to a new local sets its type. -/
inductive Step : TypeTable → Visit → TypeTable → Prop where
  | use {known value type} (hvalue : Term.type? known value = some type) :
      Step known (.use value) known
  | test {known value} (hvalue : Term.type? known value = some .bool) :
      Step known (.test value) known
  | assign {known name value type} (hvalue : Term.type? known value = some type)
      (hname : ∀ other, known name = some other → other = type) :
      Step known (.assign name value) (Function.update known name (some type))

inductive Pass : TypeTable → List Visit → TypeTable → Prop where
  | nil {known} : Pass known [] known
  | cons {known visit next visits final} (hstep : Step known visit next)
      (hrest : Pass next visits final) : Pass known (visit :: visits) final

theorem Pass.append {known next final : TypeTable} {visits others : List Visit}
    (h : Pass known visits next) (hothers : Pass next others final) :
    Pass known (visits ++ others) final := by
  induction h with
  | nil => exact hothers
  | cons hstep _ ih => exact .cons hstep (ih hothers)

theorem Pass.exists_of_append {known final : TypeTable} {visits others : List Visit}
    (h : Pass known (visits ++ others) final) :
    ∃ next, Pass known visits next ∧ Pass next others final := by
  induction visits generalizing known with
  | nil => exact ⟨known, .nil, h⟩
  | cons visit visits ih =>
    cases h with
    | cons hstep hrest =>
      obtain ⟨next, hfirst, hothers⟩ := ih hrest
      exact ⟨next, .cons hstep hfirst, hothers⟩

section

variable {known next final types : TypeTable} {visit : Visit} {visits : List Visit}

theorem Term.isSimple_of_type? {value : Term} {type : Ty} (h : value.type? known = some type) :
    value.isSimple = true := by
  cases value with
  | bool | literal | var => rfl
  | assign | cond | print | seq | unknown => simp [type?] at h

theorem Term.type?_of_extends {value : Term} {type : Ty} (hkeeps : types.Extends known)
    (h : value.type? known = some type) : value.type? types = some type := by
  cases value with
  | bool => exact h
  | literal kind => cases kind <;> exact h
  | var name => exact hkeeps name type h
  | assign | cond | print | seq | unknown => simp [type?] at h

theorem Term.exists_type? {value : Term} (hsimple : value.isSimple = true)
    (hknown : ∀ name, value = .var name → (known name).isSome) :
    ∃ type, value.type? known = some type := by
  cases value with
  | bool => exact ⟨_, rfl⟩
  | literal kind => exact ⟨kind.type, by cases kind <;> rfl⟩
  | var name => exact Option.isSome_iff_exists.mp (hknown name rfl)
  | assign | cond | print | seq | unknown => simp [isSimple] at hsimple

theorem Step.exists_type? (h : Step known visit next) :
    ∃ type, visit.value.type? known = some type := by
  cases h with
  | use hvalue | test hvalue | assign hvalue => exact ⟨_, hvalue⟩

theorem Step.isSome_iff (h : Step known visit next) (name : String) :
    (next name).isSome ↔ (known name).isSome ∨ ∃ value, visit = .assign name value := by
  cases h with
  | use | test => simp
  | @assign target =>
    by_cases hname : name = target
    · subst hname
      simp
    · simp [Function.update_of_ne hname, Ne.symm hname]

theorem Step.extends (h : Step known visit next) : next.Extends known := by
  cases h with
  | use | test => exact .refl known
  | @assign target _ _ _ htarget =>
    intro name found hfound
    by_cases hname : name = target
    · subst hname
      rw [Function.update_self, htarget found hfound]
    · rwa [Function.update_of_ne hname]

theorem Pass.isSome_iff (h : Pass known visits final) (name : String) :
    (final name).isSome ↔ (known name).isSome ∨ ∃ value, .assign name value ∈ visits := by
  induction h with
  | nil => simp
  | @cons _ visit _ visits _ hstep _ ih =>
    simp only [ih, hstep.isSome_iff, List.mem_cons, exists_or, or_assoc, eq_comm]

/-! ## A pass finds the types that are admitted -/

theorem admits_nil (hkeeps : types.Extends known) : Admits known types [] where
  keeps := hkeeps
  simple := List.forall_mem_nil _
  bound := by
    intro before visit after name hsplit
    simp at hsplit
  assigned := fun name value hvalue => absurd hvalue List.not_mem_nil
  boolean := fun value hvalue => absurd hvalue List.not_mem_nil

theorem Admits.exists_step (h : Admits known types (visit :: visits)) :
    ∃ next, Step known visit next := by
  have hvalue : ∃ type, visit.value.type? known = some type := by
    refine Term.exists_type? (h.simple visit List.mem_cons_self) ?_
    intro name hname
    exact (h.bound [] visit visits name rfl hname).resolve_right (by simp)
  obtain ⟨type, hvalue⟩ := hvalue
  have htype := Term.type?_of_extends h.keeps hvalue
  cases visit with
  | use value => exact ⟨known, .use hvalue⟩
  | test value =>
    obtain rfl : type = .bool :=
      Option.some.inj (htype.symm.trans (h.boolean value List.mem_cons_self))
    exact ⟨known, .test hvalue⟩
  | assign name value =>
    obtain ⟨declared, hname, hdeclared⟩ := h.assigned name value List.mem_cons_self
    obtain rfl : type = declared := Option.some.inj (htype.symm.trans hdeclared)
    refine ⟨_, .assign hvalue fun other hother => ?_⟩
    exact Option.some.inj ((h.keeps name other hother).symm.trans hname)

/-- The types that are admitted from a visit on have what the visit makes known. -/
theorem Admits.extends_step (h : Admits known types (visit :: visits))
    (hstep : Step known visit next) : types.Extends next := by
  cases hstep with
  | use | test => exact h.keeps
  | @assign target value type hvalue =>
    obtain ⟨declared, hdeclared, htype⟩ := h.assigned target value List.mem_cons_self
    obtain rfl : type = declared :=
      Option.some.inj ((Term.type?_of_extends h.keeps hvalue).symm.trans htype)
    intro name found hfound
    by_cases hname : name = target
    · subst hname
      rw [Function.update_self] at hfound
      rw [hdeclared, hfound]
    · rw [Function.update_of_ne hname] at hfound
      exact h.keeps name found hfound

theorem Admits.tail (h : Admits known types (visit :: visits)) (hstep : Step known visit next) :
    Admits next types visits where
  keeps := h.extends_step hstep
  simple := fun later hlater => h.simple later (List.mem_cons_of_mem _ hlater)
  bound := by
    intro before later after name hsplit hname
    rw [hstep.isSome_iff]
    rcases h.bound (visit :: before) later after name (by rw [hsplit]; rfl) hname with
      hknown | ⟨value, hvalue⟩
    · exact .inl (.inl hknown)
    · rcases List.mem_cons.mp hvalue with rfl | hvalue
      · exact .inl (.inr ⟨value, rfl⟩)
      · exact .inr ⟨value, hvalue⟩
  assigned := fun name value hvalue => h.assigned name value (List.mem_cons_of_mem _ hvalue)
  boolean := fun value hvalue => h.boolean value (List.mem_cons_of_mem _ hvalue)

/-- A visit that can be made is admitted with what is admitted after it. -/
theorem Admits.cons (hstep : Step known visit next) (h : Admits next types visits) :
    Admits known types (visit :: visits) where
  keeps := h.keeps.trans hstep.extends
  simple := by
    obtain ⟨type, htype⟩ := hstep.exists_type?
    exact List.forall_mem_cons.mpr ⟨Term.isSimple_of_type? htype, h.simple⟩
  bound := by
    intro before later after name hsplit hname
    rcases List.cons_eq_append_iff.mp hsplit with ⟨rfl, hfirst⟩ | ⟨front, rfl, hrest⟩
    · obtain ⟨rfl, -⟩ := List.cons_eq_cons.mp hfirst
      obtain ⟨type, htype⟩ := hstep.exists_type?
      rw [hname] at htype
      exact .inl (Option.isSome_iff_exists.mpr ⟨type, htype⟩)
    · have hbefore := h.bound front later after name hrest hname
      rw [hstep.isSome_iff] at hbefore
      rcases hbefore with (hknown | ⟨value, rfl⟩) | ⟨value, hvalue⟩
      · exact .inl hknown
      · exact .inr ⟨value, List.mem_cons_self⟩
      · exact .inr ⟨value, List.mem_cons_of_mem _ hvalue⟩
  assigned := by
    intro name value hvalue
    rcases List.mem_cons.mp hvalue with rfl | hvalue
    · have hkeeps := h.keeps.trans hstep.extends
      cases hstep with
      | @assign _ _ type hvalue =>
        have hname := h.keeps name type (Function.update_self name (some type) known)
        exact ⟨type, hname, Term.type?_of_extends hkeeps hvalue⟩
    · exact h.assigned name value hvalue
  boolean := by
    intro value hvalue
    rcases List.mem_cons.mp hvalue with rfl | hvalue
    · cases hstep with
      | test hvalue => exact Term.type?_of_extends h.keeps hvalue
    · exact h.boolean value hvalue

theorem Admits.exists_pass (h : Admits known types visits) : ∃ final, Pass known visits final := by
  induction visits generalizing known with
  | nil => exact ⟨known, .nil⟩
  | cons visit visits ih =>
    obtain ⟨next, hstep⟩ := h.exists_step
    obtain ⟨final, hrest⟩ := ih (h.tail hstep)
    exact ⟨final, .cons hstep hrest⟩

/-- What a pass finds is in every table that is admitted. -/
theorem Admits.extends_pass (h : Admits known types visits) (hpass : Pass known visits final) :
    types.Extends final := by
  induction hpass with
  | nil => exact h.keeps
  | cons hstep _ ih => exact ih (h.tail hstep)

/-- What a pass finds is itself admitted. -/
theorem Pass.admits (h : Pass known visits final) : Admits known final visits := by
  induction h with
  | nil => exact admits_nil (.refl _)
  | cons hstep _ ih => exact ih.cons hstep

end

/-! ## Emitting makes the pass -/

namespace Scope

@[simp] theorem type?_addImport (scope : Scope) (path : String) :
    (scope.addImport path).type? = scope.type? := by
  funext name
  simp [type?]

theorem type?_declare {scope : Scope} {entry : Local} (hnew : scope.find? entry.name = none) :
    (scope.declare entry).type? = Function.update scope.type? entry.name (some entry.type) := by
  funext name
  by_cases hname : name = entry.name
  · subst hname
    rw [type?_declare_self hnew, Function.update_self]
  · rw [Function.update_of_ne hname, type?, find?_declare, if_neg (Ne.symm hname), Option.or_none,
      type?]

end Scope

/-- A term has a value in a scope exactly when it has a type by the types of the scope. -/
theorem Term.exists_value_iff {scope : Scope} {term : Term} {type : Ty} :
    (∃ expr, term.value scope = .ok ⟨expr, type⟩) ↔ term.type? scope.type? = some type := by
  cases term with
  | bool => simp [value, type?]
  | literal kind => cases kind <;> simp [value, type?, Target.LitKind.type]
  | var name => cases hfound : scope.find? name <;> simp [value, type?, Scope.type?, hfound]
  | assign | cond | print | seq | unknown => simp [value, type?]

section

variable {place : Place} {scope scope' : Scope} {final : TypeTable}

theorem Term.type?_of_value {term : Term} {typed : TypedExpr} (h : term.value scope = .ok typed) :
    term.type? scope.type? = some typed.type :=
  exists_value_iff.mp ⟨typed.expr, h⟩

theorem EmitsOne.pass {term : Term} {stmt : Stmt} (h : EmitsOne place scope term stmt scope') :
    Pass scope.type? term.visits scope'.type? := by
  cases h with
  | unused hvalue =>
    have htype := Term.type?_of_value hvalue
    cases Term.valued_of_value hvalue with
    | bool | literal | var => exact .cons (.use htype) .nil
  | @update _ _ name _ _ typed entry hvalue hfound htype =>
    have hname : scope.type? name = some typed.type := by
      rw [Scope.type?_of_find? hfound, htype]
    -- The type of the local is known, so that setting it again changes nothing.
    have hsame : Function.update scope.type? name (some typed.type) = scope.type? := by
      rw [← hname, Function.update_eq_self]
    have hstep := Step.assign (Term.type?_of_value hvalue)
      fun other hother => Option.some.inj (hother.symm.trans hname)
    rw [hsame] at hstep
    exact .cons hstep .nil
  | @define _ name _ _ _ hvalue hnew | @hoist _ name _ _ _ hvalue hnew =>
    rw [Scope.type?_declare hnew]
    refine .cons (.assign (Term.type?_of_value hvalue) fun other hother => ?_) .nil
    simp [Scope.type?, hnew] at hother
  | print hvalue =>
    rw [Scope.type?_addImport]
    exact .cons (.use (Term.type?_of_value hvalue)) .nil

theorem Emits.pass {terms : List Term} {stmts : List Stmt}
    (h : Emits place scope terms stmts scope') :
    Pass scope.type? (Term.visitsAll terms) scope'.type? := by
  induction h with
  | nil => exact .nil
  | one hone _ ih => exact hone.pass.append ih
  | seq _ _ ihitems ihrest => exact ihitems.append ihrest
  | cond htest _ _ ihbody ihrest =>
    exact .cons (.test (Term.type?_of_value htest)) (ihbody.append ihrest)
  | condElse htest _ _ _ ihbody ihother ihrest =>
    exact .cons (.test (Term.type?_of_value htest)) ((ihbody.append ihother).append ihrest)

theorem Emits.pass_singleton {term : Term} {stmts : List Stmt}
    (h : Emits place scope [term] stmts scope') :
    Pass scope.type? term.visits scope'.type? := by
  simpa only [Term.visitsAll, List.append_nil] using h.pass

theorem exists_emitsOne_assign (place : Place) {name : String} {value : Term} {line : Nat}
    (h : Step scope.type? (.assign name value) final) :
    ∃ stmt scope', EmitsOne place scope (.assign name value line) stmt scope' ∧
      scope'.type? = final := by
  cases h with
  | @assign _ _ type hvalue hname =>
    obtain ⟨expr, hexpr⟩ := Term.exists_value_iff.mpr hvalue
    cases hfound : scope.find? name with
    | some entry =>
      have htype := Scope.type?_of_find? hfound
      refine ⟨_, _, .update hexpr hfound (hname _ htype), ?_⟩
      rw [← hname _ htype, ← htype, Function.update_eq_self]
    | none =>
      cases place with
      | main => exact ⟨_, _, .define hexpr hfound, Scope.type?_declare hfound⟩
      | branch => exact ⟨_, _, .hoist hexpr hfound, Scope.type?_declare hfound⟩

/-- A term that only has a value can be emitted wherever it has one. -/
theorem exists_emits_use (place : Place) {term : Term} (hvisits : term.visits = [.use term])
    (h : Pass scope.type? term.visits final) :
    ∃ stmts scope', Emits place scope [term] stmts scope' ∧ scope'.type? = final := by
  rw [hvisits] at h
  cases h with
  | cons hstep hrest =>
    cases hrest
    cases hstep with
    | use hvalue =>
      obtain ⟨expr, hexpr⟩ := Term.exists_value_iff.mpr hvalue
      exact ⟨_, scope, .one (.unused hexpr) .nil, rfl⟩

mutual

theorem exists_emits_of_pass (place : Place) {scope : Scope} {final : TypeTable} :
    (term : Term) → Pass scope.type? term.visits final →
      ∃ stmts scope', Emits place scope [term] stmts scope' ∧ scope'.type? = final
  | .bool _, h | .literal _ _, h | .var _, h | .unknown _ _, h => exists_emits_use place rfl h
  | .assign name value line, .cons hstep .nil => by
    obtain ⟨stmt, scope', hone, htypes⟩ := exists_emitsOne_assign place hstep
    exact ⟨_, scope', .one hone .nil, htypes⟩
  | .print routine argument, .cons (.use hvalue) .nil => by
    obtain ⟨expr, hexpr⟩ := Term.exists_value_iff.mpr hvalue
    exact ⟨_, _, .one (.print hexpr) .nil, Scope.type?_addImport _ _⟩
  | .seq items, h => by
    obtain ⟨stmts, scope', hitems, htypes⟩ := exists_emitsAll_of_pass place items h
    exact ⟨_, scope', .seq hitems .nil, htypes⟩
  | .cond test body none, .cons (.test htest) h => by
    obtain ⟨expr, hexpr⟩ := Term.exists_value_iff.mpr htest
    obtain ⟨block, scope', hbody, htypes⟩ := exists_emitsAll_of_pass .branch body h
    exact ⟨_, scope', .cond hexpr hbody .nil, htypes⟩
  | .cond test body (some otherwise), .cons (.test htest) h => by
    obtain ⟨expr, hexpr⟩ := Term.exists_value_iff.mpr htest
    obtain ⟨next, hbody, hother⟩ := h.exists_of_append
    obtain ⟨block, scope₁, hblock, rfl⟩ := exists_emitsAll_of_pass .branch body hbody
    obtain ⟨other, scope', hother, htypes⟩ := exists_emitsAll_of_pass .branch otherwise hother
    exact ⟨_, scope', .condElse hexpr hblock hother .nil, htypes⟩

/-- A row can be emitted wherever a pass along its visits can be made. -/
theorem exists_emitsAll_of_pass (place : Place) {scope : Scope} {final : TypeTable} :
    (terms : List Term) → Pass scope.type? (Term.visitsAll terms) final →
      ∃ stmts scope', Emits place scope terms stmts scope' ∧ scope'.type? = final
  | [], .nil => ⟨_, scope, .nil, rfl⟩
  | term :: terms, h => by
    obtain ⟨next, hfirst, hrest⟩ := h.exists_of_append
    obtain ⟨first, scope₁, hterm, rfl⟩ := exists_emits_of_pass place term hfirst
    obtain ⟨stmts, scope', hterms, htypes⟩ := exists_emitsAll_of_pass place terms hrest
    exact ⟨_, scope', hterm.append hterms, htypes⟩

end

end

/-- A term can be added to a draft exactly when some table of types admits its visits. Then every
local of the draft stays as it is, and exactly the assigned locals are there besides. The types
that they get are admitted, and every other table that is admitted has them too. -/
theorem added_exactly_when_admitted (draft : Draft) (term : Term) :
    ((draft.add term).1 = .ok () ↔ ∃ types, Admits draft.type? types term.visits) ∧
    ∀ next, draft.add term = (.ok (), next) →
      (∀ name entry, draft.find? name = some entry → next.find? name = some entry) ∧
      (∀ name, (next.find? name).isSome ↔
        (draft.find? name).isSome ∨ ∃ value, .assign name value ∈ term.visits) ∧
      Admits draft.type? next.type? term.visits ∧
      ∀ types, Admits draft.type? types term.visits →
        ∀ name type, next.type? name = some type → types name = some type := by
  have hrow : Term.visitsAll [term] = term.visits := by simp [Term.visitsAll]
  constructor
  · constructor
    · intro hok
      obtain ⟨stmts, scope, hemits, -⟩ := Draft.add_eq_ok.mp (Prod.ext hok rfl)
      exact ⟨_, hrow ▸ hemits.pass.admits⟩
    · rintro ⟨types, htypes⟩
      obtain ⟨final, hpass⟩ := htypes.exists_pass
      obtain ⟨stmts, scope, hemits, -⟩ := exists_emits_of_pass .main term hpass
      exact congrArg Prod.fst (Draft.add_eq_ok.mpr ⟨stmts, scope, hemits, rfl⟩)
  · intro next hadd
    obtain ⟨stmts, scope, hemits, rfl⟩ := Draft.add_eq_ok.mp hadd
    have hpass := hemits.pass
    rw [hrow] at hpass
    refine ⟨fun name entry => hemits.grows.find?, fun name => ?_, hpass.admits,
      fun types htypes => htypes.extends_pass hpass⟩
    simpa [Scope.type?] using hpass.isSome_iff name

/-- A local that one branch assigns and the other one reads. -/
def crossingTerm : Term :=
  .cond (.var "x") [.assign "y" (.literal .int "1") 2] (some [.assign "z" (.var "y") 3])

def draftOfFlag : Draft := { Draft.empty "main" with locals := [⟨"x", .bool, 1, false⟩] }

theorem crossing_term_is_added :
    (∃ types, Admits draftOfFlag.type? types crossingTerm.visits) ∧
      (draftOfFlag.add crossingTerm).2.find? "x" = some ⟨"x", .bool, 1, false⟩ ∧
      ∀ types, Admits draftOfFlag.type? types crossingTerm.visits → types "z" = some .int := by
  have hadded := added_exactly_when_admitted draftOfFlag crossingTerm
  obtain ⟨hkeeps, -, -, hagree⟩ := hadded.2 _ rfl
  exact ⟨hadded.1.mp rfl, hkeeps "x" _ rfl, fun types htypes => hagree types htypes "z" _ rfl⟩

end SexprCompiler
