import Mathlib.Data.List.Nodup
import SexprCompiler.Proofs.Lowering

/-!
# What emitting does

The statements that terms in a row are emitted as, and the scope before and after, form a
relation. One case says how a term without inner terms becomes a statement, and the others how
sequences and branches are put together. Emitting succeeds exactly along this relation, so every
property of emitted programs is proved on it: what one statement does first, and then what a whole
row does.
-/
namespace SexprCompiler

open Target (Ty LitKind Expr Stmt)

/-- The terms that have a value in a scope. -/
inductive Term.Valued (scope : Scope) : Term → TypedExpr → Prop where
  | bool (value : Bool) :
      Valued scope (.bool value) ⟨.ident (if value then "true" else "false"), .bool⟩
  | literal (kind : LitKind) (text : String) :
      Valued scope (.literal kind text) ⟨.literal kind text, kind.type⟩
  | var {name entry} (hfound : scope.find? name = some entry) :
      Valued scope (.var name) ⟨.ident name, entry.type⟩

theorem Term.valued_of_value {scope : Scope} {term : Term} {typed : TypedExpr}
    (h : term.value scope = .ok typed) : term.Valued scope typed := by
  cases term with
  | bool value =>
    cases h
    exact .bool value
  | literal kind text =>
    cases h
    exact .literal kind text
  | var name =>
    cases hfound : scope.find? name with
    | none => simp [value, hfound] at h
    | some entry =>
      obtain rfl : ⟨.ident name, entry.type⟩ = typed := by simpa [value, hfound] using h
      exact .var hfound
  | assign | cond | print | seq | unknown => simp [value] at h

/-- The effect of a term that becomes one statement without a block inside. -/
inductive EmitsOne : Place → Scope → Term → Stmt → Scope → Prop where
  | unused {place scope term typed} (hvalue : Term.value scope term = .ok typed) :
      EmitsOne place scope term (.assign [.ident "_"] .update [typed.expr]) scope
  | update {place scope name term line typed entry} (hvalue : Term.value scope term = .ok typed)
      (hfound : scope.find? name = some entry) (htype : entry.type = typed.type) :
      EmitsOne place scope (.assign name term line)
        (.assign [.ident name] .update [typed.expr]) scope
  | define {scope name term line typed} (hvalue : Term.value scope term = .ok typed)
      (hnew : scope.find? name = none) :
      EmitsOne .main scope (.assign name term line) (.assign [.ident name] .define [typed.expr])
        (scope.declare ⟨name, typed.type, line, false⟩)
  | hoist {scope name term line typed} (hvalue : Term.value scope term = .ok typed)
      (hnew : scope.find? name = none) :
      EmitsOne .branch scope (.assign name term line) (.assign [.ident name] .update [typed.expr])
        (scope.declare ⟨name, typed.type, line, true⟩)
  | print {place scope routine argument typed}
      (hvalue : Term.value scope argument = .ok typed) :
      EmitsOne place scope (.print routine argument)
        (.evaluate (.call (.member (.ident Routine.package) routine.member) [typed.expr]))
        (scope.addImport Routine.package)

/-- The effect of terms in a row. -/
inductive Emits : Place → Scope → List Term → List Stmt → Scope → Prop where
  | nil {place scope} : Emits place scope [] [] scope
  | one {place scope term stmt scope₁ terms stmts scope₂}
      (hone : EmitsOne place scope term stmt scope₁)
      (hrest : Emits place scope₁ terms stmts scope₂) :
      Emits place scope (term :: terms) (stmt :: stmts) scope₂
  | seq {place scope items first scope₁ terms stmts scope₂}
      (hitems : Emits place scope items first scope₁)
      (hrest : Emits place scope₁ terms stmts scope₂) :
      Emits place scope (.seq items :: terms) (first ++ stmts) scope₂
  | cond {place scope test expr body block scope₁ terms stmts scope₂}
      (htest : Term.value scope test = .ok ⟨expr, .bool⟩)
      (hbody : Emits .branch scope body block scope₁)
      (hrest : Emits place scope₁ terms stmts scope₂) :
      Emits place scope (.cond test body none :: terms) (.branch expr block none :: stmts) scope₂
  | condElse {place scope test expr body block scope₁ otherwise other scope₂ terms stmts scope₃}
      (htest : Term.value scope test = .ok ⟨expr, .bool⟩)
      (hbody : Emits .branch scope body block scope₁)
      (hother : Emits .branch scope₁ otherwise other scope₂)
      (hrest : Emits place scope₂ terms stmts scope₃) :
      Emits place scope (.cond test body (some otherwise) :: terms)
        (.branch expr block (some other) :: stmts) scope₃

theorem Emits.append {place : Place} {scope scope₁ scope₂ : Scope} {terms others : List Term}
    {first stmts : List Stmt} (hterms : Emits place scope terms first scope₁)
    (hothers : Emits place scope₁ others stmts scope₂) :
    Emits place scope (terms ++ others) (first ++ stmts) scope₂ := by
  induction hterms with
  | nil => exact hothers
  | one hone _ ih => exact .one hone (ih hothers)
  | seq hitems _ _ ih =>
    rw [List.cons_append, List.append_assoc]
    exact .seq hitems (ih hothers)
  | cond htest hbody _ _ ih => exact .cond htest hbody (ih hothers)
  | condElse htest hbody hother _ _ _ ih => exact .condElse htest hbody hother (ih hothers)

/-- A row is emitted in two parts wherever it is cut. -/
theorem Emits.exists_of_append {place : Place} {scope scope' : Scope} {terms others : List Term}
    {stmts : List Stmt} (h : Emits place scope (terms ++ others) stmts scope') :
    ∃ first rest scope₁, stmts = first ++ rest ∧ Emits place scope terms first scope₁ ∧
      Emits place scope₁ others rest scope' := by
  induction terms generalizing scope stmts with
  | nil => exact ⟨[], stmts, scope, rfl, .nil, h⟩
  | cons term terms ih =>
    cases h with
    | one hone hrest =>
      obtain ⟨first, rest, scope₁, rfl, hterms, hothers⟩ := ih hrest
      exact ⟨_, rest, scope₁, rfl, .one hone hterms, hothers⟩
    | seq hitems hrest =>
      obtain ⟨first, rest, scope₁, rfl, hterms, hothers⟩ := ih hrest
      exact ⟨_, rest, scope₁, (List.append_assoc _ _ _).symm, .seq hitems hterms, hothers⟩
    | cond htest hbody hrest =>
      obtain ⟨first, rest, scope₁, rfl, hterms, hothers⟩ := ih hrest
      exact ⟨_, rest, scope₁, rfl, .cond htest hbody hterms, hothers⟩
    | condElse htest hbody hother hrest =>
      obtain ⟨first, rest, scope₁, rfl, hterms, hothers⟩ := ih hrest
      exact ⟨_, rest, scope₁, rfl, .condElse htest hbody hother hterms, hothers⟩

/-! ## Emitting follows the relation -/

@[simp] theorem Scope.locals_addImport (scope : Scope) (path : String) :
    (scope.addImport path).locals = scope.locals := by
  unfold addImport
  split <;> rfl

@[simp] theorem Scope.find?_addImport (scope : Scope) (path name : String) :
    (scope.addImport path).find? name = scope.find? name := by
  simp [find?]

namespace Term

variable {place : Place} {scope scope' : Scope}

@[simp] theorem value_addImport (term : Term) (path : String) :
    term.value (scope.addImport path) = term.value scope := by
  cases term <;> simp [value]

theorem emitValue_eq_ok {term : Term} {typed : TypedExpr} :
    term.emitValue scope = .ok typed scope' ↔ term.value scope = .ok typed ∧ scope = scope' := by
  simp only [emitValue, Emit.bind_eq_ok, Emit.get_eq_ok]
  constructor
  · rintro ⟨_, _, ⟨rfl, rfl⟩, hrun⟩
    cases hvalue : term.value scope with
    | error error =>
      rw [hvalue] at hrun
      exact absurd hrun Emit.throw_ne_ok
    | ok found =>
      rw [hvalue] at hrun
      obtain ⟨rfl, rfl⟩ := Emit.pure_eq_ok.mp hrun
      exact ⟨rfl, rfl⟩
  · rintro ⟨hvalue, rfl⟩
    exact ⟨_, _, ⟨rfl, rfl⟩, by rw [hvalue]; exact Emit.pure_eq_ok.mpr ⟨rfl, rfl⟩⟩

theorem emitValue_of_error {term : Term} {error : TypeError} (h : term.value scope = .error error) :
    term.emitValue scope = .error error scope := by
  rw [emitValue, Emit.get_bind, h]
  rfl

theorem emitTest_eq_ok {term : Term} {expr : Expr} :
    term.emitTest scope = .ok expr scope' ↔
      term.value scope = .ok ⟨expr, .bool⟩ ∧ scope = scope' := by
  simp only [emitTest, Emit.bind_eq_ok, emitValue_eq_ok]
  constructor
  · rintro ⟨⟨found, type⟩, _, ⟨hvalue, rfl⟩, htest⟩
    split at htest
    · simp_all
    · simp at htest
  · rintro ⟨hvalue, rfl⟩
    exact ⟨_, _, ⟨hvalue, rfl⟩, by simp⟩

theorem emitUnused_eq_ok {term : Term} {stmt : Stmt} :
    term.emitUnused scope = .ok stmt scope' ↔
      ∃ typed, term.value scope = .ok typed ∧
        stmt = .assign [.ident "_"] .update [typed.expr] ∧ scope = scope' := by
  simp only [emitUnused, Emit.bind_eq_ok, emitValue_eq_ok, Emit.pure_eq_ok]
  constructor
  · rintro ⟨typed, _, ⟨hvalue, rfl⟩, rfl, rfl⟩
    exact ⟨typed, hvalue, rfl, rfl⟩
  · rintro ⟨typed, hvalue, rfl, rfl⟩
    exact ⟨typed, scope, ⟨hvalue, rfl⟩, rfl, rfl⟩

theorem emitPrint_eq_ok {routine : Routine} {argument : Term} {stmt : Stmt} :
    emitPrint routine argument scope = .ok stmt scope' ↔
      EmitsOne place scope (.print routine argument) stmt scope' := by
  simp only [emitPrint, Emit.bind_eq_ok, Emit.modify_eq_ok, emitValue_eq_ok, Emit.pure_eq_ok]
  constructor
  · rintro ⟨_, _, rfl, typed, _, ⟨hvalue, rfl⟩, rfl, rfl⟩
    exact .print (by simpa using hvalue)
  · intro h
    cases h with
    | unused hvalue => simp [value] at hvalue
    | print hvalue => exact ⟨⟨⟩, _, rfl, _, _, ⟨by simpa using hvalue, rfl⟩, rfl, rfl⟩

theorem emitAssign_eq_ok {name : String} {term : Term} {line : Nat} {stmt : Stmt} :
    emitAssign place name term line scope = .ok stmt scope' ↔
      EmitsOne place scope (.assign name term line) stmt scope' := by
  simp only [emitAssign, Emit.bind_eq_ok, emitValue_eq_ok, Emit.get_eq_ok]
  constructor
  · rintro ⟨typed, _, ⟨hvalue, rfl⟩, _, _, ⟨rfl, rfl⟩, hrun⟩
    cases hfound : scope.find? name with
    | some entry =>
      simp only [hfound] at hrun
      split at hrun
      · rename_i htype
        obtain ⟨rfl, rfl⟩ := Emit.pure_eq_ok.mp hrun
        exact .update hvalue hfound htype
      · exact absurd hrun Emit.throw_ne_ok
    | none =>
      cases place with
      | main =>
        simp only [hfound, Emit.bind_eq_ok, Emit.set_eq_ok, Emit.pure_eq_ok] at hrun
        obtain ⟨_, _, rfl, rfl, rfl⟩ := hrun
        exact .define hvalue hfound
      | branch =>
        simp only [hfound, Emit.bind_eq_ok, Emit.set_eq_ok, Emit.pure_eq_ok] at hrun
        obtain ⟨_, _, rfl, rfl, rfl⟩ := hrun
        exact .hoist hvalue hfound
  · intro h
    cases h with
    | unused hvalue => simp [value] at hvalue
    | update hvalue hfound htype =>
      exact ⟨_, _, ⟨hvalue, rfl⟩, _, _, ⟨rfl, rfl⟩, by simp [hfound, htype]⟩
    | define hvalue hnew =>
      exact ⟨_, _, ⟨hvalue, rfl⟩, _, _, ⟨rfl, rfl⟩, by simp only [hnew]; rfl⟩
    | hoist hvalue hnew =>
      exact ⟨_, _, ⟨hvalue, rfl⟩, _, _, ⟨rfl, rfl⟩, by simp only [hnew]; rfl⟩

theorem single_eq_ok {x : Emit Stmt} {stmts : List Stmt} :
    (do return [← x] : Emit (List Stmt)) scope = .ok stmts scope' ↔
      ∃ stmt, stmts = [stmt] ∧ x scope = .ok stmt scope' := by
  simp only [Emit.bind_eq_ok, Emit.pure_eq_ok]
  constructor
  · rintro ⟨stmt, _, hrun, rfl, rfl⟩
    exact ⟨stmt, rfl, hrun⟩
  · rintro ⟨stmt, rfl, hrun⟩
    exact ⟨stmt, _, hrun, rfl, rfl⟩

theorem emit_of_emitsOne {term : Term} {stmt : Stmt} (h : EmitsOne place scope term stmt scope') :
    term.emit place scope = .ok [stmt] scope' := by
  cases h with
  | @unused _ _ term typed hvalue =>
    have hunused := emitUnused_eq_ok.mpr ⟨typed, hvalue, rfl, rfl⟩
    cases term with
    | bool | literal | var | unknown =>
      rw [emit]
      exact single_eq_ok.mpr ⟨_, rfl, hunused⟩
    | assign | cond | print | seq => simp [value] at hvalue
  | update hvalue hfound htype =>
    rw [emit]
    exact single_eq_ok.mpr ⟨_, rfl, emitAssign_eq_ok.mpr (.update hvalue hfound htype)⟩
  | define hvalue hnew =>
    rw [emit]
    exact single_eq_ok.mpr ⟨_, rfl, emitAssign_eq_ok.mpr (.define hvalue hnew)⟩
  | hoist hvalue hnew =>
    rw [emit]
    exact single_eq_ok.mpr ⟨_, rfl, emitAssign_eq_ok.mpr (.hoist hvalue hnew)⟩
  | print hvalue =>
    rw [emit]
    exact single_eq_ok.mpr ⟨_, rfl, emitPrint_eq_ok.mpr (.print hvalue : EmitsOne place _ _ _ _)⟩

theorem emitAll_of_emits {terms : List Term} {stmts : List Stmt}
    (h : Emits place scope terms stmts scope') : emitAll place terms scope = .ok stmts scope' := by
  induction h with
  | nil =>
    rw [emitAll]
    exact Emit.pure_eq_ok.mpr ⟨rfl, rfl⟩
  | one hone _ ih =>
    simp only [emitAll, Emit.bind_eq_ok]
    exact ⟨_, _, emit_of_emitsOne hone, _, _, ih, Emit.pure_eq_ok.mpr ⟨rfl, rfl⟩⟩
  | seq _ _ ihitems ihrest =>
    simp only [emitAll, emit, Emit.bind_eq_ok]
    exact ⟨_, _, ihitems, _, _, ihrest, Emit.pure_eq_ok.mpr ⟨rfl, rfl⟩⟩
  | cond htest _ _ ihbody ihrest =>
    simp only [emitAll, emit, Emit.bind_eq_ok]
    exact ⟨_, _, ⟨_, _, emitTest_eq_ok.mpr ⟨htest, rfl⟩, _, _, ihbody,
      Emit.pure_eq_ok.mpr ⟨rfl, rfl⟩⟩, _, _, ihrest, Emit.pure_eq_ok.mpr ⟨rfl, rfl⟩⟩
  | condElse htest _ _ _ ihbody ihother ihrest =>
    simp only [emitAll, emit, Emit.bind_eq_ok]
    exact ⟨_, _, ⟨_, _, emitTest_eq_ok.mpr ⟨htest, rfl⟩, _, _, ihbody, _, _, ihother,
      Emit.pure_eq_ok.mpr ⟨rfl, rfl⟩⟩, _, _, ihrest, Emit.pure_eq_ok.mpr ⟨rfl, rfl⟩⟩

mutual

theorem emits_of_emit {place : Place} {scope scope' : Scope} {stmts : List Stmt} :
    (term : Term) → term.emit place scope = .ok stmts scope' → Emits place scope [term] stmts scope'
  | .bool value, h | .literal kind text, h | .var name, h | .unknown tag line, h => by
    rw [emit] at h
    obtain ⟨stmt, rfl, hrun⟩ := single_eq_ok.mp h
    obtain ⟨typed, hvalue, rfl, rfl⟩ := emitUnused_eq_ok.mp hrun
    exact .one (.unused hvalue) .nil
  | .assign name value line, h => by
    rw [emit] at h
    obtain ⟨stmt, rfl, hrun⟩ := single_eq_ok.mp h
    exact .one (emitAssign_eq_ok.mp hrun) .nil
  | .print routine argument, h => by
    rw [emit] at h
    obtain ⟨stmt, rfl, hrun⟩ := single_eq_ok.mp h
    exact .one (emitPrint_eq_ok.mp hrun) .nil
  | .seq items, h => by
    rw [emit] at h
    simpa using Emits.seq (emits_of_emitAll items h) .nil
  | .cond test body none, h => by
    simp only [emit, Emit.bind_eq_ok, emitTest_eq_ok, Emit.pure_eq_ok] at h
    obtain ⟨expr, _, ⟨htest, rfl⟩, block, _, hbody, rfl, rfl⟩ := h
    exact .cond htest (emits_of_emitAll body hbody) .nil
  | .cond test body (some otherwise), h => by
    simp only [emit, Emit.bind_eq_ok, emitTest_eq_ok, Emit.pure_eq_ok] at h
    obtain ⟨expr, _, ⟨htest, rfl⟩, block, _, hbody, other, _, hother, rfl, rfl⟩ := h
    exact .condElse htest (emits_of_emitAll body hbody) (emits_of_emitAll otherwise hother) .nil

theorem emits_of_emitAll {place : Place} {scope scope' : Scope} {stmts : List Stmt} :
    (terms : List Term) → emitAll place terms scope = .ok stmts scope' →
      Emits place scope terms stmts scope'
  | [], h => by
    rw [emitAll] at h
    obtain ⟨rfl, rfl⟩ := Emit.pure_eq_ok.mp h
    exact .nil
  | term :: terms, h => by
    simp only [emitAll, Emit.bind_eq_ok, Emit.pure_eq_ok] at h
    obtain ⟨first, scope₁, hfirst, others, _, hothers, rfl, rfl⟩ := h
    exact (emits_of_emit term hfirst).append (emits_of_emitAll terms hothers)

end

/-- Emitting a row succeeds exactly along the relation. -/
theorem emitAll_eq_ok_iff {terms : List Term} {stmts : List Stmt} :
    emitAll place terms scope = .ok stmts scope' ↔ Emits place scope terms stmts scope' :=
  ⟨emits_of_emitAll terms, emitAll_of_emits⟩

theorem emit_eq_ok_iff {term : Term} {stmts : List Stmt} :
    term.emit place scope = .ok stmts scope' ↔ Emits place scope [term] stmts scope' := by
  rw [← emitAll_eq_ok_iff]
  simp [emitAll]

end Term

/-! ## How a scope grows -/

namespace Scope

/-- What one scope has registered is, in the same order, the first that another has. -/
structure Grows (scope scope' : Scope) : Prop where
  imports : scope.imports <+: scope'.imports
  locals : scope.locals <+: scope'.locals

theorem Grows.refl (scope : Scope) : scope.Grows scope :=
  ⟨List.prefix_refl _, List.prefix_refl _⟩

theorem Grows.trans {scope scope₁ scope₂ : Scope} (h : scope.Grows scope₁)
    (h' : scope₁.Grows scope₂) : scope.Grows scope₂ :=
  ⟨h.imports.trans h'.imports, h.locals.trans h'.locals⟩

/-- What is found in a scope is found unchanged in a scope that it grows into. -/
theorem Grows.find? {scope scope' : Scope} (h : scope.Grows scope') {name : String} {entry : Local}
    (hfound : scope.find? name = some entry) : scope'.find? name = some entry := by
  obtain ⟨added, hadded⟩ := h.locals
  unfold Scope.find? at hfound ⊢
  rw [← hadded, List.find?_append, hfound, Option.some_or]

theorem locals_declare {scope : Scope} {entry : Local} (hnew : scope.find? entry.name = none) :
    (scope.declare entry).locals = scope.locals ++ [entry] := by
  simp [declare, hnew]

theorem mem_locals_declare {scope : Scope} {entry : Local} (hnew : scope.find? entry.name = none) :
    entry ∈ (scope.declare entry).locals := by
  simp [locals_declare hnew]

theorem find?_declare_self {scope : Scope} {entry : Local} (hnew : scope.find? entry.name = none) :
    (scope.declare entry).find? entry.name = some entry := by
  simp [find?_declare, hnew]

theorem grows_addImport (scope : Scope) (path : String) : scope.Grows (scope.addImport path) := by
  refine ⟨?_, by simp⟩
  unfold addImport
  split
  · exact List.prefix_refl _
  · exact List.prefix_append _ _

theorem grows_declare (scope : Scope) (entry : Local) : scope.Grows (scope.declare entry) := by
  unfold declare
  split
  · exact .refl scope
  · exact ⟨List.prefix_refl _, List.prefix_append _ _⟩

def Distinct (scope : Scope) : Prop := (scope.locals.map Local.name).Nodup

theorem isSome_find?_iff {scope : Scope} {name : String} :
    (scope.find? name).isSome ↔ name ∈ scope.locals.map Local.name := by
  simp [find?, List.find?_isSome, List.mem_map]

/-- Among locals with different names the one that is found is the one of that name. -/
theorem find?_eq_some_iff {entries : List Local} (h : (entries.map Local.name).Nodup)
    {name : String} {entry : Local} :
    entries.find? (·.name == name) = some entry ↔ entry ∈ entries ∧ entry.name = name := by
  constructor
  · intro hfound
    exact ⟨List.mem_of_find?_eq_some hfound, by simpa using List.find?_some hfound⟩
  · rintro ⟨hmem, rfl⟩
    cases hfound : entries.find? (·.name == entry.name) with
    | none => simpa using List.find?_eq_none.mp hfound entry hmem
    | some other =>
      have hname : other.name = entry.name := by simpa using List.find?_some hfound
      rw [List.inj_on_of_nodup_map h (List.mem_of_find?_eq_some hfound) hmem hname]

theorem Distinct.find?_hoisted {scope : Scope} (h : scope.Distinct) {name : String}
    {entry : Local} :
    scope.hoisted.find? (·.name == name) = some entry ↔
      scope.find? name = some entry ∧ entry.hoisted = true := by
  have hhoisted : (scope.hoisted.map Local.name).Nodup :=
    h.sublist (List.filter_sublist.map Local.name)
  rw [find?_eq_some_iff hhoisted, find?, find?_eq_some_iff h, hoisted, List.mem_filter]
  exact and_right_comm

theorem Distinct.declare {scope : Scope} {entry : Local} (h : scope.Distinct)
    (hnew : scope.find? entry.name = none) : (scope.declare entry).Distinct := by
  unfold Distinct
  rw [locals_declare hnew, List.map_append, List.nodup_append]
  refine ⟨h, by simp, ?_⟩
  rintro name hname other hother rfl
  obtain rfl : name = entry.name := by simpa using hother
  have hfound := isSome_find?_iff.mpr hname
  simp [hnew] at hfound

end Scope

theorem EmitsOne.grows {place : Place} {scope scope' : Scope} {term : Term} {stmt : Stmt}
    (h : EmitsOne place scope term stmt scope') : scope.Grows scope' := by
  cases h with
  | unused | update => exact .refl scope
  | define | hoist => exact Scope.grows_declare _ _
  | print => exact Scope.grows_addImport _ _

theorem EmitsOne.distinct {place : Place} {scope scope' : Scope} {term : Term} {stmt : Stmt}
    (h : EmitsOne place scope term stmt scope') (hscope : scope.Distinct) : scope'.Distinct := by
  cases h with
  | unused | update => exact hscope
  | define _ hnew | hoist _ hnew => exact hscope.declare hnew
  | print => simpa [Scope.Distinct] using hscope

/-- A local that one statement adds is the one it assigns, hoisted if inside a branch. -/
theorem EmitsOne.mem_locals {place : Place} {scope scope' : Scope} {term : Term} {stmt : Stmt}
    {entry : Local} (h : EmitsOne place scope term stmt scope') (hentry : entry ∈ scope'.locals) :
    entry ∈ scope.locals ∨
      (∃ value, term = .assign entry.name value entry.line) ∧
        (place = .branch → entry.hoisted = true) := by
  cases h with
  | unused | update => exact .inl hentry
  | define _ hnew =>
    rw [Scope.locals_declare hnew, List.mem_append, List.mem_singleton] at hentry
    rcases hentry with hentry | rfl
    · exact .inl hentry
    · exact .inr ⟨⟨_, rfl⟩, nofun⟩
  | hoist _ hnew =>
    rw [Scope.locals_declare hnew, List.mem_append, List.mem_singleton] at hentry
    rcases hentry with hentry | rfl
    · exact .inl hentry
    · exact .inr ⟨⟨_, rfl⟩, fun _ => rfl⟩
  | print => exact .inl (by simpa using hentry)

/-- What emitting one statement never breaks, emitting a row never breaks. -/
theorem Emits.preserves (holds : Scope → Prop)
    (hone : ∀ {place scope term stmt scope'}, EmitsOne place scope term stmt scope' →
      holds scope → holds scope')
    {place : Place} {scope scope' : Scope} {terms : List Term} {stmts : List Stmt}
    (h : Emits place scope terms stmts scope') (hscope : holds scope) : holds scope' := by
  induction h with
  | nil => exact hscope
  | one hfirst _ ih => exact ih (hone hfirst hscope)
  | seq _ _ ihitems ihrest => exact ihrest (ihitems hscope)
  | cond _ _ _ ihbody ihrest => exact ihrest (ihbody hscope)
  | condElse _ _ _ _ ihbody ihother ihrest => exact ihrest (ihother (ihbody hscope))

section

variable {place : Place} {scope scope' : Scope} {terms : List Term} {stmts : List Stmt}

theorem Emits.grows (h : Emits place scope terms stmts scope') : scope.Grows scope' :=
  h.preserves scope.Grows (fun hone hgrows => hgrows.trans hone.grows) (.refl scope)

theorem Emits.distinct (h : Emits place scope terms stmts scope') (hscope : scope.Distinct) :
    scope'.Distinct :=
  h.preserves Scope.Distinct EmitsOne.distinct hscope

/-- A local that a row adds is assigned somewhere in it. -/
theorem Emits.mem_locals {entry : Local} (h : Emits place scope terms stmts scope')
    (hentry : entry ∈ scope'.locals) :
    entry ∈ scope.locals ∨
      ∃ term ∈ terms, ∃ value, Term.Inside (.assign entry.name value entry.line) term := by
  induction h with
  | nil => exact .inl hentry
  | one hone _ ih =>
    rcases ih hentry with hentry | ⟨term, hterm, hinside⟩
    · rcases hone.mem_locals hentry with hentry | ⟨⟨value, rfl⟩, _⟩
      · exact .inl hentry
      · exact .inr ⟨_, List.mem_cons_self, value, .self⟩
    · exact .inr ⟨term, List.mem_cons_of_mem _ hterm, hinside⟩
  | seq _ _ ihitems ihrest =>
    rcases ihrest hentry with hentry | ⟨term, hterm, hinside⟩
    · rcases ihitems hentry with hentry | ⟨item, hitem, value, hinside⟩
      · exact .inl hentry
      · exact .inr ⟨_, List.mem_cons_self, value, .item hitem hinside⟩
    · exact .inr ⟨term, List.mem_cons_of_mem _ hterm, hinside⟩
  | cond _ _ _ ihbody ihrest =>
    rcases ihrest hentry with hentry | ⟨term, hterm, hinside⟩
    · rcases ihbody hentry with hentry | ⟨item, hitem, value, hinside⟩
      · exact .inl hentry
      · exact .inr ⟨_, List.mem_cons_self, value, .body hitem hinside⟩
    · exact .inr ⟨term, List.mem_cons_of_mem _ hterm, hinside⟩
  | condElse _ _ _ _ ihbody ihother ihrest =>
    rcases ihrest hentry with hentry | ⟨term, hterm, hinside⟩
    · rcases ihother hentry with hentry | ⟨item, hitem, value, hinside⟩
      · rcases ihbody hentry with hentry | ⟨item, hitem, value, hinside⟩
        · exact .inl hentry
        · exact .inr ⟨_, List.mem_cons_self, value, .body hitem hinside⟩
      · exact .inr ⟨_, List.mem_cons_self, value, .otherwise hitem hinside⟩
    · exact .inr ⟨term, List.mem_cons_of_mem _ hterm, hinside⟩

/-- Inside a branch only hoisted locals are added. -/
theorem Emits.hoisted_of_branch {entry : Local} (h : Emits .branch scope terms stmts scope')
    (hentry : entry ∈ scope'.locals) : entry ∈ scope.locals ∨ entry.hoisted = true := by
  generalize hplace : Place.branch = place at h
  induction h with
  | nil => exact .inl hentry
  | one hone _ ih =>
    rcases ih hentry hplace with hentry | hhoisted
    · rcases hone.mem_locals hentry with hentry | ⟨_, hhoisted⟩
      · exact .inl hentry
      · exact .inr (hhoisted hplace.symm)
    · exact .inr hhoisted
  | seq _ _ ihitems ihrest =>
    exact (ihrest hentry hplace).elim (fun hentry => ihitems hentry hplace) .inr
  | cond _ _ _ ihbody ihrest =>
    exact (ihrest hentry hplace).elim (fun hentry => ihbody hentry rfl) .inr
  | condElse _ _ _ _ ihbody ihother ihrest =>
    exact (ihrest hentry hplace).elim
      (fun hentry => (ihother hentry rfl).elim (fun hentry => ihbody hentry rfl) .inr) .inr

end

end SexprCompiler
