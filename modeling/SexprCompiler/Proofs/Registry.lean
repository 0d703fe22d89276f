import Mathlib.Data.Finmap
import SexprCompiler.Proofs.Emission

/-!
# What a program relies on, kept in tables

A program under construction keeps its imports twice, as a list in the order of their requests and
as a set in which a request is looked up, and its locals twice, as a map from names to what is known
of them and as a list of the names that are declared ahead of all statements. An import is listed
when it is new to the set, and a hoisted local when it is new to the map; the declarations are found
by looking the listed names up again.

Lists, set and map fit together as long as they are changed by requests and declarations only. The
tables then stand for a scope, which holds all of this once.
-/
namespace SexprCompiler

open Target (Ty Stmt)

/-- What is known of a declared local. -/
structure Symbol where
  type : Ty
  line : Nat
deriving DecidableEq

structure Registry where
  imports : List String
  imported : Finset String
  symbols : Finmap fun _ : String => Symbol
  hoisted : List String

namespace Registry

def empty : Registry := ⟨[], ∅, ∅, []⟩

/-- Adds an import, and tells whether it is new. -/
def addImport (registry : Registry) (path : String) : Bool × Registry :=
  if path ∈ registry.imported then (false, registry)
  else (true, { registry with
    imports := registry.imports ++ [path]
    imported := insert path registry.imported })

def lookup (registry : Registry) (name : String) : Option Symbol := registry.symbols.lookup name

/-- Adds a local, unless one of its name is there. -/
def declare (registry : Registry) (name : String) (symbol : Symbol) : Registry :=
  if name ∈ registry.symbols then registry
  else { registry with symbols := registry.symbols.insert name symbol }

/-- Adds a local that is declared ahead of all statements, unless one of its name is there. -/
def hoist (registry : Registry) (name : String) (symbol : Symbol) : Registry :=
  if name ∈ registry.symbols then registry
  else { registry.declare name symbol with hoisted := registry.hoisted ++ [name] }

def declaration? (registry : Registry) (name : String) : Option Stmt :=
  (registry.lookup name).map fun symbol => .declare name symbol.type

/-- The declarations ahead of all statements, for the listed names that are found. -/
def declarations (registry : Registry) : List Stmt :=
  registry.hoisted.filterMap registry.declaration?

def value (registry : Registry) : Term → Except TypeError TypedExpr
  | .bool value => .ok ⟨.ident (if value then "true" else "false"), .bool⟩
  | .literal .int text => .ok ⟨.literal .int text, .int⟩
  | .literal .float text => .ok ⟨.literal .float text, .float⟩
  | .literal .string text => .ok ⟨.literal .string text, .string⟩
  | .var name =>
    match registry.lookup name with
    | some symbol => .ok ⟨.ident name, symbol.type⟩
    | none => .error (.undefinedLocal name)
  | .unknown tag line => .error (.unknownTag tag line)
  | term => .error (.notAValue term.tag)

theorem mem_symbols_iff {registry : Registry} {name : String} :
    name ∈ registry.symbols ↔ ∃ symbol, registry.lookup name = some symbol := by
  rw [← Finmap.lookup_isSome, Option.isSome_iff_exists, lookup]

/-- A look-up after a declaration finds what it found before, or else the new local. -/
theorem lookup_declare (registry : Registry) (name other : String) (symbol : Symbol) :
    (registry.declare name symbol).lookup other =
      (registry.lookup other).or (if name = other then some symbol else none) := by
  unfold declare
  by_cases hmem : name ∈ registry.symbols
  · obtain ⟨found, hfound⟩ := mem_symbols_iff.mp hmem
    rw [if_pos hmem]
    by_cases hname : name = other
    · rw [← hname, hfound]
      rfl
    · rw [if_neg hname, Option.or_none]
  · rw [if_neg hmem]
    by_cases hname : name = other
    · have hnone : registry.lookup other = none := hname ▸ Finmap.lookup_eq_none.mpr hmem
      rw [hnone, if_pos hname, Option.none_or, ← hname]
      exact Finmap.lookup_insert _
    · rw [if_neg hname, Option.or_none]
      exact Finmap.lookup_insert_of_ne _ (Ne.symm hname)

theorem lookup_hoist (registry : Registry) (name other : String) (symbol : Symbol) :
    (registry.hoist name symbol).lookup other = (registry.declare name symbol).lookup other := by
  unfold hoist
  split
  · next hmem => rw [declare, if_pos hmem]
  · rfl

theorem hoisted_hoist {registry : Registry} {name : String} (hmem : name ∉ registry.symbols)
    (symbol : Symbol) : (registry.hoist name symbol).hoisted = registry.hoisted ++ [name] := by
  rw [hoist, if_neg hmem]

@[simp] theorem hoisted_declare (registry : Registry) (name : String) (symbol : Symbol) :
    (registry.declare name symbol).hoisted = registry.hoisted := by
  unfold declare
  split <;> rfl

/-- If every listed name is found, each has one declaration. -/
theorem forall₂_declarations {registry : Registry}
    (h : ∀ name ∈ registry.hoisted, ∃ symbol, registry.lookup name = some symbol) :
    List.Forall₂ (fun name stmt => ∃ symbol, registry.lookup name = some symbol ∧
      stmt = Stmt.declare name symbol.type) registry.hoisted registry.declarations := by
  unfold declarations
  generalize registry.hoisted = names at h ⊢
  induction names with
  | nil => exact .nil
  | cons name names ih =>
    rw [List.forall_mem_cons] at h
    obtain ⟨symbol, hsymbol⟩ := h.1
    have hdeclaration : registry.declaration? name = some (.declare name symbol.type) := by
      rw [declaration?, hsymbol, Option.map_some]
    rw [List.filterMap_cons_some hdeclaration]
    exact .cons ⟨symbol, hsymbol, rfl⟩ (ih h.2)

/-- What is in a registry stays as it is in another one. -/
structure Grows (registry next : Registry) : Prop where
  imports : registry.imports <+: next.imports
  hoisted : registry.hoisted <+: next.hoisted
  lookup : ∀ {name symbol}, registry.lookup name = some symbol → next.lookup name = some symbol

theorem Grows.refl (registry : Registry) : registry.Grows registry :=
  ⟨List.prefix_refl _, List.prefix_refl _, id⟩

theorem Grows.trans {registry next last : Registry} (h : registry.Grows next)
    (h' : next.Grows last) : registry.Grows last :=
  ⟨h.imports.trans h'.imports, h.hoisted.trans h'.hoisted,
    fun hfound => h'.lookup (h.lookup hfound)⟩

theorem grows_addImport (registry : Registry) (path : String) :
    registry.Grows (registry.addImport path).2 := by
  unfold addImport
  split
  · exact .refl registry
  · exact ⟨List.prefix_append _ _, List.prefix_refl _, id⟩

theorem grows_declare (registry : Registry) (name : String) (symbol : Symbol) :
    registry.Grows (registry.declare name symbol) := by
  refine ⟨?_, ?_, ?_⟩
  · unfold declare
    split <;> exact List.prefix_refl _
  · rw [hoisted_declare]
  · intro other found hfound
    rw [lookup_declare, hfound, Option.some_or]

theorem grows_hoist (registry : Registry) (name : String) (symbol : Symbol) :
    registry.Grows (registry.hoist name symbol) := by
  unfold hoist
  split
  · exact .refl registry
  · have hgrows := registry.grows_declare name symbol
    exact ⟨hgrows.imports, List.prefix_append _ _, hgrows.lookup⟩

end Registry

/-- A registry and all requests for imports that were made, repeated ones included. -/
structure Ledger extends Registry where
  requests : List String

namespace Ledger

def request (ledger : Ledger) (path : String) : Ledger :=
  ⟨(ledger.addImport path).2, ledger.requests ++ [path]⟩

def declare (ledger : Ledger) (name : String) (symbol : Symbol) : Ledger :=
  { ledger with toRegistry := ledger.toRegistry.declare name symbol }

def hoist (ledger : Ledger) (name : String) (symbol : Symbol) : Ledger :=
  { ledger with toRegistry := ledger.toRegistry.hoist name symbol }

/-- One ledger becomes another by requests and declarations. -/
inductive Changes (ledger : Ledger) : Ledger → Prop where
  | none : Changes ledger ledger
  | request {next} (h : Changes ledger next) (path : String) : Changes ledger (next.request path)
  | declare {next} (h : Changes ledger next) (name : String) (symbol : Symbol) :
      Changes ledger (next.declare name symbol)
  | hoist {next} (h : Changes ledger next) (name : String) (symbol : Symbol) :
      Changes ledger (next.hoist name symbol)

theorem Changes.trans {ledger next last : Ledger} (h : Changes ledger next)
    (h' : Changes next last) : Changes ledger last := by
  induction h' with
  | none => exact h
  | request _ path ih => exact .request ih path
  | declare _ name symbol ih => exact .declare ih name symbol
  | hoist _ name symbol ih => exact .hoist ih name symbol

theorem Changes.grows {ledger next : Ledger} (h : Changes ledger next) :
    ledger.toRegistry.Grows next.toRegistry := by
  induction h with
  | none => exact .refl _
  | request _ path ih => exact ih.trans (Registry.grows_addImport _ path)
  | declare _ name symbol ih => exact ih.trans (Registry.grows_declare _ name symbol)
  | hoist _ name symbol ih => exact ih.trans (Registry.grows_hoist _ name symbol)

/-- The tables fit together: the imports are the requests, each where it was made first, and the set
holds the same paths; every listed local is listed once and is found in the map. -/
structure Sound (ledger : Ledger) : Prop where
  imports : ledger.imports = ledger.requests.eraseDups
  imports_nodup : ledger.imports.Nodup
  imported : ∀ path, path ∈ ledger.imported ↔ path ∈ ledger.imports
  hoisted_nodup : ledger.hoisted.Nodup
  hoisted_found : ∀ name ∈ ledger.hoisted, ∃ symbol, ledger.lookup name = some symbol

theorem sound_empty : (⟨.empty, []⟩ : Ledger).Sound :=
  ⟨rfl, List.nodup_nil, by simp [Registry.empty], List.nodup_nil, List.forall_mem_nil _⟩

theorem Sound.request {ledger : Ledger} (h : ledger.Sound) (path : String) :
    (ledger.request path).Sound := by
  have hasked : path ∈ ledger.requests ↔ path ∈ ledger.imported := by
    rw [h.imported, h.imports, List.mem_eraseDups]
  by_cases hpath : path ∈ ledger.imported
  · have hsame : ledger.addImport path = (false, ledger.toRegistry) := if_pos hpath
    rw [Ledger.request, hsame]
    refine ⟨?_, h.imports_nodup, h.imported, h.hoisted_nodup, h.hoisted_found⟩
    simp [List.eraseDups_append, List.removeAll, hasked.mpr hpath, h.imports]
  · have hnew : ledger.addImport path = (true, _) := if_neg hpath
    rw [Ledger.request, hnew]
    have hfresh : path ∉ ledger.imports := mt (h.imported path).mpr hpath
    refine ⟨?_, ?_, ?_, h.hoisted_nodup, h.hoisted_found⟩
    · simp [List.eraseDups_append, List.removeAll, mt hasked.mp hpath, h.imports,
        List.eraseDups_cons]
    · rw [← List.concat_eq_append]
      exact h.imports_nodup.concat hfresh
    · intro other
      rw [Finset.mem_insert, h.imported, List.mem_append, List.mem_singleton, Or.comm]

theorem Sound.declare {ledger : Ledger} (h : ledger.Sound) (name : String) (symbol : Symbol) :
    (ledger.declare name symbol).Sound := by
  have hgrows := ledger.grows_declare name symbol
  by_cases hmem : name ∈ ledger.symbols
  · have hsame : ledger.toRegistry.declare name symbol = ledger.toRegistry := if_pos hmem
    rw [Ledger.declare, hsame]
    exact h
  · have hnew : ledger.toRegistry.declare name symbol =
        { ledger.toRegistry with symbols := ledger.symbols.insert name symbol } := if_neg hmem
    rw [Ledger.declare]
    rw [hnew] at hgrows ⊢
    refine ⟨h.imports, h.imports_nodup, h.imported, h.hoisted_nodup, ?_⟩
    intro listed hlisted
    obtain ⟨found, hfound⟩ := h.hoisted_found listed hlisted
    exact ⟨found, hgrows.lookup hfound⟩

theorem Sound.hoist {ledger : Ledger} (h : ledger.Sound) (name : String) (symbol : Symbol) :
    (ledger.hoist name symbol).Sound := by
  by_cases hmem : name ∈ ledger.symbols
  · have hsame : ledger.toRegistry.hoist name symbol = ledger.toRegistry := if_pos hmem
    rw [Ledger.hoist, hsame]
    exact h
  · have hdeclared := h.declare name symbol
    have hnew : ledger.toRegistry.hoist name symbol =
        { ledger.toRegistry.declare name symbol with hoisted := ledger.hoisted ++ [name] } :=
      if_neg hmem
    have hlookup : (ledger.toRegistry.declare name symbol).lookup name = some symbol := by
      have hnone : ledger.lookup name = none := Finmap.lookup_eq_none.mpr hmem
      rw [Registry.lookup_declare, hnone, if_pos rfl, Option.none_or]
    rw [Ledger.hoist, hnew]
    refine ⟨hdeclared.imports, hdeclared.imports_nodup, hdeclared.imported, ?_, ?_⟩
    · rw [← List.concat_eq_append]
      refine h.hoisted_nodup.concat fun hlisted => hmem ?_
      exact Registry.mem_symbols_iff.mpr (h.hoisted_found name hlisted)
    · refine List.forall_mem_append.mpr ⟨?_, by simpa using ⟨symbol, hlookup⟩⟩
      intro listed hlisted
      obtain ⟨found, hfound⟩ := h.hoisted_found listed hlisted
      exact ⟨found, (ledger.grows_declare name symbol).lookup hfound⟩

/-- What is sound stays sound. -/
theorem Changes.sound {ledger next : Ledger} (h : Changes ledger next) (hsound : ledger.Sound) :
    next.Sound := by
  induction h with
  | none => exact hsound
  | request _ path ih => exact ih.request path
  | declare _ name symbol ih => exact ih.declare name symbol
  | hoist _ name symbol ih => exact ih.hoist name symbol

end Ledger

/-! ## The scope of a registry -/

def Local.symbol (entry : Local) : Symbol := ⟨entry.type, entry.line⟩

namespace Registry

/-- A registry holds what a scope holds, list by list and look-up by look-up. -/
structure Represents (registry : Registry) (scope : Scope) : Prop where
  imports : registry.imports = scope.imports
  imported : ∀ path, path ∈ registry.imported ↔ path ∈ scope.imports
  lookup : ∀ name, registry.lookup name = (scope.find? name).map Local.symbol
  hoisted : registry.hoisted = scope.hoisted.map Local.name
  distinct : scope.Distinct

/-- Adds a local as a scope holds it. -/
def register (registry : Registry) (entry : Local) : Registry :=
  if entry.hoisted then registry.hoist entry.name entry.symbol
  else registry.declare entry.name entry.symbol

theorem represents_empty : empty.Represents .empty :=
  ⟨rfl, by simp [empty, Scope.empty], fun _ => rfl, rfl, List.nodup_nil⟩

section

variable {registry : Registry} {scope : Scope}

theorem Represents.mem_symbols_iff (h : registry.Represents scope) {name : String} :
    name ∈ registry.symbols ↔ (scope.find? name).isSome := by
  rw [Registry.mem_symbols_iff, ← Option.isSome_iff_exists, h.lookup, Option.isSome_map]

theorem Represents.fst_addImport (h : registry.Represents scope) (path : String) :
    (registry.addImport path).1 = !scope.hasImport path := by
  by_cases hpath : path ∈ scope.imports
  · simp [addImport, Scope.hasImport, h.imported, hpath]
  · simp [addImport, Scope.hasImport, h.imported, hpath]

theorem Represents.addImport (h : registry.Represents scope) (path : String) :
    (registry.addImport path).2.Represents (scope.addImport path) := by
  by_cases hpath : path ∈ scope.imports
  · have hregistry : registry.addImport path = (false, registry) :=
      if_pos ((h.imported path).mpr hpath)
    have hscope : scope.addImport path = scope := if_pos (List.contains_iff_mem.mpr hpath)
    rw [hregistry, hscope]
    exact h
  · have hregistry : registry.addImport path = (true, { registry with
        imports := registry.imports ++ [path]
        imported := Insert.insert path registry.imported }) :=
      if_neg (mt (h.imported path).mp hpath)
    have hscope : scope.addImport path = { scope with imports := scope.imports ++ [path] } :=
      if_neg (mt List.contains_iff_mem.mp hpath)
    rw [hregistry, hscope]
    refine ⟨congrArg (· ++ [path]) h.imports, ?_, h.lookup, h.hoisted, h.distinct⟩
    intro other
    rw [Finset.mem_insert, h.imported, List.mem_append, List.mem_singleton, Or.comm]

theorem imports_register (registry : Registry) (entry : Local) :
    (registry.register entry).imports = registry.imports ∧
      (registry.register entry).imported = registry.imported := by
  unfold register hoist declare
  split <;> split <;> exact ⟨rfl, rfl⟩

theorem lookup_register (registry : Registry) (entry : Local) (name : String) :
    (registry.register entry).lookup name =
      (registry.lookup name).or (if entry.name = name then some entry.symbol else none) := by
  unfold register
  split
  · rw [lookup_hoist, lookup_declare]
  · rw [lookup_declare]

theorem hoisted_register (registry : Registry) {entry : Local}
    (hmem : entry.name ∉ registry.symbols) :
    (registry.register entry).hoisted =
      registry.hoisted ++ if entry.hoisted then [entry.name] else [] := by
  unfold register
  split
  · rw [hoisted_hoist hmem]
  · rw [hoisted_declare, List.append_nil]

theorem Represents.register (h : registry.Represents scope) (entry : Local) :
    (registry.register entry).Represents (scope.declare entry) := by
  have hlookup : ∀ name, (registry.register entry).lookup name =
      ((scope.declare entry).find? name).map Local.symbol := by
    intro name
    rw [lookup_register, Scope.find?_declare, h.lookup, Option.map_or]
    by_cases hname : entry.name = name
    · rw [if_pos hname, if_pos hname, Option.map_some]
    · rw [if_neg hname, if_neg hname, Option.map_none]
  obtain ⟨himports, himported⟩ := registry.imports_register entry
  cases hfound : scope.find? entry.name with
  | some found =>
    have hmem : entry.name ∈ registry.symbols := by simp [h.mem_symbols_iff, hfound]
    have hregistry : registry.register entry = registry := by
      unfold Registry.register hoist Registry.declare
      simp [hmem]
    have hscope : scope.declare entry = scope := by simp [Scope.declare, hfound]
    rw [hregistry, hscope]
    exact h
  | none =>
    have hmem : entry.name ∉ registry.symbols := by simp [h.mem_symbols_iff, hfound]
    have hscope : scope.declare entry = { scope with locals := scope.locals ++ [entry] } := by
      simp [Scope.declare, hfound]
    have hdistinct := h.distinct.declare hfound
    rw [hscope] at hlookup hdistinct ⊢
    refine ⟨himports.trans h.imports, fun path => by rw [himported]; exact h.imported path,
      hlookup, ?_, hdistinct⟩
    rw [hoisted_register registry hmem, h.hoisted]
    cases hhoisted : entry.hoisted <;> simp [Scope.hoisted, hhoisted]

theorem Represents.value (h : registry.Represents scope) (term : Term) :
    registry.value term = term.value scope := by
  cases term with
  | var name =>
    simp only [Registry.value, Term.value, h.lookup]
    cases scope.find? name <;> rfl
  | literal kind => cases kind <;> rfl
  | _ => rfl

/-- Every listed name is found again. -/
theorem Represents.declarations (h : registry.Represents scope) :
    registry.declarations = scope.hoisted.map fun entry => .declare entry.name entry.type := by
  rw [Registry.declarations, h.hoisted, List.filterMap_map, ← List.filterMap_eq_map]
  refine List.filterMap_congr fun entry hentry => ?_
  have hlocals : entry ∈ scope.locals := List.mem_of_mem_filter hentry
  have hfound : scope.find? entry.name = some entry :=
    (Scope.find?_eq_some_iff h.distinct).mpr ⟨hlocals, rfl⟩
  simp [declaration?, h.lookup, hfound, Local.symbol]

end

end Registry

end SexprCompiler
