import SexprCompiler.Proofs.Execution.Target
import SexprCompiler.Proofs.Session

/-!
# Emitted programs do what their terms do

A term and the program emitted for it run side by side. All variables of the program live in the
block of `main`, because only hoisted declarations and definitions outside of branches make any, so
the blocks of branches stay empty. The variables there at any time are the hoisted ones of the whole
program and those that were defined so far; each has the type of its entry in the scope, and the
ones that the term has assigned have the same value as in the term's own run.
-/
namespace SexprCompiler

open Target (Ty Expr Stmt Block Machine LocalName)
open Term (Store State)

/-! ## Runs that agree -/

/-- A run agrees with another one if both end in related results. A run that reads a local before
it is assigned agrees with every other, and a run that stops for another reason with none. -/
def Agrees {α β : Type} (related : α → β → Prop) :
    Except Term.Fault α → Except Target.Fault β → Prop
  | .ok a, y => ∃ b, y = .ok b ∧ related a b
  | .error (.unassigned _), _ => True
  | .error _, _ => False

namespace Agrees

variable {α β γ δ : Type} {related : α → β → Prop} {related' : γ → δ → Prop}

theorem pure {a : α} {b : β} (h : related a b) :
    Agrees related (Pure.pure a) (Pure.pure b) :=
  ⟨b, rfl, h⟩

theorem bind {x : Except Term.Fault α} {y : Except Target.Fault β}
    {f : α → Except Term.Fault γ} {g : β → Except Target.Fault δ} (h : Agrees related x y)
    (hnext : ∀ a b, related a b → Agrees related' (f a) (g b)) :
    Agrees related' (x >>= f) (y >>= g) := by
  cases x with
  | ok a =>
    obtain ⟨b, rfl, hrelated⟩ := h
    exact hnext a b hrelated
  | error fault =>
    cases fault with
    | unassigned name => trivial
    | notAValue | notBoolean => exact h.elim

theorem map_right {x : Except Term.Fault α} {y : Except Target.Fault β} {g : β → δ}
    {related' : α → δ → Prop} (h : Agrees related x y)
    (hg : ∀ a b, related a b → related' a (g b)) :
    Agrees related' x (do return g (← y)) := by
  cases x with
  | ok a =>
    obtain ⟨b, rfl, hrelated⟩ := h
    exact ⟨g b, rfl, hg a b hrelated⟩
  | error fault =>
    cases fault with
    | unassigned name => trivial
    | notAValue | notBoolean => exact h.elim

/-- A run that reads no unassigned local ends, and so does every run that it agrees with. -/
theorem both_end {x : Except Term.Fault α} {y : Except Target.Fault β} (h : Agrees related x y)
    (hread : ∀ name, x ≠ .error (.unassigned name)) :
    ∃ a b, x = .ok a ∧ y = .ok b ∧ related a b := by
  cases x with
  | ok a =>
    obtain ⟨b, rfl, hrelated⟩ := h
    exact ⟨a, b, rfl, rfl, hrelated⟩
  | error fault =>
    cases fault with
    | unassigned name => exact absurd rfl (hread name)
    | notAValue | notBoolean => exact h.elim

end Agrees

/-! ## Machines whose variables all live in one block -/

/-- The blocks of a machine in the given number of branches, which declare nothing. -/
def nested (depth : Nat) (main : Block) : List Block :=
  List.replicate depth Block.empty ++ [main]

@[simp] theorem nested_zero (main : Block) : nested 0 main = [main] := rfl

theorem nested_succ (depth : Nat) (main : Block) :
    nested (depth + 1) main = Block.empty :: nested depth main := rfl

@[simp] theorem lookup_nested (depth : Nat) (main : Block) (name : String) :
    Target.lookup name (nested depth main) = main name := by
  induction depth with
  | zero => simp [Target.lookup]
  | succ depth ih => simp [nested_succ, Target.lookup, Block.empty, ih]

theorem store_nested {main : Block} {name : String} {old value : Value} (depth : Nat)
    (hold : main name = some old) (htype : old.type = value.type) :
    Target.store name value (nested depth main) =
      .ok (nested depth (Function.update main name (some value))) := by
  induction depth with
  | zero => simp [Target.store, hold, htype]
  | succ depth ih =>
    rw [nested_succ, Target.store]
    simp only [Block.empty, ih]
    rfl

/-! ## The relation between the two runs -/

/-- The variables of the block of `main` at a place where the scope of the emitted part is `scope`
and the scope of the whole program is `final`. -/
structure Matches (final scope : Scope) (store : Store) (main : Block) : Prop where
  declared : ∀ name, (main name).isSome ↔
    ∃ entry, final.find? name = some entry ∧ (entry.hoisted = true ∨ (scope.find? name).isSome)
  typed : ∀ {name value entry}, main name = some value → final.find? name = some entry →
    value.type = entry.type
  stored : ∀ {name value}, store name = some value → main name = some value

def Simulates (final scope : Scope) (depth : Nat) (state : State) (machine : Machine) : Prop :=
  ∃ main, machine = ⟨nested depth main, state.trace⟩ ∧ Matches final scope state.store main

theorem Simulates.enter {final scope : Scope} {depth : Nat} {state : State} {machine : Machine}
    (h : Simulates final scope depth state machine) :
    Simulates final scope (depth + 1) state machine.enter := by
  obtain ⟨main, rfl, hmatches⟩ := h
  exact ⟨main, rfl, hmatches⟩

theorem Simulates.leave {final scope : Scope} {depth : Nat} {state : State} {machine : Machine}
    (h : Simulates final scope (depth + 1) state machine) :
    Simulates final scope depth state machine.leave := by
  obtain ⟨main, rfl, hmatches⟩ := h
  exact ⟨main, rfl, hmatches⟩

section

variable {final scope scope' : Scope} {store : Store} {main : Block}

theorem Matches.eq_none (h : Matches final scope store main) (hnamed : final.Named) {name : String}
    (hname : name ∈ Target.keywords ++ Target.fixedNames) : main name = none := by
  rw [← Option.not_isSome_iff_eq_none, h.declared]
  rintro ⟨entry, hfound, _⟩
  exact (hnamed.of_find? hfound).ne hname rfl

theorem Matches.variable (h : Matches final scope store main) (hgrows : scope.Grows final)
    {name : String} {entry : Local} (hfound : scope.find? name = some entry) :
    ∃ value, main name = some value ∧ value.type = entry.type := by
  have hfinal := hgrows.find? hfound
  have hsome : (main name).isSome := (h.declared name).mpr ⟨entry, hfinal, .inr (by simp [hfound])⟩
  obtain ⟨value, hvalue⟩ := Option.isSome_iff_exists.mp hsome
  exact ⟨value, hvalue, h.typed hvalue hfinal⟩

/-- A branch that is not taken adds hoisted locals to the scope, and their variables are there. -/
theorem Matches.skip (h : Matches final scope store main) {terms : List Term} {stmts : List Stmt}
    (hemits : Emits .branch scope terms stmts scope') (hgrows : scope'.Grows final) :
    Matches final scope' store main := by
  refine ⟨?_, h.typed, h.stored⟩
  intro name
  rw [h.declared]
  constructor
  · rintro ⟨entry, hfinal, hhoisted | hsome⟩
    · exact ⟨entry, hfinal, .inl hhoisted⟩
    · obtain ⟨found, hfound⟩ := Option.isSome_iff_exists.mp hsome
      exact ⟨entry, hfinal, .inr (by simp [hemits.grows.find? hfound])⟩
  · rintro ⟨entry, hfinal, hhoisted | hsome⟩
    · exact ⟨entry, hfinal, .inl hhoisted⟩
    · obtain ⟨found, hfound⟩ := Option.isSome_iff_exists.mp hsome
      obtain rfl : found = entry := Option.some.inj ((hgrows.find? hfound).symm.trans hfinal)
      rcases hemits.hoisted_of_branch (List.mem_of_find?_eq_some hfound) with hmem | hhoisted
      · obtain rfl : found.name = name := Scope.find?_name hfound
        have hthere := Scope.isSome_find?_iff.mpr (List.mem_map_of_mem hmem)
        exact ⟨found, hfinal, .inr hthere⟩
      · exact ⟨found, hfinal, .inl hhoisted⟩

theorem Matches.addImport (h : Matches final scope store main) (path : String) :
    Matches final (scope.addImport path) store main :=
  ⟨by simpa using h.declared, h.typed, h.stored⟩

theorem Matches.assign (h : Matches final scope store main) {entry : Local} {value : Value}
    (hfinal : final.find? entry.name = some entry) (htype : value.type = entry.type)
    (hthere : (scope'.find? entry.name).isSome)
    (hothers : ∀ other, other ≠ entry.name → scope'.find? other = scope.find? other) :
    Matches final scope' (Function.update store entry.name (some value))
      (Function.update main entry.name (some value)) where
  declared := by
    intro other
    by_cases hother : other = entry.name
    · simp [hother, hfinal, hthere]
    · rw [Function.update_of_ne hother, h.declared, hothers other hother]
  typed := by
    intro other found entry' hfound hother'
    by_cases hother : other = entry.name
    · subst hother
      obtain rfl : value = found := by simpa using hfound
      obtain rfl : entry = entry' := Option.some.inj (hfinal.symm.trans hother')
      exact htype
    · rw [Function.update_of_ne hother] at hfound
      exact h.typed hfound hother'
  stored := by
    intro other found hfound
    by_cases hother : other = entry.name
    · simpa [hother] using hfound
    · rw [Function.update_of_ne hother] at hfound ⊢
      exact h.stored hfound

theorem Matches.declare (h : Matches final scope store main) {entry : Local} {value : Value}
    (hnew : scope.find? entry.name = none) (hgrows : (scope.declare entry).Grows final)
    (htype : value.type = entry.type) :
    Matches final (scope.declare entry) (Function.update store entry.name (some value))
      (Function.update main entry.name (some value)) := by
  have hfound := Scope.find?_declare_self hnew
  apply h.assign (hgrows.find? hfound) htype (by simp [hfound])
  intro other hother
  simp [Scope.find?_declare, Ne.symm hother]

/-! ## Values, statements and whole rows -/

theorem agrees_eval {term : Term} {typed : TypedExpr} (hvalue : term.value scope = .ok typed)
    (hgrows : scope.Grows final) (hnamed : final.Named) (h : Matches final scope store main)
    (depth : Nat) (trace : Trace) :
    Agrees (fun value found => value = found ∧ value.type = typed.type) (term.eval store)
      (Machine.eval ⟨nested depth main, trace⟩ typed.expr) := by
  cases Term.valued_of_value hvalue with
  | bool value =>
    have htrue : main "true" = none := h.eq_none hnamed (by decide)
    have hfalse : main "false" = none := h.eq_none hnamed (by decide)
    cases value <;> exact ⟨_, by simp [Machine.eval, htrue, hfalse], rfl, rfl⟩
  | literal kind text => exact ⟨_, rfl, rfl, rfl⟩
  | @var name _ hfound =>
    cases hstore : store name with
    | none => simp [Term.eval, hstore, Agrees]
    | some value =>
      have hmain := h.stored hstore
      have htype := h.typed hmain (hgrows.find? hfound)
      simp [Term.eval, hstore, Agrees, Machine.eval, hmain, htype]

theorem agrees_truth {test : Term} {expr : Expr} (hvalue : test.value scope = .ok ⟨expr, .bool⟩)
    (hgrows : scope.Grows final) (hnamed : final.Named) (h : Matches final scope store main)
    (depth : Nat) (trace : Trace) :
    Agrees Eq (test.truth store) (Machine.truth ⟨nested depth main, trace⟩ expr) := by
  apply (agrees_eval hvalue hgrows hnamed h depth trace).bind
  rintro value _ ⟨rfl, htype⟩
  cases value with
  | bool value => exact .pure rfl
  | literal kind text => cases kind <;> simp [Value.type, Target.LitKind.type] at htype

end

section

variable {final scope scope' : Scope} {place : Place} {depth : Nat}

theorem run_of_value {term : Term} {typed : TypedExpr} (hvalue : term.value scope = .ok typed)
    (state : State) :
    term.run state = (do
      let _ ← term.eval state.store
      return state) := by
  cases Term.valued_of_value hvalue with
  | bool | literal | var => rw [Term.run] <;> simp

/-- One statement does what its term does. Only in the block of `main` itself may it define. -/
theorem agrees_one {term : Term} {stmt : Stmt} (hone : EmitsOne place scope term stmt scope')
    (hplace : place = .main → depth = 0) (hgrows : scope'.Grows final) (hnamed : final.Named)
    {state : State} {machine : Machine} (h : Simulates final scope depth state machine) :
    Agrees (Simulates final scope' depth) (term.run state) (stmt.exec final.imports machine) := by
  obtain ⟨main, rfl, hmatches⟩ := h
  have hscope : scope.Grows final := hone.grows.trans hgrows
  cases hone with
  | unused hvalue =>
    rw [run_of_value hvalue, Stmt.exec]
    apply (agrees_eval hvalue hscope hnamed hmatches depth state.trace).bind
    rintro value _ -
    exact ⟨_, Machine.assign_blank _ _, main, rfl, hmatches⟩
  | @update _ _ name term line typed entry hvalue hfound htype =>
    obtain rfl : entry.name = name := Scope.find?_name hfound
    have hentry := hscope.find? hfound
    have hname : entry.name ≠ "_" := (hnamed.of_find? hentry).ne (by decide)
    obtain ⟨old, hold, holdType⟩ := hmatches.variable hscope hfound
    rw [Term.run, Stmt.exec]
    apply (agrees_eval hvalue hscope hnamed hmatches depth state.trace).bind
    rintro value _ ⟨rfl, hvalueType⟩
    have hentryType : value.type = entry.type := hvalueType.trans htype.symm
    have hsame : old.type = value.type := holdType.trans hentryType.symm
    exact ⟨_, Machine.assign_update hname (store_nested depth hold hsame), _, rfl,
      hmatches.assign hentry hentryType (by simp [hfound]) fun _ _ => rfl⟩
  | @define _ name term line typed hvalue hnew =>
    obtain rfl : depth = 0 := hplace rfl
    have hentry := hgrows.find? (Scope.find?_declare_self hnew)
    have hname : name ≠ "_" := (hnamed.of_find? hentry).ne (by decide)
    have hfree : main name = none := by
      rw [← Option.not_isSome_iff_eq_none, hmatches.declared]
      simp [hentry, hnew]
    rw [Term.run, Stmt.exec]
    apply (agrees_eval hvalue hscope hnamed hmatches 0 state.trace).bind
    rintro value _ ⟨rfl, hvalueType⟩
    exact ⟨_, Machine.assign_define hname (by simp [Target.introduce, hfree]), _, rfl,
      hmatches.declare hnew hgrows hvalueType⟩
  | @hoist _ name term line typed hvalue hnew =>
    have hentry := hgrows.find? (Scope.find?_declare_self hnew)
    have hname : name ≠ "_" := (hnamed.of_find? hentry).ne (by decide)
    have hsome : (main name).isSome := (hmatches.declared name).mpr ⟨_, hentry, .inl rfl⟩
    obtain ⟨old, hold⟩ := Option.isSome_iff_exists.mp hsome
    rw [Term.run, Stmt.exec]
    apply (agrees_eval hvalue hscope hnamed hmatches depth state.trace).bind
    rintro value _ ⟨rfl, hvalueType⟩
    have hsame : old.type = value.type := (hmatches.typed hold hentry).trans hvalueType.symm
    exact ⟨_, Machine.assign_update hname (store_nested depth hold hsame), _, rfl,
      hmatches.declare hnew hgrows hvalueType⟩
  | @print _ _ routine argument typed hvalue =>
    have himport : Routine.package ∈ final.imports :=
      hgrows.imports.subset ((Scope.mem_imports_addImport _ _ _).mpr (.inr rfl))
    have hfree : main Routine.package = none := hmatches.eq_none hnamed (by decide)
    have hroutine : Machine.routine final.imports ⟨nested depth main, state.trace⟩
        (.member (.ident Routine.package) routine.member) = .ok routine := by
      simp [Machine.routine, himport, hfree, Routine.ofMember?_member]
    rw [Term.run, Stmt.exec, hroutine]
    apply (agrees_eval hvalue hscope hnamed hmatches depth state.trace).bind
    rintro value _ ⟨rfl, -⟩
    exact .pure ⟨main, rfl, hmatches.addImport _⟩

theorem Simulates.skip {state : State} {machine : Machine} {terms : List Term} {stmts : List Stmt}
    (h : Simulates final scope depth state machine)
    (hemits : Emits .branch scope terms stmts scope') (hgrows : scope'.Grows final) :
    Simulates final scope' depth state machine := by
  obtain ⟨main, rfl, hmatches⟩ := h
  exact ⟨main, rfl, hmatches.skip hemits hgrows⟩

theorem execAll_append (imports : List String) (machine : Machine) (stmts others : List Stmt) :
    Stmt.execAll imports machine (stmts ++ others) = (do
      let next ← Stmt.execAll imports machine stmts
      Stmt.execAll imports next others) := by
  induction stmts generalizing machine with
  | nil => rfl
  | cons stmt stmts ih =>
    simp only [List.cons_append, Stmt.execAll, bind_assoc]
    congr 1
    funext next
    exact ih next

/-- Terms in a row and their statements agree. The induction is on how the row is emitted, for
every depth at once, since a branch goes one block deeper. -/
theorem agrees_runAll {terms : List Term} {stmts : List Stmt}
    (hemits : Emits place scope terms stmts scope') (hplace : place = .main → depth = 0)
    (hgrows : scope'.Grows final) (hnamed : final.Named) {state : State} {machine : Machine}
    (h : Simulates final scope depth state machine) :
    Agrees (Simulates final scope' depth) (Term.runAll state terms)
      (Stmt.execAll final.imports machine stmts) := by
  induction hemits generalizing depth state machine with
  | nil => exact .pure h
  | one hone hrest ih =>
    rw [Term.runAll, Stmt.execAll]
    exact (agrees_one hone hplace (hrest.grows.trans hgrows) hnamed h).bind
      fun _ _ h => ih hplace hgrows h
  | seq hitems hrest ihitems ihrest =>
    rw [Term.runAll, Term.run, execAll_append]
    exact (ihitems hplace (hrest.grows.trans hgrows) h).bind fun _ _ h => ihrest hplace hgrows h
  | cond htest hbody hrest ihbody ihrest =>
    have hgrows₁ := hrest.grows.trans hgrows
    rw [Term.runAll, Term.run, Stmt.execAll, Stmt.exec]
    refine Agrees.bind ?_ fun _ _ h => ihrest hplace hgrows h
    obtain ⟨main, rfl, hmatches⟩ := h
    apply (agrees_truth htest (hbody.grows.trans hgrows₁) hnamed hmatches depth state.trace).bind
    rintro (_ | _) _ rfl
    · exact .pure (.skip ⟨main, rfl, hmatches⟩ hbody hgrows₁)
    · exact (ihbody nofun hgrows₁ (.enter ⟨main, rfl, hmatches⟩)).map_right fun _ _ => .leave
  | condElse htest hbody hother hrest ihbody ihother ihrest =>
    have hgrows₂ := hrest.grows.trans hgrows
    have hgrows₁ := hother.grows.trans hgrows₂
    rw [Term.runAll, Term.run, Stmt.execAll, Stmt.exec]
    refine Agrees.bind ?_ fun _ _ h => ihrest hplace hgrows h
    obtain ⟨main, rfl, hmatches⟩ := h
    apply (agrees_truth htest (hbody.grows.trans hgrows₁) hnamed hmatches depth state.trace).bind
    rintro (_ | _) _ rfl
    · exact (ihother nofun hgrows₂ (.enter (.skip ⟨main, rfl, hmatches⟩ hbody hgrows₁))).map_right
        fun _ _ => .leave
    · exact (ihbody nofun hgrows₁ (.enter ⟨main, rfl, hmatches⟩)).map_right
        fun _ _ h => h.leave.skip hother hgrows₂

end

/-! ## The whole program -/

/-- The hoisted declarations give each of their variables the zero of its type. -/
theorem execAll_declarations (imports : List String) (trace : Trace) {entries : List Local}
    {main : Block} (hblank : ∀ entry ∈ entries, entry.name ≠ "_")
    (hdistinct : (entries.map Local.name).Nodup)
    (hfree : ∀ entry ∈ entries, main entry.name = none) :
    ∃ main', Stmt.execAll imports ⟨[main], trace⟩
        (entries.map fun entry => .declare entry.name entry.type) = .ok ⟨[main'], trace⟩ ∧
      ∀ name, main' name =
        ((entries.find? (·.name == name)).map fun entry => .zero entry.type).or (main name) := by
  induction entries generalizing main with
  | nil => exact ⟨main, rfl, fun name => by simp⟩
  | cons entry entries ih =>
    obtain ⟨hfirst, hrest⟩ := List.nodup_cons.mp hdistinct
    have hother : ∀ other ∈ entries, other.name ≠ entry.name := fun other hmem heq =>
      hfirst (heq ▸ List.mem_map_of_mem hmem)
    obtain ⟨main', hrun, hmain'⟩ := @ih (Function.update main entry.name (some (.zero entry.type)))
      (fun other hmem => hblank other (List.mem_cons_of_mem _ hmem)) hrest
      (fun other hmem => by
        rw [Function.update_of_ne (hother other hmem)]
        exact hfree other (List.mem_cons_of_mem _ hmem))
    refine ⟨main', ?_, ?_⟩
    · have hstep : Stmt.exec imports ⟨[main], trace⟩ (.declare entry.name entry.type) =
          .ok ⟨[Function.update main entry.name (some (.zero entry.type))], trace⟩ := by
        simp only [Stmt.exec, hblank entry List.mem_cons_self, if_false, Target.introduce,
          hfree entry List.mem_cons_self, Option.isSome_none, Bool.false_eq_true]
        rfl
      rw [List.map_cons, Stmt.execAll, hstep]
      exact hrun
    · intro name
      rw [hmain']
      by_cases hname : entry.name = name
      · subst hname
        have hnone : entries.find? (·.name == entry.name) = none := by
          simpa [List.find?_eq_none] using hother
        simp [hnone]
      · simp [hname, Function.update_of_ne (Ne.symm hname)]

theorem matches_start {final : Scope} (hdistinct : final.Distinct) {main : Block}
    (hmain : ∀ name, main name =
      (final.hoisted.find? (·.name == name)).map fun entry => .zero entry.type) :
    Matches final .empty (fun _ => none) main := by
  refine ⟨?_, ?_, nofun⟩
  · intro name
    rw [hmain, Option.isSome_map, Option.isSome_iff_exists]
    simp [hdistinct.find?_hoisted, Scope.find?, Scope.empty]
  · intro name value entry hvalue hfinal
    rw [hmain] at hvalue
    obtain ⟨found, hfound, rfl⟩ := Option.map_eq_some_iff.mp hvalue
    rw [hdistinct.find?_hoisted, hfinal] at hfound
    obtain rfl := Option.some.inj hfound.1
    exact Value.type_zero _

/-- The declarations ahead of all statements bring a program to where the two runs start. -/
theorem exists_matches_declarations {final : Scope} (hnamed : final.Named)
    (hdistinct : final.Distinct) :
    ∃ main, Stmt.execAll final.imports Machine.start
        (final.hoisted.map fun entry => .declare entry.name entry.type) = .ok ⟨[main], []⟩ ∧
      Matches final .empty (fun _ => none) main := by
  have hhoisted : (final.hoisted.map Local.name).Nodup :=
    hdistinct.sublist (List.filter_sublist.map Local.name)
  have hblank : ∀ entry ∈ final.hoisted, entry.name ≠ "_" := by
    intro entry hentry
    exact (hnamed entry (List.mem_of_mem_filter hentry)).ne (by decide)
  obtain ⟨main, hdeclared, hmain⟩ :=
    @execAll_declarations final.imports [] final.hoisted Block.empty hblank hhoisted fun _ _ => rfl
  refine ⟨main, hdeclared, matches_start hdistinct ?_⟩
  intro name
  simpa [Block.empty] using hmain name

/-- Whatever a term does, the program emitted for it does: if its run never reads a local that it
has not assigned before, then it ends, and the program runs without a fault, prints the same, and
leaves the same value in every local that the term assigned. -/
theorem emitted_program_preserves_meaning (package : String) {tree : Sexpr} {term : Term}
    {draft : Draft} (hterm : Term.ofSexpr tree = .ok term)
    (hadd : (Draft.empty package).add term = (.ok (), draft))
    (hread : ∀ name, term.run .start ≠ .error (.unassigned name)) :
    ∃ state machine, term.run .start = .ok state ∧ draft.file.run = .ok machine ∧
      machine.trace = state.trace ∧
      ∀ name value, state.store name = some value →
        Target.lookup name machine.blocks = some value := by
  obtain ⟨stmts, final, hemits, rfl⟩ := Draft.add_eq_ok.mp hadd
  have hnamed : final.Named := hemits.named hterm (Draft.named_empty package)
  have hdistinct : final.Distinct := hemits.distinct (Draft.distinct_empty package)
  obtain ⟨main, hdeclared, hstart⟩ := exists_matches_declarations hnamed hdistinct
  have hagrees := agrees_runAll hemits (fun _ => rfl) (.refl final) hnamed
    (⟨main, rfl, hstart⟩ : Simulates final .empty 0 State.start ⟨[main], []⟩)
  have hrow : Term.runAll .start [term] = term.run .start := by simp [Term.runAll]
  have hfile : ((Draft.empty package).grow final stmts).file.run =
      Stmt.execAll final.imports ⟨[main], []⟩ stmts := by
    change Stmt.execAll final.imports Machine.start (final.hoisted.map _ ++ ([] ++ stmts)) = _
    rw [execAll_append, List.nil_append, hdeclared]
    rfl
  rw [hrow, ← hfile] at hagrees
  obtain ⟨state, machine, hstate, hmachine, main', rfl, hmatches⟩ := hagrees.both_end hread
  refine ⟨state, _, hstate, hmachine, rfl, ?_⟩
  intro name value hvalue
  rw [lookup_nested]
  exact hmatches.stored hvalue

/-- A conditional whose branches both assign a local for the first time, which is printed after. -/
def branchingTree : Sexpr :=
  ⟨":begin", 1, [
    ⟨":lvasgn", 1, [.leaf ":x" 1, .leaf ":false" 1]⟩,
    ⟨":if", 2, [⟨":lvar", 2, [.leaf ":x" 2]⟩,
      ⟨":lvasgn", 2, [.leaf ":y" 2, ⟨":int", 2, [.leaf "1" 2]⟩]⟩,
      ⟨":lvasgn", 3, [.leaf ":y" 3, ⟨":int", 3, [.leaf "2" 3]⟩]⟩]⟩,
    ⟨":send", 4, [.leaf "nil" 4, .leaf ":puts" 4, ⟨":lvar", 4, [.leaf ":y" 4]⟩]⟩]⟩

def branchingTerm : Term :=
  .seq [.assign "x" (.bool false) 1,
    .cond (.var "x") [.assign "y" (.literal .int "1") 2] (some [.assign "y" (.literal .int "2") 3]),
    .print .println (.var "y")]

theorem branching_program_preserves_meaning :
    Term.ofSexpr branchingTree = .ok branchingTerm ∧
      ∃ machine, ((Draft.empty "main").add branchingTerm).2.file.run = .ok machine ∧
        machine.trace = [(.println, .literal .int "2")] ∧
        Target.lookup "y" machine.blocks = some (.literal .int "2") := by
  have hend : ∃ state, branchingTerm.run .start = .ok state ∧
      state.trace = [(.println, .literal .int "2")] ∧
      state.store "y" = some (.literal .int "2") := ⟨_, rfl, rfl, rfl⟩
  obtain ⟨state, hstate, htrace, hstore⟩ := hend
  have hterm : Term.ofSexpr branchingTree = .ok branchingTerm := rfl
  have hread (name : String) : branchingTerm.run .start ≠ .error (.unassigned name) := by
    simp [hstate]
  obtain ⟨state', machine, hstate', hmachine, hsame, hvalues⟩ :=
    emitted_program_preserves_meaning "main" hterm rfl hread
  obtain rfl : state = state' := Except.ok.inj (hstate.symm.trans hstate')
  exact ⟨hterm, machine, hmachine, hsame.trans htrace, hvalues "y" _ hstore⟩

end SexprCompiler
