import SexprCompiler.Proofs.Session

/-!
# Emitted programs are well scoped

A block of statements is resolved when every name it uses was declared before, further up in the
same block or in a block around it. In the body of `main` that a draft prints, all declarations
stand outside of branches and no name is declared twice: the hoisted locals come first, and each
other local is defined by the first assignment to it.
-/
namespace SexprCompiler

open Target (Expr Stmt LocalName)

namespace Target

mutual

/-- The names that an expression reads. The package in front of a member is not a variable. -/
def Expr.reads : Expr → List String
  | .ident name => [name]
  | .literal _ _ => []
  | .member (.ident package) _ => if package = "fmt" then [] else [package]
  | .member base _ => base.reads
  | .call function arguments => function.reads ++ Expr.readsAll arguments

def Expr.readsAll : List Expr → List String
  | [] => []
  | value :: values => value.reads ++ Expr.readsAll values

end

/-- Whether all names that an expression reads are visible or predeclared constants. -/
def Expr.resolves (visible : List String) (value : Expr) : Bool :=
  value.reads.all fun name => visible.contains name || name == "true" || name == "false"

/-- Whether an expression can be updated: the blank name or a visible variable. -/
def Expr.assignable (visible : List String) : Expr → Bool
  | .ident name => name == "_" || visible.contains name
  | _ => false

def Expr.name? : Expr → Option String
  | .ident name => some name
  | _ => none

namespace Stmt

/-- The names that a statement declares in the block where it stands. -/
def introduces : Stmt → List String
  | .declare name _ => [name]
  | .assign left .define _ => left.filterMap Expr.name?
  | _ => []

mutual

def inner : Stmt → List String
  | .branch _ body none => declarations body
  | .branch _ body (some otherwise) => declarations body ++ declarations otherwise
  | _ => []

def declarations : List Stmt → List String
  | [] => []
  | stmt :: stmts => stmt.introduces ++ stmt.inner ++ declarations stmts

end

mutual

/-- Whether a statement uses only names that are visible where it stands. -/
def resolves (visible : List String) : Stmt → Bool
  | .declare _ _ => true
  | .assign left .define right =>
    left.all (·.name?.isSome) && right.all (Expr.resolves visible)
  | .assign left .update right =>
    left.all (Expr.assignable visible) && right.all (Expr.resolves visible)
  | .evaluate value => value.resolves visible
  | .branch test body none => test.resolves visible && blockResolves visible body
  | .branch test body (some otherwise) =>
    test.resolves visible && blockResolves visible body && blockResolves visible otherwise

/-- Whether each statement of a block uses only names that are visible outside of the block or
declared in it before. -/
def blockResolves (visible : List String) : List Stmt → Bool
  | [] => true
  | stmt :: stmts => stmt.resolves visible && blockResolves (visible ++ stmt.introduces) stmts

end

end Stmt

/-- The scoping rules for the body of a function. -/
structure WellScoped (body : List Stmt) : Prop where
  /-- Nothing is declared twice. -/
  once : (Stmt.declarations body).Nodup
  /-- Nothing is declared inside of a branch. -/
  outside : ∀ stmt ∈ body, stmt.inner = []
  /-- Whatever is used was declared before, in a block around it. -/
  resolved : Stmt.blockResolves [] body = true
  /-- Whatever is declared has a name that a local may have. -/
  named : ∀ name ∈ Stmt.declarations body, LocalName name

namespace Stmt

@[simp] theorem declarations_append (stmts others : List Stmt) :
    declarations (stmts ++ others) = declarations stmts ++ declarations others := by
  induction stmts with
  | nil => rfl
  | cons stmt stmts ih => simp [declarations, ih]

theorem declarations_eq_flatMap {stmts : List Stmt} (h : ∀ stmt ∈ stmts, stmt.inner = []) :
    declarations stmts = stmts.flatMap introduces := by
  induction stmts with
  | nil => rfl
  | cons stmt stmts ih =>
    rw [List.forall_mem_cons] at h
    rw [declarations, h.1, ih h.2]
    simp

theorem blockResolves_append (visible : List String) (stmts others : List Stmt) :
    blockResolves visible (stmts ++ others) =
      (blockResolves visible stmts &&
        blockResolves (visible ++ stmts.flatMap introduces) others) := by
  induction stmts generalizing visible with
  | nil => simp [blockResolves]
  | cons stmt stmts ih => simp [blockResolves, ih, Bool.and_assoc]

end Stmt

theorem Expr.resolves_mono {visible visible' : List String} (h : visible ⊆ visible') {value : Expr}
    (hvalue : value.resolves visible = true) : value.resolves visible' = true := by
  simp only [resolves, List.all_eq_true, Bool.or_eq_true, List.contains_iff_mem] at hvalue ⊢
  intro name hname
  rcases hvalue name hname with (hmem | htrue) | hfalse
  · exact .inl (.inl (h hmem))
  · exact .inl (.inr htrue)
  · exact .inr hfalse

theorem Expr.assignable_mono {visible visible' : List String} (h : visible ⊆ visible')
    {target : Expr} (htarget : target.assignable visible = true) :
    target.assignable visible' = true := by
  cases target with
  | ident name =>
    simp only [assignable, Bool.or_eq_true, List.contains_iff_mem] at htarget ⊢
    exact htarget.imp_right fun hmem => h hmem
  | literal | member | call => simp [assignable] at htarget

mutual

theorem Stmt.resolves_mono {visible visible' : List String} (h : visible ⊆ visible') :
    (stmt : Stmt) → stmt.resolves visible = true → stmt.resolves visible' = true
  | .declare _ _, _ => rfl
  | .assign left .define right, hstmt => by
    simp only [resolves, Bool.and_eq_true, List.all_eq_true] at hstmt ⊢
    exact ⟨hstmt.1, fun value hvalue => Expr.resolves_mono h (hstmt.2 value hvalue)⟩
  | .assign left .update right, hstmt => by
    simp only [resolves, Bool.and_eq_true, List.all_eq_true] at hstmt ⊢
    exact ⟨fun target htarget => Expr.assignable_mono h (hstmt.1 target htarget),
      fun value hvalue => Expr.resolves_mono h (hstmt.2 value hvalue)⟩
  | .evaluate value, hstmt => Expr.resolves_mono h hstmt
  | .branch test body none, hstmt => by
    simp only [resolves, Bool.and_eq_true] at hstmt ⊢
    exact ⟨Expr.resolves_mono h hstmt.1, Stmt.blockResolves_mono h body hstmt.2⟩
  | .branch test body (some otherwise), hstmt => by
    simp only [resolves, Bool.and_eq_true] at hstmt ⊢
    exact ⟨⟨Expr.resolves_mono h hstmt.1.1, Stmt.blockResolves_mono h body hstmt.1.2⟩,
      Stmt.blockResolves_mono h otherwise hstmt.2⟩

/-- A block stays resolved where more is visible. -/
theorem Stmt.blockResolves_mono {visible visible' : List String} (h : visible ⊆ visible') :
    (stmts : List Stmt) → blockResolves visible stmts = true → blockResolves visible' stmts = true
  | [], _ => rfl
  | stmt :: stmts, hstmts => by
    simp only [blockResolves, Bool.and_eq_true] at hstmts ⊢
    have hrest : visible ++ stmt.introduces ⊆ visible' ++ stmt.introduces := fun name hname =>
      List.mem_append.mpr ((List.mem_append.mp hname).imp_left fun hmem => h hmem)
    exact ⟨Stmt.resolves_mono h stmt hstmts.1, Stmt.blockResolves_mono hrest stmts hstmts.2⟩

end

end Target

/-! ## What emitting declares -/

namespace Scope

def defined (scope : Scope) : List String :=
  (scope.locals.filter (!·.hoisted)).map Local.name

@[simp] theorem defined_addImport (scope : Scope) (path : String) :
    (scope.addImport path).defined = scope.defined := by
  simp [defined]

theorem hoisted_or_defined {scope : Scope} {entry : Local} (h : entry ∈ scope.locals) :
    entry.hoisted = true ∨ entry.name ∈ scope.defined := by
  cases hhoisted : entry.hoisted with
  | true => exact .inl rfl
  | false => exact .inr (List.mem_map_of_mem (List.mem_filter.mpr ⟨h, by simp [hhoisted]⟩))

theorem mem_locals_of_defined {scope : Scope} {name : String} (h : name ∈ scope.defined) :
    ∃ entry ∈ scope.locals, entry.name = name := by
  obtain ⟨entry, hentry, hname⟩ := List.mem_map.mp h
  exact ⟨entry, List.mem_of_mem_filter hentry, hname⟩

theorem defined_declare {scope : Scope} {entry : Local} (hnew : scope.find? entry.name = none) :
    (scope.declare entry).defined =
      scope.defined ++ if entry.hoisted then [] else [entry.name] := by
  rw [defined, locals_declare hnew, List.filter_append, List.map_append]
  cases hhoisted : entry.hoisted <;> simp [hhoisted, defined]

end Scope

section

variable {place : Place} {scope scope' : Scope} {term : Term} {terms : List Term} {stmt : Stmt}
  {stmts : List Stmt}

theorem EmitsOne.inner (h : EmitsOne place scope term stmt scope') : stmt.inner = [] := by
  cases h <;> rfl

theorem EmitsOne.introduces_of_branch (h : EmitsOne .branch scope term stmt scope') :
    stmt.introduces = [] := by
  cases h <;> rfl

theorem EmitsOne.defined (h : EmitsOne place scope term stmt scope') :
    scope'.defined = scope.defined ++ stmt.introduces := by
  cases h with
  | unused | update => simp [Stmt.introduces]
  | define _ hnew | hoist _ hnew =>
    rw [Scope.defined_declare hnew]
    simp [Stmt.introduces, Expr.name?]
  | print => simp [Stmt.introduces]

/-- Inside a branch nothing is declared. -/
theorem Emits.declarations_of_branch (h : Emits .branch scope terms stmts scope') :
    Stmt.declarations stmts = [] := by
  generalize hplace : Place.branch = place at h
  induction h with
  | nil => rfl
  | one hone _ ih =>
    subst hplace
    simp [Stmt.declarations, hone.introduces_of_branch, hone.inner, ih rfl]
  | seq _ _ ihitems ihrest => simp [ihitems hplace, ihrest hplace]
  | cond _ _ _ ihbody ihrest =>
    simp [Stmt.declarations, Stmt.introduces, Stmt.inner, ihbody rfl, ihrest hplace]
  | condElse _ _ _ _ ihbody ihother ihrest =>
    simp [Stmt.declarations, Stmt.introduces, Stmt.inner, ihbody rfl, ihother rfl, ihrest hplace]

theorem Emits.inner (h : Emits place scope terms stmts scope') :
    ∀ stmt ∈ stmts, stmt.inner = [] := by
  induction h with
  | nil => simp
  | one hone _ ih => exact List.forall_mem_cons.mpr ⟨hone.inner, ih⟩
  | seq _ _ ihitems ihrest =>
    intro stmt hstmt
    exact (List.mem_append.mp hstmt).elim (ihitems stmt) (ihrest stmt)
  | cond _ hbody _ _ ih =>
    exact List.forall_mem_cons.mpr ⟨by rw [Stmt.inner, hbody.declarations_of_branch], ih⟩
  | condElse _ hbody hother _ _ _ ih =>
    refine List.forall_mem_cons.mpr ⟨?_, ih⟩
    rw [Stmt.inner, hbody.declarations_of_branch, hother.declarations_of_branch]
    rfl

/-- The locals that are not hoisted are the ones that the statements declare. -/
theorem Emits.defined (h : Emits place scope terms stmts scope') :
    scope'.defined = scope.defined ++ Stmt.declarations stmts := by
  induction h with
  | nil => simp [Stmt.declarations]
  | one hone _ ih => simp [ih, hone.defined, Stmt.declarations, hone.inner]
  | seq _ _ ihitems ihrest => simp [ihrest, ihitems]
  | cond _ hbody _ ihbody ihrest =>
    simp [ihrest, ihbody, Stmt.declarations, Stmt.introduces, Stmt.inner,
      hbody.declarations_of_branch]
  | condElse _ hbody hother _ ihbody ihother ihrest =>
    simp [ihrest, ihother, ihbody, Stmt.declarations, Stmt.introduces, Stmt.inner,
      hbody.declarations_of_branch, hother.declarations_of_branch]

end

/-! ## What emitted statements use -/

def Scope.VisibleIn (scope : Scope) (visible : List String) : Prop :=
  ∀ entry ∈ scope.locals, entry.name ∈ visible

def Scope.HoistedIn (scope : Scope) (visible : List String) : Prop :=
  ∀ entry ∈ scope.locals, entry.hoisted = true → entry.name ∈ visible

section

variable {place : Place} {scope scope' : Scope} {term : Term} {terms : List Term} {stmt : Stmt}
  {stmts : List Stmt} {visible : List String}

theorem Scope.VisibleIn.of_find? (h : scope.VisibleIn visible) {name : String} {entry : Local}
    (hfound : scope.find? name = some entry) : name ∈ visible := by
  rw [← Scope.find?_name hfound]
  exact h entry (List.mem_of_find?_eq_some hfound)

theorem Scope.HoistedIn.of_grows (h : scope'.HoistedIn visible) (hgrows : scope.Grows scope') :
    scope.HoistedIn visible :=
  fun entry hentry => h entry (hgrows.locals.subset hentry)

theorem resolves_of_value {typed : TypedExpr} (hvalue : term.value scope = .ok typed)
    (hvisible : scope.VisibleIn visible) : typed.expr.resolves visible = true := by
  cases Term.valued_of_value hvalue with
  | bool value => cases value <;> simp [Expr.resolves, Expr.reads]
  | literal kind text => rfl
  | var hfound => simp [Expr.resolves, Expr.reads, hvisible.of_find? hfound]

theorem EmitsOne.resolves (h : EmitsOne place scope term stmt scope')
    (hvisible : scope.VisibleIn visible) (hhoisted : scope'.HoistedIn visible) :
    stmt.resolves visible = true := by
  cases h with
  | unused hvalue =>
    simp [Stmt.resolves, Expr.assignable, resolves_of_value hvalue hvisible]
  | update hvalue hfound _ =>
    simp [Stmt.resolves, Expr.assignable, resolves_of_value hvalue hvisible,
      hvisible.of_find? hfound]
  | define hvalue _ =>
    simp [Stmt.resolves, Expr.name?, resolves_of_value hvalue hvisible]
  | @hoist _ name term line typed hvalue hnew =>
    have hname : name ∈ visible := hhoisted _ (Scope.mem_locals_declare hnew) rfl
    simp [Stmt.resolves, Expr.assignable, resolves_of_value hvalue hvisible, hname]
  | print hvalue =>
    have hargument := resolves_of_value hvalue hvisible
    simp only [Stmt.resolves, Expr.resolves, Expr.reads, Routine.package, Expr.readsAll]
      at hargument ⊢
    simpa using hargument

theorem Emits.visibleIn (h : Emits place scope terms stmts scope')
    (hvisible : scope.VisibleIn visible) (hhoisted : scope'.HoistedIn visible) :
    scope'.VisibleIn (visible ++ stmts.flatMap Stmt.introduces) := by
  intro entry hentry
  rw [← Stmt.declarations_eq_flatMap h.inner, List.mem_append]
  rcases Scope.hoisted_or_defined hentry with hplace | hdefined
  · exact .inl (hhoisted entry hentry hplace)
  · rw [h.defined, List.mem_append] at hdefined
    apply hdefined.imp_left
    intro hold
    obtain ⟨old, hmem, hname⟩ := Scope.mem_locals_of_defined hold
    rw [← hname]
    exact hvisible old hmem

/-- Inside a branch nothing but hoisted locals is added. -/
theorem Emits.visibleIn_of_branch (h : Emits .branch scope terms stmts scope')
    (hvisible : scope.VisibleIn visible) (hhoisted : scope'.HoistedIn visible) :
    scope'.VisibleIn visible :=
  fun entry hentry => (h.hoisted_of_branch hentry).elim (hvisible entry) (hhoisted entry hentry)

/-- A row of emitted statements uses what is visible before it or declared in it. -/
theorem Emits.resolves (h : Emits place scope terms stmts scope')
    (hvisible : scope.VisibleIn visible) (hhoisted : scope'.HoistedIn visible) :
    Stmt.blockResolves visible stmts = true := by
  induction h generalizing visible with
  | nil => rfl
  | @one _ _ _ stmt _ _ _ _ hone hrest ih =>
    have hfirst := hhoisted.of_grows hrest.grows
    have hafter := (Emits.one hone .nil).visibleIn hvisible hfirst
    rw [List.flatMap_singleton] at hafter
    rw [Stmt.blockResolves, Bool.and_eq_true]
    exact ⟨hone.resolves hvisible hfirst,
      ih hafter fun entry hentry h => List.mem_append_left _ (hhoisted entry hentry h)⟩
  | seq hitems hrest ihitems ihrest =>
    have hfirst := hhoisted.of_grows hrest.grows
    rw [Stmt.blockResolves_append, Bool.and_eq_true]
    exact ⟨ihitems hvisible hfirst, ihrest (hitems.visibleIn hvisible hfirst)
      fun entry hentry h => List.mem_append_left _ (hhoisted entry hentry h)⟩
  | cond htest hbody hrest ihbody ihrest =>
    have hfirst := hhoisted.of_grows hrest.grows
    simp only [Stmt.blockResolves, Stmt.resolves, Stmt.introduces, List.append_nil,
      Bool.and_eq_true]
    exact ⟨⟨resolves_of_value htest hvisible, ihbody hvisible hfirst⟩,
      ihrest (hbody.visibleIn_of_branch hvisible hfirst) hhoisted⟩
  | condElse htest hbody hother hrest ihbody ihother ihrest =>
    have hsecond := hhoisted.of_grows hrest.grows
    have hfirst := hsecond.of_grows hother.grows
    have hmiddle := hbody.visibleIn_of_branch hvisible hfirst
    simp only [Stmt.blockResolves, Stmt.resolves, Stmt.introduces, List.append_nil,
      Bool.and_eq_true]
    exact ⟨⟨⟨resolves_of_value htest hvisible, ihbody hvisible hfirst⟩, ihother hmiddle hsecond⟩,
      ihrest (hother.visibleIn_of_branch hmiddle hsecond) hhoisted⟩

end

/-! ## The body of `main` -/

/-- What holds of the statements of a draft and the locals that they rely on. -/
structure Draft.Scoped (draft : Draft) : Prop where
  inner : ∀ stmt ∈ draft.statements, stmt.inner = []
  defined : draft.toScope.defined = Stmt.declarations draft.statements
  resolved : Stmt.blockResolves (draft.hoisted.map Local.name) draft.statements = true

namespace Draft

theorem scoped_empty (package : String) : (empty package).Scoped :=
  ⟨List.forall_mem_nil _, rfl, rfl⟩

theorem hoistedIn_hoisted (scope : Scope) : scope.HoistedIn (scope.hoisted.map Local.name) :=
  fun _ hentry hhoisted => List.mem_map_of_mem (List.mem_filter.mpr ⟨hentry, hhoisted⟩)

theorem Scoped.visibleIn {draft : Draft} (h : draft.Scoped) :
    draft.toScope.VisibleIn
      (draft.hoisted.map Local.name ++ draft.statements.flatMap Stmt.introduces) := by
  intro entry hentry
  rw [← Stmt.declarations_eq_flatMap h.inner, ← h.defined, List.mem_append]
  exact (Scope.hoisted_or_defined hentry).imp_left (hoistedIn_hoisted _ entry hentry)

theorem Scoped.grow {draft : Draft} (h : draft.Scoped) {term : Term} {stmts : List Stmt}
    {scope : Scope} (hemits : Emits .main draft.toScope [term] stmts scope) :
    (draft.grow scope stmts).Scoped where
  inner := by
    intro stmt hstmt
    rw [statements_grow, List.mem_append] at hstmt
    exact hstmt.elim (h.inner stmt) (hemits.inner stmt)
  defined := by
    rw [toScope_grow, statements_grow, Stmt.declarations_append, ← h.defined]
    exact hemits.defined
  resolved := by
    -- The statements so far stay resolved when more is hoisted in front of them.
    have hhoisted : draft.hoisted.map Local.name ⊆ scope.hoisted.map Local.name :=
      List.map_subset _ (hemits.grows.locals.sublist.filter _).subset
    have hvisible : draft.toScope.VisibleIn
        (scope.hoisted.map Local.name ++ draft.statements.flatMap Stmt.introduces) := by
      intro entry hentry
      rw [List.mem_append]
      exact (List.mem_append.mp (h.visibleIn entry hentry)).imp_left fun hmem => hhoisted hmem
    rw [statements_grow, Stmt.blockResolves_append, Bool.and_eq_true]
    exact ⟨Stmt.blockResolves_mono hhoisted _ h.resolved, hemits.resolves hvisible
      fun entry hentry hh => List.mem_append_left _ (hoistedIn_hoisted scope entry hentry hh)⟩

theorem scoped_attemptAll (package : String) (trees : List Sexpr) :
    ((empty package).attemptAll trees).Scoped :=
  attemptAll_preserves Scoped (fun _ hemits h => h.grow hemits) trees (scoped_empty package)

theorem introduces_hoisted (entries : List Local) :
    (entries.map fun entry => Stmt.declare entry.name entry.type).flatMap Stmt.introduces =
      entries.map Local.name := by
  induction entries with
  | nil => rfl
  | cons entry entries ih => simp [Stmt.introduces, ih]

theorem inner_body {draft : Draft} (h : draft.Scoped) : ∀ stmt ∈ draft.body, stmt.inner = [] := by
  intro stmt hstmt
  rcases List.mem_append.mp hstmt with hstmt | hstmt
  · obtain ⟨entry, _, rfl⟩ := List.mem_map.mp hstmt
    rfl
  · exact h.inner stmt hstmt

/-- The body of `main` declares the hoisted locals and then the others. -/
theorem declarations_body {draft : Draft} (h : draft.Scoped) :
    Stmt.declarations draft.body = draft.hoisted.map Local.name ++ draft.toScope.defined := by
  rw [Stmt.declarations_eq_flatMap (inner_body h), body, List.flatMap_append, introduces_hoisted,
    h.defined, Stmt.declarations_eq_flatMap h.inner]

theorem declarations_body_perm {draft : Draft} (h : draft.Scoped) :
    (Stmt.declarations draft.body).Perm (draft.locals.map Local.name) := by
  rw [declarations_body h, Scope.defined, Scope.hoisted, ← List.map_append]
  exact (List.filter_append_perm (·.hoisted) draft.locals).map Local.name

theorem resolved_body {draft : Draft} (h : draft.Scoped) :
    Stmt.blockResolves [] draft.body = true := by
  have hdeclare (entries : List Local) (visible : List String) :
      Stmt.blockResolves visible
        (entries.map fun entry => .declare entry.name entry.type) = true := by
    induction entries generalizing visible with
    | nil => rfl
    | cons entry entries ih => simp [Stmt.blockResolves, Stmt.resolves, ih]
  rw [body, Stmt.blockResolves_append, introduces_hoisted, hdeclare, Bool.true_and, List.nil_append]
  exact h.resolved

end Draft

/-- However trees are added to an empty draft, whether they can be added or not, the body of `main`
is well scoped, and what it declares are the locals of the draft. -/
theorem attempted_draft_wellScoped (package : String) (trees : List Sexpr) :
    Target.WellScoped ((Draft.empty package).attemptAll trees).body ∧
      ∀ name, name ∈ Stmt.declarations ((Draft.empty package).attemptAll trees).body ↔
        (((Draft.empty package).attemptAll trees).find? name).isSome := by
  have h := Draft.scoped_attemptAll package trees
  have hperm := Draft.declarations_body_perm h
  refine ⟨⟨?_, Draft.inner_body h, Draft.resolved_body h, ?_⟩, fun name => ?_⟩
  · exact hperm.nodup_iff.mpr (Draft.distinct_attemptAll package trees)
  · intro name hname
    obtain ⟨entry, hentry, rfl⟩ := List.mem_map.mp (hperm.mem_iff.mp hname)
    exact Draft.named_attemptAll package trees entry hentry
  · rw [hperm.mem_iff, Scope.isSome_find?_iff]

end SexprCompiler
