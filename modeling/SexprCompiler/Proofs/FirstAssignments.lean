import SexprCompiler.Proofs.Hoisting
import SexprCompiler.Proofs.Scoping

/-!
# What first assignments leave behind

An assignment is the first to its name if none of those met before it is to the same name. From the
assignments that were met before follow the types of the locals at any point, and from these the
type of a value. So the traversal of a term settles, without regard to a scope, what the scope of
its program registers, which of its locals are hoisted, and how each of its assignments is written.
-/
namespace SexprCompiler

open Target (AssignOp Expr Stmt)

/-! ## Occurrences of assignments -/

/-- The types of locals after one more assignment. The first one to a name settles its type. -/
def TypeTable.note (types : TypeTable) (assignment : Assignment) : TypeTable :=
  if (types assignment.name).isSome then types
  else Function.update types assignment.name (assignment.value.type? types)

theorem TypeTable.note_extends (types : TypeTable) (assignment : Assignment) :
    (types.note assignment).Extends types := by
  unfold note
  split
  · exact .refl types
  · rename_i hnew
    intro name type htype
    have hother : name ≠ assignment.name := by
      rintro rfl
      simp [htype] at hnew
    rw [Function.update_of_ne hother, htype]

namespace Assignment

def types (earlier : List Assignment) : TypeTable := earlier.foldl TypeTable.note fun _ => none

theorem types_concat (earlier : List Assignment) (assignment : Assignment) :
    types (earlier ++ [assignment]) = (types earlier).note assignment := by
  simp [types]

theorem types_extends (earlier others : List Assignment) :
    (types (earlier ++ others)).Extends (types earlier) := by
  induction others generalizing earlier with
  | nil =>
    rw [List.append_nil]
    exact .refl _
  | cons assignment others ih =>
    have hnote := TypeTable.note_extends (types earlier) assignment
    rw [← types_concat] at hnote
    rw [List.append_cons]
    exact (ih (earlier ++ [assignment])).trans hnote

/-- An assignment together with those that are met before it. -/
structure Occurrence extends Assignment where
  earlier : List Assignment

namespace Occurrence

def isFirst (occurrence : Occurrence) : Bool := occurrence.name ∉ occurrence.earlier.map name

def type? (occurrence : Occurrence) : Option Target.Ty :=
  occurrence.value.type? (types occurrence.earlier)

end Occurrence

def occurrences (earlier : List Assignment) : List Assignment → List Occurrence
  | [] => []
  | assignment :: others => ⟨assignment, earlier⟩ :: occurrences (earlier ++ [assignment]) others

theorem occurrences_append (earlier assigned others : List Assignment) :
    occurrences earlier (assigned ++ others) =
      occurrences earlier assigned ++ occurrences (earlier ++ assigned) others := by
  induction assigned generalizing earlier with
  | nil => simp [occurrences]
  | cons assignment assigned ih => simp [occurrences, ih, List.append_assoc]

theorem earlier_isPrefix {earlier assigned : List Assignment} {occurrence : Occurrence}
    (h : occurrence ∈ occurrences earlier assigned) :
    occurrence.earlier <+: earlier ++ assigned := by
  induction assigned generalizing earlier with
  | nil => simp [occurrences] at h
  | cons assignment assigned ih =>
    rcases List.mem_cons.mp h with rfl | h
    · exact List.prefix_append _ _
    · rw [List.append_cons]
      exact ih h

/-- The assignments to names not met before are the first ones. -/
theorem fresh_eq_map_filter {known : List String} {earlier : List Assignment}
    (hknown : ∀ name, name ∈ known ↔ name ∈ earlier.map Assignment.name)
    (assigned : List Assignment) :
    fresh known assigned =
      ((occurrences earlier assigned).filter Occurrence.isFirst).map Occurrence.toAssignment := by
  induction assigned generalizing known earlier with
  | nil => rfl
  | cons assignment assigned ih =>
    by_cases hmem : assignment.name ∈ known
    · have hmet := (hknown _).mp hmem
      have hsame : ∀ name, name ∈ known ↔ name ∈ (earlier ++ [assignment]).map Assignment.name := by
        intro name
        rw [List.map_append, List.mem_append, ← hknown, List.map_singleton, List.mem_singleton]
        exact (or_iff_left_of_imp fun hname => hname ▸ hmem).symm
      rw [fresh, if_pos hmem, ih hsame]
      simp [occurrences, Occurrence.isFirst, hmet]
    · have hnew := mt (hknown _).mpr hmem
      have hsame : ∀ name, name ∈ known ++ [assignment.name] ↔
          name ∈ (earlier ++ [assignment]).map Assignment.name := by
        intro name
        rw [List.map_append, List.mem_append, List.mem_append, hknown, List.map_singleton]
      rw [fresh, if_neg hmem, ih hsame]
      simp [occurrences, Occurrence.isFirst, hnew]

end Assignment

open Assignment (Occurrence occurrences)

def Term.occurrences (term : Term) : List Occurrence :=
  Assignment.occurrences [] (term.assignments .main)

/-! ## Assignments as they are written -/

namespace Target

/-- An assignment statement: to which name, with which sign, and where. -/
structure Written where
  name : String
  op : AssignOp
  place : Place
deriving DecidableEq

namespace Stmt

mutual

/-- The assignments in a statement at a place. The blank name is updated to no effect. -/
def written (place : Place) : Stmt → List Written
  | .assign left op _ =>
    ((left.filterMap Expr.name?).map fun name => ⟨name, op, place⟩).filter
      fun found => ¬(found.name = "_" ∧ found.op = .update)
  | .branch _ body none => writtenAll .branch body
  | .branch _ body (some otherwise) => writtenAll .branch body ++ writtenAll .branch otherwise
  | _ => []

def writtenAll (place : Place) : List Stmt → List Written
  | [] => []
  | stmt :: stmts => stmt.written place ++ writtenAll place stmts

end

theorem writtenAll_append (place : Place) (stmts others : List Stmt) :
    writtenAll place (stmts ++ others) = writtenAll place stmts ++ writtenAll place others := by
  induction stmts with
  | nil => rfl
  | cons stmt stmts ih => rw [List.cons_append, writtenAll, writtenAll, ih, List.append_assoc]

theorem written_assign {place : Place} {name : String} {op : AssignOp} {right : List Expr}
    (h : name ≠ "_") :
    (Stmt.assign [.ident name] op right).written place = [⟨name, op, place⟩] := by
  simp [written, Expr.name?, h]

end Stmt

end Target

open Target (Written)

/-- How an assignment is written: a first one outside of branches defines its local. -/
def Assignment.Occurrence.written (occurrence : Occurrence) : Written :=
  ⟨occurrence.name,
    if occurrence.isFirst ∧ occurrence.place = .main then .define else .update, occurrence.place⟩

/-! ## Emitting keeps to the first assignments -/

/-- The scope knows the locals that were assigned, with the types that follow from that. -/
structure Scope.Recalls (scope : Scope) (earlier : List Assignment) : Prop where
  types : scope.type? = Assignment.types earlier
  names : ∀ name, (scope.find? name).isSome ↔ name ∈ earlier.map Assignment.name

namespace Scope.Recalls

variable {scope : Scope} {earlier : List Assignment} {name : String} {value : Term} {line : Nat}
  {place : Place}

theorem isFirst_iff (h : scope.Recalls earlier) (assignment : Assignment) :
    (⟨assignment, earlier⟩ : Occurrence).isFirst = true ↔ scope.find? assignment.name = none := by
  rw [Occurrence.isFirst, decide_eq_true_iff, ← h.names, Option.isSome_iff_ne_none, not_not]

theorem again (h : scope.Recalls earlier) {entry : Local} (hfound : scope.find? name = some entry) :
    scope.Recalls (earlier ++ [⟨name, value, line, place⟩]) where
  types := by
    have hknown : (Assignment.types earlier name).isSome := by
      rw [← h.types, Scope.type?_of_find? hfound]
      rfl
    rw [Assignment.types_concat, TypeTable.note, if_pos hknown, h.types]
  names := by
    intro other
    have hmem := (h.names name).mp (Option.isSome_of_mem hfound)
    rw [h.names, List.map_append, List.mem_append, List.map_singleton, List.mem_singleton]
    exact (or_iff_left_of_imp fun hname => hname ▸ hmem).symm

theorem declare (h : scope.Recalls earlier) {typed : TypedExpr} {hoisted : Bool}
    (hvalue : value.value scope = .ok typed) (hnew : scope.find? name = none) :
    (scope.declare ⟨name, typed.type, line, hoisted⟩).Recalls
      (earlier ++ [⟨name, value, line, place⟩]) where
  types := by
    have hunknown : ¬(Assignment.types earlier name).isSome := by
      simp [← h.types, Scope.type?, hnew]
    have htype := Term.type?_of_value hvalue
    rw [h.types] at htype
    rw [Assignment.types_concat, TypeTable.note, if_neg hunknown, htype, Scope.type?_declare hnew,
      h.types]
  names := by
    intro other
    rw [Scope.isSome_find?_iff, Scope.locals_declare hnew, List.map_append, List.mem_append,
      ← Scope.isSome_find?_iff, h.names, List.map_append, List.mem_append]
    rfl

end Scope.Recalls

/-- What becomes of assignments after earlier ones: the scope afterwards knows them, each has a
value of some type, and they are written in their order. -/
structure Records (earlier assigned : List Assignment) (scope : Scope) (written : List Written) :
    Prop where
  recalls : scope.Recalls (earlier ++ assigned)
  typed : ∀ occurrence ∈ occurrences earlier assigned, occurrence.type?.isSome
  written_eq : written = (occurrences earlier assigned).map Occurrence.written

namespace Records

variable {earlier assigned others : List Assignment} {scope scope' : Scope}
  {written more : List Written}

theorem nil (h : scope.Recalls earlier) : Records earlier [] scope [] where
  recalls := by rwa [List.append_nil]
  typed := List.forall_mem_nil _
  written_eq := rfl

theorem append (h : Records earlier assigned scope written)
    (hothers : Records (earlier ++ assigned) others scope' more) :
    Records earlier (assigned ++ others) scope' (written ++ more) where
  recalls := by
    rw [← List.append_assoc]
    exact hothers.recalls
  typed := by
    rw [Assignment.occurrences_append, List.forall_mem_append]
    exact ⟨h.typed, hothers.typed⟩
  written_eq := by
    rw [Assignment.occurrences_append, List.map_append, h.written_eq, hothers.written_eq]

end Records

section

variable {place : Place} {scope scope' : Scope} {earlier : List Assignment}

theorem Scope.Recalls.records {name : String} {value : Term} {line : Nat} {typed : TypedExpr}
    {op : AssignOp} {expr : Expr} (h : scope.Recalls earlier)
    (hnext : scope'.Recalls (earlier ++ [⟨name, value, line, place⟩]))
    (hvalue : value.value scope = .ok typed) (hname : name ≠ "_")
    (hop : op = if scope.find? name = none ∧ place = .main then .define else .update) :
    Records earlier [⟨name, value, line, place⟩] scope'
      ((Stmt.assign [.ident name] op [expr]).written place) where
  recalls := hnext
  typed := by
    have htype := Term.type?_of_value hvalue
    rw [h.types] at htype
    simp [occurrences, Occurrence.type?, htype]
  written_eq := by
    rw [Stmt.written_assign hname, hop]
    simp [occurrences, Occurrence.written, h.isFirst_iff]

theorem EmitsOne.records {term : Term} {stmt : Stmt} (h : EmitsOne place scope term stmt scope')
    (hnamed : term.Named) (hscope : scope.Recalls earlier) :
    Records earlier (term.assignments place) scope' (stmt.written place) := by
  have hblank : ∀ name, term.name? = some name → name ≠ "_" := by
    intro name hname
    exact (hnamed term name .self hname).ne (by decide)
  cases h with
  | unused hvalue =>
    rw [Term.assignments_of_value hvalue]
    exact .nil hscope
  | update hvalue hfound =>
    exact hscope.records (hscope.again hfound) hvalue (hblank _ rfl) (by simp [hfound])
  | define hvalue hnew =>
    exact hscope.records (hscope.declare hvalue hnew) hvalue (hblank _ rfl) (by simp [hnew])
  | hoist hvalue hnew =>
    exact hscope.records (hscope.declare hvalue hnew) hvalue (hblank _ rfl) (by simp)
  | print =>
    exact .nil ⟨by rw [Scope.type?_addImport, hscope.types], by simpa using hscope.names⟩

theorem Emits.records {terms : List Term} {stmts : List Stmt}
    (h : Emits place scope terms stmts scope') (hnamed : ∀ term ∈ terms, term.Named)
    (hscope : scope.Recalls earlier) :
    Records earlier (Term.assignmentsAll place terms) scope' (Stmt.writtenAll place stmts) := by
  induction h generalizing earlier with
  | nil => exact .nil hscope
  | one hone _ ih =>
    rw [List.forall_mem_cons] at hnamed
    have hfirst := hone.records hnamed.1 hscope
    exact hfirst.append (ih hnamed.2 hfirst.recalls)
  | seq _ _ ihitems ihrest =>
    rw [List.forall_mem_cons] at hnamed
    have hitems := ihitems (fun item hitem => hnamed.1.inner (.item hitem .self)) hscope
    rw [Stmt.writtenAll_append]
    exact hitems.append (ihrest hnamed.2 hitems.recalls)
  | cond _ _ _ ihbody ihrest =>
    rw [List.forall_mem_cons] at hnamed
    have hbody := ihbody (fun item hitem => hnamed.1.inner (.body hitem .self)) hscope
    exact hbody.append (ihrest hnamed.2 hbody.recalls)
  | condElse _ _ _ _ ihbody ihother ihrest =>
    rw [List.forall_mem_cons] at hnamed
    have hbody := ihbody (fun item hitem => hnamed.1.inner (.body hitem .self)) hscope
    have hother := ihother (fun item hitem => hnamed.1.inner (.otherwise hitem .self)) hbody.recalls
    have hblocks := hbody.append hother
    exact hblocks.append (ihrest hnamed.2 hblocks.recalls)

end

/-! ## Programs of source texts -/

theorem Term.fresh_assignments (term : Term) :
    Assignment.fresh [] (term.assignments .main) =
      (term.occurrences.filter Occurrence.isFirst).map Occurrence.toAssignment :=
  Assignment.fresh_eq_map_filter (fun name => (Iff.rfl : name ∈ [] ↔ name ∈ [].map _)) _

theorem Assignment.Declares.eq {types : TypeTable} {assignment : Assignment} {entry : Local}
    (h : assignment.Declares types entry) :
    entry = ⟨assignment.name, entry.type, assignment.line, assignment.place = .branch⟩ := by
  have hhoisted : entry.hoisted = decide (assignment.place = .branch) :=
    Bool.eq_iff_iff.mpr (h.hoisted.trans decide_eq_true_iff.symm)
  rw [← h.name, ← h.line, ← hhoisted]

theorem exists_of_forall₂ {α β : Type} {related : α → β → Prop} {as : List α} {bs : List β}
    (h : List.Forall₂ related as bs) {a : α} (ha : a ∈ as) : ∃ b ∈ bs, related a b := by
  induction h with
  | nil => exact absurd ha List.not_mem_nil
  | cons hfirst _ ih =>
    rcases List.mem_cons.mp ha with rfl | ha
    · exact ⟨_, List.mem_cons_self, hfirst⟩
    · obtain ⟨b, hb, hrelated⟩ := ih ha
      exact ⟨b, List.mem_cons_of_mem _ hb, hrelated⟩

section

variable {package : String} {term : Term} {stmts : List Stmt} {scope : Scope}

theorem Draft.records (h : Emits .main (Draft.empty package).toScope [term] stmts scope)
    (hnamed : term.Named) :
    Records [] (term.assignments .main) scope (Stmt.writtenAll .main stmts) := by
  have hempty : (Draft.empty package).toScope.Recalls [] :=
    ⟨rfl, by simp [Draft.empty, Scope.empty, Scope.find?]⟩
  have hrecords := h.records (List.forall_mem_singleton.mpr hnamed) hempty
  rwa [Term.assignmentsAll, Term.assignmentsAll, List.append_nil] at hrecords

theorem Draft.find?_of_isFirst
    (h : Emits .main (Draft.empty package).toScope [term] stmts scope) (hnamed : term.Named)
    {occurrence : Occurrence} (hmem : occurrence ∈ term.occurrences)
    (hfirst : occurrence.isFirst = true) :
    ∃ type, occurrence.type? = some type ∧
      scope.find? occurrence.name =
        some ⟨occurrence.name, type, occurrence.line, occurrence.place = .branch⟩ := by
  have hrecords := Draft.records h hnamed
  obtain ⟨type, htype⟩ := Option.isSome_iff_exists.mp (hrecords.typed occurrence hmem)
  have hfresh : occurrence.toAssignment ∈ Assignment.fresh [] (term.assignments .main) := by
    rw [term.fresh_assignments]
    exact List.mem_map_of_mem (List.mem_filter.mpr ⟨hmem, hfirst⟩)
  obtain ⟨entry, hentry, hdeclares⟩ := exists_of_forall₂ (Draft.forall₂_locals h) hfresh
  have hfound : scope.find? occurrence.name = some entry :=
    (Scope.find?_eq_some_iff (h.distinct (Draft.distinct_empty package))).mpr
      ⟨hentry, hdeclares.name⟩
  -- The types known at the assignment are still those of the locals in the end.
  obtain ⟨others, hothers⟩ := Assignment.earlier_isPrefix hmem
  have hkeeps := Assignment.types_extends occurrence.earlier others
  rw [hothers, ← hrecords.recalls.types] at hkeeps
  obtain rfl : type = entry.type :=
    Option.some.inj ((Term.type?_of_extends hkeeps htype).symm.trans hdeclares.type)
  exact ⟨entry.type, htype, hfound.trans (congrArg some hdeclares.eq)⟩

end

/-- In the program of a source text exactly the names that are assigned have a local, with the type
of the value and the line of the first assignment. The hoisted ones are those first assigned inside
a branch, in the order of these assignments. The others are defined by their first assignment, and
every other assignment is an update. -/
theorem first_assignments_are_recorded {package source : String} {draft : Draft}
    (h : Draft.ofSource package source = .ok draft) :
    ∃ tree term, Sexpr.ofSource source = .ok tree ∧ Term.ofSexpr tree = .ok term ∧
      (∀ name, (draft.find? name).isSome ↔
        name ∈ (term.assignments .main).map Assignment.name) ∧
      (∀ occurrence ∈ term.occurrences, occurrence.isFirst = true →
        ∃ type, occurrence.type? = some type ∧
          draft.find? occurrence.name =
            some ⟨occurrence.name, type, occurrence.line, occurrence.place = .branch⟩) ∧
      draft.hoisted.map Local.name =
        (term.occurrences.filter fun occurrence =>
          occurrence.isFirst ∧ occurrence.place = .branch).map (·.name) ∧
      Stmt.writtenAll .main draft.statements = term.occurrences.map Occurrence.written := by
  obtain ⟨tree, term, stmts, scope, htree, hterm, hemits, rfl⟩ := Draft.exists_emits_of_ofSource h
  have hnamed := Term.named_of_ofSexpr hterm
  have hrecords := Draft.records hemits hnamed
  refine ⟨tree, term, htree, hterm, hrecords.recalls.names,
    fun _ hmem hfirst => Draft.find?_of_isFirst hemits hnamed hmem hfirst, ?_, hrecords.written_eq⟩
  have hnames := Assignment.map_name_of_declares (Draft.forall₂_hoisted hemits)
  rw [Term.hoistedAssignments, Term.fresh_assignments] at hnames
  refine hnames.trans ?_
  rw [List.filter_map, List.map_map, List.filter_filter]
  simp [Function.comp_def, Bool.and_comm]

/-- A source text that assigns a local on both ways of a branch and again behind it. -/
def forkingSource : String :=
  "(:begin (:lvasgn :x (:int 1)) (:if (:true) (:lvasgn :y (:lvar :x)) (:lvasgn :y (:int 2)))\n" ++
    "(:lvasgn :x (:lvar :y)) (:lvasgn :y (:int 3)))"

def forkingTree : Sexpr :=
  ⟨":begin", 1, [⟨":lvasgn", 1, [.leaf ":x" 1, ⟨":int", 1, [.leaf "1" 1]⟩]⟩,
    ⟨":if", 1, [.leaf ":true" 1,
      ⟨":lvasgn", 1, [.leaf ":y" 1, ⟨":lvar", 1, [.leaf ":x" 1]⟩]⟩,
      ⟨":lvasgn", 1, [.leaf ":y" 1, ⟨":int", 1, [.leaf "2" 1]⟩]⟩]⟩,
    ⟨":lvasgn", 2, [.leaf ":x" 2, ⟨":lvar", 2, [.leaf ":y" 2]⟩]⟩,
    ⟨":lvasgn", 2, [.leaf ":y" 2, ⟨":int", 2, [.leaf "3" 2]⟩]⟩]⟩

theorem forking_assignments_are_recorded :
    ∃ draft, Draft.ofSource "main" forkingSource = .ok draft ∧
      draft.find? "y" = some ⟨"y", .int, 1, true⟩ ∧
      draft.hoisted.map Local.name = ["y"] ∧
      Stmt.writtenAll .main draft.statements =
        [⟨"x", .define, .main⟩, ⟨"y", .update, .branch⟩, ⟨"y", .update, .branch⟩,
          ⟨"x", .update, .main⟩, ⟨"y", .update, .main⟩] := by
  have hread : Sexpr.ofSource forkingSource = .ok forkingTree :=
    Outcome.eq_ok_of_toOption (by decide +kernel)
  obtain ⟨draft, hdraft⟩ : ∃ draft, Draft.ofSource "main" forkingSource = .ok draft := by
    rw [Draft.ofSource, hread]
    exact ⟨_, rfl⟩
  obtain ⟨tree, term, htree, hterm, -, hlocals, hhoisted, hwritten⟩ :=
    first_assignments_are_recorded hdraft
  obtain rfl : forkingTree = tree := Except.ok.inj (hread.symm.trans htree)
  cases hterm
  obtain ⟨type, htype, hfound⟩ := hlocals _ (.tail _ (.head _)) rfl
  cases htype
  exact ⟨draft, hdraft, hfound, hhoisted, hwritten⟩

end SexprCompiler
