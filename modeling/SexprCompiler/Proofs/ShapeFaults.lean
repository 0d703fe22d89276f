import SexprCompiler.Proofs.Lowering

/-!
# Where a tree is ill-shaped

Understanding a tree means to examine it and then those of its children that stand for terms, each
with what is inside it. A tree that is examined has a fault by itself if its construct does not take
its children: their number is wrong, or one of them is not the leaf or the name that is asked for.
A tree has a term exactly when nothing that is examined has a fault, and otherwise it is refused for
the first one. Of a conditional the second branch is examined before the test and the body.
-/
namespace SexprCompiler

open Outcome (error?)

namespace Sexpr

/-- The text by which a tree names a local: its own tag, or that of the only leaf inside it. -/
def nameText? : Sexpr → Option String
  | ⟨tag, _, []⟩ => some tag
  | ⟨_, _, [⟨tag, _, []⟩]⟩ => some tag
  | _ => none

def namesLocal (tree : Sexpr) : Bool :=
  tree.nameText?.any fun text => Text.isWord (Name.bare text.toList)

def nameComplaint (tree : Sexpr) : ShapeError :=
  match tree.nameText? with
  | some text => .invalidName text
  | none => .invalidTarget tree.tag tree.line

def selectsRoutine (tree : Sexpr) : Bool := tree.isLeaf && [":puts", ":print"].contains tree.tag

/-- A branch, unless it stands for nothing. -/
def branch (tree : Sexpr) : List Sexpr := if tree.isNil then [] else [tree]

end Sexpr

namespace Construct

def accepts : Construct → List Sexpr → Bool
  | .bool _, [] => true
  | .literal _, [child] => child.isLeaf
  | .literal kind, [sign, digits] =>
    kind != .string && (sign.isLeaf && sign.tag == "-") && digits.isLeaf
  | .var, [name] => name.namesLocal
  | .assign, [target, _] => target.namesLocal
  | .cond, [_, _] => true
  | .cond, [_, _, _] => true
  | .send, [receiver, selector, _] => receiver.isNil && selector.selectsRoutine
  | .seq, _ => true
  | _, _ => false

/-- The numbers of children that a construct asks for. A sequence takes any number. -/
def arities : Construct → List Nat
  | .bool _ => [0]
  | .literal _ => [1]
  | .var => [1]
  | .assign => [2]
  | .cond => [2, 3]
  | .send => [3]
  | .seq => []

/-- Why a construct with the given tag and line does not take its children. -/
def complaint (construct : Construct) (tag : String) (line : Nat) (children : List Sexpr) :
    ShapeError :=
  match construct, children with
  | .literal _, [child] => .invalidLiteral tag child.tag child.line
  | .var, [name] => name.nameComplaint
  | .assign, [target, _] => target.nameComplaint
  | .send, [receiver, selector, _] => .unsupportedSend receiver.tag selector.tag line
  | _, _ => .arity tag construct.arities children.length line

/-- The children of a construct that are examined after it, in this order. -/
def examines : Construct → List Sexpr → List Sexpr
  | .assign, [_, value] => [value]
  | .cond, [test, body] => test :: body.branch
  | .cond, [test, body, otherwise] => otherwise.branch ++ test :: body.branch
  | .send, [receiver, selector, argument] =>
    if receiver.isNil && selector.selectsRoutine then [argument] else []
  | .seq, children => children
  | _, _ => []

theorem mem_of_mem_examines {construct : Construct} {children : List Sexpr} {child : Sexpr}
    (h : child ∈ construct.examines children) : child ∈ children := by
  have hbranch {tree : Sexpr} (hchild : child ∈ tree.branch) : child = tree := by
    unfold Sexpr.branch at hchild
    split at hchild
    · cases hchild
    · exact List.mem_singleton.mp hchild
  unfold examines at h
  split at h
  · simp_all
  · rcases List.mem_cons.mp h with rfl | h
    · simp
    · simp [hbranch h]
  · rcases List.mem_append.mp h with h | h
    · simp [hbranch h]
    · rcases List.mem_cons.mp h with rfl | h
      · simp
      · simp [hbranch h]
  · split at h
    · simp_all
    · cases h
  · exact h
  · cases h

end Construct

namespace Sexpr

def construct? (tree : Sexpr) : Option Construct :=
  match tree.tag with
  | ":true" => some (.bool true)
  | ":false" => some (.bool false)
  | ":int" => some (.literal .int)
  | ":float" => some (.literal .float)
  | ":str" => some (.literal .string)
  | ":lvar" => some .var
  | ":lvasgn" => some .assign
  | ":if" => some .cond
  | ":send" => some .send
  | ":begin" => some .seq
  | _ => none

/-- The fault of a tree by itself. A tag without a meaning is none. -/
def fault? (tree : Sexpr) : Option ShapeError :=
  match tree.construct? with
  | some construct =>
    if construct.accepts tree.children then none
    else some (construct.complaint tree.tag tree.line tree.children)
  | none => none

def examinedChildren (tree : Sexpr) : List Sexpr :=
  match tree.construct? with
  | some construct => construct.examines tree.children
  | none => []

theorem construct?_eq (tree : Sexpr) : tree.construct? = Construct.ofTag? tree.tag := by
  cases hconstruct : Construct.ofTag? tree.tag with
  | some construct =>
    rw [construct?, ← Construct.tag_of_ofTag? hconstruct]
    rcases construct with (_ | _) | (_ | _ | _) | _ | _ | _ | _ | _ <;> rfl
  | none =>
    have hne (construct : Construct) : tree.tag ≠ construct.tag := by
      intro htag
      rw [htag, Construct.ofTag?_tag] at hconstruct
      cases hconstruct
    unfold construct?
    split
    · next h => exact absurd h (hne (.bool true))
    · next h => exact absurd h (hne (.bool false))
    · next h => exact absurd h (hne (.literal .int))
    · next h => exact absurd h (hne (.literal .float))
    · next h => exact absurd h (hne (.literal .string))
    · next h => exact absurd h (hne .var)
    · next h => exact absurd h (hne .assign)
    · next h => exact absurd h (hne .cond)
    · next h => exact absurd h (hne .send)
    · next h => exact absurd h (hne .seq)
    · rfl

theorem mem_children_of_mem_examinedChildren {tree child : Sexpr}
    (h : child ∈ tree.examinedChildren) : child ∈ tree.children := by
  unfold examinedChildren at h
  split at h
  · exact Construct.mem_of_mem_examines h
  · cases h

/-- A tree and all that is examined inside it, in order. -/
def examined (tree : Sexpr) : List Sexpr :=
  tree :: tree.examinedChildren.attach.flatMap fun child => child.1.examined
termination_by sizeOf tree
decreasing_by
  obtain ⟨tag, line, children⟩ := tree
  have hchild : sizeOf child.1 < sizeOf children :=
    List.sizeOf_lt_of_mem (mem_children_of_mem_examinedChildren child.2)
  rw [mk.sizeOf_spec]
  omega

theorem examined_eq (tree : Sexpr) :
    tree.examined = tree :: tree.examinedChildren.flatMap examined := by
  rw [examined]
  simp

end Sexpr

namespace Term

open Sexpr (examined)

theorem error?_nameOf (tree : Sexpr) :
    error? (nameOf tree) = if tree.namesLocal then none else some tree.nameComplaint := by
  have htext (text : String) :
      error? (nameOfText text) =
        if Text.isWord (Name.bare text.toList) then none else some (.invalidName text) := by
    by_cases hword : Text.isWord (Name.bare text.toList) = true
    · simp [nameOfText, Name.ofText?, hword, error?]
    · simp [nameOfText, Name.ofText?, hword, error?]
  obtain ⟨tag, line, _ | ⟨⟨inner, innerLine, _ | ⟨child, others⟩⟩, _ | ⟨next, more⟩⟩⟩ := tree
  · exact htext tag
  · exact htext inner
  · rfl
  · rfl
  · rfl

def errorOf? (tree : Sexpr) : Option ShapeError := error? (ofSexpr tree)

theorem error?_body (tree : Sexpr) :
    error? (Part.body ⟨tree, ofSexpr tree⟩) = tree.branch.findSome? errorOf? := by
  cases hnil : tree.isNil with
  | true => simp [Part.body, Sexpr.branch, hnil, error?]
  | false => simp [Part.body, Sexpr.branch, hnil, Outcome.error?_map, errorOf?]

theorem error?_otherwise (tree : Sexpr) :
    error? (Part.otherwise ⟨tree, ofSexpr tree⟩) = tree.branch.findSome? errorOf? := by
  rw [← error?_body]
  cases hnil : tree.isNil with
  | true => simp [Part.otherwise, Part.body, hnil, error?]
  | false => simp [Part.otherwise, hnil, Outcome.error?_map]

theorem findSome?_cons (tree : Sexpr) (trees : List Sexpr) :
    (tree :: trees).findSome? errorOf? = (errorOf? tree).or (trees.findSome? errorOf?) := by
  rw [List.findSome?_cons]
  cases errorOf? tree <;> rfl

theorem error?_sequence (trees : List Sexpr) :
    error? (Part.sequence (partsOf trees)) = trees.findSome? errorOf? := by
  induction trees with
  | nil => rfl
  | cons tree trees ih =>
    rw [findSome?_cons, ← ih]
    exact Outcome.error?_bind _ _ fun first => Outcome.error?_map _ _

/-! ## The children of a construct -/

theorem error?_arity (construct : Construct) (line : Nat) (children : List Sexpr) :
    error? (throw (.arity construct.tag construct.arities (partsOf children).length line) :
        Except ShapeError Term) =
      some (.arity construct.tag construct.arities children.length line) := by
  rw [partsOf_eq_map, List.length_map]
  rfl

theorem isSome_routineOf? (receiver selector : Sexpr) :
    (routineOf? receiver selector).isSome = (receiver.isNil && selector.selectsRoutine) := by
  have hselector (tag : String) :
      (Routine.ofSelector? tag).isSome = [":puts", ":print"].contains tag := by
    by_cases hputs : tag = ":puts"
    · simp [Routine.ofSelector?, hputs]
    · by_cases hprint : tag = ":print"
      · simp [Routine.ofSelector?, hprint]
      · simp [Routine.ofSelector?, hputs, hprint]
  rw [Sexpr.selectsRoutine, ← hselector]
  cases hreceiver : receiver.isNil <;> cases hleaf : selector.isLeaf <;>
    simp [routineOf?, hreceiver, hleaf]

theorem error?_unsigned (kind : Target.LitKind) (line : Nat) (child : Sexpr) :
    error? (ofParts (.literal kind) line (partsOf [child])) =
      if child.isLeaf then none
      else some (.invalidLiteral (Construct.literal kind).tag child.tag child.line) := by
  simp only [partsOf, ofParts]
  split <;> rfl

theorem error?_signed (kind : Target.LitKind) (line : Nat) (sign digits : Sexpr) :
    error? (ofParts (.literal kind) line (partsOf [sign, digits])) =
      if (Construct.literal kind).accepts [sign, digits] then none
      else some (.arity (Construct.literal kind).tag [1] 2 line) := by
  have haccepts : (Construct.literal kind).accepts [sign, digits] = true ↔
      kind ≠ .string ∧ sign.isLeaf ∧ sign.tag = "-" ∧ digits.isLeaf := by
    simp [Construct.accepts, and_assoc]
  simp only [haccepts, partsOf, ofParts]
  split <;> rfl

theorem error?_assign (line : Nat) (target value : Sexpr) :
    error? (ofParts .assign line (partsOf [target, value])) =
      if target.namesLocal then [value].findSome? errorOf? else some target.nameComplaint := by
  have hvalue (name : String) :
      error? (do return Term.assign name (← ofSexpr value) line) = [value].findSome? errorOf? := by
    rw [List.findSome?_singleton]
    exact Outcome.error?_map _ _
  simp only [partsOf, ofParts, Outcome.error?_bind _ _ hvalue, error?_nameOf]
  split <;> rfl

theorem error?_cond (test body : Sexpr) (otherwise : Option (List Term)) :
    error? (do return Term.cond (← ofSexpr test) (← Part.body ⟨body, ofSexpr body⟩) otherwise) =
      (test :: body.branch).findSome? errorOf? := by
  rw [findSome?_cons, ← error?_body]
  exact Outcome.error?_bind _ _ fun test => Outcome.error?_map _ _

/-- The second branch comes first. -/
theorem error?_condElse (line : Nat) (test body otherwise : Sexpr) :
    error? (ofParts .cond line (partsOf [test, body, otherwise])) =
      (otherwise.branch ++ test :: body.branch).findSome? errorOf? := by
  rw [List.findSome?_append, ← error?_otherwise]
  exact Outcome.error?_bind _ _ (error?_cond test body)

theorem error?_send (line : Nat) (receiver selector argument : Sexpr) :
    error? (ofParts .send line (partsOf [receiver, selector, argument])) =
      if receiver.isNil && selector.selectsRoutine then
        (Construct.send.examines [receiver, selector, argument]).findSome? errorOf?
      else some (.unsupportedSend receiver.tag selector.tag line) := by
  simp only [partsOf, ofParts, Construct.examines, ← isSome_routineOf?]
  cases routineOf? receiver selector with
  | none => rfl
  | some routine =>
    simp only [Option.isSome_some, if_true, List.findSome?_singleton]
    exact Outcome.error?_map _ _

/-- What is wrong with the children of a construct, or else the first error of those that are
examined. -/
theorem error?_ofParts (construct : Construct) (line : Nat) (children : List Sexpr) :
    error? (ofParts construct line (partsOf children)) =
      if construct.accepts children then (construct.examines children).findSome? errorOf?
      else some (construct.complaint construct.tag line children) := by
  -- Children in a number that is asked for are looked at one by one, any others are only counted.
  cases construct with
  | bool value =>
    obtain _ | ⟨first, rest⟩ := children
    · rfl
    · exact error?_arity (.bool value) line (first :: rest)
  | literal kind =>
    obtain _ | ⟨first, _ | ⟨second, _ | ⟨third, rest⟩⟩⟩ := children
    · rfl
    · exact error?_unsigned kind line first
    · exact error?_signed kind line first second
    · exact error?_arity (.literal kind) line (first :: second :: third :: rest)
  | var =>
    obtain _ | ⟨name, _ | ⟨second, rest⟩⟩ := children
    · rfl
    · exact (Outcome.error?_map _ _).trans (error?_nameOf name)
    · exact error?_arity .var line (name :: second :: rest)
  | assign =>
    obtain _ | ⟨target, _ | ⟨value, _ | ⟨third, rest⟩⟩⟩ := children
    · rfl
    · rfl
    · exact error?_assign line target value
    · exact error?_arity .assign line (target :: value :: third :: rest)
  | cond =>
    obtain _ | ⟨test, _ | ⟨body, _ | ⟨otherwise, _ | ⟨fourth, rest⟩⟩⟩⟩ := children
    · rfl
    · rfl
    · exact error?_cond test body none
    · exact error?_condElse line test body otherwise
    · exact error?_arity .cond line (test :: body :: otherwise :: fourth :: rest)
  | send =>
    obtain _ | ⟨receiver, _ | ⟨selector, _ | ⟨argument, _ | ⟨fourth, rest⟩⟩⟩⟩ := children
    · rfl
    · rfl
    · rfl
    · exact error?_send line receiver selector argument
    · exact error?_arity .send line (receiver :: selector :: argument :: fourth :: rest)
  | seq => exact (Outcome.error?_map _ _).trans (error?_sequence children)

/-! ## The first fault -/

/-- A tree has a fault by itself, or else the first error of its children is its own. -/
theorem errorOf?_eq (tree : Sexpr) :
    errorOf? tree = tree.fault?.or (tree.examinedChildren.findSome? errorOf?) := by
  obtain ⟨tag, line, children⟩ := tree
  cases hconstruct : Construct.ofTag? tag with
  | none =>
    simp [errorOf?, ofSexpr, Sexpr.fault?, Sexpr.examinedChildren, Sexpr.construct?_eq, hconstruct,
      error?]
  | some construct =>
    obtain rfl := Construct.tag_of_ofTag? hconstruct
    simp only [errorOf?, ofSexpr, Sexpr.fault?, Sexpr.examinedChildren, Sexpr.construct?_eq,
      hconstruct, error?_ofParts construct line children]
    split
    · rfl
    · rfl

theorem findSome?_errorOf? {trees : List Sexpr}
    (h : ∀ tree ∈ trees, errorOf? tree = tree.examined.findSome? Sexpr.fault?) :
    trees.findSome? errorOf? = (trees.flatMap examined).findSome? Sexpr.fault? := by
  induction trees with
  | nil => rfl
  | cons tree trees ih =>
    obtain ⟨htree, htrees⟩ := List.forall_mem_cons.mp h
    rw [findSome?_cons, List.flatMap_cons, List.findSome?_append, htree, ih htrees]

/-- The error of a tree is the first fault of what is examined. -/
theorem errorOf?_eq_findSome? (tree : Sexpr) :
    errorOf? tree = tree.examined.findSome? Sexpr.fault? := by
  induction tree using Sexpr.induction_children with
  | step tree ih =>
    have hchildren (child : Sexpr) (hchild : child ∈ tree.examinedChildren) :
        errorOf? child = child.examined.findSome? Sexpr.fault? :=
      ih child (Sexpr.mem_children_of_mem_examinedChildren hchild)
    rw [errorOf?_eq, findSome?_errorOf? hchildren, Sexpr.examined_eq, List.findSome?_cons]
    cases tree.fault? <;> rfl

end Term

/-- A tree has a term exactly when nothing in it that is examined has a fault. If it has none, its
error is the first fault in the order of examination. -/
theorem refused_for_first_fault (tree : Sexpr) :
    ((∃ term, Term.ofSexpr tree = .ok term) ↔ ∀ node ∈ tree.examined, node.fault? = none) ∧
    ∀ error, Term.ofSexpr tree = .error error ↔
      ∃ before node after, tree.examined = before ++ node :: after ∧
        node.fault? = some error ∧ ∀ earlier ∈ before, earlier.fault? = none := by
  have herror : error? (Term.ofSexpr tree) = tree.examined.findSome? Sexpr.fault? :=
    Term.errorOf?_eq_findSome? tree
  constructor
  · rw [← Outcome.error?_eq_none_iff, herror, List.findSome?_eq_none_iff]
  · intro error
    rw [← Outcome.error?_eq_some_iff, herror, List.findSome?_eq_some_iff]

end SexprCompiler
