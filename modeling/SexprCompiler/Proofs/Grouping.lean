import SexprCompiler.Proofs.Batch

/-!
# Grouping leaves no trace

Items of a sequence can be gathered into a sequence of their own, and a branch can be made a
sequence of one item. Wherever this is done in a tree, at any place that is understood as a term,
the tree keeps its meaning or its fault. Sequences and branches are flattened in two ways, item by
item and as the body of a branch, and both ways come to the same items. No item of these is itself a
sequence.
-/
namespace SexprCompiler

namespace Sexpr

/-- A tree in which one place is left open, at which a tree is understood as a term. -/
inductive Frame where
  | inSequence (line : Nat) (before after : List Sexpr)
  | inAssign (line : Nat) (target : Sexpr)
  | inTest (line : Nat) (branches : List Sexpr)
  | inBody (line : Nat) (test : Sexpr) (others : List Sexpr)
  | inOtherwise (line : Nat) (test body : Sexpr)
  | inPrint (line : Nat) (receiver selector : Sexpr)

def Frame.fill : Frame → Sexpr → Sexpr
  | .inSequence line before after, tree => ⟨Construct.seq.tag, line, before ++ tree :: after⟩
  | .inAssign line target, tree => ⟨Construct.assign.tag, line, [target, tree]⟩
  | .inTest line branches, tree => ⟨Construct.cond.tag, line, tree :: branches⟩
  | .inBody line test others, tree => ⟨Construct.cond.tag, line, test :: tree :: others⟩
  | .inOtherwise line test body, tree => ⟨Construct.cond.tag, line, [test, body, tree]⟩
  | .inPrint line receiver selector, tree =>
    ⟨Construct.send.tag, line, [receiver, selector, tree]⟩

/-- The tree with another one deep inside it, the outermost frame first. -/
def plug (frames : List Frame) (tree : Sexpr) : Sexpr := frames.foldr Frame.fill tree

/-- One way to group trees and a finer one. -/
inductive Regroups : Sexpr → Sexpr → Prop where
  /-- Items in a row are gathered, none of them or more. -/
  | gather (line inner : Nat) (before run after : List Sexpr) :
      Regroups ⟨Construct.seq.tag, line, before ++ run ++ after⟩
        ⟨Construct.seq.tag, line, before ++ ⟨Construct.seq.tag, inner, run⟩ :: after⟩
  /-- A body that is there becomes the only item of a sequence. -/
  | body (line inner : Nat) (test : Sexpr) {tree : Sexpr} (others : List Sexpr)
      (htree : tree.isNil = false) :
      Regroups ⟨Construct.cond.tag, line, test :: tree :: others⟩
        ⟨Construct.cond.tag, line, test :: ⟨Construct.seq.tag, inner, [tree]⟩ :: others⟩
  /-- A second branch that is there becomes the only item of a sequence. -/
  | otherwise (line inner : Nat) (test body : Sexpr) {tree : Sexpr} (htree : tree.isNil = false) :
      Regroups ⟨Construct.cond.tag, line, [test, body, tree]⟩
        ⟨Construct.cond.tag, line, [test, body, ⟨Construct.seq.tag, inner, [tree]⟩]⟩

theorem isNil_construct (construct : Construct) (line : Nat) (children : List Sexpr) :
    (⟨construct.tag, line, children⟩ : Sexpr).isNil = false :=
  Term.isNil_of_ofTag? (Construct.ofTag?_tag construct)

theorem Frame.isNil_fill (frame : Frame) (tree : Sexpr) : (frame.fill tree).isNil = false := by
  cases frame <;> exact isNil_construct _ _ _

theorem Regroups.isNil {tree other : Sexpr} (h : Regroups tree other) :
    tree.isNil = false ∧ other.isNil = false := by
  cases h <;> exact ⟨isNil_construct _ _ _, isNil_construct _ _ _⟩

end Sexpr

open Sexpr (Frame plug Regroups)

namespace Term

/-! ## Items in a row -/

theorem ofSexpr_seq (line : Nat) (trees : List Sexpr) :
    ofSexpr ⟨Construct.seq.tag, line, trees⟩ = .seq <$> itemsOf trees :=
  ofSexpr_sequence line trees

theorem itemsOf_cons (tree : Sexpr) (trees : List Sexpr) :
    itemsOf (tree :: trees) = do return (← ofSexpr tree).items ++ (← itemsOf trees) := rfl

theorem itemsOf_append (trees others : List Sexpr) :
    itemsOf (trees ++ others) = do return (← itemsOf trees) ++ (← itemsOf others) := by
  induction trees with
  | nil => exact (bind_pure _).symm
  | cons tree trees ih =>
    simp only [List.cons_append, itemsOf_cons, ih, bind_assoc, pure_bind, List.append_assoc]

theorem itemsOf_gather (inner : Nat) (run after : List Sexpr) :
    itemsOf (⟨Construct.seq.tag, inner, run⟩ :: after) = itemsOf (run ++ after) := by
  rw [itemsOf_append, itemsOf_cons, ofSexpr_seq]
  cases itemsOf run <;> rfl

theorem itemsOf_singleton (tree : Sexpr) : itemsOf [tree] = items <$> ofSexpr tree := by
  rw [itemsOf_cons]
  cases ofSexpr tree with
  | error error => rfl
  | ok term => exact congrArg Except.ok (List.append_nil _)

/-! ## Trees in a frame -/

def bodyOf (tree : Sexpr) : Except ShapeError (List Term) := Part.body ⟨tree, ofSexpr tree⟩

def otherwiseOf (tree : Sexpr) : Except ShapeError (Option (List Term)) :=
  Part.otherwise ⟨tree, ofSexpr tree⟩

structure SameBranch (tree other : Sexpr) : Prop where
  body : bodyOf tree = bodyOf other
  otherwise : otherwiseOf tree = otherwiseOf other

theorem sameBranch_of_items {tree other : Sexpr} (htree : tree.isNil = false)
    (hother : other.isNil = false) (h : items <$> ofSexpr tree = items <$> ofSexpr other) :
    SameBranch tree other := by
  have hbody : bodyOf tree = bodyOf other := by simp [bodyOf, Part.body, htree, hother, h]
  refine ⟨hbody, ?_⟩
  simp only [otherwiseOf, Part.otherwise, htree, hother]
  exact congrArg (some <$> ·) hbody

theorem sameBranch_gather (inner : Nat) {tree : Sexpr} (h : tree.isNil = false) :
    SameBranch tree ⟨Construct.seq.tag, inner, [tree]⟩ := by
  apply sameBranch_of_items h (Sexpr.isNil_construct _ _ _)
  rw [← itemsOf_singleton, ofSexpr_seq]
  cases itemsOf [tree] <;> rfl

theorem ofSexpr_body {tree other : Sexpr} (h : SameBranch tree other) (line : Nat) (test : Sexpr)
    (others : List Sexpr) :
    ofSexpr ⟨Construct.cond.tag, line, test :: tree :: others⟩ =
      ofSexpr ⟨Construct.cond.tag, line, test :: other :: others⟩ := by
  have hbody := h.body
  unfold bodyOf at hbody
  rw [ofSexpr_construct, ofSexpr_construct]
  obtain _ | ⟨otherwise, _ | ⟨next, others⟩⟩ := others
  · simp only [partsOf, ofParts, hbody]
  · simp only [partsOf, ofParts, hbody]
  · simp [partsOf, ofParts]

theorem ofSexpr_otherwise {tree other : Sexpr} (h : SameBranch tree other) (line : Nat)
    (test body : Sexpr) :
    ofSexpr ⟨Construct.cond.tag, line, [test, body, tree]⟩ =
      ofSexpr ⟨Construct.cond.tag, line, [test, body, other]⟩ := by
  have hother := h.otherwise
  unfold otherwiseOf at hother
  rw [ofSexpr_construct, ofSexpr_construct]
  simp only [partsOf, ofParts, hother]

/-- In a frame only the meaning of a tree counts. -/
theorem ofSexpr_fill (frame : Frame) {tree other : Sexpr} (htree : tree.isNil = false)
    (hother : other.isNil = false) (h : ofSexpr tree = ofSexpr other) :
    ofSexpr (frame.fill tree) = ofSexpr (frame.fill other) := by
  have hbranch : SameBranch tree other := sameBranch_of_items htree hother (by rw [h])
  cases frame with
  | inSequence line before after =>
    simp only [Frame.fill, ofSexpr_seq, itemsOf_append, itemsOf_cons, h]
  | inAssign line target =>
    simp only [Frame.fill, ofSexpr_construct, partsOf, ofParts, h]
  | inTest line branches =>
    rw [Frame.fill, Frame.fill, ofSexpr_construct, ofSexpr_construct]
    obtain _ | ⟨body, _ | ⟨otherwise, _ | ⟨next, others⟩⟩⟩ := branches
    · simp [partsOf, ofParts]
    · simp only [partsOf, ofParts, h]
    · simp only [partsOf, ofParts, h]
    · simp [partsOf, ofParts]
  | inBody line test others => exact ofSexpr_body hbranch line test others
  | inOtherwise line test body => exact ofSexpr_otherwise hbranch line test body
  | inPrint line receiver selector =>
    simp only [Frame.fill, ofSexpr_construct, partsOf, ofParts, h]

theorem isNil_plug (frames : List Frame) {tree : Sexpr} (h : tree.isNil = false) :
    (plug frames tree).isNil = false := by
  cases frames with
  | nil => exact h
  | cons frame frames => exact frame.isNil_fill _

/-- However deep a tree is inside another one, only its meaning counts. -/
theorem ofSexpr_plug (frames : List Frame) {tree other : Sexpr} (htree : tree.isNil = false)
    (hother : other.isNil = false) (h : ofSexpr tree = ofSexpr other) :
    ofSexpr (plug frames tree) = ofSexpr (plug frames other) := by
  induction frames with
  | nil => exact h
  | cons frame frames ih =>
    exact ofSexpr_fill frame (isNil_plug frames htree) (isNil_plug frames hother) ih

theorem ofSexpr_regroups {tree other : Sexpr} (h : Regroups tree other) :
    ofSexpr tree = ofSexpr other := by
  cases h with
  | gather line inner before run after =>
    rw [ofSexpr_seq, ofSexpr_seq, List.append_assoc, itemsOf_append before, itemsOf_append before,
      itemsOf_gather]
  | body line inner test others htree =>
    exact ofSexpr_body (sameBranch_gather inner htree) line test others
  | otherwise line inner test body htree =>
    exact ofSexpr_otherwise (sameBranch_gather inner htree) line test body

/-! ## No sequence in a row -/

def isSeq : Term → Bool
  | .seq _ => true
  | _ => false

/-- The terms that a term has in a row, as a sequence or in its branches. -/
def row : Term → List Term
  | .seq items => items
  | .cond _ body otherwise => body ++ otherwise.getD []
  | _ => []

/-- Nowhere in a term is a sequence an item of a sequence or of a branch. -/
def Flat (term : Term) : Prop :=
  ∀ sub, Inside sub term → ∀ item ∈ sub.row, item.isSeq = false

theorem isSeq_of_mem_items (tree : Sexpr) {term : Term} (h : ofSexpr tree = .ok term) :
    ∀ item ∈ term.items, item.isSeq = false := by
  induction tree using Sexpr.induction_children generalizing term with
  | step tree ih =>
    rcases ofSexpr_cases h with rfl | ⟨construct, parts, hcomposes, hparts⟩
    · exact List.forall_mem_singleton.mpr rfl
    · cases hcomposes with
      | seq hitems =>
        intro item hitem
        obtain ⟨part, hpart, first, hfirst, hitem⟩ := Part.mem_sequence hitems hitem
        obtain ⟨hchild, hterm⟩ := hparts part hpart
        exact ih part.tree hchild (hterm ▸ hfirst) item hitem
      | bool | literal | negative | var | assign | cond | condElse | print =>
        exact List.forall_mem_singleton.mpr rfl

/-- The items of a row come from the terms of trees, which give no sequences to it. -/
theorem isSeq_of_mem_row {tree : Sexpr} {term : Term} (h : ofSexpr tree = .ok term) :
    ∀ item ∈ term.row, item.isSeq = false := by
  intro item hitem
  rcases ofSexpr_cases h with rfl | ⟨construct, parts, hcomposes, hparts⟩
  · cases hitem
  · have hpart {part : Part} (hmem : part ∈ parts)
        (hfound : ∃ term, part.term = .ok term ∧ item ∈ term.items) : item.isSeq = false := by
      obtain ⟨first, hfirst, hitem⟩ := hfound
      exact isSeq_of_mem_items part.tree ((hparts part hmem).2 ▸ hfirst) item hitem
    cases hcomposes with
    | seq hitems =>
      obtain ⟨part, hmem, hfound⟩ := Part.mem_sequence hitems hitem
      exact hpart hmem hfound
    | @cond _ first second test body htest hbody =>
      rw [row, Option.getD_none, List.append_nil] at hitem
      exact hpart (by simp) (Part.mem_body hbody hitem)
    | @condElse _ first second third test body otherwise htest hbody hother =>
      rcases List.mem_append.mp hitem with hitem | hitem
      · exact hpart (by simp) (Part.mem_body hbody hitem)
      · cases otherwise with
        | none => cases hitem
        | some items => exact hpart (by simp) (Part.mem_otherwise hother hitem)
    | bool | literal | negative | var | assign | print => cases hitem

theorem flat_of_ofSexpr {tree : Sexpr} {term : Term} (h : ofSexpr tree = .ok term) : term.Flat := by
  intro sub hsub
  obtain ⟨origin, -, horigin⟩ := exists_tree_of_inside tree h hsub
  exact isSeq_of_mem_row horigin

end Term

/-- Wherever in a tree the grouping is changed, the tree has the same term, or it has the same
fault. In the terms of trees no sequence is an item of a sequence or of a branch. -/
theorem grouping_leaves_no_trace :
    (∀ frames tree other, Regroups tree other →
      Term.ofSexpr (plug frames tree) = Term.ofSexpr (plug frames other)) ∧
    ∀ tree term, Term.ofSexpr tree = .ok term → term.Flat := by
  constructor
  · intro frames tree other h
    exact Term.ofSexpr_plug frames h.isNil.1 h.isNil.2 (Term.ofSexpr_regroups h)
  · exact fun tree term h => Term.flat_of_ofSexpr h

/-- The second branch of a conditional among the items of a sequence. -/
def branchFrames : List Frame :=
  [.inSequence 1 [.leaf ":true" 1] [], .inOtherwise 2 (.leaf ":true" 2) (.leaf "nil" 2)]

def digitTree (digits : String) : Sexpr := ⟨":int", 3, [.leaf digits 3]⟩

/-- Three items, of which the last two can be gathered. -/
def looseBranch : Sexpr := ⟨":begin", 3, [.leaf ":false" 3, digitTree "1", digitTree "2"]⟩

def gatheredBranch : Sexpr :=
  ⟨":begin", 3, [.leaf ":false" 3, ⟨":begin", 9, [digitTree "1", digitTree "2"]⟩]⟩

def branchedTerm : Term :=
  .seq [.bool true, .cond (.bool true) []
    (some [.bool false, .literal .int "1", .literal .int "2"])]

theorem gathered_branch_leaves_no_trace :
    Regroups looseBranch gatheredBranch ∧
      Term.ofSexpr (plug branchFrames gatheredBranch) = .ok branchedTerm ∧ branchedTerm.Flat := by
  have hregroups : Regroups looseBranch gatheredBranch :=
    .gather 3 9 [.leaf ":false" 3] [digitTree "1", digitTree "2"] []
  have hsame := grouping_leaves_no_trace.1 branchFrames looseBranch gatheredBranch hregroups
  have hterm : Term.ofSexpr (plug branchFrames looseBranch) = .ok branchedTerm := rfl
  exact ⟨hregroups, hsame ▸ hterm, grouping_leaves_no_trace.2 _ _ hterm⟩

end SexprCompiler
