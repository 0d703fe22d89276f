/-!
# Trees of groups

A group has a tag, the line of that tag, and the trees inside it. A tree without children is a
leaf, whether it was written bare or as a group of its own.
-/
namespace SexprCompiler

structure Sexpr where
  tag : String
  line : Nat
  children : List Sexpr

namespace Sexpr

def leaf (tag : String) (line : Nat) : Sexpr := ⟨tag, line, []⟩

def isLeaf (tree : Sexpr) : Bool := tree.children.isEmpty

/-- Whether a tree is the leaf that stands for nothing. -/
def isNil (tree : Sexpr) : Bool := tree.isLeaf && tree.tag == "nil"

mutual

/-- Whether two trees are the same, lines included. -/
def decEq : (tree other : Sexpr) → Decidable (tree = other)
  | ⟨tag, line, children⟩, ⟨tag', line', children'⟩ =>
    have := decEqAll children children'
    decidable_of_iff (tag = tag' ∧ line = line' ∧ children = children') (by simp)

def decEqAll : (trees others : List Sexpr) → Decidable (trees = others)
  | [], [] => isTrue rfl
  | [], _ :: _ => isFalse (by simp)
  | _ :: _, [] => isFalse (by simp)
  | tree :: trees, other :: others =>
    have := decEq tree other
    have := decEqAll trees others
    decidable_of_iff (tree = other ∧ trees = others) (by simp)

end

instance : DecidableEq Sexpr := decEq

mutual

def size : Sexpr → Nat
  | ⟨_, _, children⟩ => 1 + totalSize children

def totalSize : List Sexpr → Nat
  | [] => 0
  | tree :: trees => tree.size + totalSize trees

end

mutual

/-- The number of steps from the root of a tree to its furthest leaf. -/
def depth : Sexpr → Nat
  | ⟨_, _, children⟩ => height children

/-- The number of levels of a list of siblings. -/
def height : List Sexpr → Nat
  | [] => 0
  | tree :: trees => max (tree.depth + 1) (height trees)

end

@[simp] theorem size_leaf (tag : String) (line : Nat) : (leaf tag line).size = 1 := by
  simp [leaf, size, totalSize]

@[simp] theorem depth_leaf (tag : String) (line : Nat) : (leaf tag line).depth = 0 := by
  simp [leaf, depth, height]

end Sexpr

end SexprCompiler
