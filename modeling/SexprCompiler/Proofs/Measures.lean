import SexprCompiler.Proofs.Cursor
import SexprCompiler.Proofs.Parentheses

/-!
# The measures of a tree by its parentheses

The size and the depth of a tree that was read can be told from the tokens it was read from, by
looking at nothing but parentheses. Every group is a node, and so is every atom that is not a tag.
The depth is the greatest level of a group that has a child. A group without children is a leaf in
the tree, so parentheses may be nested deeper than the tree is, but only by one.
-/
namespace SexprCompiler.Sexpr

open Token (Role withEnd)
open Parentheses hiding Balanced

/-- The roles of the tokens that trees in a row are written with. -/
inductive Outlines : List Role → List Sexpr → Prop where
  | nil : Outlines [] []
  | atom {roles trees} (tag : String) (line : Nat) (hrest : Outlines roles trees) :
      Outlines (.atom :: roles) (leaf tag line :: trees)
  | group {inner children roles trees} (tag : String) (line : Nat)
      (hchildren : Outlines inner children) (hrest : Outlines roles trees) :
      Outlines (enclosed (.atom :: inner) ++ roles) (⟨tag, line, children⟩ :: trees)

theorem Derives.outlines {limit : Nat} {tokens : List Token} {trees : List Sexpr}
    (h : Derives limit tokens trees) : Outlines (tokens.map Token.role) trees := by
  induction h with
  | nil => exact .nil
  | atom hatom _ ih =>
    rw [List.map_cons, hatom]
    exact .atom _ _ ih
  | @group _ _ tag _ _ _ _ _ hopening htag _ hclosing _ ihchildren ihrest =>
    have hgroup := Outlines.group tag.lexeme tag.line ihchildren ihrest
    simpa [hopening, htag, hclosing, enclosed] using hgroup

section

variable {roles : List Role} {trees : List Sexpr}

theorem Outlines.balanced (h : Outlines roles trees) : Parentheses.Balanced roles := by
  induction h with
  | nil => exact balanced_nil
  | atom _ _ _ ih => exact balanced_tagged ih
  | group _ _ _ _ ihchildren ihrest =>
    have hgroup := balanced_enclosed (balanced_tagged ihchildren)
    exact hgroup.append ihrest

theorem Outlines.balanced_group {inner : List Role} (h : Outlines inner trees) :
    Parentheses.Balanced (enclosed (.atom :: inner)) :=
  balanced_enclosed (balanced_tagged h.balanced)

theorem Outlines.eq_nil_iff (h : Outlines roles trees) : roles = [] ↔ trees = [] := by
  cases h <;> simp [enclosed]

theorem Outlines.card_groups (h : Outlines roles trees) :
    (groups roles).card = roles.count .opening := by
  induction h with
  | nil => decide
  | atom _ _ _ ih =>
    rw [card_groups_atom, ih, List.count_cons_of_ne (by decide)]
  | group _ _ hchildren _ ihchildren ihrest =>
    rw [card_groups_append hchildren.balanced_group,
      card_groups_tagged hchildren.balanced, ihchildren, ihrest, List.count_append,
      count_opening_tagged]

theorem Outlines.totalSize_add (h : Outlines roles trees) :
    totalSize trees + 2 * roles.count .opening = roles.length := by
  induction h with
  | nil => rfl
  | atom _ _ _ ih =>
    rw [totalSize, size_leaf, List.count_cons_of_ne (by decide), List.length_cons]
    omega
  | group _ _ _ _ ihchildren ihrest =>
    rw [totalSize, size, List.count_append, count_opening_tagged, List.length_append,
      length_enclosed, List.length_cons]
    omega

theorem Outlines.totalSize_eq (h : Outlines roles trees) :
    totalSize trees = (groups roles).card + freeAtoms roles := by
  induction h with
  | nil => decide
  | atom _ _ _ ih =>
    rw [totalSize, size_leaf, card_groups_atom, freeAtoms_atom]
    omega
  | group _ _ hchildren _ ihchildren ihrest =>
    rw [totalSize, size, card_groups_append hchildren.balanced_group,
      card_groups_tagged hchildren.balanced,
      freeAtoms_append hchildren.balanced_group.getLast?_ne, freeAtoms_tagged hchildren.balanced]
    omega

/-- On the last level of siblings there are only leaves, so no group has a child there. -/
theorem Outlines.peak_eq (h : Outlines roles trees) : peak roles = height trees - 1 := by
  induction h with
  | nil => decide
  | atom _ _ _ ih =>
    rw [peak_atom, height, depth_leaf]
    omega
  | @group inner children _ _ _ _ hchildren _ ihchildren ihrest =>
    rw [peak_append hchildren.balanced_group, peak_tagged hchildren.balanced, height, depth,
      ihrest]
    -- Without children the group is a leaf, and its own parentheses do not count.
    cases children with
    | nil =>
      rw [if_pos (hchildren.eq_nil_iff.mpr rfl), height]
      omega
    | cons child children =>
      rw [if_neg (mt hchildren.eq_nil_iff.mp (List.cons_ne_nil _ _)), ihchildren, height]
      omega

/-- Siblings have as many levels as parentheses are nested, or one more. -/
theorem Outlines.deepest_bounds (h : Outlines roles trees) :
    deepest roles ≤ height trees ∧ height trees ≤ deepest roles + 1 := by
  induction h with
  | nil => decide
  | atom _ _ _ ih =>
    rw [deepest_atom, height, depth_leaf]
    omega
  | group _ _ hchildren _ ihchildren ihrest =>
    rw [deepest_append hchildren.balanced_group, deepest_tagged hchildren.balanced, height, depth]
    omega

end

def taken (tokens : List Token) (calls : Nat) : List Token :=
  (withEnd tokens).extract (cursor tokens calls) (cursor tokens (calls + 1))

theorem derivesAt_of_read {tokens : List Token} {calls : Nat} {tree : Sexpr}
    (h : (read (leftAfter tokens calls)).1 = .ok tree) :
    DerivesAt maxDepth (withEnd tokens) (cursor tokens calls) (cursor tokens (calls + 1)) tree := by
  rw [derivesAt_iff (cursor_le tokens calls), drop_cursor, drop_cursor]
  exact ⟨cursor_le tokens (calls + 1), Prod.ext h rfl⟩

/-- Whatever tokens are given and however many calls came before: if a call finds a tree, then the
size of the tree is the number of tokens that the call takes, less two for every opening
parenthesis. That is the number of groups and of atoms that are not tags. The depth of the tree is
the greatest number of groups that a group with a child stands in, itself included, and at most 256.
Parentheses are nested as deep as the tree is, or deeper by one. -/
theorem tree_follows_parentheses {tokens : List Token} {calls : Nat} {tree : Sexpr}
    {roles : List Role} (htree : (read (leftAfter tokens calls)).1 = .ok tree)
    (hroles : (taken tokens calls).map Token.role = roles) :
    cursor tokens (calls + 1) = cursor tokens calls + roles.length ∧
      tree.size + 2 * roles.count .opening = roles.length ∧
      (groups roles).card = roles.count .opening ∧
      tree.size = (groups roles).card + freeAtoms roles ∧
      tree.depth = ((groups roles).filter Pair.HasChild).sup (level roles) ∧
      tree.depth ≤ 256 ∧
      (deepest roles = tree.depth ∨ deepest roles = tree.depth + 1) := by
  obtain ⟨hstart, hstop, hderives⟩ := derivesAt_of_read htree
  have houtlines : Outlines roles [tree] := hroles ▸ hderives.outlines
  have hsize : totalSize [tree] = tree.size := by simp [totalSize]
  have hheight : height [tree] = tree.depth + 1 := by simp [height]
  refine ⟨?_, hsize ▸ houtlines.totalSize_add, houtlines.card_groups,
    hsize ▸ houtlines.totalSize_eq, ?_, ?_, ?_⟩
  · rw [← hroles, List.length_map, taken, List.extract_eq_take_drop, List.length_take,
      List.length_drop]
    omega
  · change tree.depth = peak roles
    rw [houtlines.peak_eq, hheight, Nat.add_sub_cancel]
  · have hle := hderives.height_le
    rw [hheight] at hle
    exact Nat.le_of_succ_le_succ hle
  · have hbounds := houtlines.deepest_bounds
    rw [hheight] at hbounds
    omega

/-- A group in which the innermost group has no children, after a parenthesis that is opened in the
place of a tag. -/
def barrenTokens : List Token :=
  [⟨.leftParen, "(", 1⟩, ⟨.leftParen, "(", 1⟩, ⟨.keyword, ":a", 1⟩, ⟨.name, "x", 2⟩,
    ⟨.leftParen, "(", 3⟩, ⟨.keyword, ":b", 3⟩, ⟨.rightParen, ")", 3⟩, ⟨.rightParen, ")", 4⟩,
    ⟨.name, "y", 5⟩]

def barrenRoles : List Role :=
  [.opening, .atom, .atom, .opening, .atom, .closing, .closing]

/-- The inner group counts as a node but not as a level. -/
theorem barren_group_adds_no_depth :
    (read (leftAfter barrenTokens 1)).1 = .ok ⟨":a", 1, [leaf "x" 2, leaf ":b" 3]⟩ ∧
      (taken barrenTokens 1).map Token.role = barrenRoles ∧
      cursor barrenTokens 2 = cursor barrenTokens 1 + 7 ∧
      (groups barrenRoles).card = 2 ∧ freeAtoms barrenRoles = 1 ∧
      ((groups barrenRoles).filter Pair.HasChild).sup (level barrenRoles) = 1 ∧
      deepest barrenRoles = 2 := by
  have htree : (read (leftAfter barrenTokens 1)).1 = .ok ⟨":a", 1, [leaf "x" 2, leaf ":b" 3]⟩ := rfl
  have hroles : (taken barrenTokens 1).map Token.role = barrenRoles := rfl
  obtain ⟨hcursor, -, hgroups, hsize, hdepth, -, hdeepest⟩ := tree_follows_parentheses htree hroles
  refine ⟨htree, hroles, hcursor, hgroups, ?_, hdepth.symm, hdeepest.resolve_left (by decide)⟩
  rw [hgroups] at hsize
  exact (Nat.add_left_cancel hsize).symm

end SexprCompiler.Sexpr
