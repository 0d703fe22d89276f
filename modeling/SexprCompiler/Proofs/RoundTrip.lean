import SexprCompiler.Compile
import SexprCompiler.Proofs.Grammar
import SexprCompiler.Proofs.Lexing

/-!
# Written trees are read back

A tree is written as words: its tags and parentheses, where a leaf may go without them. The words
are written as a text with separators between any two. Reading the text gives the tree back but for
its line numbers, provided that each tag is a token on its own. Trees that were read have only such
tags, so they can all be written.
-/
namespace SexprCompiler

open Token (IsLexeme IsAtomText)

namespace Sexpr

mutual

def eraseLines : Sexpr → Sexpr
  | ⟨tag, _, children⟩ => ⟨tag, 0, eraseAll children⟩

def eraseAll : List Sexpr → List Sexpr
  | [] => []
  | tree :: trees => tree.eraseLines :: eraseAll trees

end

theorem eraseAll_eq_map (trees : List Sexpr) : eraseAll trees = trees.map eraseLines := by
  induction trees with
  | nil => rfl
  | cons tree trees ih => rw [eraseAll, ih, List.map_cons]

/-- The ways to write trees in a row as words, with parentheses nested at most `limit` deep. -/
inductive Spells : Nat → List Sexpr → List String → Prop where
  | nil {limit} : Spells limit [] []
  | bare {limit tag line trees words} (hrest : Spells limit trees words) :
      Spells limit (leaf tag line :: trees) (tag :: words)
  | group {limit tag line children inner trees words} (hchildren : Spells limit children inner)
      (hrest : Spells (limit + 1) trees words) :
      Spells (limit + 1) (⟨tag, line, children⟩ :: trees) ("(" :: tag :: (inner ++ ")" :: words))

end Sexpr

/-- What may stand between two words: separators, at least one. -/
def IsGap (gap : String) : Prop := gap ≠ "" ∧ ∀ c ∈ gap.toList, c ∈ Token.separators

instance (gap : String) : Decidable (IsGap gap) :=
  decidable_of_iff (gap ≠ "" ∧ gap.toList.all (Token.separators.contains ·) = true)
    (by simp [IsGap])

/-- The ways to write words as a text, with a gap between any two. -/
inductive Spaced : List String → String → Prop where
  | single (word : String) : Spaced [word] word
  | cons {gap words text} (word : String) (hgap : IsGap gap) (hrest : Spaced words text) :
      Spaced (word :: words) (word ++ gap ++ text)

theorem Spaced.scanFrom {words : List String} {text : String} (h : Spaced words text)
    (hwords : ∀ word ∈ words, ∃ kind, IsLexeme kind word.toList) (line : Nat) :
    ∃ tokens last, Token.scanFrom line text.toList = tokens ++ [Token.endOn last] ∧
      tokens.map Token.lexeme = words ∧
        ∀ token ∈ tokens, IsLexeme token.kind token.lexeme.toList := by
  induction h generalizing line with
  | single word =>
    obtain ⟨kind, hkind⟩ := hwords word List.mem_cons_self
    exact ⟨[_], _, hkind.scanFrom_eq line, by simp, by simpa using hkind⟩
  | @cons gap words text word hgap _ ih =>
    obtain ⟨hne, hseparators⟩ := hgap
    rw [List.forall_mem_cons] at hwords
    obtain ⟨⟨kind, hkind⟩, hrest⟩ := hwords
    have hnext : ∀ c ∈ (gap.toList ++ text.toList).head?, c ∈ Token.separators := by
      cases hcons : gap.toList with
      | nil => exact absurd (by simpa using hcons) hne
      | cons first others =>
        rintro c ⟨⟩
        exact hseparators _ (hcons ▸ List.mem_cons_self)
    have hscan := hkind.scanFrom_append hnext line
    rw [Token.scanFrom_separators hseparators] at hscan
    obtain ⟨tokens, last, htext, hlexemes, htokens⟩ :=
      ih hrest (line + word.toList.count '\n' + gap.toList.count '\n')
    rw [htext] at hscan
    rw [String.toList_append, String.toList_append, List.append_assoc]
    refine ⟨_ :: tokens, last, hscan, by rw [List.map_cons, hlexemes, String.ofList_toList], ?_⟩
    rw [List.forall_mem_cons, String.toList_ofList]
    exact ⟨hkind, htokens⟩

namespace Sexpr

theorem Spells.exists_kind {limit : Nat} {trees : List Sexpr} {words : List String}
    (h : Spells limit trees words) (htags : ∀ tag ∈ allTags trees, IsAtomText tag) :
    ∀ word ∈ words, ∃ kind, IsLexeme kind word.toList := by
  induction h with
  | nil => exact List.forall_mem_nil _
  | bare _ ih =>
    simp only [allTags, leaf, tags, List.singleton_append, List.forall_mem_cons] at htags ⊢
    obtain ⟨kind, hkind, -⟩ := Token.isAtomText_iff.mp htags.1
    exact ⟨⟨kind, hkind⟩, ih htags.2⟩
  | group _ _ ihchildren ihrest =>
    simp only [allTags, tags, List.cons_append, List.forall_mem_cons, List.forall_mem_append]
      at htags ⊢
    obtain ⟨htag, hchildren, hrest⟩ := htags
    obtain ⟨kind, hkind, -⟩ := Token.isAtomText_iff.mp htag
    exact ⟨⟨.leftParen, rfl⟩, ⟨kind, hkind⟩, ihchildren hchildren, ⟨.rightParen, rfl⟩, ihrest hrest⟩

/-- Tokens with the words of written trees derive these trees. -/
theorem Spells.exists_derives {limit : Nat} {trees : List Sexpr} {words : List String}
    (h : Spells limit trees words) (htags : ∀ tag ∈ allTags trees, IsAtomText tag)
    {tokens : List Token} (hwords : tokens.map Token.lexeme = words)
    (htokens : ∀ token ∈ tokens, IsLexeme token.kind token.lexeme.toList) :
    ∃ found, Derives limit tokens found ∧ eraseAll found = eraseAll trees := by
  induction h generalizing tokens with
  | nil =>
    rw [List.map_eq_nil_iff] at hwords
    subst hwords
    exact ⟨[], .nil, rfl⟩
  | bare _ ih =>
    obtain ⟨token, rest, rfl, rfl, hrest⟩ := List.map_eq_cons_iff.mp hwords
    simp only [allTags, leaf, tags, List.singleton_append, List.forall_mem_cons] at htags htokens
    obtain ⟨found, hfound, herase⟩ := ih htags.2 hrest htokens.2
    refine ⟨_, .atom (htags.1.role_eq htokens.1) hfound, ?_⟩
    simp [eraseAll, leaf, eraseLines, herase]
  | group _ _ ihchildren ihrest =>
    obtain ⟨opening, fromTag, rfl, hopening, hfromTag⟩ := List.map_eq_cons_iff.mp hwords
    obtain ⟨tag, afterTag, rfl, rfl, hafterTag⟩ := List.map_eq_cons_iff.mp hfromTag
    obtain ⟨inner, fromClosing, rfl, hinner, hfromClosing⟩ := List.map_eq_append_iff.mp hafterTag
    obtain ⟨closing, rest, rfl, hclosing, hrest⟩ := List.map_eq_cons_iff.mp hfromClosing
    simp only [allTags, tags, List.cons_append, List.forall_mem_cons, List.forall_mem_append]
      at htags htokens
    obtain ⟨hopens, htag, hinside, hcloses, hothers⟩ := htokens
    obtain ⟨children, hchildren, heraseChildren⟩ := ihchildren htags.2.1 hinner hinside
    obtain ⟨found, hfound, herase⟩ := ihrest htags.2.2 hrest hothers
    rw [hopening] at hopens
    rw [hclosing] at hcloses
    have hleft : opening.role = .opening := congrArg Token.Kind.role (hopens.unique rfl)
    have hright : closing.role = .closing := congrArg Token.Kind.role (hcloses.unique rfl)
    refine ⟨_, .group hleft (htags.1.role_eq htag) hchildren hright hfound, ?_⟩
    simp [eraseAll, eraseLines, heraseChildren, herase]

theorem exists_derives_of_ofSource {source : String} {tree : Sexpr}
    (h : ofSource source = .ok tree) :
    ∃ tokens, (∀ token ∈ tokens, token ∈ Token.scan source) ∧ Derives maxDepth tokens [tree] := by
  rw [ofSource, Token.withEnd_scan] at h
  obtain ⟨taken, htaken, hderives⟩ := read_eq_ok_iff.mp (Prod.ext h rfl)
  refine ⟨taken, ?_, hderives⟩
  intro token htoken
  rw [htaken]
  exact List.mem_append_left _ htoken

theorem isAtomText_of_ofSource {source : String} {tree : Sexpr} (h : ofSource source = .ok tree) :
    ∀ tag ∈ tree.tags, IsAtomText tag := by
  intro tag htag
  obtain ⟨tokens, htokens, hderives⟩ := exists_derives_of_ofSource h
  obtain ⟨token, htoken, hrole, rfl⟩ := hderives.exists_token (by simpa [allTags] using htag)
  have hlexeme := Token.isLexeme_of_mem_scan (htokens token htoken) (by simp [hrole])
  exact Token.isAtomText_iff.mpr ⟨token.kind, hlexeme, hrole⟩

theorem depth_le_of_ofSource {source : String} {tree : Sexpr} (h : ofSource source = .ok tree) :
    tree.depth ≤ maxDepth := by
  obtain ⟨tokens, -, hderives⟩ := exists_derives_of_ofSource h
  have hheight := hderives.height_le
  rw [height, height] at hheight
  omega

theorem Spells.read_scan {tree : Sexpr} {words : List String} {text : String}
    (hspells : Spells maxDepth [tree] words) (hspaced : Spaced words text)
    (htags : ∀ tag ∈ tree.tags, IsAtomText tag) :
    ∃ found line, read (Token.scan text) = (.ok found, [Token.endOn line]) ∧
      found.eraseLines = tree.eraseLines := by
  have hrow : ∀ tag ∈ allTags [tree], IsAtomText tag := by simpa [allTags] using htags
  obtain ⟨tokens, last, hscan, hwords, htokens⟩ := hspaced.scanFrom (hspells.exists_kind hrow) 1
  obtain ⟨trees, hderives, herase⟩ := hspells.exists_derives hrow hwords htokens
  rw [eraseAll_eq_map, eraseAll_eq_map, List.map_singleton, List.map_eq_singleton_iff] at herase
  obtain ⟨found, rfl, herase⟩ := herase
  exact ⟨found, last, read_eq_ok_iff.mpr ⟨tokens, hscan, hderives⟩, herase⟩

end Sexpr

/-- Trees that are read have tags that are tokens on their own and groups that are not nested too
deep, and each tree of this kind is read back, however it is written. -/
theorem reading_inverts_writing :
    (∀ source tree, Sexpr.ofSource source = .ok tree →
      (∀ tag ∈ tree.tags, IsAtomText tag) ∧ tree.depth ≤ 256) ∧
    ∀ tree words text, (∀ tag ∈ tree.tags, IsAtomText tag) → Sexpr.Spells 256 [tree] words →
      Spaced words text →
        ∃ found line,
          Sexpr.read (Token.withEnd (Token.scan text)) = (.ok found, [Token.endOn line]) ∧
            found.eraseLines = tree.eraseLines := by
  constructor
  · intro source tree hsource
    exact ⟨Sexpr.isAtomText_of_ofSource hsource, Sexpr.depth_le_of_ofSource hsource⟩
  · intro tree words text htags hspells hspaced
    rw [Token.withEnd_scan]
    exact hspells.read_scan hspaced htags

/-- A tree with a string over two lines, a spoiled number and a leaf in parentheses. -/
def layeredTree : Sexpr :=
  ⟨":send", 0, [.leaf "nil" 0, .leaf "\"a\n\\\" (\"" 0, ⟨">=", 0, [.leaf "12." 0]⟩]⟩

theorem layered_tree_is_read_back :
    (∀ tag ∈ layeredTree.tags, IsAtomText tag) ∧
      ∃ found line,
        Sexpr.read (Token.withEnd (Token.scan "( :send nil,\n(\t\"a\n\\\" (\" ) , ( >= 12. ) )")) =
            (.ok found, [Token.endOn line]) ∧
          found.eraseLines = layeredTree.eraseLines ∧ found.depth ≤ 256 := by
  have hatoms : ∀ tag ∈ layeredTree.tags, IsAtomText tag := by
    simp only [layeredTree, Sexpr.leaf, Sexpr.tags, Sexpr.allTags, List.cons_append,
      List.nil_append, List.append_nil, List.forall_mem_cons]
    exact ⟨Token.isAtomText_iff.mpr ⟨.keyword, rfl, rfl⟩,
      Token.isAtomText_iff.mpr ⟨.name, rfl, rfl⟩, Token.isAtomText_iff.mpr ⟨.string, rfl, rfl⟩,
      Token.isAtomText_iff.mpr ⟨.greaterEqual, rfl, rfl⟩,
      Token.isAtomText_iff.mpr ⟨.invalid, rfl, rfl⟩, List.forall_mem_nil _⟩
  have hspaced : Spaced ["(", ":send", "nil", "(", "\"a\n\\\" (\"", ")", "(", ">=", "12.", ")", ")"]
      ("(" ++ " " ++ (":send" ++ " " ++ ("nil" ++ ",\n" ++ ("(" ++ "\t" ++
        ("\"a\n\\\" (\"" ++ " " ++ (")" ++ " , " ++ ("(" ++ " " ++ (">=" ++ " " ++
          ("12." ++ " " ++ (")" ++ " " ++ ")")))))))))) :=
    .cons _ (by decide) <| .cons _ (by decide) <| .cons _ (by decide) <| .cons _ (by decide) <|
    .cons _ (by decide) <| .cons _ (by decide) <| .cons _ (by decide) <| .cons _ (by decide) <|
    .cons _ (by decide) <| .cons _ (by decide) (.single ")")
  have hspells : Sexpr.Spells 256 [layeredTree]
      ["(", ":send", "nil", "(", "\"a\n\\\" (\"", ")", "(", ">=", "12.", ")", ")"] :=
    .group (.bare (.group .nil (.group (.bare .nil) .nil))) .nil
  obtain ⟨found, line, hread, herase⟩ := reading_inverts_writing.2 _ _ _ hatoms hspells hspaced
  have hdepth := (reading_inverts_writing.1 _ found (congrArg Prod.fst hread)).2
  exact ⟨hatoms, found, line, hread, herase, hdepth⟩

end SexprCompiler
