import SexprCompiler.Compile
import SexprCompiler.Proofs.Coverage
import SexprCompiler.Proofs.Grammar

/-!
# What follows the first tree

Only the first tree of a text counts. When a separator and any other text are put behind a text, its
tokens stay the first ones: each of them ended before the separator, and a string that is not closed
gave no token, whatever may close it now. The tree is read from these tokens alone, so it stays the
same, and so do its lines.
-/
namespace SexprCompiler

namespace Token

variable {separator : Char}

theorem boundary_append (hseparator : separator ∈ separators) (rest more : List Char) :
    Boundary rest (rest ++ separator :: more) := by
  intro c hc
  cases rest with
  | nil =>
    obtain rfl : separator = c := Option.some.inj hc
    exact .inl hseparator
  | cons first rest => exact .inr hc

theorem piece_append_separator (hseparator : separator ∈ separators) {c : Char} {cs : List Char}
    {kind : Kind} (h : (piece c cs).kind = some kind) (more : List Char) :
    piece c (cs ++ separator :: more) = piece c cs ∧ (piece c cs).extra ≤ cs.length := by
  obtain ⟨body, rest, rfl, hsame⟩ := selfDelimiting_piece c cs kind h
  have hpiece := hsame rest (.refl rest)
  constructor
  · rw [hpiece, List.append_assoc]
    exact hsame _ (boundary_append hseparator rest more)
  · rw [hpiece, List.length_append]
    exact Nat.le_add_right _ _

/-- The tokens of a text stay the first ones when a separator and more are put behind it. -/
theorem exists_scanFrom_append (hseparator : separator ∈ separators) (line : Nat)
    (cs more : List Char) :
    ∃ tokens last others, scanFrom line cs = tokens ++ [endOn last] ∧
      scanFrom line (cs ++ separator :: more) = tokens ++ others := by
  fun_induction scanFrom line cs with
  | case1 line => exact ⟨[], line, _, rfl, rfl⟩
  | case2 line c cs found text next rest kind hkind ih =>
    obtain ⟨tokens, last, others, hrest, hmore⟩ := ih
    obtain ⟨hpiece, hextra⟩ := piece_append_separator hseparator hkind more
    refine ⟨⟨kind, String.ofList text, next⟩ :: tokens, last, others,
      congrArg (List.cons _) hrest, ?_⟩
    rw [List.cons_append, scanFrom, hpiece, List.take_append_of_le_length hextra,
      List.drop_append_of_le_length hextra, hmore, hkind]
    rfl
  | case3 line c cs found text next rest hkind ih =>
    rcases separator_or_unclosed hkind with ⟨hc, hextra⟩ | ⟨rfl, -, hextra⟩
    · obtain ⟨tokens, last, others, hrest, hmore⟩ := ih
      refine ⟨tokens, last, others, hrest, ?_⟩
      rw [List.cons_append, scanFrom, piece_separator c hc]
      simpa [found, text, next, hextra] using hmore
    · -- The string took all the rest of the text and left no token to keep.
      have hdrop : cs.drop found.extra = [] := List.drop_eq_nil_of_le (Nat.le_of_eq hextra.symm)
      exact ⟨[], next, _, by simp only [rest, hdrop, scanFrom, List.nil_append], rfl⟩

end Token

namespace Sexpr

/-- A tree that is read from tokens before an end is read from them whatever they are followed by.
-/
theorem read_append_of_endOn {tokens rest : List Token} {last : Nat} {tree : Sexpr}
    (h : read (tokens ++ [Token.endOn last]) = (.ok tree, rest)) (others : List Token) :
    (read (tokens ++ others)).1 = .ok tree := by
  obtain ⟨taken, htaken, hderives⟩ := read_eq_ok_iff.mp h
  rcases List.eq_nil_or_concat rest with rfl | ⟨unread, final, rfl⟩
  · -- The tree cannot have taken the end.
    rw [List.append_nil] at htaken
    have hend : Token.endOn last ∈ taken := by simp [← htaken]
    exact absurd rfl (hderives.role_ne_ending _ hend)
  · rw [List.concat_eq_append, ← List.append_assoc] at htaken
    obtain ⟨rfl, -⟩ := List.append_inj' htaken rfl
    rw [List.append_assoc, hderives.read_append (Nat.le_refl _)]

theorem ofSource_append {source : String} {tree : Sexpr} (h : ofSource source = .ok tree)
    {separator : Char} (hseparator : separator ∈ Token.separators) (more : String) :
    ofSource (source.push separator ++ more) = .ok tree := by
  obtain ⟨tokens, last, others, hsource, hmore⟩ :=
    Token.exists_scanFrom_append hseparator 1 source.toList more.toList
  have htext : (source.push separator ++ more).toList =
      source.toList ++ separator :: more.toList := by simp
  rw [ofSource, Token.withEnd_scan, Token.scan] at h ⊢
  rw [hsource] at h
  rw [htext, hmore]
  exact read_append_of_endOn (Prod.ext h rfl) others

end Sexpr

/-- When a tree can be read from a text, any text may follow behind a separator: the same tree is
read, on the same lines, and the compiled program or the fault that is found in the tree is the
same. -/
theorem text_after_first_tree_is_ignored {source : String} {tree : Sexpr}
    (htree : Sexpr.ofSource source = .ok tree) {separator : Char}
    (hseparator : separator ∈ Token.separators) (more : String) :
    Sexpr.ofSource (source.push separator ++ more) = .ok tree ∧
      ∀ package, compile package (source.push separator ++ more) = compile package source := by
  have hmore := Sexpr.ofSource_append htree hseparator more
  refine ⟨hmore, fun package => ?_⟩
  rw [compile, compile, Draft.ofSource, Draft.ofSource, hmore, htree]

def openEndedSource : String := "(:send nil :puts\n  (:int 12))\n\"not closed"

/-- What follows closes the string, and neither the parentheses nor the sign in it matter. -/
theorem closed_string_is_ignored :
    ∃ tree, Sexpr.ofSource openEndedSource = .ok tree ∧
      Sexpr.ofSource (openEndedSource.push '\n' ++ "\" )( ?") = .ok tree ∧
        compile "main" (openEndedSource.push '\n' ++ "\" )( ?") =
          compile "main" openEndedSource := by
  have hok : (Sexpr.ofSource openEndedSource).isOk = true := by decide +kernel
  cases htree : Sexpr.ofSource openEndedSource with
  | error error => simp [htree, Except.isOk, Except.toBool] at hok
  | ok tree =>
    have hbreak : '\n' ∈ Token.separators := by decide
    obtain ⟨hmore, hcompile⟩ := text_after_first_tree_is_ignored htree hbreak "\" )( ?"
    exact ⟨tree, rfl, hmore, hcompile "main"⟩

end SexprCompiler
