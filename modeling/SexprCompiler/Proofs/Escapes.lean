import SexprCompiler.Proofs.StringLiterals

/-!
# Escapes in string literals

The scanner takes a string unit by unit, but its literal is written character by character. The two
agree on every unit but one kind: a backslash with a raw blank behind it. There the backslash is
joined to that of the blank's escape, and what was one unit becomes an escaped backslash and a
letter. So the units of a string are kept, raw blanks apart, exactly if no raw blank is escaped.
-/
namespace SexprCompiler

namespace Token

/-! ## Units of a text -/

/-- Cuts a text into units: a backslash with the character behind it, or a single character. -/
def units : List Char → List (List Char)
  | [] => []
  | '\\' :: c :: cs => ['\\', c] :: units cs
  | c :: cs => [c] :: units cs

theorem units_cons {c : Char} (h : c ≠ '\\') (cs : List Char) :
    units (c :: cs) = [c] :: units cs := by
  rw [units]
  rintro next others rfl
  exact absurd rfl h

theorem StringUnit.units_append {unit : List Char} (h : StringUnit unit) (cs : List Char) :
    units (unit ++ cs) = unit :: units cs := by
  cases h with
  | escaped c => rfl
  | plain _ hslash => exact units_cons hslash cs

theorem units_flatten_append {parts : List (List Char)} (h : ∀ part ∈ parts, StringUnit part)
    (cs : List Char) : units (parts.flatten ++ cs) = parts ++ units cs := by
  induction parts with
  | nil => rfl
  | cons part parts ih =>
    rw [List.forall_mem_cons] at h
    rw [List.flatten_cons, List.append_assoc, h.1.units_append, ih h.2, List.cons_append]

theorem units_flatten {parts : List (List Char)} (h : ∀ part ∈ parts, StringUnit part) :
    units parts.flatten = parts := by
  simpa [units] using units_flatten_append h []

theorem Munch.exists_stringBody {word rest : List Char} (h : Munch .string word rest) :
    ∃ body, word = '"' :: (body ++ ['"']) ∧ StringBody body := by
  cases h with
  | rule h =>
    cases h with
    | single h => simp [singles] at h
    | doubled h => simp [comparisons] at h
    | alone h => simp [comparisons] at h
    | string hunits => exact ⟨_, rfl, _, hunits, rfl⟩

theorem Cuts.exists_stringBody {line : Nat} {cs : List Char} {tokens : List Token}
    (h : Cuts line cs tokens) {token : Token} (htoken : token ∈ tokens)
    (hkind : token.kind = .string) :
    ∃ body, token.lexeme.toList = '"' :: (body ++ ['"']) ∧ StringBody body := by
  induction h with
  | nil =>
    obtain rfl := List.mem_singleton.mp htoken
    cases hkind
  | word hmunch _ ih =>
    rcases List.mem_cons.mp htoken with rfl | htoken
    · obtain rfl := hkind
      rw [String.toList_ofList]
      exact hmunch.exists_stringBody
    · exact ih htoken
  | separator _ _ ih => exact ih htoken
  | unclosed =>
    obtain rfl := List.mem_singleton.mp htoken
    cases hkind

end Token

namespace Term

open Token (StringUnit StringBody units)
open Target (isPlain stringUnit_of_isPlain)

/-! ## What becomes of a unit -/

/-- A unit as it should stand in a literal: a raw blank by itself gives way to its escape, and
everything else is kept. -/
def keptUnit : List Char → List Char
  | ['\n'] => ['\\', 'n']
  | ['\r'] => ['\\', 'r']
  | ['\t'] => ['\\', 't']
  | unit => unit

/-- The units that are written for a unit. An escaped raw blank falls apart. -/
def writtenUnits : List Char → List (List Char)
  | ['\\', '\n'] => [['\\', '\\'], ['n']]
  | ['\\', '\r'] => [['\\', '\\'], ['r']]
  | ['\\', '\t'] => [['\\', '\\'], ['t']]
  | unit => [keptUnit unit]

theorem keptUnit_singleton (c : Char) : keptUnit [c] = visible c := by
  unfold keptUnit visible
  split <;> simp_all

theorem writtenUnits_of_forall_ne {unit : List Char} (h : ∀ c ∈ rawBlanks, unit ≠ ['\\', c]) :
    writtenUnits unit = [keptUnit unit] := by
  unfold writtenUnits
  split
  · exact absurd rfl (h '\n' (by decide))
  · exact absurd rfl (h '\r' (by decide))
  · exact absurd rfl (h '\t' (by decide))
  · rfl

theorem exists_writtenUnits_eq {c : Char} (h : c ∈ rawBlanks) :
    ∃ letter, isPlain letter = true ∧ visible c = ['\\', letter] ∧
      writtenUnits ['\\', c] = [['\\', '\\'], [letter]] := by
  simp only [rawBlanks, List.mem_cons, List.not_mem_nil, or_false] at h
  rcases h with rfl | rfl | rfl
  · exact ⟨'n', rfl, rfl, rfl⟩
  · exact ⟨'r', rfl, rfl, rfl⟩
  · exact ⟨'t', rfl, rfl, rfl⟩

/-- What is written for a unit are units that make up its characters, each written by itself. -/
theorem writtenUnits_spec {unit : List Char} (h : StringUnit unit) :
    (∀ part ∈ writtenUnits unit, StringUnit part) ∧
      (writtenUnits unit).flatten = unit.flatMap visible := by
  cases h with
  | escaped c =>
    by_cases hblank : c ∈ rawBlanks
    · obtain ⟨letter, hletter, hc, hwritten⟩ := exists_writtenUnits_eq hblank
      rw [hwritten, List.forall_mem_cons, List.forall_mem_singleton]
      refine ⟨⟨.escaped '\\', stringUnit_of_isPlain hletter⟩, ?_⟩
      rw [List.flatMap_cons, List.flatMap_singleton, hc]
      rfl
    · have hne : ∀ blank ∈ rawBlanks, ['\\', c] ≠ ['\\', blank] := by
        intro blank hmem heq
        simp only [List.cons.injEq, and_true, true_and] at heq
        exact hblank (heq ▸ hmem)
      rw [writtenUnits_of_forall_ne hne, List.forall_mem_singleton, List.flatMap_cons,
        List.flatMap_singleton, visible_of_not_mem hblank]
      exact ⟨.escaped c, rfl⟩
  | @plain c hquote hslash =>
    rw [writtenUnits_of_forall_ne (by simp), keptUnit_singleton, List.forall_mem_singleton,
      List.flatMap_singleton, List.flatten_singleton]
    refine ⟨?_, rfl⟩
    by_cases hblank : c ∈ rawBlanks
    · obtain ⟨letter, -, hc⟩ := exists_visible_eq hblank
      rw [hc]
      exact .escaped letter
    · rw [visible_of_not_mem hblank]
      exact .plain hquote hslash

theorem units_flatMap_visible {parts : List (List Char)} (h : ∀ part ∈ parts, StringUnit part) :
    units (parts.flatten.flatMap visible) = parts.flatMap writtenUnits := by
  induction parts with
  | nil => rfl
  | cons part parts ih =>
    rw [List.forall_mem_cons] at h
    obtain ⟨hwritten, hflatten⟩ := writtenUnits_spec h.1
    rw [List.flatten_cons, List.flatMap_append, ← hflatten, Token.units_flatten_append hwritten,
      ih h.2, List.flatMap_cons]

/-- Units are kept in their number and order exactly if none is an escaped raw blank. -/
theorem flatMap_writtenUnits_eq_map_iff (parts : List (List Char)) :
    parts.flatMap writtenUnits = parts.map keptUnit ↔ ∀ c ∈ rawBlanks, ['\\', c] ∉ parts := by
  induction parts with
  | nil => simp
  | cons unit parts ih =>
    rw [List.flatMap_cons, List.map_cons]
    by_cases htorn : ∃ c ∈ rawBlanks, unit = ['\\', c]
    · obtain ⟨c, hblank, rfl⟩ := htorn
      obtain ⟨letter, -, -, hwritten⟩ := exists_writtenUnits_eq hblank
      constructor
      · intro hsame
        rw [hwritten] at hsame
        -- A kept unit would end in the blank and not in a backslash.
        have hhead : ['\\', '\\'] = ['\\', c] := (List.cons.inj hsame).1
        simp only [List.cons.injEq, and_true, true_and] at hhead
        exact absurd (hhead ▸ hblank) (by decide)
      · intro hnone
        exact absurd List.mem_cons_self (hnone c hblank)
    · have hne : ∀ c ∈ rawBlanks, unit ≠ ['\\', c] := by
        intro c hblank hunit
        exact htorn ⟨c, hblank, hunit⟩
      rw [writtenUnits_of_forall_ne hne, List.singleton_append, List.cons_inj_right, ih]
      constructor
      · intro hnone c hblank
        rw [List.mem_cons, not_or]
        exact ⟨(hne c hblank).symm, hnone c hblank⟩
      · intro hnone c hblank hmem
        exact hnone c hblank (List.mem_cons_of_mem _ hmem)

end Term

open Token (units)

/-- The text between the quotes of a string's literal has the units that are written for those of
the string. They are the units of the string, with raw blanks given way to their escapes, exactly if
the string has no raw blank behind a backslash. -/
theorem string_units_kept_iff {source : String} {token : Token} (htoken : token ∈ Token.scan source)
    (hkind : token.kind = .string) :
    ∃ body written, Text.quotedBody? token.lexeme.toList = some body ∧
      Text.quotedBody? (Term.stringLiteral token.lexeme).toList = some written ∧
      units written = (units body).flatMap Term.writtenUnits ∧
      (units written = (units body).map Term.keptUnit ↔
        ∀ c ∈ rawBlanks, ['\\', c] ∉ units body) := by
  obtain ⟨body, hlexeme, parts, hparts, rfl⟩ :=
    (Token.cuts_scanFrom 1 source.toList).exists_stringBody htoken hkind
  have hquoted : Text.quotedBody? token.lexeme.toList = some parts.flatten := by
    rw [hlexeme, Text.quotedBody?_quoted]
  have hliteral : Term.literalBody token.lexeme = parts.flatten.flatMap Term.visible := by
    simp only [Term.literalBody, hquoted]
  have hunits : units (parts.flatten.flatMap Term.visible) =
      (units parts.flatten).flatMap Term.writtenUnits := by
    rw [Term.units_flatMap_visible hparts, Token.units_flatten hparts]
  refine ⟨parts.flatten, parts.flatten.flatMap Term.visible, hquoted, ?_, hunits, ?_⟩
  · rw [Term.toList_stringLiteral, hliteral, Text.quotedBody?_quoted]
  · rw [hunits, Term.flatMap_writtenUnits_eq_map_iff]

def mixedToken : Token := ⟨.string, "\"\\t\t\\\\\\\"\"", 1⟩

theorem mixed_string_keeps_units :
    mixedToken ∈ Token.scan "(:str \"\\t\t\\\\\\\"\")" ∧ mixedToken.kind = .string ∧
      ∃ body written, Text.quotedBody? mixedToken.lexeme.toList = some body ∧
        Text.quotedBody? (Term.stringLiteral mixedToken.lexeme).toList = some written ∧
        units written = (units body).map Term.keptUnit := by
  have htoken : mixedToken ∈ Token.scan "(:str \"\\t\t\\\\\\\"\")" := by decide +kernel
  obtain ⟨body, written, hbody, hwritten, -, hkept⟩ := string_units_kept_iff htoken rfl
  have hnone : ∀ c ∈ rawBlanks, ['\\', c] ∉ units body := by
    obtain rfl : body = ['\\', 't', '\t', '\\', '\\', '\\', '"'] :=
      Option.some.inj (hbody.symm.trans rfl)
    have hall : rawBlanks.all (fun c =>
        !(units ['\\', 't', '\t', '\\', '\\', '\\', '"']).contains ['\\', c]) = true := by decide
    intro c hc hmem
    have hnot := List.all_eq_true.mp hall c hc
    rw [List.contains_iff_mem.mpr hmem] at hnot
    cases hnot
  exact ⟨htoken, rfl, body, written, hbody, hwritten, hkept.mpr hnone⟩

def brokenToken : Token := ⟨.string, "\"a\\\nb\"", 2⟩

/-- Of the escaped line break nothing is left: the program has a backslash and a letter there. -/
theorem escaped_line_break_is_torn :
    brokenToken ∈ Token.scan "(:str \"a\\\nb\")" ∧
      Text.quotedBody? brokenToken.lexeme.toList = some ['a', '\\', '\n', 'b'] ∧
      (units ['a', '\\', '\n', 'b']).map Term.keptUnit = [['a'], ['\\', '\n'], ['b']] ∧
      Text.quotedBody? (Term.stringLiteral brokenToken.lexeme).toList =
        some ['a', '\\', '\\', 'n', 'b'] ∧
      units ['a', '\\', '\\', 'n', 'b'] = [['a'], ['\\', '\\'], ['n'], ['b']] ∧
      (compile "main" "(:str \"a\\\nb\")").toOption =
        some "package main\n\nfunc main() \x7b\n\t_ = \"a\\\\nb\"\n\x7d\n" := by
  refine ⟨?_, rfl, rfl, rfl, rfl, ?_⟩ <;> decide +kernel

end SexprCompiler
