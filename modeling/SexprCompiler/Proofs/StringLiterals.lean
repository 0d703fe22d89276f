import SexprCompiler.Proofs.LexicalGrammar
import SexprCompiler.Proofs.Lowering
import SexprCompiler.Proofs.RoundTrip

/-!
# String literals stay whole

Between the quotes of a string stand units, where a backslash takes one character along. A literal
is made of a string by writing blanks as escapes, character by character and without regard to the
units. A blank behind a backslash is then torn from it, but the backslash gets the one of the escape
in its place, so that the text consists of units again and no quote comes free. Other texts are
escaped as they are and consist of units too. Hence every literal is one string on one line.
-/
namespace SexprCompiler

/-- The blanks that a literal does not hold as they are. -/
def rawBlanks : List Char := ['\n', '\r', '\t']

namespace Token

/-! ## Texts of units -/

/-- A text that consists of units, so that it can stand between quotes. -/
def StringBody (cs : List Char) : Prop :=
  ∃ units : List (List Char), (∀ unit ∈ units, StringUnit unit) ∧ cs = units.flatten

theorem stringBody_nil : StringBody [] := ⟨[], List.forall_mem_nil _, rfl⟩

theorem StringUnit.cons {unit cs : List Char} (h : StringUnit unit) (hcs : StringBody cs) :
    StringBody (unit ++ cs) := by
  obtain ⟨units, hunits, rfl⟩ := hcs
  exact ⟨unit :: units, List.forall_mem_cons.mpr ⟨h, hunits⟩, rfl⟩

theorem StringUnit.body {unit : List Char} (h : StringUnit unit) : StringBody unit := by
  simpa using h.cons stringBody_nil

theorem StringBody.append {cs others : List Char} (h : StringBody cs)
    (hothers : StringBody others) : StringBody (cs ++ others) := by
  obtain ⟨units, hunits, rfl⟩ := h
  obtain ⟨more, hmore, rfl⟩ := hothers
  exact ⟨units ++ more, List.forall_mem_append.mpr ⟨hunits, hmore⟩, List.flatten_append.symm⟩

theorem stringBody_flatMap {α : Type} {f : α → List Char} {items : List α}
    (h : ∀ item ∈ items, StringBody (f item)) : StringBody (items.flatMap f) := by
  induction items with
  | nil => exact stringBody_nil
  | cons item items ih =>
    rw [List.forall_mem_cons] at h
    exact h.1.append (ih h.2)

/-- Characters that are neither quotes nor backslashes are units one by one. -/
theorem stringBody_plain {cs : List Char} (h : ∀ c ∈ cs, c ≠ '"' ∧ c ≠ '\\') : StringBody cs := by
  have hbody := stringBody_flatMap (f := fun c => [c]) fun c hc =>
    StringUnit.body (.plain (h c hc).1 (h c hc).2)
  simpa using hbody

/-- A quoted text is one string exactly if units stand between the quotes. -/
theorem isLexeme_quoted_iff {kind : Kind} {body : List Char} :
    IsLexeme kind ('"' :: (body ++ ['"'])) ↔ kind = .string ∧ StringBody body := by
  constructor
  · intro h
    have hpiece : quoted (body ++ ['"']) = ⟨some kind, (body ++ ['"']).length⟩ := h
    cases hclose : closingQuote (body ++ ['"']) with
    | none => simp [quoted, hclose] at hpiece
    | some extra =>
      simp only [quoted, hclose, Piece.mk.injEq, Option.some.injEq] at hpiece
      obtain ⟨units, rest, hunits, hsplit⟩ := exists_units hclose
      rw [hsplit, closingQuote_units hunits, Option.some.injEq] at hclose
      -- The closing quote is the last character, so nothing is behind it.
      obtain rfl : rest = [] := by
        have hlength := congrArg List.length hsplit
        rw [← hpiece.2, List.length_append, List.length_cons] at hlength
        exact List.length_eq_zero_iff.mp (by omega)
      exact ⟨hpiece.1.symm, units, hunits, List.append_cancel_right hsplit⟩
  · rintro ⟨rfl, units, hunits, rfl⟩
    have hrule : Rule .string ('"' :: (units.flatten ++ ['"'])) [] := .string hunits
    simpa [IsLexeme] using hrule.piece_eq

theorem scan_quoted {text : String} {body : List Char}
    (htext : text.toList = '"' :: (body ++ ['"'])) (hbody : StringBody body) (hline : '\n' ∉ body) :
    scan text = [⟨.string, text, 1⟩, endOn 1] := by
  have hlexeme : IsLexeme .string text.toList := htext ▸ isLexeme_quoted_iff.mpr ⟨rfl, hbody⟩
  have hcount : text.toList.count '\n' = 0 := by
    rw [List.count_eq_zero, htext]
    simp [hline]
  rw [scan, hlexeme.scanFrom_eq, hcount, String.ofList_toList]

end Token

open Token (StringBody StringUnit IsLexeme)

/-! ## Escaped texts -/

namespace Target

/-- The characters that are written as they are. -/
def isPlain (c : Char) : Bool := c != '"' && c != '\\' && !isControl c

theorem isPlain_iff {c : Char} :
    isPlain c = true ↔ (c ≠ '"' ∧ c ≠ '\\') ∧ isControl c = false := by
  simp [isPlain]

theorem stringUnit_of_isPlain {c : Char} (h : isPlain c = true) : StringUnit [c] :=
  .plain (isPlain_iff.mp h).1.1 (isPlain_iff.mp h).1.2

theorem isPlain_of_mem_hex {width number : Nat} {c : Char} (h : c ∈ Text.hex width number) :
    isPlain c = true := by
  have hdigits : ∀ digit < 16, isPlain (Nat.digitChar digit) = true := by decide
  obtain ⟨place, -, rfl⟩ := List.mem_map.mp h
  exact hdigits _ (Nat.mod_lt _ (by decide))

/-- A character is written with a letter behind a backslash, by its number, or as it is. -/
theorem escapeChar_cases (c : Char) :
    (∃ letter, isControl letter = false ∧ escapeChar c = ['\\', letter]) ∨
      escapeChar c = '\\' :: 'u' :: Text.hex 4 c.toNat ∨
      (isPlain c = true ∧ escapeChar c = [c]) := by
  unfold escapeChar
  split
  · exact .inl ⟨'"', rfl, rfl⟩
  · exact .inl ⟨'\\', rfl, rfl⟩
  · exact .inl ⟨'n', rfl, rfl⟩
  · exact .inl ⟨'r', rfl, rfl⟩
  · exact .inl ⟨'t', rfl, rfl⟩
  · rename_i hquote hslash _ _ _
    cases hcontrol : isControl c with
    | true => exact .inr (.inl rfl)
    | false => exact .inr (.inr ⟨isPlain_iff.mpr ⟨⟨hquote, hslash⟩, hcontrol⟩, rfl⟩)

theorem stringBody_escapeChar (c : Char) : StringBody (escapeChar c) := by
  rcases escapeChar_cases c with ⟨letter, -, hc⟩ | hc | ⟨hplain, hc⟩
  · rw [hc]
    exact (StringUnit.escaped letter).body
  · rw [hc]
    apply (StringUnit.escaped 'u').cons
    exact Token.stringBody_plain fun digit hdigit => (isPlain_iff.mp (isPlain_of_mem_hex hdigit)).1
  · rw [hc]
    exact (stringUnit_of_isPlain hplain).body

theorem not_isControl_of_mem_escapeChar {c d : Char} (h : d ∈ escapeChar c) :
    isControl d = false := by
  rcases escapeChar_cases c with ⟨letter, hletter, hc⟩ | hc | ⟨hplain, hc⟩
  · rw [hc, List.mem_cons, List.mem_singleton] at h
    rcases h with rfl | rfl
    · rfl
    · exact hletter
  · rw [hc, List.mem_cons, List.mem_cons] at h
    rcases h with rfl | rfl | h
    · rfl
    · rfl
    · exact (isPlain_iff.mp (isPlain_of_mem_hex h)).2
  · rw [hc, List.mem_singleton] at h
    exact h ▸ (isPlain_iff.mp hplain).2

theorem not_mem_rawBlanks {c : Char} (h : isControl c = false) : c ∉ rawBlanks := by
  have hblanks : rawBlanks.all isControl = true := by decide
  intro hc
  exact Bool.false_ne_true (h.symm.trans (List.all_eq_true.mp hblanks c hc))

end Target

/-! ## Strings with their blanks written as escapes -/

namespace Term

open Target (isPlain isPlain_iff stringUnit_of_isPlain not_mem_rawBlanks)

theorem exists_visible_eq {c : Char} (h : c ∈ rawBlanks) :
    ∃ letter, isPlain letter = true ∧ visible c = ['\\', letter] := by
  simp only [rawBlanks, List.mem_cons, List.not_mem_nil, or_false] at h
  rcases h with rfl | rfl | rfl
  · exact ⟨'n', rfl, rfl⟩
  · exact ⟨'r', rfl, rfl⟩
  · exact ⟨'t', rfl, rfl⟩

theorem visible_of_not_mem {c : Char} (h : c ∉ rawBlanks) : visible c = [c] := by
  unfold visible
  split
  · exact absurd (by decide) h
  · exact absurd (by decide) h
  · exact absurd (by decide) h
  · rfl

theorem not_mem_visible {c d : Char} (h : d ∈ visible c) : d ∉ rawBlanks := by
  by_cases hblank : c ∈ rawBlanks
  · obtain ⟨letter, hletter, hc⟩ := exists_visible_eq hblank
    rw [hc, List.mem_cons, List.mem_singleton] at h
    rcases h with rfl | rfl
    · decide
    · exact not_mem_rawBlanks (isPlain_iff.mp hletter).2
  · rw [visible_of_not_mem hblank, List.mem_singleton] at h
    exact h ▸ hblank

/-- With its blanks written as escapes a unit is a unit, or two of them if it was a backslash with a
blank. -/
theorem stringBody_visibleUnit {unit : List Char} (h : StringUnit unit) :
    StringBody (unit.flatMap visible) := by
  cases h with
  | escaped c =>
    have hunit : ['\\', c].flatMap visible = '\\' :: visible c := by
      rw [List.flatMap_cons, List.flatMap_singleton]
      rfl
    rw [hunit]
    by_cases hblank : c ∈ rawBlanks
    · obtain ⟨letter, hletter, hc⟩ := exists_visible_eq hblank
      rw [hc]
      -- The two backslashes are one unit now, and the letter is left over.
      exact (StringUnit.escaped '\\').cons (stringUnit_of_isPlain hletter).body
    · rw [visible_of_not_mem hblank]
      exact (StringUnit.escaped c).body
  | @plain c hquote hslash =>
    rw [List.flatMap_singleton]
    by_cases hblank : c ∈ rawBlanks
    · obtain ⟨letter, -, hc⟩ := exists_visible_eq hblank
      rw [hc]
      exact (StringUnit.escaped letter).body
    · rw [visible_of_not_mem hblank]
      exact (StringUnit.plain hquote hslash).body

theorem stringBody_visible {body : List Char} (h : StringBody body) :
    StringBody (body.flatMap visible) := by
  obtain ⟨units, hunits, rfl⟩ := h
  rw [← List.flatMap_id, List.flatMap_assoc]
  exact Token.stringBody_flatMap fun unit hunit => stringBody_visibleUnit (hunits unit hunit)

theorem flatMap_visible {body : List Char} (h : ∀ c ∈ rawBlanks, c ∉ body) :
    body.flatMap visible = body := by
  have hsame (c : Char) (hc : c ∈ body) : visible c = [c] :=
    visible_of_not_mem fun hblank => h c hblank hc
  rw [List.flatMap_def, List.map_congr_left hsame, ← List.flatMap_def, List.flatMap_singleton']

/-! ## Literals -/

def literalBody (lexeme : String) : List Char :=
  match Text.quotedBody? lexeme.toList with
  | some body => body.flatMap visible
  | none => lexeme.toList.flatMap Target.escapeChar

theorem toList_stringLiteral (lexeme : String) :
    (stringLiteral lexeme).toList = '"' :: (literalBody lexeme ++ ['"']) := by
  unfold stringLiteral literalBody
  cases Text.quotedBody? lexeme.toList with
  | none => simp [Target.quote, Target.escape]
  | some body => simp

theorem not_mem_literalBody (lexeme : String) : ∀ c ∈ rawBlanks, c ∉ literalBody lexeme := by
  intro c hblank hc
  unfold literalBody at hc
  cases hbody : Text.quotedBody? lexeme.toList with
  | none =>
    rw [hbody] at hc
    obtain ⟨origin, -, hc⟩ := List.mem_flatMap.mp hc
    exact not_mem_rawBlanks (Target.not_isControl_of_mem_escapeChar hc) hblank
  | some body =>
    rw [hbody] at hc
    obtain ⟨origin, -, hc⟩ := List.mem_flatMap.mp hc
    exact not_mem_visible hc hblank

/-- The literal of a word has units between its quotes, whether the word is a string or not. -/
theorem stringBody_literalBody {kind : Token.Kind} {lexeme : String}
    (h : IsLexeme kind lexeme.toList) : StringBody (literalBody lexeme) := by
  unfold literalBody
  cases hbody : Text.quotedBody? lexeme.toList with
  | none => exact Token.stringBody_flatMap fun c _ => Target.stringBody_escapeChar c
  | some body =>
    rw [Text.eq_quoted_of_quotedBody? hbody, Token.isLexeme_quoted_iff] at h
    exact stringBody_visible h.2

/-- The texts that are their own literals are the quoted ones without raw blanks. -/
theorem stringLiteral_eq_self_iff {text : String} :
    stringLiteral text = text ↔
      ∃ body, text.toList = '"' :: (body ++ ['"']) ∧ ∀ c ∈ rawBlanks, c ∉ body := by
  constructor
  · intro h
    have hquoted := toList_stringLiteral text
    rw [h] at hquoted
    exact ⟨literalBody text, hquoted, not_mem_literalBody text⟩
  · rintro ⟨body, htext, hbody⟩
    have hliteral : literalBody text = body := by
      simp only [literalBody, htext, Text.quotedBody?_quoted, flatMap_visible hbody]
    apply String.toList_injective
    rw [toList_stringLiteral, hliteral, htext]

theorem stringLiteral_stringLiteral (text : String) :
    stringLiteral (stringLiteral text) = stringLiteral text :=
  stringLiteral_eq_self_iff.mpr
    ⟨literalBody text, toList_stringLiteral text, not_mem_literalBody text⟩

end Term

/-! ## Strings in terms -/

namespace Sexpr

theorem mem_allTags {tag : String} {tree : Sexpr} {trees : List Sexpr} (htree : tree ∈ trees)
    (htag : tag ∈ tree.tags) : tag ∈ allTags trees := by
  induction htree with
  | head => exact List.mem_append_left _ htag
  | tail _ _ ih => exact List.mem_append_right _ ih

theorem Within.tag_mem_tags {sub tree : Sexpr} (h : sub.Within tree) : sub.tag ∈ tree.tags := by
  induction h with
  | self =>
    obtain ⟨tag, line, children⟩ := sub
    exact List.mem_cons_self
  | @child tree _ hchild _ ih =>
    obtain ⟨tag, line, children⟩ := tree
    exact List.mem_cons_of_mem _ (mem_allTags hchild ih)

theorem Within.child_of {child sub tree : Sexpr} (h : sub.Within tree)
    (hchild : child ∈ sub.children) : child.Within tree := by
  induction h with
  | self => exact .child hchild .self
  | child hsub _ ih => exact .child hsub ih

end Sexpr

/-- A string in the term of a tree is the literal of one of its tags. -/
theorem Term.exists_tag_of_inside {tree : Sexpr} {term : Term} {text : String}
    (h : ofSexpr tree = .ok term) (hinside : Inside (.literal .string text) term) :
    ∃ tag ∈ tree.tags, stringLiteral tag = text := by
  obtain ⟨origin, hwithin, horigin⟩ := exists_tree_of_inside tree h hinside
  rcases ofSexpr_cases horigin with hunknown | ⟨construct, parts, hcomposes, hparts⟩
  · cases hunknown
  · cases hcomposes with
    | @literal _ _ part hleaf =>
      obtain ⟨hchild, -⟩ := hparts part List.mem_cons_self
      exact ⟨part.tree.tag, (hwithin.child_of hchild).tag_mem_tags, rfl⟩
    | negative hkind => exact absurd rfl hkind

theorem Term.not_mem_stringLiteral (lexeme : String) :
    ∀ c ∈ rawBlanks, c ∉ (stringLiteral lexeme).toList := by
  intro c hblank
  have hquote : c ≠ '"' := by
    rintro rfl
    exact absurd hblank (by decide)
  simp [toList_stringLiteral, hquote, not_mem_literalBody lexeme c hblank]

/-- Every string in the term of a source has no raw blanks and is one string when it is scanned by
itself. Making a literal of a literal does not change it, and the texts that stay as they are are
the quoted ones without raw blanks. -/
theorem strings_stay_one_literal :
    (∀ source tree term, Sexpr.ofSource source = .ok tree → Term.ofSexpr tree = .ok term →
      ∀ text, Term.Inside (.literal .string text) term →
        (∀ c ∈ rawBlanks, c ∉ text.toList) ∧
          Token.scan text = [⟨.string, text, 1⟩, Token.endOn 1]) ∧
    ∀ text, Term.stringLiteral (Term.stringLiteral text) = Term.stringLiteral text ∧
      (Term.stringLiteral text = text ↔
        ∃ body, text.toList = '"' :: (body ++ ['"']) ∧ ∀ c ∈ rawBlanks, c ∉ body) := by
  constructor
  · intro source tree term hsource hterm text hinside
    obtain ⟨tag, htag, rfl⟩ := Term.exists_tag_of_inside hterm hinside
    obtain ⟨kind, hlexeme, -⟩ :=
      Token.isAtomText_iff.mp (Sexpr.isAtomText_of_ofSource hsource tag htag)
    have hscan := Token.scan_quoted (Term.toList_stringLiteral tag)
      (Term.stringBody_literalBody hlexeme) (Term.not_mem_literalBody tag '\n' List.mem_cons_self)
    exact ⟨Term.not_mem_stringLiteral tag, hscan⟩
  · exact fun text => ⟨Term.stringLiteral_stringLiteral text, Term.stringLiteral_eq_self_iff⟩

/-- A string with a line break behind a backslash and with a quote behind another one. -/
def tornSource : String := "(:str \"a\\\nb\\\"\")"

def tornTree : Sexpr := ⟨":str", 1, [.leaf "\"a\\\nb\\\"\"" 2]⟩

/-- Its literal, in which the first backslash stands for itself. -/
def tornText : String := "\"a\\\\nb\\\"\""

theorem torn_escape_stays_one_literal :
    Sexpr.ofSource tornSource = .ok tornTree ∧
      Term.ofSexpr tornTree = .ok (.literal .string tornText) ∧
      (∀ c ∈ rawBlanks, c ∉ tornText.toList) ∧
      Token.scan tornText = [⟨.string, tornText, 1⟩, Token.endOn 1] := by
  have hsource : Sexpr.ofSource tornSource = .ok tornTree :=
    Outcome.eq_ok_of_toOption (by decide +kernel)
  have hterm : Term.ofSexpr tornTree = .ok (.literal .string tornText) := rfl
  exact ⟨hsource, hterm,
    strings_stay_one_literal.1 tornSource tornTree _ hsource hterm tornText .self⟩

end SexprCompiler
