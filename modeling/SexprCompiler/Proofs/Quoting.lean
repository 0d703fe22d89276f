import SexprCompiler.Proofs.StringLiterals

/-!
# Reading a quoted text

A reader of the target language's string literals: a backslash starts an escape, which is a letter
or the letter `u` with four hexadecimal digits, and all other characters stand for themselves. Each
character is written so that it is read back whatever follows, so reading undoes quoting, and a
quoted text is one string of the source notation as well.
-/
namespace SexprCompiler.Target

def unescape? : Char → Option Char
  | '"' => some '"'
  | '\\' => some '\\'
  | 'n' => some '\n'
  | 'r' => some '\r'
  | 't' => some '\t'
  | _ => none

/-- The character with the given number. Surrogates are none. -/
def charOfNumber? (number : Nat) : Option Char :=
  if number.isValidChar then some (Char.ofNat number) else none

/-- The value of the text between the quotes of a literal, where neither a quote nor a line feed
can stand as it is. -/
def bodyValue? : List Char → Option (List Char)
  | [] => some []
  | '"' :: _ => none
  | '\n' :: _ => none
  | '\\' :: 'u' :: a :: b :: c :: d :: rest => do
    let number ← Text.ofHex? [a, b, c, d]
    let char ← charOfNumber? number
    return char :: (← bodyValue? rest)
  | '\\' :: letter :: rest => do
    let char ← unescape? letter
    return char :: (← bodyValue? rest)
  | ['\\'] => none
  | c :: rest => return c :: (← bodyValue? rest)

def literalValue? (literal : String) : Option String := do
  let body ← Text.quotedBody? literal.toList
  return String.ofList (← bodyValue? body)

/-! ## One character -/

theorem charOfNumber?_toNat (c : Char) : charOfNumber? c.toNat = some c := by
  have hvalid : c.toNat.isValidChar := c.valid
  rw [charOfNumber?, if_pos hvalid, Char.ofNat_toNat]

theorem bodyValue?_plain {c : Char} (h : isPlain c = true) (rest : List Char) :
    bodyValue? (c :: rest) = (bodyValue? rest).map (c :: ·) := by
  obtain ⟨⟨hquote, hslash⟩, hcontrol⟩ := isPlain_iff.mp h
  have hfeed : c ≠ '\n' := by
    rintro rfl
    cases hcontrol
  rw [bodyValue?]
  · cases bodyValue? rest <;> rfl
  all_goals simp_all

theorem bodyValue?_escape {letter c : Char} (h : unescape? letter = some c) (rest : List Char) :
    bodyValue? ('\\' :: letter :: rest) = (bodyValue? rest).map (c :: ·) := by
  have hu : letter ≠ 'u' := by
    rintro rfl
    cases h
  rw [bodyValue?]
  · rw [h]
    cases bodyValue? rest <;> rfl
  · simp [hu]

/-- The four digits are taken whatever stands behind them, digits too. -/
theorem bodyValue?_hex {c : Char} (h : c.toNat < 0x10000) (rest : List Char) :
    bodyValue? ('\\' :: 'u' :: (Text.hex 4 c.toNat ++ rest)) =
      (bodyValue? rest).map (c :: ·) := by
  obtain ⟨a, b, d, e, hdigits⟩ : ∃ a b d e, Text.hex 4 c.toNat = [a, b, d, e] :=
    ⟨_, _, _, _, rfl⟩
  have hnumber := Text.ofHex?_hex h
  rw [hdigits] at hnumber ⊢
  simp only [List.cons_append, List.nil_append, bodyValue?, hnumber, charOfNumber?_toNat,
    Option.bind_eq_bind, Option.bind_some]
  cases bodyValue? rest <;> rfl

theorem bodyValue?_escapeChar (c : Char) (rest : List Char) :
    bodyValue? (escapeChar c ++ rest) = (bodyValue? rest).map (c :: ·) := by
  unfold escapeChar
  split
  · exact bodyValue?_escape rfl rest
  · exact bodyValue?_escape rfl rest
  · exact bodyValue?_escape rfl rest
  · exact bodyValue?_escape rfl rest
  · exact bodyValue?_escape rfl rest
  · rename_i hquote hslash _ _ _
    split
    · rename_i hcontrol
      have hsmall : c.toNat < 0x10000 := by
        simp only [isControl, Bool.or_eq_true, Bool.and_eq_true, decide_eq_true_eq] at hcontrol
        omega
      exact bodyValue?_hex hsmall rest
    · rename_i hcontrol
      exact bodyValue?_plain
        (isPlain_iff.mpr ⟨⟨hquote, hslash⟩, Bool.eq_false_iff.mpr hcontrol⟩) rest

/-! ## Whole texts -/

theorem bodyValue?_flatMap_escapeChar (cs : List Char) :
    bodyValue? (cs.flatMap escapeChar) = some cs := by
  induction cs with
  | nil => rfl
  | cons c cs ih => rw [List.flatMap_cons, bodyValue?_escapeChar, ih, Option.map_some]

theorem toList_quote (text : String) :
    (quote text).toList = '"' :: (text.toList.flatMap escapeChar ++ ['"']) := by
  simp [quote, escape]

theorem literalValue?_quote (text : String) : literalValue? (quote text) = some text := by
  simp [literalValue?, toList_quote, Text.quotedBody?_quoted, bodyValue?_flatMap_escapeChar]

theorem stringBody_flatMap_escapeChar (cs : List Char) :
    Token.StringBody (cs.flatMap escapeChar) :=
  Token.stringBody_flatMap fun c _ => stringBody_escapeChar c

theorem not_isControl_of_mem_flatMap {cs : List Char} {c : Char} (h : c ∈ cs.flatMap escapeChar) :
    isControl c = false := by
  obtain ⟨origin, -, hc⟩ := List.mem_flatMap.mp h
  exact not_isControl_of_mem_escapeChar hc

theorem isControl_eq_false_iff {c : Char} :
    isControl c = false ↔ 0x1F < c.toNat ∧ (c.toNat < 0x7F ∨ 0x9F < c.toNat) := by
  simp only [isControl, Bool.or_eq_false_iff, Bool.and_eq_false_iff, decide_eq_false_iff_not]
  omega

/-- A quoted text is read back as it was, has no character below the space or in the range from
DEL to U+009F, and is one string when it is scanned. -/
theorem quoted_text_is_read_back (text : String) :
    literalValue? (quote text) = some text ∧
      (∀ c ∈ (quote text).toList, 0x1F < c.toNat ∧ (c.toNat < 0x7F ∨ 0x9F < c.toNat)) ∧
      Token.scan (quote text) = [⟨.string, quote text, 1⟩, Token.endOn 1] := by
  refine ⟨literalValue?_quote text, ?_, ?_⟩
  · intro c hc
    rw [toList_quote, List.mem_cons, List.mem_append, List.mem_singleton] at hc
    rcases hc with rfl | hc | rfl
    · decide
    · exact isControl_eq_false_iff.mp (not_isControl_of_mem_flatMap hc)
    · decide
  · apply Token.scan_quoted (toList_quote text) (stringBody_flatMap_escapeChar text.toList)
    intro hfeed
    exact absurd (not_isControl_of_mem_flatMap hfeed) (by decide)

/-- A control character in front of digits that could belong to its number. -/
example : literalValue? (quote "\x01234\\\"") = some "\x01234\\\"" := by decide

end SexprCompiler.Target
