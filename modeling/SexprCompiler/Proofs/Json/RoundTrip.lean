import SexprCompiler.Proofs.Json.Reader

/-!
# Written values are read back

Both layouts of a value have the same lexemes: they differ only in blanks. Whatever is put behind
a written value, its lexemes come first, unless a number would go on into it. The lexemes of a
value lead the reader from wanting a value to having this one, inside whatever is open.
-/
namespace SexprCompiler.Json

mutual

def toValue : Json → Value
  | number value => .number value 0
  | string text => .string text
  | array items => .array (itemValues items)
  | object fields => .object (fieldValues fields)

def itemValues : List Json → List Value
  | [] => []
  | item :: items => item.toValue :: itemValues items

def fieldValues : List (String × Json) → List (String × Value)
  | [] => []
  | (key, value) :: fields => (key, value.toValue) :: fieldValues fields

end

mutual

def lexemes : Json → List Lexeme
  | number value => [.constant (.number value 0)]
  | string text => [.string text]
  | array items => .mark .beginArray :: (itemLexemes items ++ [.mark .endArray])
  | object fields => .mark .beginObject :: (fieldLexemes fields ++ [.mark .endObject])

def itemLexemes : List Json → List Lexeme
  | [] => []
  | [item] => item.lexemes
  | item :: next :: items => item.lexemes ++ .mark .comma :: itemLexemes (next :: items)

def fieldLexemes : List (String × Json) → List Lexeme
  | [] => []
  | [(key, value)] => .string key :: .mark .colon :: value.lexemes
  | (key, value) :: next :: fields =>
    .string key :: .mark .colon :: (value.lexemes ++ .mark .comma :: fieldLexemes (next :: fields))

end

/-! ## Strings, numbers and marks -/

theorem codes?_plain {c : Char} (hquote : c ≠ '"') (hslash : c ≠ '\\') (hprint : ¬ c.toNat < 0x20)
    (rest : List Char) :
    codes? (c :: rest) = (codes? rest).map fun found => (c.toNat :: found.1, found.2) := by
  rw [codes?]
  · rw [if_neg hprint]
    cases codes? rest <;> rfl
  all_goals simp_all

theorem codes?_escape {letter c : Char} (h : unescape? letter = some c) (rest : List Char) :
    codes? ('\\' :: letter :: rest) =
      (codes? rest).map fun found => (c.toNat :: found.1, found.2) := by
  have hu : letter ≠ 'u' := by
    rintro rfl
    cases h
  rw [codes?]
  · rw [h]
    cases codes? rest <;> rfl
  · simp [hu]

theorem codes?_hex {number : Nat} (h : number < 0x10000) (rest : List Char) :
    codes? ('\\' :: 'u' :: (Text.hex 4 number ++ rest)) =
      (codes? rest).map fun found => (number :: found.1, found.2) := by
  obtain ⟨a, b, c, d, hdigits⟩ : ∃ a b c d, Text.hex 4 number = [a, b, c, d] :=
    ⟨_, _, _, _, rfl⟩
  have hnumber := Text.ofHex?_hex h
  rw [hdigits] at hnumber ⊢
  simp only [List.cons_append, List.nil_append, codes?, hnumber]
  cases codes? rest <;> rfl

theorem codes?_escapeChar (c : Char) (rest : List Char) :
    codes? (escapeChar c ++ rest) =
      (codes? rest).map fun found => (c.toNat :: found.1, found.2) := by
  unfold escapeChar
  split
  · exact codes?_escape rfl rest
  · exact codes?_escape rfl rest
  · exact codes?_escape rfl rest
  · exact codes?_escape rfl rest
  · exact codes?_escape rfl rest
  · exact codes?_escape rfl rest
  · exact codes?_escape rfl rest
  · split
    · rename_i hcontrol
      exact codes?_hex (by omega) rest
    · rename_i hquote hslash _ _ _ _ _ hprint
      exact codes?_plain hquote hslash hprint rest

/-- No character is a surrogate. -/
theorem ofCodes?_toNat (cs : List Char) : ofCodes? (cs.map Char.toNat) = some cs := by
  induction cs with
  | nil => rfl
  | cons c cs ih =>
    have hvalid : c.toNat < 0xD800 ∨ 0xDFFF < c.toNat ∧ c.toNat < 0x110000 := c.valid
    rw [List.map_cons, ofCodes?.eq_def]
    dsimp only
    rw [if_neg (by omega), if_neg (by omega), ih, Char.ofNat_toNat]
    rfl

theorem string?_quote (text : String) (rest : List Char) :
    string? (text.toList.flatMap escapeChar ++ '"' :: rest) = some (.string text, rest) := by
  have hcodes : ∀ cs : List Char,
      codes? (cs.flatMap escapeChar ++ '"' :: rest) = some (cs.map Char.toNat, rest) := by
    intro cs
    induction cs with
    | nil => simp [codes?]
    | cons c cs ih =>
      rw [List.flatMap_cons, List.append_assoc, codes?_escapeChar, ih]
      rfl
  simp [string?, hcodes, ofCodes?_toNat]

/-- Only zero is written with a zero in front. -/
theorem eq_zero_of_head?_toDigits (n : Nat) (h : (Nat.toDigits 10 n).head? = some '0') :
    n = 0 := by
  induction n using Nat.strongRecOn with
  | ind n ih =>
    by_cases hsmall : n < 10
    · rw [Nat.toDigits_of_lt_base hsmall] at h
      simpa using h
    · -- The first digit is that of a number with one digit less.
      have hdigits : Nat.toDigits 10 n = Nat.toDigits 10 (n / 10) ++ [Nat.digitChar (n % 10)] :=
        Nat.toDigits_of_base_le (by decide) (by omega)
      have hhead : (Nat.toDigits 10 (n / 10)).head? = some '0' := by
        cases hcons : Nat.toDigits 10 (n / 10) with
        | nil => exact absurd hcons Nat.toDigits_ne_nil
        | cons c cs => simpa [hdigits, hcons] using h
      have hzero := ih (n / 10) (by omega) hhead
      omega

/-- The characters at which a number ends. -/
def EndsNumber (c : Char) : Prop := c.isDigit = false ∧ c ≠ '.' ∧ c ≠ 'e' ∧ c ≠ 'E'

instance (c : Char) : Decidable (EndsNumber c) := inferInstanceAs (Decidable (_ ∧ _ ∧ _ ∧ _))

/-- A number in front of the text would not go on into it. -/
def Ends (rest : List Char) : Prop := ∀ c ∈ rest.head?, EndsNumber c

theorem fraction?_ends {rest : List Char} (h : Ends rest) : fraction? rest = some ([], rest) := by
  unfold fraction?
  split
  · exact absurd rfl (h _ rfl).2.1
  · rfl

theorem exponent?_ends {rest : List Char} (h : Ends rest) : exponent? rest = some (0, rest) := by
  unfold exponent?
  split
  · exact absurd rfl (h _ rfl).2.2.1
  · exact absurd rfl (h _ rfl).2.2.2
  · rfl

theorem digits?_append {digits rest : List Char} (hne : digits ≠ [])
    (hdigits : ∀ c ∈ digits, c.isDigit = true) (h : Ends rest) :
    digits? (digits ++ rest) = some (digits, rest) := by
  have htake : rest.takeWhile Char.isDigit = [] := by
    cases rest with
    | nil => rfl
    | cons c rest => simp [(h c rfl).1]
  have hdrop : rest.dropWhile Char.isDigit = rest := by
    cases rest with
    | nil => rfl
    | cons c rest => simp [(h c rfl).1]
  simp [digits?, List.takeWhile_append_of_pos hdigits, List.dropWhile_append_of_pos hdigits,
    htake, hdrop, hne]

theorem whole?_toDigits (n : Nat) {rest : List Char} (h : Ends rest) :
    whole? (Nat.toDigits 10 n ++ rest) = some (Nat.toDigits 10 n, rest) := by
  have hall : ∀ c ∈ Nat.toDigits 10 n, c.isDigit = true :=
    fun c hc => Nat.isDigit_of_mem_toDigits (by decide) (by decide) hc
  have hdigits := digits?_append Nat.toDigits_ne_nil hall h
  have hzero : ¬ ((Nat.toDigits 10 n).head? = some '0' ∧ Nat.toDigits 10 n ≠ ['0']) := by
    rintro ⟨hhead, hne⟩
    obtain rfl := eq_zero_of_head?_toDigits n hhead
    exact hne rfl
  simp [whole?, hdigits, hzero]

theorem unsigned?_toDigits (n : Nat) {rest : List Char} (h : Ends rest) :
    unsigned? (Nat.toDigits 10 n ++ rest) = some ((n : Int), 0, rest) := by
  simp [unsigned?, whole?_toDigits n h, fraction?_ends h, exponent?_ends h]

/-- A digit starts a number and nothing else. -/
theorem lexeme?_digit {c : Char} (h : c.isDigit = true) (cs : List Char) :
    c ∉ blanks ∧ lexeme? c cs = number? (c :: cs) := by
  have hmark : Mark.ofChar? c = none := by
    apply List.find?_eq_none.mpr
    intro mark _ hmark
    obtain rfl : mark.char = c := by simpa using hmark
    cases mark <;> cases h
  have halpha : c.isAlpha = false := by
    change (c.val ≥ 48 && c.val ≤ 57) = true at h
    change (decide (c.val ≥ 65 ∧ c.val ≤ 90) || (c.val ≥ 97 && c.val ≤ 122)) = false
    simp only [ge_iff_le, Bool.and_eq_true, decide_eq_true_eq, UInt32.le_iff_toNat_le,
      Bool.or_eq_false_iff, Bool.and_eq_false_iff, decide_eq_false_iff_not] at h ⊢
    simp at h ⊢
    omega
  constructor
  · intro hblank
    simp only [blanks, List.mem_cons, List.not_mem_nil, or_false] at hblank
    rcases hblank with rfl | rfl | rfl | rfl <;> cases h
  · have hquote : c ≠ '"' := by
      rintro rfl
      cases h
    simp [lexeme?, hmark, hquote, halpha]

/-! ## Layouts -/

/-- A text has the given lexemes, whatever follows it that a number does not go on into. -/
def Spells (cs : List Char) (found : List Lexeme) : Prop :=
  ∀ rest, Ends rest → lexemes? (cs ++ rest) = (found ++ ·) <$> lexemes? rest

theorem spells_nil : Spells [] [] := by
  intro rest _
  simp

theorem spells_repr (n : Nat) : Spells n.repr.toList [.constant (.number n 0)] := by
  intro rest hends
  have hunsigned := unsigned?_toDigits n hends
  rw [Nat.repr_eq_ofList_toDigits, String.toList_ofList]
  cases hcons : Nat.toDigits 10 n with
  | nil => exact absurd hcons Nat.toDigits_ne_nil
  | cons c cs =>
    have hdigit : c.isDigit = true :=
      Nat.isDigit_of_mem_toDigits (by decide) (by decide) (hcons ▸ List.mem_cons_self)
    obtain ⟨hblank, hlexeme⟩ := lexeme?_digit hdigit (cs ++ rest)
    have hminus : c ≠ '-' := by
      rintro rfl
      cases hdigit
    rw [hcons, List.cons_append] at hunsigned
    rw [List.cons_append]
    apply lexemes?_cons hblank
    rw [hlexeme, number?]
    · simp [hunsigned]
    · simpa using hminus

variable {cs more : List Char} {found others : List Lexeme}

theorem Spells.blank_cons {c : Char} (hblank : c ∈ blanks) (h : Spells cs found) :
    Spells (c :: cs) found := by
  intro rest hends
  rw [List.cons_append, lexemes?_blank hblank, h rest hends]

theorem Spells.mark_cons (mark : Mark) (h : Spells cs found) :
    Spells (mark.char :: cs) (.mark mark :: found) := by
  intro rest hends
  have hblank : mark.char ∉ blanks := by cases mark <;> decide
  have hmark : lexeme? mark.char (cs ++ rest) = some (.mark mark, cs ++ rest) := by
    cases mark <;> rfl
  rw [List.cons_append, lexemes?_cons hblank hmark, h rest hends]
  simp [Function.comp_def]

theorem Spells.quote_append (text : String) (h : Spells cs found) :
    Spells ((quote text).toList ++ cs) (.string text :: found) := by
  intro rest hends
  have htext : (quote text).toList ++ cs ++ rest =
      '"' :: (text.toList.flatMap escapeChar ++ '"' :: (cs ++ rest)) := by
    simp [quote]
  have hblank : '"' ∉ blanks := by decide
  rw [htext, lexemes?_cons hblank (string?_quote text (cs ++ rest)), h rest hends]
  simp [Function.comp_def]

/-- Texts in a row have the lexemes of both, when no number can go on into the second. -/
theorem Spells.append (h : Spells cs found) (hmore : Spells more others)
    {c : Char} (hhead : more.head? = some c) (hc : EndsNumber c) :
    Spells (cs ++ more) (found ++ others) := by
  intro rest hends
  have hfirst : Ends (more ++ rest) := by
    intro first hfirst
    rw [List.head?_append, hhead] at hfirst
    cases hfirst
    exact hc
  rw [List.append_assoc, h _ hfirst, hmore rest hends]
  simp [Function.comp_def]

mutual

theorem spells_compact : (json : Json) → Spells json.compact.toList json.lexemes
  | .number value => spells_repr value
  | .string text => by
    simpa [compact, lexemes] using Spells.quote_append text spells_nil
  | .array items => by
    have hitems := (spells_compactItems items).append (.mark_cons .endArray spells_nil) rfl
      (by decide)
    simpa [compact, lexemes, Mark.char] using hitems.mark_cons .beginArray
  | .object fields => by
    have hfields := (spells_compactFields fields).append (.mark_cons .endObject spells_nil) rfl
      (by decide)
    simpa [compact, lexemes, Mark.char] using hfields.mark_cons .beginObject

theorem spells_compactItems :
    (items : List Json) → Spells (compactItems items).toList (itemLexemes items)
  | [] => spells_nil
  | [item] => spells_compact item
  | item :: next :: items => by
    have hitems := (spells_compactItems (next :: items)).mark_cons .comma
    simpa [compactItems, itemLexemes, Mark.char] using
      (spells_compact item).append hitems rfl (by decide)

theorem spells_compactFields :
    (fields : List (String × Json)) → Spells (compactFields fields).toList (fieldLexemes fields)
  | [] => spells_nil
  | [(key, value)] => by
    have hvalue := (spells_compact value).mark_cons .colon
    simpa [compactFields, fieldLexemes, Mark.char] using hvalue.quote_append key
  | (key, value) :: next :: fields => by
    have hfields := (spells_compactFields (next :: fields)).mark_cons .comma
    have hvalue := ((spells_compact value).append hfields rfl (by decide)).mark_cons .colon
    simpa [compactFields, fieldLexemes, Mark.char] using hvalue.quote_append key

end

theorem head?_newLine_append (level : Nat) (rest : List Char) :
    ((newLine level).toList ++ rest).head? = some '\n' := by
  induction level generalizing rest with
  | zero => rfl
  | succ level ih => simpa [newLine] using ih (' ' :: ' ' :: rest)

theorem Spells.newLine_append (level : Nat) (h : Spells cs found) :
    Spells ((newLine level).toList ++ cs) found := by
  induction level generalizing cs with
  | zero => exact h.blank_cons (by decide)
  | succ level ih =>
    have hblanks : Spells (' ' :: ' ' :: cs) found :=
      (h.blank_cons (by decide)).blank_cons (by decide)
    simpa [newLine] using ih hblanks

mutual

theorem spells_prettyAt (level : Nat) :
    (json : Json) → Spells (json.prettyAt level).toList json.lexemes
  | .number value => spells_repr value
  | .string text => by
    simpa [prettyAt, lexemes] using Spells.quote_append text spells_nil
  | .array [] => by
    have hempty := (Spells.mark_cons .endArray spells_nil).mark_cons .beginArray
    simpa [prettyAt, lexemes, itemLexemes, Mark.char] using hempty
  | .array (item :: items) => by
    have hend := (Spells.mark_cons .endArray spells_nil).newLine_append level
    have hitems := (spells_prettyItems (level + 1) (item :: items)).append hend
      (head?_newLine_append level _) (by decide)
    simpa [prettyAt, lexemes, Mark.char] using hitems.mark_cons .beginArray
  | .object [] => by
    have hempty := (Spells.mark_cons .endObject spells_nil).mark_cons .beginObject
    simpa [prettyAt, lexemes, fieldLexemes, Mark.char] using hempty
  | .object (field :: fields) => by
    have hend := (Spells.mark_cons .endObject spells_nil).newLine_append level
    have hfields := (spells_prettyFields (level + 1) (field :: fields)).append hend
      (head?_newLine_append level _) (by decide)
    simpa [prettyAt, lexemes, Mark.char] using hfields.mark_cons .beginObject

theorem spells_prettyItems (level : Nat) :
    (items : List Json) → Spells (prettyItems level items).toList (itemLexemes items)
  | [] => spells_nil
  | [item] => by
    simpa [prettyItems, itemLexemes] using (spells_prettyAt level item).newLine_append level
  | item :: next :: items => by
    have hitems := (spells_prettyItems level (next :: items)).mark_cons .comma
    have hitem := (spells_prettyAt level item).append hitems rfl (by decide)
    simpa [prettyItems, itemLexemes, Mark.char] using hitem.newLine_append level

theorem spells_prettyFields (level : Nat) :
    (fields : List (String × Json)) →
      Spells (prettyFields level fields).toList (fieldLexemes fields)
  | [] => spells_nil
  | [(key, value)] => by
    have hblank : Spells (' ' :: (value.prettyAt level).toList) value.lexemes :=
      (spells_prettyAt level value).blank_cons (by decide)
    have hfield := (hblank.mark_cons .colon).quote_append key
    simpa [prettyFields, fieldLexemes, Mark.char] using hfield.newLine_append level
  | (key, value) :: next :: fields => by
    have hfields := (spells_prettyFields level (next :: fields)).mark_cons .comma
    have hvalue := (spells_prettyAt level value).append hfields rfl (by decide)
    have hblank := hvalue.blank_cons (show ' ' ∈ blanks by decide)
    have hfield := (hblank.mark_cons .colon).quote_append key
    simpa [prettyFields, fieldLexemes, Mark.char] using hfield.newLine_append level

end

/-! ## Values -/

/-- After the opening of an array the first item is read like any other. -/
theorem foldlM_firstItem (json : Json) (rest : List Lexeme) (outer : List Frame) :
    (json.lexemes ++ rest).foldlM step (.firstItem outer) =
      (json.lexemes ++ rest).foldlM step (.value (.array [] :: outer)) := by
  cases json <;> simp [lexemes, step, start]

/-- The items of an array begin with the first of them. -/
theorem exists_itemLexemes_append (item : Json) (items : List Json) (more : List Lexeme) :
    ∃ rest, itemLexemes (item :: items) ++ more = item.lexemes ++ rest := by
  cases items with
  | nil => exact ⟨more, rfl⟩
  | cons next items => exact ⟨_, List.append_assoc _ _ _⟩

/-- The fields of an object begin with a key. -/
theorem exists_fieldLexemes_append (key : String) (value : Json) (fields : List (String × Json))
    (more : List Lexeme) :
    ∃ rest, fieldLexemes ((key, value) :: fields) ++ more = .string key :: rest := by
  cases fields with
  | nil => exact ⟨_, rfl⟩
  | cons next fields => exact ⟨_, rfl⟩

mutual

/-- The lexemes of a value lead to that value. -/
theorem foldlM_lexemes : (json : Json) → (outer : List Frame) →
    json.lexemes.foldlM step (.value outer) = some (.complete json.toValue outer)
  | .number _, _ | .string _, _ => rfl
  | .array [], _ | .object [], _ => by
    simp [lexemes, itemLexemes, fieldLexemes, step, start, toValue, itemValues, fieldValues]
  | .array (item :: items), outer => by
    have hitems := foldlM_items (item :: items) (by simp) [] outer
    obtain ⟨rest, hrest⟩ := exists_itemLexemes_append item items [.mark .endArray]
    rw [hrest, ← foldlM_firstItem, ← hrest] at hitems
    simpa [lexemes, toValue, step, start] using hitems
  | .object ((key, value) :: fields), outer => by
    have hfields := foldlM_fields ((key, value) :: fields) (by simp) [] outer
    obtain ⟨rest, hrest⟩ := exists_fieldLexemes_append key value fields [.mark .endObject]
    rw [hrest] at hfields
    rw [lexemes, hrest, toValue]
    exact hfields

/-- The remaining items of an array lead to its end. -/
theorem foldlM_items : (items : List Json) → items ≠ [] → (before : List Value) →
    (outer : List Frame) →
    (itemLexemes items ++ [Lexeme.mark .endArray]).foldlM step (.value (.array before :: outer)) =
      some (.complete (.array (before.reverse ++ itemValues items)) outer)
  | [], h, _, _ => absurd rfl h
  | [item], _, before, outer => by
    simp [itemLexemes, foldlM_lexemes item, step, itemValues]
  | item :: next :: items, _, before, outer => by
    have hitems := foldlM_items (next :: items) (by simp) (item.toValue :: before) outer
    simpa [itemLexemes, itemValues, foldlM_lexemes item, step] using hitems

/-- The remaining fields of an object lead to its end. -/
theorem foldlM_fields : (fields : List (String × Json)) → fields ≠ [] →
    (before : List (String × Value)) → (outer : List Frame) →
    (fieldLexemes fields ++ [Lexeme.mark .endObject]).foldlM step (.key before outer) =
      some (.complete (.object (before.reverse ++ fieldValues fields)) outer)
  | [], h, _, _ => absurd rfl h
  | [(key, value)], _, before, outer => by
    simp [fieldLexemes, foldlM_lexemes value, step, fieldValues]
  | (key, value) :: next :: fields, _, before, outer => by
    have hfields := foldlM_fields (next :: fields) (by simp) ((key, value.toValue) :: before) outer
    simpa [fieldLexemes, fieldValues, foldlM_lexemes value, step] using hfields

end

-- Layouts that are neither of the two are read as well.
example : ofText? "[1,\n-2.50e+3 ]" = some (.array [.number 1 0, .number (-250) 1]) := by cbv

example :
    ofText? " \x7b\"\\uD83D\\ude00\\/\" : [ ], \"\":true\x7d " =
        some (.object [("😀/", .array []), ("", .bool true)]) ∧ ofText? "[1,]" = none := by
  constructor <;> cbv

end SexprCompiler.Json
