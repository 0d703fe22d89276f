import SexprCompiler.Proofs.Lexing

/-!
# The lexical grammar

For each kind of token there are rules that say what its words are and what may not follow them. A
text is cut by these rules and by the rules for what is skipped. Whatever a text begins with, one
rule applies to it, and only one, so that the scanner and the grammar agree on every text. The
conditions on what follows a word say no more than that it is the longest word of any kind there.
-/
namespace SexprCompiler.Token

/-- The signs that are words by themselves, whatever follows. -/
def singles : List (Char × Kind) :=
  [('(', .leftParen), (')', .rightParen), ('+', .plus), ('-', .minus), ('*', .star), ('/', .slash)]

/-- The signs that are of another kind with an equals sign behind them. -/
def comparisons : List (Char × Kind × Kind) :=
  [('!', .bang, .bangEqual), ('=', .equal, .equalEqual), ('>', .greater, .greaterEqual),
    ('<', .less, .lessEqual)]

def StopsKeyword (c : Char) : Prop := c ∈ [',', '(', ')'] ∨ Text.isBlank c = true

/-- What strings are made of: a backslash with the character that it takes along, or any other
character but a quote. -/
inductive StringUnit : List Char → Prop where
  | escaped (c : Char) : StringUnit ['\\', c]
  | plain {c : Char} (hquote : c ≠ '"') (hslash : c ≠ '\\') : StringUnit [c]

/-- The words of the kinds, each in front of a text that does not extend it. -/
inductive Rule : Kind → List Char → List Char → Prop where
  | single {c kind rest} (h : (c, kind) ∈ singles) : Rule kind [c] rest
  | doubled {c alone doubled rest} (h : (c, alone, doubled) ∈ comparisons) :
      Rule doubled [c, '='] rest
  | alone {c alone doubled rest} (h : (c, alone, doubled) ∈ comparisons)
      (hnext : ∀ next ∈ rest.head?, next ≠ '=') : Rule alone [c] rest
  | keyword {body rest} (hbody : ∀ c ∈ body, ¬StopsKeyword c)
      (hnext : ∀ next ∈ rest.head?, StopsKeyword next) : Rule .keyword (':' :: body) rest
  | string {units : List (List Char)} {rest} (hunits : ∀ unit ∈ units, StringUnit unit) :
      Rule .string ('"' :: (units.flatten ++ ['"'])) rest
  | name {c cs rest} (hletters : ∀ letter ∈ c :: cs, Text.isLetter letter = true)
      (hnext : ∀ next ∈ rest.head?, Text.isLetter next = false) : Rule .name (c :: cs) rest
  | whole {c cs rest} (hdigits : ∀ digit ∈ c :: cs, digit.isDigit = true)
      (hnext : ∀ next ∈ rest.head?, next.isDigit = false ∧ next ≠ '.') : Rule .number (c :: cs) rest
  | decimal {c cs fraction rest} (hdigits : ∀ digit ∈ c :: cs, digit.isDigit = true)
      (hne : fraction ≠ []) (hfraction : ∀ digit ∈ fraction, digit.isDigit = true)
      (hnext : ∀ next ∈ rest.head?, next.isDigit = false) :
      Rule .number (c :: (cs ++ '.' :: fraction)) rest
  | spoiled {c cs rest} (hdigits : ∀ digit ∈ c :: cs, digit.isDigit = true)
      (hnext : ∀ next ∈ rest.head?, next.isDigit = false) : Rule .invalid (c :: (cs ++ ['.'])) rest

/-- A word in front of a text that does not extend it: by a rule, or else a character that starts
nothing. -/
inductive Munch : Kind → List Char → List Char → Prop where
  | rule {kind word rest} (h : Rule kind word rest) : Munch kind word rest
  | stray {c rest} (hseparator : c ∉ separators)
      (hstart : ∀ kind word others, ¬Rule kind (c :: word) others) : Munch .invalid [c] rest

/-- How a text is cut into tokens when it starts on the given line. -/
inductive Cuts : Nat → List Char → List Token → Prop where
  | nil {line} : Cuts line [] [endOn line]
  | word {line kind word rest tokens} (h : Munch kind word rest)
      (hrest : Cuts (line + word.count '\n') rest tokens) :
      Cuts line (word ++ rest) (⟨kind, String.ofList word, line + word.count '\n'⟩ :: tokens)
  | separator {line c rest tokens} (hc : c ∈ separators)
      (hrest : Cuts (line + [c].count '\n') rest tokens) : Cuts line (c :: rest) tokens
  | unclosed {line cs} (h : ∀ word rest, '"' :: cs = word ++ rest → ¬Rule .string word rest) :
      Cuts line ('"' :: cs) [endOn (line + ('"' :: cs).count '\n')]

/-! ## A word settles the piece -/

theorem stopsKeyword_iff (c : Char) : StopsKeyword c ↔ endsKeyword c = true := by
  simp [endsKeyword, StopsKeyword, or_assoc]

theorem closingQuote_units {units : List (List Char)} (h : ∀ unit ∈ units, StringUnit unit)
    (rest : List Char) :
    closingQuote (units.flatten ++ '"' :: rest) = some (units.flatten.length + 1) := by
  induction units with
  | nil => rfl
  | cons unit units ih =>
    rw [List.forall_mem_cons] at h
    have hothers := ih h.2
    cases h.1 with
    | escaped c => simp [closingQuote, hothers]
    | plain hquote hslash => simp [closingQuote_cons hquote hslash, hothers]

theorem piece_single {c : Char} {kind : Kind} (h : (c, kind) ∈ singles) (cs : List Char) :
    piece c cs = ⟨some kind, 0⟩ := by
  simp only [singles, List.mem_cons, Prod.mk.injEq, List.not_mem_nil, or_false] at h
  rcases h with ⟨rfl, rfl⟩ | ⟨rfl, rfl⟩ | ⟨rfl, rfl⟩ | ⟨rfl, rfl⟩ | ⟨rfl, rfl⟩ | ⟨rfl, rfl⟩ <;> rfl

theorem piece_comparison {c : Char} {alone doubled : Kind} (h : (c, alone, doubled) ∈ comparisons)
    (cs : List Char) : piece c cs = comparison alone doubled cs := by
  simp only [comparisons, List.mem_cons, Prod.mk.injEq, List.not_mem_nil, or_false] at h
  rcases h with ⟨rfl, rfl, rfl⟩ | ⟨rfl, rfl, rfl⟩ | ⟨rfl, rfl, rfl⟩ | ⟨rfl, rfl, rfl⟩ <;> rfl

theorem not_isLetter_of_isDigit {c : Char} (h : c.isDigit = true) : Text.isLetter c = false := by
  have hle : c.val ≤ '9'.val := of_decide_eq_true (Bool.and_eq_true_iff.mp h).2
  cases hletter : Text.isLetter c with
  | false => rfl
  | true =>
    rcases Bool.or_eq_true_iff.mp hletter with halpha | hline
    · rcases Bool.or_eq_true_iff.mp halpha with hupper | hlower
      · have hge : 'A'.val ≤ c.val := (of_decide_eq_true hupper).1
        exact absurd (UInt32.le_trans hge hle) (by decide)
      · have hge : 'a'.val ≤ c.val := of_decide_eq_true (Bool.and_eq_true_iff.mp hlower).1
        exact absurd (UInt32.le_trans hge hle) (by decide)
    · obtain rfl := eq_of_beq hline
      cases h

theorem piece_letter {c : Char} (h : Text.isLetter c = true) (cs : List Char) :
    piece c cs = ⟨some .name, run Text.isLetter cs⟩ := by
  have hsign : c ∉ signs := by
    intro hc
    simp [not_isLetter_of_mem_signs hc] at h
  rw [piece_of_not_sign hsign, if_pos h]

theorem piece_digit {c : Char} (h : c.isDigit = true) (cs : List Char) :
    piece c cs = number cs := by
  have hsign : c ∉ signs := by
    intro hc
    simp [not_isDigit_of_mem_signs hc] at h
  rw [piece_of_not_sign hsign, not_isLetter_of_isDigit h, if_neg Bool.false_ne_true, if_pos h]

theorem Rule.piece_eq {kind : Kind} {c : Char} {word rest : List Char}
    (h : Rule kind (c :: word) rest) : piece c (word ++ rest) = ⟨some kind, word.length⟩ := by
  cases h with
  | single h => exact piece_single h rest
  | doubled h => exact piece_comparison h ('=' :: rest)
  | alone h hnext =>
    rw [piece_comparison h]
    exact comparison_alone _ _ hnext
  | keyword hbody hnext =>
    have hrun : run (fun c => !endsKeyword c) (word ++ rest) = word.length := by
      apply run_append
      · intro c hc
        simpa [stopsKeyword_iff] using hbody c hc
      · intro c hc
        simpa [stopsKeyword_iff] using hnext c hc
    simp [piece, hrun]
  | string hunits =>
    have hclose := closingQuote_units hunits rest
    simp [piece, quoted, hclose]
  | name hletters hnext =>
    rw [List.forall_mem_cons] at hletters
    rw [piece_letter hletters.1, run_append hletters.2 hnext]
  | whole hdigits hnext =>
    rw [List.forall_mem_cons] at hdigits
    rw [piece_digit hdigits.1, number_whole hdigits.2 hnext]
  | decimal hdigits hne hfraction hnext =>
    rw [List.forall_mem_cons] at hdigits
    rw [piece_digit hdigits.1, number_point hdigits.2 hfraction hnext, if_neg hne]
  | spoiled hdigits hnext =>
    rw [List.forall_mem_cons] at hdigits
    rw [piece_digit hdigits.1, number_point hdigits.2 (List.forall_mem_nil _) hnext, if_pos rfl]

/-- What a rule gives words to starts with a sign, a letter or a digit. -/
theorem Rule.start {kind : Kind} {c : Char} {word rest : List Char}
    (h : Rule kind (c :: word) rest) : c ∈ signs ∨ Text.isLetter c = true ∨ c.isDigit = true := by
  cases h with
  | single h =>
    have hall : ∀ entry ∈ singles, entry.1 ∈ signs := by decide
    exact .inl (hall _ h)
  | doubled h | alone h =>
    have hall : ∀ entry ∈ comparisons, entry.1 ∈ signs := by decide
    exact .inl (hall _ h)
  | keyword | string => exact .inl (by decide)
  | name hletters => exact .inr (.inl (hletters c List.mem_cons_self))
  | whole hdigits | decimal hdigits | spoiled hdigits =>
    exact .inr (.inr (hdigits c List.mem_cons_self))

/-! ## Every text starts with a word or with what is skipped -/

theorem exists_units {cs : List Char} {extra : Nat} (h : closingQuote cs = some extra) :
    ∃ units : List (List Char), ∃ rest,
      (∀ unit ∈ units, StringUnit unit) ∧ cs = units.flatten ++ '"' :: rest := by
  fun_induction closingQuote cs generalizing extra with
  | case1 => simp at h
  | case2 rest => exact ⟨[], rest, List.forall_mem_nil _, rfl⟩
  | case3 => simp at h
  | case4 c cs ih =>
    obtain ⟨inner, hinner, -⟩ := Option.map_eq_some_iff.mp h
    obtain ⟨units, rest, hunits, rfl⟩ := ih hinner
    exact ⟨['\\', c] :: units, rest, List.forall_mem_cons.mpr ⟨.escaped c, hunits⟩, rfl⟩
  | case5 c cs hquote hlast hpair ih =>
    obtain ⟨inner, hinner, -⟩ := Option.map_eq_some_iff.mp h
    obtain ⟨units, rest, hunits, rfl⟩ := ih hinner
    have hplain : StringUnit [c] := .plain hquote (ne_backslash hlast hpair)
    exact ⟨[c] :: units, rest, List.forall_mem_cons.mpr ⟨hplain, hunits⟩, rfl⟩

/-- By some rule a word starts with the character and goes on into the text. -/
def Applies (c : Char) (cs : List Char) : Prop :=
  ∃ kind word rest, cs = word ++ rest ∧ Rule kind (c :: word) rest

theorem applies_comparison {c : Char} {alone doubled : Kind}
    (h : (c, alone, doubled) ∈ comparisons) (cs : List Char) : Applies c cs := by
  by_cases hequals : cs.head? = some '='
  · obtain ⟨rest, rfl⟩ := List.head?_eq_some_iff.mp hequals
    exact ⟨doubled, ['='], rest, rfl, .doubled h⟩
  · refine ⟨alone, [], cs, rfl, .alone h ?_⟩
    rintro next hnext rfl
    exact hequals hnext

theorem applies_keyword (cs : List Char) : Applies ':' cs := by
  obtain ⟨body, rest, rfl, hbody, hrest⟩ := exists_run (fun c => !endsKeyword c) cs
  refine ⟨.keyword, body, rest, rfl, .keyword ?_ ?_⟩
  · intro c hc
    simpa [stopsKeyword_iff] using hbody c hc
  · intro next hnext
    simpa [stopsKeyword_iff] using hrest next hnext

theorem applies_letter {c : Char} (h : Text.isLetter c = true) (cs : List Char) : Applies c cs := by
  obtain ⟨body, rest, rfl, hbody, hrest⟩ := exists_run Text.isLetter cs
  exact ⟨.name, body, rest, rfl, .name (List.forall_mem_cons.mpr ⟨h, hbody⟩) hrest⟩

theorem applies_digit {c : Char} (h : c.isDigit = true) (cs : List Char) : Applies c cs := by
  obtain ⟨digits, rest, hdigits, ⟨rfl, hrest⟩ | ⟨fraction, rfl, hfraction, hrest⟩⟩ :=
    exists_digits cs
  all_goals have hall : ∀ digit ∈ c :: digits, digit.isDigit = true :=
    List.forall_mem_cons.mpr ⟨h, hdigits⟩
  · exact ⟨.number, digits, rest, rfl, .whole hall hrest⟩
  · by_cases hne : fraction = []
    · subst hne
      exact ⟨.invalid, digits ++ ['.'], rest, rfl, .spoiled hall hrest⟩
    · exact ⟨.number, digits ++ '.' :: fraction, rest, rfl, .decimal hall hne hfraction hrest⟩

theorem applies_quote {cs : List Char} {extra : Nat} (h : closingQuote cs = some extra) :
    Applies '"' cs := by
  obtain ⟨units, rest, hunits, rfl⟩ := exists_units h
  exact ⟨.string, units.flatten ++ ['"'], rest, by simp, .string hunits⟩

theorem mem_signs_cases {c : Char} (h : c ∈ signs) :
    c ∈ separators ∨ c = '"' ∨ c = ':' ∨ c ∈ singles.map Prod.fst ∨
      c ∈ comparisons.map Prod.fst := by
  have hall : signs.all (fun c => c ∈ separators ∨ c = '"' ∨ c = ':' ∨ c ∈ singles.map Prod.fst ∨
      c ∈ comparisons.map Prod.fst) = true := by decide
  exact of_decide_eq_true (List.all_eq_true.mp hall c h)

/-- A sign starts a word unless it is a separator or opens a string that is not closed. -/
theorem applies_sign {c : Char} (h : c ∈ signs) (hseparator : c ∉ separators) (cs : List Char) :
    (c = '"' ∧ closingQuote cs = none) ∨ Applies c cs := by
  rcases mem_signs_cases h with hc | rfl | rfl | hc | hc
  · exact absurd hc hseparator
  · cases hclose : closingQuote cs with
    | none => exact .inl ⟨rfl, rfl⟩
    | some extra => exact .inr (applies_quote hclose)
  · exact .inr (applies_keyword cs)
  · obtain ⟨⟨c, kind⟩, hentry, rfl⟩ := List.mem_map.mp hc
    exact .inr ⟨kind, [], cs, rfl, .single hentry⟩
  · obtain ⟨⟨c, alone, doubled⟩, hentry, rfl⟩ := List.mem_map.mp hc
    exact .inr (applies_comparison hentry cs)

theorem piece_stray {c : Char} (hseparator : c ∉ separators)
    (hstart : ∀ kind word others, ¬Rule kind (c :: word) others) (cs : List Char) :
    piece c cs = ⟨some .invalid, 0⟩ := by
  have hnone : ∀ cs, ¬Applies c cs := by
    rintro cs ⟨kind, word, rest, -, hrule⟩
    exact hstart kind word rest hrule
  have hsign : c ∉ signs := by
    intro hc
    -- In front of a quote no string is left open.
    rcases applies_sign hc hseparator ['"'] with ⟨-, hopen⟩ | happlies
    · cases hopen
    · exact hnone _ happlies
  rw [piece_of_not_sign hsign, if_neg fun h => hnone cs (applies_letter h cs),
    if_neg fun h => hnone cs (applies_digit h cs)]

theorem Munch.piece_eq {kind : Kind} {c : Char} {word rest : List Char}
    (h : Munch kind (c :: word) rest) : piece c (word ++ rest) = ⟨some kind, word.length⟩ := by
  cases h with
  | rule h => exact h.piece_eq
  | stray hseparator hstart => exact piece_stray hseparator hstart rest

theorem closingQuote_eq_none {cs : List Char} :
    closingQuote cs = none ↔ ∀ word rest, '"' :: cs = word ++ rest → ¬Rule .string word rest := by
  constructor
  · intro hclose word rest hsplit hrule
    rcases List.cons_eq_append_iff.mp hsplit with ⟨rfl, -⟩ | ⟨inner, rfl, rfl⟩
    · cases hrule
    · have hpiece := hrule.piece_eq
      simp [piece, quoted, hclose] at hpiece
  · intro hnone
    cases hclose : closingQuote cs with
    | none => rfl
    | some extra =>
      obtain ⟨units, rest, hunits, rfl⟩ := exists_units hclose
      exact absurd (.string hunits) (hnone ('"' :: (units.flatten ++ ['"'])) rest (by simp))

/-- A text starts with a separator, with a string that is not closed, or with a word. -/
theorem exists_munch (c : Char) (cs : List Char) :
    c ∈ separators ∨ (c = '"' ∧ closingQuote cs = none) ∨
      ∃ kind word rest, cs = word ++ rest ∧ Munch kind (c :: word) rest := by
  by_cases hseparator : c ∈ separators
  · exact .inl hseparator
  by_cases hstart : ∃ kind word others, Rule kind (c :: word) others
  · have happlies : (c = '"' ∧ closingQuote cs = none) ∨ Applies c cs := by
      obtain ⟨kind, word, others, hrule⟩ := hstart
      rcases hrule.start with hsign | hletter | hdigit
      · exact applies_sign hsign hseparator cs
      · exact .inr (applies_letter hletter cs)
      · exact .inr (applies_digit hdigit cs)
    rcases happlies with hopen | ⟨kind, word, rest, hsplit, hrule⟩
    · exact .inr (.inl hopen)
    · exact .inr (.inr ⟨kind, word, rest, hsplit, .rule hrule⟩)
  · simp only [not_exists] at hstart
    exact .inr (.inr ⟨.invalid, [], cs, rfl, .stray hseparator hstart⟩)

/-! ## The scanner follows the grammar -/

theorem Munch.ne_nil {kind : Kind} {rest : List Char} : ¬Munch kind [] rest := by
  rintro ⟨⟨⟩⟩

theorem Munch.scanFrom_append {kind : Kind} {word rest : List Char} (h : Munch kind word rest)
    (line : Nat) :
    scanFrom line (word ++ rest) =
      ⟨kind, String.ofList word, line + word.count '\n'⟩ ::
        scanFrom (line + word.count '\n') rest := by
  cases word with
  | nil => exact absurd h ne_nil
  | cons c word =>
    simp only [List.cons_append, scanFrom, h.piece_eq, List.take_left, List.drop_left]

theorem scanFrom_unclosed {cs : List Char} (h : closingQuote cs = none) (line : Nat) :
    scanFrom line ('"' :: cs) = [endOn (line + ('"' :: cs).count '\n')] := by
  have hpiece : piece '"' cs = ⟨none, cs.length⟩ := by simp [piece, quoted, h]
  simp only [scanFrom, hpiece, List.take_length, List.drop_length]

theorem scanFrom_separator {c : Char} (h : c ∈ separators) (line : Nat) (cs : List Char) :
    scanFrom line (c :: cs) = scanFrom (line + [c].count '\n') cs :=
  scanFrom_separators (List.forall_mem_singleton.mpr h) line cs

theorem Cuts.scanFrom_eq {line : Nat} {cs : List Char} {tokens : List Token}
    (h : Cuts line cs tokens) : scanFrom line cs = tokens := by
  induction h with
  | nil => rw [scanFrom]
  | word h _ ih => rw [h.scanFrom_append, ih]
  | separator hc _ ih => rw [scanFrom_separator hc, ih]
  | unclosed h => exact scanFrom_unclosed (closingQuote_eq_none.mpr h) _

theorem cuts_scanFrom (line : Nat) (cs : List Char) : Cuts line cs (scanFrom line cs) := by
  induction hlength : cs.length using Nat.strongRecOn generalizing line cs with
  | ind length ih =>
    subst hlength
    cases cs with
    | nil =>
      rw [scanFrom]
      exact .nil
    | cons c cs =>
      rcases exists_munch c cs with hc | ⟨rfl, hclose⟩ | ⟨kind, word, rest, rfl, hmunch⟩
      · rw [scanFrom_separator hc]
        exact .separator hc (ih _ (by simp) _ cs rfl)
      · rw [scanFrom_unclosed hclose]
        exact .unclosed (closingQuote_eq_none.mp hclose)
      · have hscan := hmunch.scanFrom_append line
        rw [List.cons_append] at hscan
        have hshorter : rest.length < (c :: (word ++ rest)).length := by
          rw [List.length_cons, List.length_append]
          omega
        rw [hscan]
        exact .word hmunch (ih _ hshorter _ rest rfl)

theorem cuts_iff {line : Nat} {cs : List Char} {tokens : List Token} :
    Cuts line cs tokens ↔ scanFrom line cs = tokens := by
  constructor
  · exact Cuts.scanFrom_eq
  · rintro rfl
    exact cuts_scanFrom line cs

/-! ## Words are as long as they can be -/

/-- Only the next character counts for what follows a word. -/
theorem Rule.of_head? {kind : Kind} {word rest other : List Char} (h : Rule kind word rest)
    (hhead : ∀ c ∈ other.head?, c ∈ rest.head?) : Rule kind word other := by
  cases h with
  | single h => exact .single h
  | doubled h => exact .doubled h
  | alone h hnext => exact .alone h fun c hc => hnext c (hhead c hc)
  | keyword hbody hnext => exact .keyword hbody fun c hc => hnext c (hhead c hc)
  | string hunits => exact .string hunits
  | name hletters hnext => exact .name hletters fun c hc => hnext c (hhead c hc)
  | whole hdigits hnext => exact .whole hdigits fun c hc => hnext c (hhead c hc)
  | decimal hdigits hne hfraction hnext =>
    exact .decimal hdigits hne hfraction fun c hc => hnext c (hhead c hc)
  | spoiled hdigits hnext => exact .spoiled hdigits fun c hc => hnext c (hhead c hc)

theorem Munch.of_head? {kind : Kind} {word rest other : List Char} (h : Munch kind word rest)
    (hhead : ∀ c ∈ other.head?, c ∈ rest.head?) : Munch kind word other := by
  cases h with
  | rule h => exact .rule (h.of_head? hhead)
  | stray hseparator hstart => exact .stray hseparator hstart

/-- What follows a word may be cut short. -/
theorem Munch.of_append {kind : Kind} {word more others : List Char}
    (h : Munch kind word (more ++ others)) : Munch kind word more := by
  apply h.of_head?
  intro c hc
  rw [List.head?_append, Option.mem_def.mp hc]
  rfl

theorem Munch.nil {kind : Kind} {word rest : List Char} (h : Munch kind word rest) :
    Munch kind word [] :=
  of_append (h : Munch kind word ([] ++ rest))

theorem Munch.unique {kind kind' : Kind} {word word' rest rest' : List Char}
    (h : Munch kind word rest) (h' : Munch kind' word' rest')
    (htext : word ++ rest = word' ++ rest') : kind = kind' ∧ word = word' := by
  cases word with
  | nil => exact absurd h ne_nil
  | cons c cs =>
    cases word' with
    | nil => exact absurd h' ne_nil
    | cons c' cs' =>
      simp only [List.cons_append, List.cons.injEq] at htext
      obtain ⟨rfl, htail⟩ := htext
      have hpiece := h.piece_eq
      rw [htail, h'.piece_eq] at hpiece
      obtain ⟨hkind, hlength⟩ := Piece.mk.inj hpiece
      exact ⟨(Option.some.inj hkind).symm, congrArg (c :: ·) (List.append_inj htail hlength.symm).1⟩

theorem Munch.not_mem_separators {kind : Kind} {c : Char} {cs rest : List Char}
    (h : Munch kind (c :: cs) rest) : c ∉ separators := by
  intro hc
  have hpiece := h.piece_eq
  rw [piece_separator c hc] at hpiece
  cases hpiece

theorem Munch.closingQuote_append {kind : Kind} {cs : List Char} (h : Munch kind ('"' :: cs) [])
    (rest : List Char) : closingQuote (cs ++ rest) ≠ none := by
  have hpiece := h.piece_eq
  cases hclose : closingQuote cs with
  | none => simp [piece, quoted, hclose] at hpiece
  | some extra =>
    obtain ⟨units, others, hunits, rfl⟩ := exists_units hclose
    simp [closingQuote_units hunits]

/-- A word is in front of a text that does not extend it if it is the longest one there. -/
theorem munch_iff_longest {kind : Kind} {word rest : List Char} :
    Munch kind word rest ↔
      Munch kind word [] ∧ ∀ more others longer, rest = more ++ others →
        Munch longer (word ++ more) [] → more = [] := by
  constructor
  · intro h
    refine ⟨h.nil, ?_⟩
    rintro more others longer rfl hlonger
    have hsame := h.of_append.unique hlonger (List.append_nil _).symm
    simpa using hsame.2
  · rintro ⟨hword, hlongest⟩
    cases word with
    | nil => exact absurd hword Munch.ne_nil
    | cons c cs =>
      rcases exists_munch c (cs ++ rest) with hc | ⟨rfl, hclose⟩ | ⟨kind', word', rest', htext, h'⟩
      · exact absurd hc hword.not_mem_separators
      · exact absurd hclose (hword.closingQuote_append rest)
      · -- The word in front of the text is neither longer nor shorter.
        have hsame : word' = cs ∧ rest' = rest := by
          rcases List.append_eq_append_iff.mp htext with ⟨more, rfl, rfl⟩ | ⟨more, rfl, rfl⟩
          · obtain rfl : more = [] := hlongest more rest' kind' rfl h'.nil
            exact ⟨List.append_nil _, rfl⟩
          · have hshort := h'.of_append.unique hword (List.append_nil _).symm
            obtain rfl : more = [] := by simpa using hshort.2
            exact ⟨(List.append_nil _).symm, rfl⟩
        obtain ⟨rfl, rfl⟩ := hsame
        rw [(hword.unique h'.nil rfl).1]
        exact h'

/-- The tokens of a text are those into which the grammar cuts it, and its words are the longest
ones: none of any kind goes on into what follows. -/
theorem tokens_are_longest_words (source : String) :
    (∀ tokens, Cuts 1 source.toList tokens ↔ scan source = tokens) ∧
      ∀ kind word rest, Munch kind word rest ↔
        Munch kind word [] ∧ ∀ more others longer, rest = more ++ others →
          Munch longer (word ++ more) [] → more = [] :=
  ⟨fun _ => cuts_iff, fun _ _ _ => munch_iff_longest⟩

end SexprCompiler.Token
