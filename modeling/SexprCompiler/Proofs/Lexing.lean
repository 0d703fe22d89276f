import SexprCompiler.Sexpr.Read
import SexprCompiler.Token.Scan

/-!
# Where tokens end

A piece of a text is determined by its own characters and at most the one behind them. So a token
that was cut out of a text is the same token when it stands alone or in front of a separator.
-/
namespace SexprCompiler.Token

/-- The characters that may stand between tokens. -/
def separators : List Char := [' ', '\t', '\r', '\n', ',']

theorem forall_separators {p : Char → Prop} (h : p ' ' ∧ p '\t' ∧ p '\r' ∧ p '\n' ∧ p ',') :
    ∀ c ∈ separators, p c := by
  simpa [separators] using h

/-! ## Runs, strings and numbers -/

theorem run_append {p : Char → Bool} {body rest : List Char} (hbody : ∀ c ∈ body, p c = true)
    (hrest : ∀ c ∈ rest.head?, p c = false) : run p (body ++ rest) = body.length := by
  induction body with
  | nil =>
    cases rest with
    | nil => rfl
    | cons c rest => simp [run, hrest c rfl]
  | cons c body ih =>
    rw [List.forall_mem_cons] at hbody
    have hrun := ih hbody.2
    unfold run at hrun ⊢
    rw [List.cons_append, List.takeWhile_cons_of_pos hbody.1, List.length_cons, hrun,
      List.length_cons]

/-- Every text is a run of a class and a rest that does not start with a character of it. -/
theorem exists_run (p : Char → Bool) (cs : List Char) :
    ∃ body rest, cs = body ++ rest ∧ (∀ c ∈ body, p c = true) ∧ ∀ c ∈ rest.head?, p c = false := by
  refine ⟨cs.takeWhile p, cs.dropWhile p, List.takeWhile_append_dropWhile.symm, ?_, ?_⟩
  · exact List.all_eq_true.mp List.all_takeWhile
  · intro c hc
    simpa [Option.mem_def.mp hc] using List.head?_dropWhile_not p cs

theorem closingQuote_cons {c : Char} (hquote : c ≠ '"') (hslash : c ≠ '\\') (cs : List Char) :
    closingQuote (c :: cs) = (closingQuote cs).map (· + 1) := by
  rw [closingQuote]
  all_goals simp_all

theorem ne_backslash {c : Char} {rest : List Char} (hlast : c = '\\' → rest = [] → False)
    (hpair : ∀ next others, c = '\\' → rest = next :: others → False) : c ≠ '\\' := by
  intro hc
  cases rest with
  | nil => exact hlast hc rfl
  | cons next others => exact hpair next others hc rfl

/-- The closing quote is found whatever follows it. -/
theorem closingQuote_eq_some {cs : List Char} {extra : Nat} (h : closingQuote cs = some extra) :
    ∃ body tail, cs = body ++ '"' :: tail ∧
      ∀ other, closingQuote (body ++ '"' :: other) = some (body.length + 1) := by
  fun_induction closingQuote cs generalizing extra with
  | case1 => simp at h
  | case2 tail =>
    cases h
    exact ⟨[], tail, rfl, fun _ => rfl⟩
  | case3 => simp at h
  | case4 c rest ih =>
    obtain ⟨inner, hinner, rfl⟩ := Option.map_eq_some_iff.mp h
    obtain ⟨body, tail, rfl, hother⟩ := ih hinner
    refine ⟨'\\' :: c :: body, tail, rfl, ?_⟩
    intro other
    simp [closingQuote, hother]
  | case5 c rest hquote hlast hpair ih =>
    have hslash := ne_backslash hlast hpair
    obtain ⟨inner, hinner, rfl⟩ := Option.map_eq_some_iff.mp h
    obtain ⟨body, tail, rfl, hother⟩ := ih hinner
    refine ⟨c :: body, tail, rfl, ?_⟩
    intro other
    simp [closingQuote_cons hquote hslash, hother]

/-- Every text starts with digits, and then does not go on as a number does, or it goes on with a
decimal point and more digits. -/
theorem exists_digits (cs : List Char) :
    ∃ digits rest, (∀ c ∈ digits, c.isDigit = true) ∧
      ((cs = digits ++ rest ∧ ∀ c ∈ rest.head?, c.isDigit = false ∧ c ≠ '.') ∨
        ∃ fraction, cs = digits ++ '.' :: fraction ++ rest ∧
          (∀ c ∈ fraction, c.isDigit = true) ∧ ∀ c ∈ rest.head?, c.isDigit = false) := by
  obtain ⟨digits, rest, rfl, hdigits, hrest⟩ := exists_run Char.isDigit cs
  by_cases hpoint : rest.head? = some '.'
  · obtain ⟨tail, rfl⟩ := List.head?_eq_some_iff.mp hpoint
    obtain ⟨fraction, others, rfl, hfraction, hothers⟩ := exists_run Char.isDigit tail
    exact ⟨digits, others, hdigits, .inr ⟨fraction, by simp, hfraction, hothers⟩⟩
  · refine ⟨digits, rest, hdigits, .inl ⟨rfl, ?_⟩⟩
    intro c hc
    refine ⟨hrest c hc, ?_⟩
    rintro rfl
    exact hpoint hc

theorem number_whole {digits tail : List Char} (hdigits : ∀ c ∈ digits, c.isDigit = true)
    (htail : ∀ c ∈ tail.head?, c.isDigit = false ∧ c ≠ '.') :
    number (digits ++ tail) = ⟨some .number, digits.length⟩ := by
  have hrun := run_append hdigits fun c hc => (htail c hc).1
  simp only [number, hrun, List.drop_left]
  cases tail with
  | nil => rfl
  | cons c tail => simp [(htail c rfl).2]

/-- A number with a decimal point, which is spoiled if there are no digits behind it. -/
theorem number_point {digits fraction tail : List Char} (hdigits : ∀ c ∈ digits, c.isDigit = true)
    (hfraction : ∀ c ∈ fraction, c.isDigit = true) (htail : ∀ c ∈ tail.head?, c.isDigit = false) :
    number (digits ++ '.' :: fraction ++ tail) =
      ⟨some (if fraction = [] then .invalid else .number), (digits ++ '.' :: fraction).length⟩ := by
  have hwhole : run Char.isDigit (digits ++ '.' :: (fraction ++ tail)) = digits.length :=
    run_append hdigits (by simp)
  have hrun := run_append hfraction htail
  rw [List.append_assoc, List.cons_append]
  simp only [number, hwhole, List.drop_left, hrun, List.length_append, List.length_cons]
  cases fraction <;> simp [Nat.add_assoc, Nat.add_comm 1]

/-! ## Pieces -/

/-- The ways in which a piece goes on after its first character. -/
inductive Continues : (List Char → Piece) → Prop where
  | fixed (kind : Option Kind) (hkind : kind ≠ some .eof) : Continues fun _ => ⟨kind, 0⟩
  | run (kind : Kind) (p : Char → Bool) (hkind : kind ≠ .eof)
      (hp : ∀ c ∈ separators, p c = false) : Continues fun cs => ⟨some kind, run p cs⟩
  | comparison (alone doubled : Kind) (halone : alone ≠ .eof) (hdoubled : doubled ≠ .eof) :
      Continues (comparison alone doubled)
  | quoted : Continues quoted
  | number : Continues number

/-- The first characters with a case of their own. -/
def signs : List Char :=
  ['(', ')', ',', ' ', '\t', '\r', '\n', ':', '"', '+', '-', '*', '/', '!', '=', '>', '<']

theorem not_isLetter_of_mem_signs {c : Char} (h : c ∈ signs) : Text.isLetter c = false := by
  have hall : signs.all (fun c => !Text.isLetter c) = true := by decide
  simpa using List.all_eq_true.mp hall c h

theorem not_isDigit_of_mem_signs {c : Char} (h : c ∈ signs) : c.isDigit = false := by
  have hall : signs.all (fun c => !c.isDigit) = true := by decide
  simpa using List.all_eq_true.mp hall c h

theorem piece_of_not_sign {c : Char} (h : c ∉ signs) (cs : List Char) :
    piece c cs =
      if Text.isLetter c then ⟨some .name, run Text.isLetter cs⟩
      else if c.isDigit then number cs
      else ⟨some .invalid, 0⟩ := by
  simp only [signs, List.mem_cons, List.not_mem_nil, or_false, not_or] at h
  simp [piece, h]

theorem continues_sign : ∀ c ∈ signs, Continues (piece c) := by
  simp only [signs, List.forall_mem_cons]
  exact ⟨.fixed (some .leftParen) (by decide), .fixed (some .rightParen) (by decide),
    .fixed none (by decide), .fixed none (by decide), .fixed none (by decide),
    .fixed none (by decide), .fixed none (by decide),
    .run .keyword (fun c => !endsKeyword c) (by decide) (forall_separators (by decide)), .quoted,
    .fixed (some .plus) (by decide), .fixed (some .minus) (by decide),
    .fixed (some .star) (by decide), .fixed (some .slash) (by decide),
    .comparison .bang .bangEqual (by decide) (by decide),
    .comparison .equal .equalEqual (by decide) (by decide),
    .comparison .greater .greaterEqual (by decide) (by decide),
    .comparison .less .lessEqual (by decide) (by decide), List.forall_mem_nil _⟩

/-- The first character alone settles how a piece goes on. -/
theorem continues_piece (c : Char) : Continues (piece c) := by
  by_cases hsign : c ∈ signs
  · exact continues_sign c hsign
  rw [funext (piece_of_not_sign hsign)]
  by_cases hletter : Text.isLetter c = true
  · simp only [hletter, if_true]
    exact .run .name Text.isLetter (by decide) (forall_separators (by decide))
  · by_cases hdigit : c.isDigit = true
    · simp only [hletter, hdigit, if_true]
      exact .number
    · simp only [hletter, hdigit]
      exact .fixed (some .invalid) (by decide)

theorem kind_piece_ne_eof (c : Char) (cs : List Char) : (piece c cs).kind ≠ some .eof := by
  have hc := continues_piece c
  generalize piece c = following at hc
  cases hc with
  | fixed kind hkind => exact hkind
  | run kind p hkind => simpa using hkind
  | comparison alone doubled halone hdoubled =>
    unfold comparison
    split <;> simpa
  | quoted =>
    unfold quoted
    split <;> simp
  | number =>
    unfold number
    dsimp only
    split
    · split <;> simp
    · simp

/-- What may follow a piece in place of the rest of its text: something that starts as the rest
does or with a separator, or nothing. -/
def Boundary (rest other : List Char) : Prop :=
  ∀ c ∈ other.head?, c ∈ separators ∨ c ∈ rest.head?

theorem Boundary.refl (rest : List Char) : Boundary rest rest := fun _ hc => .inr hc

theorem Boundary.nil (rest : List Char) : Boundary rest [] :=
  fun c hc => absurd hc (Option.not_mem_none c)

theorem Boundary.of_rest {rest other : List Char} (h : Boundary rest other) {p : Char → Prop}
    (hrest : ∀ c ∈ rest.head?, p c) (hseparators : ∀ c ∈ separators, p c) :
    ∀ c ∈ other.head?, p c :=
  fun c hc => (h c hc).elim (hseparators c) (hrest c)

/-- A piece that becomes a token consists of the same characters whatever follows its boundary. -/
def SelfDelimiting (following : List Char → Piece) : Prop :=
  ∀ cs kind, (following cs).kind = some kind →
    ∃ body rest, cs = body ++ rest ∧
      ∀ other, Boundary rest other → following (body ++ other) = ⟨some kind, body.length⟩

theorem selfDelimiting_run (kind : Kind) {p : Char → Bool} (hp : ∀ c ∈ separators, p c = false) :
    SelfDelimiting fun cs => ⟨some kind, run p cs⟩ := by
  rintro cs _ ⟨rfl⟩
  obtain ⟨body, rest, rfl, hbody, hrest⟩ := exists_run p cs
  refine ⟨body, rest, rfl, ?_⟩
  intro other hother
  simp only [run_append hbody (hother.of_rest hrest hp)]

theorem comparison_alone (alone doubled : Kind) {cs : List Char} (h : ∀ c ∈ cs.head?, c ≠ '=') :
    comparison alone doubled cs = ⟨some alone, 0⟩ := by
  unfold comparison
  split
  · exact absurd rfl (h '=' rfl)
  · rfl

theorem selfDelimiting_comparison (alone doubled : Kind) :
    SelfDelimiting (comparison alone doubled) := by
  intro cs kind h
  by_cases hequals : cs.head? = some '='
  · obtain ⟨rest, rfl⟩ := List.head?_eq_some_iff.mp hequals
    cases h
    exact ⟨['='], rest, rfl, fun other _ => rfl⟩
  · have hhead : ∀ c ∈ cs.head?, c ≠ '=' := by
      rintro c hc rfl
      exact hequals hc
    rw [comparison_alone alone doubled hhead] at h
    cases h
    exact ⟨[], cs, rfl, fun other hother =>
      comparison_alone alone doubled (hother.of_rest hhead (forall_separators (by decide)))⟩

theorem selfDelimiting_quoted : SelfDelimiting quoted := by
  intro cs kind h
  cases hclose : closingQuote cs with
  | none => simp [quoted, hclose] at h
  | some extra =>
    obtain rfl : .string = kind := by simpa [quoted, hclose] using h
    obtain ⟨body, rest, rfl, hother⟩ := closingQuote_eq_some hclose
    refine ⟨body ++ ['"'], rest, by simp, ?_⟩
    intro other _
    simp [quoted, hother]

theorem selfDelimiting_number : SelfDelimiting number := by
  intro cs kind h
  obtain ⟨digits, rest, hdigits, ⟨rfl, hrest⟩ | ⟨fraction, rfl, hfraction, hrest⟩⟩ :=
    exists_digits cs
  · rw [number_whole hdigits hrest] at h
    cases h
    exact ⟨digits, rest, rfl, fun other hother =>
      number_whole hdigits (hother.of_rest hrest (forall_separators (by decide)))⟩
  · rw [number_point hdigits hfraction hrest] at h
    cases h
    exact ⟨digits ++ '.' :: fraction, rest, rfl, fun other hother =>
      number_point hdigits hfraction (hother.of_rest hrest (forall_separators (by decide)))⟩

theorem selfDelimiting_piece (c : Char) : SelfDelimiting (piece c) := by
  have hc := continues_piece c
  generalize piece c = following at hc
  cases hc with
  | fixed kind => exact fun cs _ h => ⟨[], cs, rfl, fun _ _ => congrArg (Piece.mk · 0) h⟩
  | run kind p _ hp => exact selfDelimiting_run kind hp
  | comparison alone doubled => exact selfDelimiting_comparison alone doubled
  | quoted => exact selfDelimiting_quoted
  | number => exact selfDelimiting_number

/-! ## Tokens in their text -/

/-- A text that is one piece, which becomes a token of the given kind. -/
def IsLexeme (kind : Kind) : List Char → Prop
  | [] => False
  | c :: cs => piece c cs = ⟨some kind, cs.length⟩

theorem IsLexeme.unique {kind kind' : Kind} {word : List Char} (h : IsLexeme kind word)
    (h' : IsLexeme kind' word) : kind = kind' := by
  cases word with
  | nil => exact h.elim
  | cons c cs => simpa using congrArg Piece.kind (h.symm.trans h')

theorem IsLexeme.ne_eof {kind : Kind} {word : List Char} (h : IsLexeme kind word) :
    kind ≠ .eof := by
  cases word with
  | nil => exact h.elim
  | cons c cs =>
    rintro rfl
    exact kind_piece_ne_eof c cs (congrArg Piece.kind h)

/-- What is cut out of a text is a piece on its own. -/
theorem isLexeme_of_piece {c : Char} {cs : List Char} {kind : Kind}
    (h : (piece c cs).kind = some kind) : IsLexeme kind (c :: cs.take (piece c cs).extra) := by
  obtain ⟨body, rest, rfl, hsame⟩ := selfDelimiting_piece c cs kind h
  rw [hsame rest (.refl rest), List.take_left]
  simpa [IsLexeme] using hsame [] (.nil rest)

theorem IsLexeme.piece_append {kind : Kind} {c : Char} {cs other : List Char}
    (h : IsLexeme kind (c :: cs)) (hother : ∀ s ∈ other.head?, s ∈ separators) :
    piece c (cs ++ other) = ⟨some kind, cs.length⟩ := by
  obtain ⟨body, rest, rfl, hsame⟩ := selfDelimiting_piece c cs kind (congrArg Piece.kind h)
  -- The piece is all of the text, so nothing of the text is behind it.
  obtain rfl : rest = [] := by
    have hlength := congrArg Piece.extra (h.symm.trans (hsame rest (.refl rest)))
    simpa using hlength
  rw [List.append_nil]
  exact hsame other fun s hs => .inl (hother s hs)

theorem IsLexeme.scanFrom_append {kind : Kind} {word other : List Char} (h : IsLexeme kind word)
    (hother : ∀ s ∈ other.head?, s ∈ separators) (line : Nat) :
    scanFrom line (word ++ other) =
      ⟨kind, String.ofList word, line + word.count '\n'⟩ ::
        scanFrom (line + word.count '\n') other := by
  cases word with
  | nil => exact h.elim
  | cons c cs =>
    simp only [List.cons_append, scanFrom, h.piece_append hother, List.take_left, List.drop_left]

theorem IsLexeme.scanFrom_eq {kind : Kind} {word : List Char} (h : IsLexeme kind word)
    (line : Nat) :
    scanFrom line word =
      [⟨kind, String.ofList word, line + word.count '\n'⟩, endOn (line + word.count '\n')] := by
  have hnone : ∀ s ∈ ([] : List Char).head?, s ∈ separators := by simp
  have hscan := h.scanFrom_append hnone line
  rwa [List.append_nil, scanFrom] at hscan

theorem piece_separator : ∀ c ∈ separators, ∀ cs, piece c cs = ⟨none, 0⟩ :=
  forall_separators ⟨fun _ => rfl, fun _ => rfl, fun _ => rfl, fun _ => rfl, fun _ => rfl⟩

/-- Separators only move the line on. -/
theorem scanFrom_separators {gap : List Char} (hgap : ∀ c ∈ gap, c ∈ separators) (line : Nat)
    (cs : List Char) : scanFrom line (gap ++ cs) = scanFrom (line + gap.count '\n') cs := by
  induction gap generalizing line with
  | nil => rfl
  | cons c gap ih =>
    rw [List.forall_mem_cons] at hgap
    rw [List.cons_append, scanFrom, piece_separator c hgap.1]
    simp only [List.take_zero, List.drop_zero]
    rw [ih hgap.2, Nat.add_assoc, ← List.count_append, List.singleton_append]

/-- A text is scanned to tokens, each of which is a piece on its own, and an end. -/
theorem scanFrom_eq_append (line : Nat) (cs : List Char) :
    ∃ tokens last, scanFrom line cs = tokens ++ [endOn last] ∧
      ∀ token ∈ tokens, IsLexeme token.kind token.lexeme.toList := by
  fun_induction scanFrom line cs with
  | case1 line => exact ⟨[], line, rfl, List.forall_mem_nil _⟩
  | case2 line c cs found text next rest kind hkind ih =>
    obtain ⟨tokens, last, hrest, htokens⟩ := ih
    refine ⟨⟨kind, String.ofList text, next⟩ :: tokens, last, congrArg (List.cons _) hrest, ?_⟩
    rw [List.forall_mem_cons, String.toList_ofList]
    exact ⟨isLexeme_of_piece hkind, htokens⟩
  | case3 line c cs found text next rest hkind ih => exact ih

theorem isLexeme_of_mem_scan {source : String} {token : Token} (h : token ∈ scan source)
    (hrole : token.role ≠ .ending) : IsLexeme token.kind token.lexeme.toList := by
  obtain ⟨tokens, last, hscan, htokens⟩ := scanFrom_eq_append 1 source.toList
  rw [scan, hscan, List.mem_append, List.mem_singleton] at h
  rcases h with h | rfl
  · exact htokens token h
  · exact absurd rfl hrole

theorem withEnd_scan (source : String) : withEnd (scan source) = scan source := by
  obtain ⟨tokens, last, hscan, -⟩ := scanFrom_eq_append 1 source.toList
  rw [scan, hscan]
  simp [withEnd]

/-- A text that is scanned to a single token, other than a parenthesis, which is all of the text. -/
def IsAtomText (text : String) : Prop :=
  ∃ token line, scan text = [token, endOn line] ∧ token.lexeme = text ∧
    token.kind ≠ .leftParen ∧ token.kind ≠ .rightParen

theorem Kind.role_eq_atom_iff {kind : Kind} :
    kind.role = .atom ↔ kind ≠ .leftParen ∧ kind ≠ .rightParen ∧ kind ≠ .eof := by
  cases kind <;> decide

theorem isAtomText_iff {text : String} :
    IsAtomText text ↔ ∃ kind, IsLexeme kind text.toList ∧ kind.role = .atom := by
  constructor
  · rintro ⟨token, line, hscan, rfl, hleft, hright⟩
    obtain ⟨tokens, last, heq, htokens⟩ := scanFrom_eq_append 1 token.lexeme.toList
    have htoken : tokens ++ [endOn last] = [token] ++ [endOn line] := heq.symm.trans hscan
    obtain ⟨rfl, -⟩ := List.append_inj' htoken rfl
    have hlexeme := htokens token List.mem_cons_self
    exact ⟨token.kind, hlexeme, Kind.role_eq_atom_iff.mpr ⟨hleft, hright, hlexeme.ne_eof⟩⟩
  · rintro ⟨kind, hlexeme, hrole⟩
    obtain ⟨hleft, hright, -⟩ := Kind.role_eq_atom_iff.mp hrole
    exact ⟨_, _, hlexeme.scanFrom_eq 1, String.ofList_toList, hleft, hright⟩

theorem IsAtomText.role_eq {token : Token} (h : IsAtomText token.lexeme)
    (hlexeme : IsLexeme token.kind token.lexeme.toList) : token.role = .atom := by
  obtain ⟨kind, hkind, hrole⟩ := isAtomText_iff.mp h
  rw [role, hlexeme.unique hkind, hrole]

end SexprCompiler.Token
