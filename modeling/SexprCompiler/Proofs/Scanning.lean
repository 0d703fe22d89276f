import SexprCompiler.Proofs.Coverage

/-!
# Scanning with a position and a line

A scanner that holds the whole text, the start of the token that it is at, the next position and
the number of the line goes over the text character by character. It cuts a token out between the
start and the position when it has come to the token's end, and counts the line up in three
places: at a line feed between tokens, at one in a string, and at one that a backslash in a string
takes along. Whether a cut lies within the text and whether every line feed is counted once
depends on all that was passed before. One scan of a token is shown to pass exactly one piece and
to count the line feeds in it; that the tokens stand on stretches of the text with the lines of
their ends then holds at every position that the scanner comes to, and so at the end. The tokens
are those of cutting the text into pieces.
-/
namespace SexprCompiler.Token

structure Scanner where
  input : List Char
  start : Nat
  position : Nat
  line : Nat
  tokens : List Token

namespace Scanner

def ofSource (source : String) : Scanner := ⟨source.toList, 0, 0, 1, []⟩

def current? (scanner : Scanner) : Option Char := scanner.input[scanner.position]?

def moved (scanner : Scanner) : Scanner := { scanner with position := scanner.position + 1 }

def begun (scanner : Scanner) : Scanner := { scanner with start := scanner.position }

def nextLine (scanner : Scanner) : Scanner := { scanner with line := scanner.line + 1 }

/-- Moves on by one character, unless there is none. -/
def advance (scanner : Scanner) : Scanner :=
  if scanner.current?.isSome then scanner.moved else scanner

def accept? (expected : Char) (scanner : Scanner) : Option Scanner :=
  if scanner.current? = some expected then some scanner.moved else none

/-- Cuts a token out between the start and the position. There is no such cut if the position is
before the start or behind the end of the text. -/
def addToken? (kind : Kind) (scanner : Scanner) : Option Scanner :=
  if scanner.start ≤ scanner.position ∧ scanner.position ≤ scanner.input.length then
    let lexeme := String.ofList (scanner.input.extract scanner.start scanner.position)
    some { scanner with tokens := scanner.tokens ++ [⟨kind, lexeme, scanner.line⟩] }
  else none

theorem advance_lt {scanner : Scanner} {c : Char} (h : scanner.current? = some c) :
    scanner.input.length - scanner.advance.position < scanner.input.length - scanner.position := by
  have hlt : scanner.position < scanner.input.length := (List.getElem?_eq_some_iff.mp h).1
  simp only [advance, h, Option.isSome_some, if_true, moved]
  omega

theorem advance_le (scanner : Scanner) :
    scanner.input.length - scanner.advance.position ≤ scanner.input.length - scanner.position := by
  unfold advance
  split
  · exact Nat.sub_le_sub_left (Nat.le_succ _) _
  · exact Nat.le_refl _

@[simp] theorem input_advance (scanner : Scanner) : scanner.advance.input = scanner.input := by
  unfold advance
  split <;> rfl

/-- Moves on as long as the characters satisfy `p`. -/
def skipWhile (p : Char → Bool) (scanner : Scanner) : Scanner :=
  match _hc : scanner.current? with
  | some c => if p c then skipWhile p scanner.advance else scanner
  | none => scanner
termination_by scanner.input.length - scanner.position
decreasing_by
  rw [input_advance]
  exact advance_lt _hc

def scanKeyword? (scanner : Scanner) : Option Scanner :=
  (scanner.skipWhile fun c => !endsKeyword c).addToken? .keyword

def scanName? (scanner : Scanner) : Option Scanner :=
  (scanner.skipWhile Text.isLetter).addToken? .name

def scanComparison? (alone doubled : Kind) (scanner : Scanner) : Option Scanner :=
  match scanner.accept? '=' with
  | some next => next.addToken? doubled
  | none => scanner.addToken? alone

def scanNumber? (scanner : Scanner) : Option Scanner :=
  let whole := scanner.skipWhile Char.isDigit
  match whole.accept? '.' with
  | some point =>
    if point.current?.any Char.isDigit then (point.skipWhile Char.isDigit).addToken? .number
    else point.addToken? .invalid
  | none => whole.addToken? .number

/-- Scans a string after its opening quote. One that is never closed gives no token. -/
def scanString? (scanner : Scanner) : Option Scanner :=
  match _hc : scanner.current? with
  | some '"' => scanner.advance.addToken? .string
  | some '\\' =>
    let escaped := scanner.advance
    if escaped.current? = some '\n' then scanString? escaped.advance.nextLine
    else scanString? escaped.advance
  | some '\n' => scanString? scanner.nextLine.advance
  | some _ => scanString? scanner.advance
  | none => some scanner
termination_by scanner.input.length - scanner.position
decreasing_by
  · have hle := advance_le escaped
    have hlt := advance_lt _hc
    simp only [nextLine, escaped, input_advance] at hle ⊢
    omega
  · have hle := advance_le escaped
    have hlt := advance_lt _hc
    simp only [escaped, input_advance] at hle ⊢
    omega
  · rw [input_advance]
    exact @advance_lt scanner.nextLine _ _hc
  · rw [input_advance]
    exact advance_lt _hc

def scanFirst? (c : Char) (scanner : Scanner) : Option Scanner :=
  match c with
  | '(' => scanner.addToken? .leftParen
  | ')' => scanner.addToken? .rightParen
  | ':' => scanner.scanKeyword?
  | ',' => some scanner
  | '+' => scanner.addToken? .plus
  | '-' => scanner.addToken? .minus
  | '*' => scanner.addToken? .star
  | '/' => scanner.addToken? .slash
  | '!' => scanner.scanComparison? .bang .bangEqual
  | '=' => scanner.scanComparison? .equal .equalEqual
  | '>' => scanner.scanComparison? .greater .greaterEqual
  | '<' => scanner.scanComparison? .less .lessEqual
  | ' ' | '\t' | '\r' => some scanner
  | '\n' => some scanner.nextLine
  | '"' => scanner.scanString?
  | c =>
    if Text.isLetter c then scanner.scanName?
    else if c.isDigit then scanner.scanNumber?
    else scanner.addToken? .invalid

def scanToken? (scanner : Scanner) : Option Scanner :=
  match scanner.current? with
  | some c => scanner.advance.scanFirst? c
  | none => some scanner

/-! ## Passing characters -/

def left (scanner : Scanner) : List Char := scanner.input.drop scanner.position

/-- The scanner after so many more characters, with the line feeds among them counted. -/
def passed (scanner : Scanner) (count : Nat) : Scanner :=
  { scanner with
    position := scanner.position + count
    line := scanner.line + (scanner.left.take count).count '\n' }

@[simp] theorem left_passed (scanner : Scanner) (count : Nat) :
    (scanner.passed count).left = scanner.left.drop count := by
  simp [left, passed]

@[simp] theorem passed_zero (scanner : Scanner) : scanner.passed 0 = scanner := by
  simp [passed]

@[simp] theorem passed_passed (scanner : Scanner) (count more : Nat) :
    (scanner.passed count).passed more = scanner.passed (count + more) := by
  simp only [passed, mk.injEq, true_and, and_true]
  refine ⟨Nat.add_assoc .., ?_⟩
  change scanner.line + _ + ((scanner.passed count).left.take more).count '\n' = _
  rw [left_passed, List.take_add, List.count_append, Nat.add_assoc]

theorem current?_eq (scanner : Scanner) : scanner.current? = scanner.left.head? := by
  rw [current?, left, List.head?_drop]

theorem current?_eq_some_iff {scanner : Scanner} {c : Char} :
    scanner.current? = some c ↔ ∃ rest, scanner.left = c :: rest := by
  rw [current?_eq, List.head?_eq_some_iff]

section

variable {scanner : Scanner} {c : Char} {rest : List Char}

theorem advance_of_current (h : scanner.current? = some c) : scanner.advance = scanner.moved := by
  simp [advance, h]

theorem advance_of_nil (h : scanner.left = []) : scanner.advance = scanner := by
  simp [advance, current?_eq, h]

/-- A character that is no line feed is passed by moving on. -/
theorem moved_eq (h : scanner.left = c :: rest) (hc : c ≠ '\n') :
    scanner.moved = scanner.passed 1 := by
  simp [moved, passed, h, hc]

theorem advance_eq (h : scanner.left = c :: rest) (hc : c ≠ '\n') :
    scanner.advance = scanner.passed 1 :=
  (advance_of_current (current?_eq_some_iff.mpr ⟨rest, h⟩)).trans (moved_eq h hc)

theorem left_passed_one (h : scanner.left = c :: rest) : (scanner.passed 1).left = rest := by
  rw [left_passed, h, List.drop_one, List.tail_cons]

/-- A line feed is passed by moving on and counting the line up. -/
theorem moved_nextLine (h : scanner.left = '\n' :: rest) :
    scanner.moved.nextLine = scanner.passed 1 := by
  simp [moved, passed, nextLine, h]

theorem accept?_eq_some (hc : c ≠ '\n') (h : scanner.left = c :: rest) :
    scanner.accept? c = some (scanner.passed 1) := by
  have hcurrent : scanner.current? = some c := current?_eq_some_iff.mpr ⟨rest, h⟩
  rw [accept?, if_pos hcurrent, moved_eq h hc]

theorem accept?_eq_none (h : scanner.left.head? ≠ some c) : scanner.accept? c = none := by
  rw [accept?, current?_eq, if_neg h]

end

/-! ## Pieces -/

/-- Passes a piece and adds its token. -/
def taken? (scanner : Scanner) (found : Piece) : Option Scanner :=
  match found.kind with
  | some kind => (scanner.passed found.extra).addToken? kind
  | none => some (scanner.passed found.extra)

theorem taken?_passed (scanner : Scanner) (count : Nat) (kind : Option Kind) (extra : Nat) :
    (scanner.passed count).taken? ⟨kind, extra⟩ = scanner.taken? ⟨kind, count + extra⟩ := by
  simp [taken?]

theorem skipWhile_eq {p : Char → Bool} (hp : p '\n' = false) (scanner : Scanner) :
    scanner.skipWhile p = scanner.passed (run p scanner.left) := by
  fun_induction skipWhile p scanner with
  | case1 scanner c hcurrent hc ih =>
    obtain ⟨rest, hleft⟩ := current?_eq_some_iff.mp hcurrent
    have hne : c ≠ '\n' := by
      rintro rfl
      simp [hp] at hc
    rw [ih, advance_eq hleft hne, left_passed_one hleft, passed_passed, hleft]
    simp [run, hc, Nat.add_comm]
  | case2 scanner c hcurrent hc =>
    obtain ⟨rest, hleft⟩ := current?_eq_some_iff.mp hcurrent
    simp [run, hleft, hc]
  | case3 scanner hcurrent =>
    rw [current?_eq, List.head?_eq_none_iff] at hcurrent
    simp [run, hcurrent]

theorem scanRun?_eq {p : Char → Bool} (hp : p '\n' = false) (kind : Kind) (scanner : Scanner) :
    (scanner.skipWhile p).addToken? kind = scanner.taken? ⟨some kind, run p scanner.left⟩ := by
  rw [skipWhile_eq hp]
  rfl

theorem addToken?_eq (kind : Kind) (scanner : Scanner) :
    scanner.addToken? kind = scanner.taken? ⟨some kind, 0⟩ := by
  simp [taken?]

theorem scanComparison?_eq (alone doubled : Kind) (scanner : Scanner) :
    scanner.scanComparison? alone doubled =
      scanner.taken? (comparison alone doubled scanner.left) := by
  by_cases hequal : scanner.left.head? = some '='
  · obtain ⟨rest, hleft⟩ := List.head?_eq_some_iff.mp hequal
    rw [scanComparison?, accept?_eq_some (by decide) hleft, hleft]
    rfl
  · rw [scanComparison?, accept?_eq_none hequal, comparison_alone]
    · exact addToken?_eq alone scanner
    · rintro c hc rfl
      exact hequal hc

theorem scanNumber?_eq (scanner : Scanner) :
    scanner.scanNumber? = scanner.taken? (number scanner.left) := by
  obtain ⟨digits, rest, hdigits, ⟨hleft, hrest⟩ | ⟨fraction, hleft, hfraction, hrest⟩⟩ :=
    exists_digits scanner.left
  · have hwhole : scanner.skipWhile Char.isDigit = scanner.passed digits.length := by
      rw [skipWhile_eq (by decide), hleft, run_append hdigits fun c hc => (hrest c hc).1]
    have hnone : (scanner.passed digits.length).accept? '.' = none := by
      refine accept?_eq_none fun hpoint => ?_
      rw [left_passed, hleft, List.drop_left] at hpoint
      exact (hrest '.' hpoint).2 rfl
    rw [hleft, number_whole hdigits hrest, scanNumber?, hwhole]
    simp only [hnone, taken?]
  · have hwhole : scanner.skipWhile Char.isDigit = scanner.passed digits.length := by
      rw [skipWhile_eq (by decide), hleft, List.append_assoc, run_append hdigits (by simp)]
    have hpoint : (scanner.passed digits.length).left = '.' :: (fraction ++ rest) := by
      rw [left_passed, hleft, List.append_assoc, List.drop_left, List.cons_append]
    have hsome := accept?_eq_some (by decide) hpoint
    have hbehind : (scanner.passed (digits.length + 1)).left = fraction ++ rest := by
      rw [← passed_passed, left_passed_one hpoint]
    rw [hleft, number_point hdigits hfraction hrest, scanNumber?, hwhole]
    simp only [hsome, passed_passed, current?_eq, hbehind]
    cases fraction with
    | nil =>
      have hdigit : rest.head?.any Char.isDigit = false := by
        cases rest with
        | nil => rfl
        | cons c rest => exact hrest c rfl
      simp [hdigit, taken?]
    | cons c fraction =>
      have hskip :=
        skipWhile_eq (p := Char.isDigit) (by decide) (scanner.passed (digits.length + 1))
      rw [hbehind, run_append hfraction hrest, passed_passed] at hskip
      rw [hskip]
      simp [hfraction c List.mem_cons_self, taken?, Nat.add_assoc, Nat.add_comm 1]

/-! ## Strings -/

theorem quoted_cons {c : Char} (hquote : c ≠ '"') (hslash : c ≠ '\\') (cs : List Char) :
    quoted (c :: cs) = ⟨(quoted cs).kind, 1 + (quoted cs).extra⟩ := by
  unfold quoted
  rw [closingQuote_cons hquote hslash]
  cases closingQuote cs <;> simp [Nat.add_comm]

theorem quoted_pair (c : Char) (cs : List Char) :
    quoted ('\\' :: c :: cs) = ⟨(quoted cs).kind, 2 + (quoted cs).extra⟩ := by
  unfold quoted
  rw [closingQuote]
  cases closingQuote cs with
  | none => simp [Nat.add_comm 2]
  | some extra => simp [Nat.add_comm 2]

/-- Scanning a string can start over behind characters that do not close it. -/
theorem taken?_quoted (taken : List Char) {rest : List Char} {scanner : Scanner}
    (hleft : scanner.left = taken ++ rest)
    (h : quoted (taken ++ rest) = ⟨(quoted rest).kind, taken.length + (quoted rest).extra⟩) :
    (scanner.passed taken.length).taken? (quoted (scanner.passed taken.length).left) =
      scanner.taken? (quoted scanner.left) := by
  rw [left_passed, hleft, List.drop_left, h, ← taken?_passed]

theorem scanString?_eq (scanner : Scanner) :
    scanner.scanString? = scanner.taken? (quoted scanner.left) := by
  fun_induction scanString? scanner with
  | case1 scanner hcurrent =>
    obtain ⟨rest, hleft⟩ := current?_eq_some_iff.mp hcurrent
    rw [advance_eq hleft (by decide), hleft]
    rfl
  | case2 scanner hcurrent escaped hescaped ih =>
    obtain ⟨rest, hleft⟩ := current?_eq_some_iff.mp hcurrent
    have hpassed : escaped = scanner.passed 1 := advance_eq hleft (by decide)
    obtain ⟨others, hrest⟩ := current?_eq_some_iff.mp hescaped
    rw [ih, advance_of_current hescaped, moved_nextLine hrest, hpassed, passed_passed]
    rw [hpassed, left_passed_one hleft] at hrest
    subst hrest
    exact taken?_quoted ['\\', '\n'] hleft (quoted_pair '\n' others)
  | case3 scanner hcurrent escaped hescaped ih =>
    obtain ⟨rest, hleft⟩ := current?_eq_some_iff.mp hcurrent
    have hpassed : escaped = scanner.passed 1 := advance_eq hleft (by decide)
    have hrest : escaped.left = rest := by rw [hpassed, left_passed_one hleft]
    rw [ih]
    cases rest with
    | nil =>
      -- The backslash is the last character, and there is none that it could take along.
      rw [advance_of_nil hrest, hrest, hpassed, hleft]
      rfl
    | cons c others =>
      have hc : c ≠ '\n' := by
        rintro rfl
        exact hescaped (current?_eq_some_iff.mpr ⟨others, hrest⟩)
      rw [advance_eq hrest hc, hpassed, passed_passed]
      exact taken?_quoted ['\\', c] hleft (quoted_pair c others)
  | case4 scanner hcurrent ih =>
    obtain ⟨rest, hleft⟩ := current?_eq_some_iff.mp hcurrent
    have hpassed : scanner.nextLine.advance = scanner.passed 1 :=
      (@advance_of_current scanner.nextLine '\n' hcurrent).trans (moved_nextLine hleft)
    rw [ih, hpassed]
    exact taken?_quoted ['\n'] hleft (quoted_cons (by decide) (by decide) rest)
  | case5 scanner c hquote hslash hline hcurrent ih =>
    obtain ⟨rest, hleft⟩ := current?_eq_some_iff.mp hcurrent
    rw [ih, advance_eq hleft hline]
    exact taken?_quoted [c] hleft (quoted_cons hquote hslash rest)
  | case6 scanner hcurrent =>
    rw [current?_eq, List.head?_eq_none_iff] at hcurrent
    simp [hcurrent, quoted, closingQuote, taken?]

/-! ## One token -/

/-- Behind a sign that is no line feed the rest of its piece is scanned. -/
theorem scanFirst?_sign (scanner : Scanner) :
    ∀ c ∈ signs, c ≠ '\n' → scanner.scanFirst? c = scanner.taken? (piece c scanner.left) := by
  have hskip : some scanner = scanner.taken? ⟨none, 0⟩ := by simp [taken?]
  simp only [signs, List.forall_mem_cons]
  exact ⟨fun _ => addToken?_eq _ _, fun _ => addToken?_eq _ _, fun _ => hskip, fun _ => hskip,
    fun _ => hskip, fun _ => hskip, fun h => absurd rfl h, fun _ => scanRun?_eq (by decide) _ _,
    fun _ => scanString?_eq _, fun _ => addToken?_eq _ _, fun _ => addToken?_eq _ _,
    fun _ => addToken?_eq _ _, fun _ => addToken?_eq _ _, fun _ => scanComparison?_eq _ _ _,
    fun _ => scanComparison?_eq _ _ _, fun _ => scanComparison?_eq _ _ _,
    fun _ => scanComparison?_eq _ _ _, List.forall_mem_nil _⟩

theorem scanFirst?_of_not_sign {c : Char} (h : c ∉ signs) (scanner : Scanner) :
    scanner.scanFirst? c =
      if Text.isLetter c then scanner.scanName?
      else if c.isDigit then scanner.scanNumber?
      else scanner.addToken? .invalid := by
  simp only [signs, List.mem_cons, List.not_mem_nil, or_false, not_or] at h
  simp [scanFirst?, h]

theorem scanFirst?_eq {c : Char} (hc : c ≠ '\n') (scanner : Scanner) :
    scanner.scanFirst? c = scanner.taken? (piece c scanner.left) := by
  by_cases hsign : c ∈ signs
  · exact scanFirst?_sign scanner c hsign hc
  rw [scanFirst?_of_not_sign hsign, piece_of_not_sign hsign]
  split
  · exact scanRun?_eq (by decide) _ _
  · split
    · exact scanNumber?_eq scanner
    · exact addToken?_eq _ scanner

/-- A scan of a token passes the piece at the position, with all its line feeds counted, and then
adds the piece's token. -/
theorem scanToken?_eq {scanner : Scanner} {c : Char} {rest : List Char}
    (hleft : scanner.left = c :: rest) :
    scanner.scanToken? = (scanner.passed 1).taken? (piece c rest) := by
  have hcurrent : scanner.current? = some c := current?_eq_some_iff.mpr ⟨rest, hleft⟩
  simp only [scanToken?, hcurrent]
  by_cases hc : c = '\n'
  · subst hc
    rw [advance_of_current hcurrent]
    change some scanner.moved.nextLine = some ((scanner.passed 1).passed 0)
    rw [moved_nextLine hleft, passed_zero]
  · rw [advance_eq hleft hc, scanFirst?_eq hc, left_passed_one hleft]

/-- The scanner has gone on over a text to `next` and added a token of the given kind, if any. -/
structure Takes (scanner : Scanner) (kind : Option Kind) (text : List Char) (next : Scanner) :
    Prop where
  input : next.input = scanner.input
  position : next.position = scanner.position + text.length
  line : next.line = scanner.line + text.count '\n'
  tokens : next.tokens = scanner.tokens ++ (kind.map (⟨·, String.ofList text, next.line⟩)).toList

theorem extra_piece_le (c : Char) (cs : List Char) : (piece c cs).extra ≤ cs.length := by
  cases hkind : (piece c cs).kind with
  | none =>
    rcases separator_or_unclosed hkind with ⟨-, hextra⟩ | ⟨-, -, hextra⟩
    · exact hextra ▸ Nat.zero_le _
    · exact Nat.le_of_eq hextra
  | some kind =>
    obtain ⟨body, rest, rfl, hsame⟩ := selfDelimiting_piece c cs kind hkind
    rw [hsame rest (.refl rest), List.length_append]
    exact Nat.le_add_right _ _

/-- What was passed from the start on is cut out. -/
theorem exists_taken? {scanner : Scanner} {text rest : List Char}
    (hleft : scanner.left = text ++ rest) (htext : text ≠ []) (kind : Option Kind) :
    ∃ next, scanner.begun.taken? ⟨kind, text.length⟩ = some next ∧
      scanner.Takes kind text next := by
  have htake : scanner.left.take text.length = text := by rw [hleft, List.take_left]
  have hcut : scanner.input.extract scanner.position (scanner.position + text.length) = text := by
    rw [List.extract_eq_take_drop, Nat.add_sub_cancel_left, ← left, htake]
  have hline : (scanner.begun.passed text.length).line = scanner.line + text.count '\n' :=
    congrArg (fun text => scanner.line + List.count '\n' text) htake
  cases kind with
  | none => exact ⟨_, rfl, rfl, rfl, hline, (List.append_nil _).symm⟩
  | some kind =>
    have hlength := congrArg List.length hleft
    have hpos := List.length_pos_of_ne_nil htext
    rw [left, List.length_drop, List.length_append] at hlength
    have hwithin : scanner.position + text.length ≤ scanner.input.length := by omega
    refine ⟨_, if_pos ⟨Nat.le_add_right _ _, hwithin⟩, rfl, rfl, hline, ?_⟩
    have htoken := congrArg (fun lexeme => Token.mk kind (String.ofList lexeme)
      (scanner.begun.passed text.length).line) hcut
    exact congrArg (fun token => scanner.tokens ++ [token]) htoken

theorem left_eq_append {scanner : Scanner} {c : Char} {rest : List Char}
    (hleft : scanner.left = c :: rest) (count : Nat) :
    scanner.left = (c :: rest.take count) ++ rest.drop count := by
  rw [hleft, List.cons_append, List.take_append_drop]

theorem exists_scanToken? {scanner : Scanner} {c : Char} {rest : List Char}
    (hleft : scanner.left = c :: rest) :
    ∃ next, scanner.begun.scanToken? = some next ∧
      scanner.Takes (piece c rest).kind (c :: rest.take (piece c rest).extra) next := by
  have hlength : (c :: rest.take (piece c rest).extra).length = 1 + (piece c rest).extra := by
    rw [List.length_cons, List.length_take_of_le (extra_piece_le c rest), Nat.add_comm]
  have htaken := exists_taken? (left_eq_append hleft (piece c rest).extra) (List.cons_ne_nil _ _)
    (piece c rest).kind
  rw [hlength] at htaken
  rwa [@scanToken?_eq scanner.begun c rest hleft, taken?_passed]

theorem Takes.left_eq {scanner next : Scanner} {kind : Option Kind} {text rest : List Char}
    (h : scanner.Takes kind text next) (hleft : scanner.left = text ++ rest) :
    next.left = rest := by
  rw [left, h.input, h.position, ← List.drop_drop, ← left, hleft, List.drop_left]

/-! ## The whole text -/

theorem exists_left {scanner : Scanner} (h : scanner.position < scanner.input.length) :
    ∃ c rest, scanner.left = c :: rest :=
  ⟨_, _, List.drop_eq_getElem_cons h⟩

/-- Before the end of the text a scan of a token never fails. -/
theorem scanToken?_ne_none {scanner : Scanner} (h : scanner.position < scanner.input.length) :
    scanner.begun.scanToken? ≠ none := by
  obtain ⟨c, rest, hleft⟩ := exists_left h
  obtain ⟨next, hnext, -⟩ := exists_scanToken? hleft
  rw [hnext]
  exact Option.some_ne_none next

theorem takes_of_scanToken? {scanner next : Scanner}
    (h : scanner.position < scanner.input.length) (hnext : scanner.begun.scanToken? = some next) :
    ∃ c rest, scanner.left = c :: rest ∧
      scanner.Takes (piece c rest).kind (c :: rest.take (piece c rest).extra) next := by
  obtain ⟨c, rest, hleft⟩ := exists_left h
  obtain ⟨taken, htaken, htakes⟩ := exists_scanToken? hleft
  obtain rfl : taken = next := Option.some.inj (htaken.symm.trans hnext)
  exact ⟨c, rest, hleft, htakes⟩

theorem position_lt_of_scanToken? {scanner next : Scanner}
    (h : scanner.position < scanner.input.length) (hnext : scanner.begun.scanToken? = some next) :
    next.input.length - next.position < scanner.input.length - scanner.position := by
  obtain ⟨c, rest, -, htakes⟩ := takes_of_scanToken? h hnext
  rw [htakes.input, htakes.position, List.length_cons]
  omega

/-- Scans token after token up to the end of the text. -/
def run? (scanner : Scanner) : Option (List Token) :=
  if _hlt : scanner.position < scanner.input.length then
    match _hnext : scanner.begun.scanToken? with
    | some next => run? next
    | none => none
  else some (scanner.tokens ++ [endOn scanner.line])
termination_by scanner.input.length - scanner.position
decreasing_by exact position_lt_of_scanToken? _hlt _hnext

/-- The tokens are those of cutting what is left into pieces. -/
theorem run?_eq (scanner : Scanner) :
    scanner.run? = some (scanner.tokens ++ scanFrom scanner.line scanner.left) := by
  fun_induction run? scanner with
  | case1 scanner hlt next hnext ih =>
    obtain ⟨c, rest, hleft, htakes⟩ := takes_of_scanToken? hlt hnext
    have hrest : next.left = rest.drop (piece c rest).extra :=
      htakes.left_eq (left_eq_append hleft _)
    rw [ih, htakes.tokens, hrest, htakes.line, hleft, scanFrom, List.append_assoc]
    cases (piece c rest).kind <;> rfl
  | case2 scanner hlt hnext => exact absurd hnext (scanToken?_ne_none hlt)
  | case3 scanner hlt =>
    rw [left, List.drop_eq_nil_of_le (Nat.le_of_not_lt hlt), scanFrom]

/-- Between two scans of a token: the lines before the position are counted, and the tokens found so
far cover the text up to the position, or up to a string that is not closed if that is the end. -/
structure Sound (scanner : Scanner) (spans : List Span) (unread : Nat) : Prop where
  position_le : scanner.position ≤ scanner.input.length
  line : scanner.line = 1 + (scanner.input.take scanner.position).count '\n'
  covers : Covers scanner.input scanner.tokens spans unread
  unread : unread = scanner.position ∨ scanner.position = scanner.input.length ∧
    ∃ rest, scanner.input.drop unread = '"' :: rest ∧ Unclosed rest

theorem sound_ofSource (source : String) : (ofSource source).Sound [] 0 where
  position_le := Nat.zero_le _
  line := rfl
  covers := covers_nil _
  unread := .inl rfl

section

variable {scanner next : Scanner} {kind : Option Kind} {text rest : List Char} {spans : List Span}
  {unread : Nat}

theorem Takes.take_position (h : scanner.Takes kind text next)
    (hleft : scanner.left = text ++ rest) :
    next.input.take next.position = scanner.input.take scanner.position ++ text := by
  rw [h.input, h.position, List.take_add, ← left, hleft, List.take_left]

theorem Takes.position_le (h : scanner.Takes kind text next) (hleft : scanner.left = text ++ rest)
    (hle : scanner.position ≤ scanner.input.length) : next.position ≤ next.input.length := by
  have hlength := congrArg List.length hleft
  rw [left, List.length_drop, List.length_append] at hlength
  rw [h.input, h.position]
  omega

/-- The line is counted right over all that was taken. -/
theorem Takes.line_eq (h : scanner.Takes kind text next) (hleft : scanner.left = text ++ rest)
    (hline : scanner.line = 1 + (scanner.input.take scanner.position).count '\n') :
    next.line = 1 + (next.input.take next.position).count '\n' := by
  rw [h.line, hline, h.take_position hleft, List.count_append, Nat.add_assoc]

/-- The token that was added stands on the stretch that was taken. -/
theorem Takes.standsOn {kind : Kind} (h : scanner.Takes (some kind) text next)
    (hleft : scanner.left = text ++ rest) (hkind : kind ≠ .eof) (htext : text ≠ [])
    (hle : next.position ≤ next.input.length)
    (hline : next.line = 1 + (next.input.take next.position).count '\n') :
    StandsOn scanner.input ⟨kind, String.ofList text, next.line⟩
      ⟨scanner.position, next.position⟩ where
  kind := hkind
  lexeme_ne := by simpa using htext
  stop_le := h.input ▸ hle
  lexeme := by
    rw [String.toList_ofList, h.position, List.extract_eq_take_drop, Nat.add_sub_cancel_left,
      ← left, hleft, List.take_left]
  line := by rw [hline, h.input]

/-- What one scan of a token preserves. -/
theorem Sound.step (h : scanner.Sound spans unread) (hlt : scanner.position < scanner.input.length)
    (hnext : scanner.begun.scanToken? = some next) :
    next.input = scanner.input ∧ ∃ spans unread, next.Sound spans unread := by
  obtain ⟨c, rest, hleft, htakes⟩ := takes_of_scanToken? hlt hnext
  have hsplit := left_eq_append hleft (piece c rest).extra
  have hle := htakes.position_le hsplit h.position_le
  have hline := htakes.line_eq hsplit h.line
  obtain rfl : unread = scanner.position := h.unread.resolve_right fun hend => by omega
  refine ⟨htakes.input, ?_⟩
  cases hkind : (piece c rest).kind with
  | some kind =>
    rw [hkind] at htakes
    have hne : kind ≠ .eof := fun heof => kind_piece_ne_eof c rest (heof ▸ hkind)
    have hstands := htakes.standsOn hsplit hne (List.cons_ne_nil _ _) hle hline
    refine ⟨spans ++ [⟨scanner.position, next.position⟩], _, hle, hline, ?_, .inl rfl⟩
    rw [htakes.input, htakes.tokens]
    exact h.covers.concat hstands
  | none =>
    rw [hkind] at htakes
    have htokens : next.tokens = scanner.tokens := by rw [htakes.tokens]; exact List.append_nil _
    rcases separator_or_unclosed hkind with ⟨hseparator, hextra⟩ | ⟨rfl, hunclosed, hextra⟩
    · have hposition : next.position = scanner.position + 1 := by
        rw [htakes.position, hextra]
        rfl
      have hcurrent : scanner.input[scanner.position]? = some c :=
        current?_eq_some_iff.mpr ⟨rest, hleft⟩
      refine ⟨spans, _, hle, hline, ?_, .inl rfl⟩
      rw [htakes.input, htokens, hposition]
      exact h.covers.skip hcurrent hseparator
    · -- All the rest of the text was next.
      have hend : next.left = [] := by
        rw [htakes.left_eq hsplit, hextra, List.drop_length]
      refine ⟨spans, scanner.position, hle, hline, ?_, .inr ⟨?_, rest, ?_, hunclosed⟩⟩
      · rw [htakes.input, htokens]
        exact h.covers
      · exact Nat.le_antisymm hle (List.drop_eq_nil_iff.mp hend)
      · rw [htakes.input]
        exact hleft

end

/-- What a run of the scanner gives from where the text before is accounted for. -/
theorem Sound.run {scanner : Scanner} {spans : List Span} {unread : Nat}
    (h : scanner.Sound spans unread) :
    ∃ tokens spans unread,
      scanner.run? = some (tokens ++ [endOn (1 + scanner.input.count '\n')]) ∧
        Accounts scanner.input tokens spans unread := by
  fun_induction run? scanner generalizing spans unread with
  | case1 scanner hlt next hnext ih =>
    obtain ⟨hinput, spans, unread, hsound⟩ := h.step hlt hnext
    rw [← hinput]
    exact ih hsound
  | case2 scanner hlt hnext => exact absurd hnext (scanToken?_ne_none hlt)
  | case3 scanner hlt =>
    have hend : scanner.position = scanner.input.length :=
      Nat.le_antisymm h.position_le (Nat.le_of_not_lt hlt)
    refine ⟨scanner.tokens, spans, unread, ?_, h.covers, ?_⟩
    · rw [h.line, hend, List.take_length]
    · exact h.unread.imp (fun heq => heq.trans hend) And.right

end Scanner

/-- The tokens of a text stand on stretches of it, one after another, with nothing but separators
outside of them, or a string at the end that is not closed. Then comes one end, on the last line.
Scanning with a position and a line finds these tokens, and so does cutting the text into pieces. -/
theorem scan_accounts_for_text (source : String) :
    ∃ tokens spans unread,
      (Scanner.ofSource source).run? =
          some (tokens ++ [⟨.eof, "", 1 + source.toList.count '\n'⟩]) ∧
        scan source = tokens ++ [⟨.eof, "", 1 + source.toList.count '\n'⟩] ∧
        Accounts source.toList tokens spans unread := by
  obtain ⟨tokens, spans, unread, hrun, haccounts⟩ := (Scanner.sound_ofSource source).run
  refine ⟨tokens, spans, unread, hrun, ?_, haccounts⟩
  exact Option.some.inj ((Scanner.run?_eq (Scanner.ofSource source)).symm.trans hrun)

end SexprCompiler.Token
