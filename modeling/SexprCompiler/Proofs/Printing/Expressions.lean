import SexprCompiler.Proofs.StringLiterals
import SexprCompiler.Target.Printer

/-!
# Telling expressions apart by their text

The names and literals of a file are kept as texts, so a file can be recovered from its text only
if these are what they should be. Then no text of an expression goes on as another one does: where
an expression ends can be seen from the next character. An expression is taken apart into its head,
a name or a literal, and what is behind it, one member or call after the other.
-/
namespace SexprCompiler.Target

/-! ## Lexical well-formedness -/

/-- A name: a word that is no keyword. -/
def IsName (name : String) : Prop := Text.isWord name.toList = true ∧ name ∉ keywords

instance (name : String) : Decidable (IsName name) := inferInstanceAs (Decidable (_ ∧ _))

def IsDigits (cs : List Char) : Prop := cs ≠ [] ∧ ∀ c ∈ cs, c.isDigit = true

def IsSign (cs : List Char) : Prop := cs = [] ∨ cs = ['-']

inductive LitKind.Spells : LitKind → String → Prop where
  | int {text : String} {sign digits : List Char} (hsign : IsSign sign) (hdigits : IsDigits digits)
      (htext : text.toList = sign ++ digits) : Spells .int text
  | float {text : String} {sign digits fraction : List Char} (hsign : IsSign sign)
      (hdigits : IsDigits digits) (hfraction : IsDigits fraction)
      (htext : text.toList = sign ++ (digits ++ '.' :: fraction)) : Spells .float text
  | string {text : String} {body : List Char} (hbody : Token.StringBody body)
      (hline : '\n' ∉ body) (htext : text.toList = '"' :: (body ++ ['"'])) : Spells .string text

inductive Expr.Lexical : Expr → Prop where
  | ident {name} (hname : IsName name) : Lexical (.ident name)
  | literal {kind text} (htext : kind.Spells text) : Lexical (.literal kind text)
  | member {base name} (hbase : Lexical base) (hname : IsName name) : Lexical (.member base name)
  | call {function arguments} (hfunction : Lexical function)
      (harguments : ∀ argument ∈ arguments, Lexical argument) : Lexical (.call function arguments)

/-! ## Texts that can be told apart -/

/-- Whether the texts of what is valid can be told apart, each in front of something that may
follow it. -/
def Separable {α : Type} (valid : α → Prop) (text : α → List Char) (follows : List Char → Prop) :
    Prop :=
  ∀ ⦃a b⦄, valid a → valid b → ∀ ⦃rest others⦄, follows rest → follows others →
    text a ++ rest = text b ++ others → a = b ∧ rest = others

/-- Rows of texts can be told apart if what may follow a row does not look like one more text. -/
theorem Separable.row {α : Type} {valid : α → Prop} {text : α → List Char}
    {follows ends : List Char → Prop} (h : Separable valid text follows)
    (hnext : ∀ a, valid a → ∀ rest, follows (text a ++ rest))
    (hends : ∀ rest, ends rest → follows rest)
    (hstart : ∀ a, valid a → ∀ rest, ¬ends (text a ++ rest)) :
    Separable (fun items => ∀ item ∈ items, valid item) (List.flatMap text) ends := by
  have hfollows (items : List α) (hitems : ∀ item ∈ items, valid item) (rest : List Char)
      (hrest : ends rest) : follows (items.flatMap text ++ rest) := by
    cases items with
    | nil => exact hends rest hrest
    | cons item items =>
      rw [List.flatMap_cons, List.append_assoc]
      exact hnext item (hitems item List.mem_cons_self) _
  intro items
  induction items with
  | nil =>
    intro others _ hothers rest rest' hrest hrest' htext
    cases others with
    | nil => exact ⟨rfl, htext⟩
    | cons other others =>
      rw [List.flatMap_nil, List.nil_append, List.flatMap_cons, List.append_assoc] at htext
      exact absurd (htext ▸ hrest) (hstart other (hothers other List.mem_cons_self) _)
  | cons item items ih =>
    intro others hitems hothers rest rest' hrest hrest' htext
    cases others with
    | nil =>
      rw [List.flatMap_nil, List.nil_append, List.flatMap_cons, List.append_assoc] at htext
      exact absurd (htext ▸ hrest') (hstart item (hitems item List.mem_cons_self) _)
    | cons other others =>
      rw [List.forall_mem_cons] at hitems hothers
      rw [List.flatMap_cons, List.flatMap_cons, List.append_assoc, List.append_assoc] at htext
      obtain ⟨rfl, htail⟩ := h hitems.1 hothers.1 (hfollows items hitems.2 rest hrest)
        (hfollows others hothers.2 rest' hrest') htext
      obtain ⟨rfl, hsame⟩ := ih hitems.2 hothers.2 hrest hrest' htail
      exact ⟨rfl, hsame⟩

/-- Texts can be told apart if those below each length can. -/
theorem Separable.of_bounded {α : Type} {valid : α → Prop} {text : α → List Char}
    {follows : List Char → Prop}
    (h : ∀ bound, Separable (fun a => valid a ∧ (text a).length < bound) text follows) :
    Separable valid text follows := by
  intro a b ha hb
  have hlt : (text a).length < (text a).length + (text b).length + 1 := by omega
  have hlt' : (text b).length < (text a).length + (text b).length + 1 := by omega
  exact h _ ⟨ha, hlt⟩ ⟨hb, hlt'⟩

theorem separable_run (p : Char → Bool) :
    Separable (fun cs : List Char => ∀ c ∈ cs, p c = true) id
      (fun rest => ∀ c ∈ rest.head?, p c = false) := by
  intro cs cs' hcs hcs' rest rest' hrest hrest' htext
  have hlength : cs.length = cs'.length := by
    rw [← Token.run_append hcs hrest, ← Token.run_append hcs' hrest']
    exact congrArg (Token.run p) htext
  exact List.append_inj htext hlength

/-! ## Names and literals -/

def continuesName (c : Char) : Bool := Text.isLetter c || c.isDigit

def EndsName (rest : List Char) : Prop := ∀ c ∈ rest.head?, continuesName c = false

/-- What may follow a name or a literal. A point with a digit behind it would belong to a number. -/
def EndsHead (rest : List Char) : Prop :=
  EndsName rest ∧ ∀ c cs, rest = '.' :: c :: cs → c.isDigit = false

theorem endsName_cons {c : Char} (h : continuesName c = false) (rest : List Char) :
    EndsName (c :: rest) := by
  intro next hnext
  exact Option.some.inj hnext ▸ h

theorem continuesName_of_isWord {cs : List Char} (h : Text.isWord cs = true) :
    ∀ c ∈ cs, continuesName c = true := by
  cases cs with
  | nil => cases h
  | cons c cs =>
    obtain ⟨hfirst, hothers⟩ := Bool.and_eq_true_iff.mp h
    rw [List.forall_mem_cons]
    exact ⟨Bool.or_eq_true_iff.mpr (.inl hfirst), List.all_eq_true.mp hothers⟩

theorem separable_word :
    Separable (fun word : String => Text.isWord word.toList = true) String.toList EndsName := by
  intro word word' hword hword' rest rest' hrest hrest' htext
  obtain ⟨hsame, hrests⟩ := separable_run continuesName (continuesName_of_isWord hword)
    (continuesName_of_isWord hword') hrest hrest' htext
  exact ⟨String.toList_injective hsame, hrests⟩

theorem separable_name : Separable IsName String.toList EndsName :=
  fun _ _ hname hname' => separable_word hname.1 hname'.1

structure Number where
  sign : List Char
  digits : List Char
  fraction : List Char

def IsFraction (cs : List Char) : Prop := cs = [] ∨ ∃ digits, IsDigits digits ∧ cs = '.' :: digits

namespace Number

structure Valid (number : Number) : Prop where
  sign : IsSign number.sign
  digits : IsDigits number.digits
  fraction : IsFraction number.fraction

def text (number : Number) : List Char := number.sign ++ (number.digits ++ number.fraction)

end Number

theorem separable_digits :
    Separable IsDigits id (fun rest => ∀ c ∈ rest.head?, c.isDigit = false) :=
  fun _ _ hdigits hdigits' => separable_run Char.isDigit hdigits.2 hdigits'.2

theorem separable_sign : Separable IsSign id (fun rest => rest.head? ≠ some '-') := by
  rintro sign sign' (rfl | rfl) (rfl | rfl) rest rest' hrest hrest' htext
  · exact ⟨rfl, htext⟩
  · exact absurd (congrArg List.head? htext) hrest
  · exact absurd (congrArg List.head? htext.symm) hrest'
  · exact ⟨rfl, (List.cons.inj htext).2⟩

theorem not_isDigit_of_endsName {rest : List Char} (h : EndsName rest) :
    ∀ c ∈ rest.head?, c.isDigit = false := by
  intro c hc
  exact (Bool.or_eq_false_iff.mp (h c hc)).2

theorem separable_fraction : Separable IsFraction id EndsHead := by
  have hpoint : ∀ {digits rest rest'}, IsDigits digits → EndsHead rest →
      rest ≠ '.' :: digits ++ rest' := by
    intro digits rest rest' hdigits hrest htext
    obtain ⟨c, cs, rfl⟩ := List.exists_cons_of_ne_nil hdigits.1
    have hdigit := hrest.2 c (cs ++ rest') htext
    rw [hdigits.2 c List.mem_cons_self] at hdigit
    cases hdigit
  rintro cs cs' (rfl | ⟨digits, hdigits, rfl⟩) (rfl | ⟨digits', hdigits', rfl⟩) rest rest' hrest
    hrest' htext
  · exact ⟨rfl, htext⟩
  · exact absurd htext (hpoint hdigits' hrest)
  · exact absurd htext.symm (hpoint hdigits hrest')
  · obtain ⟨rfl, hsame⟩ := separable_digits hdigits hdigits' (not_isDigit_of_endsName hrest.1)
      (not_isDigit_of_endsName hrest'.1) (List.cons.inj htext).2
    exact ⟨rfl, hsame⟩

theorem not_isDigit_of_fraction {cs rest : List Char} (h : IsFraction cs) (hrest : EndsHead rest) :
    ∀ c ∈ (cs ++ rest).head?, c.isDigit = false := by
  rcases h with rfl | ⟨digits, -, rfl⟩
  · exact not_isDigit_of_endsName hrest.1
  · simp

theorem IsDigits.head?_ne {digits : List Char} (h : IsDigits digits) {c : Char}
    (hc : c.isDigit = false) (rest : List Char) : (digits ++ rest).head? ≠ some c := by
  obtain ⟨d, ds, rfl⟩ := List.exists_cons_of_ne_nil h.1
  intro hhead
  obtain rfl : d = c := Option.some.inj hhead
  rw [h.2 d List.mem_cons_self] at hc
  cases hc

theorem separable_number : Separable Number.Valid Number.text EndsHead := by
  rintro ⟨sign, digits, fraction⟩ ⟨sign', digits', fraction'⟩ h h' rest rest' hrest hrest' htext
  simp only [Number.text, List.append_assoc] at htext
  obtain ⟨rfl, htext⟩ := separable_sign h.sign h'.sign (h.digits.head?_ne rfl _)
    (h'.digits.head?_ne rfl _) htext
  obtain ⟨rfl, htext⟩ := separable_digits h.digits h'.digits
    (not_isDigit_of_fraction h.fraction hrest) (not_isDigit_of_fraction h'.fraction hrest') htext
  obtain ⟨rfl, hsame⟩ := separable_fraction h.fraction h'.fraction hrest hrest' htext
  exact ⟨rfl, hsame⟩

/-- A string is closed by the first quote that no backslash takes along. -/
theorem separable_quoted :
    Separable Token.StringBody (fun body => '"' :: (body ++ ['"'])) (fun _ => True) := by
  rintro body body' ⟨units, hunits, rfl⟩ ⟨units', hunits', rfl⟩ rest rest' - - htext
  simp only [List.cons_append, List.append_assoc, List.nil_append, List.cons.injEq,
    true_and] at htext
  have hclose := Token.closingQuote_units hunits rest
  rw [htext, Token.closingQuote_units hunits' rest', Option.some.injEq, Nat.add_right_cancel_iff]
    at hclose
  obtain ⟨hsame, hrest⟩ := List.append_inj htext hclose.symm
  exact ⟨hsame, (List.cons.inj hrest).2⟩

/-- The literals that are not strings are numbers, with a fraction if they are not whole. -/
theorem LitKind.Spells.exists_number {kind : LitKind} {text : String} (h : kind.Spells text)
    (hkind : kind ≠ .string) :
    ∃ number : Number, number.Valid ∧ text.toList = number.text ∧
      kind = (if number.fraction = [] then .int else .float) := by
  cases h with
  | @int _ sign digits hsign hdigits htext =>
    exact ⟨⟨sign, digits, []⟩, ⟨hsign, hdigits, .inl rfl⟩, by simp [Number.text, htext], rfl⟩
  | @float _ sign digits fraction hsign hdigits hfraction htext =>
    exact ⟨⟨sign, digits, '.' :: fraction⟩, ⟨hsign, hdigits, .inr ⟨_, hfraction, rfl⟩⟩, htext, rfl⟩
  | string => exact absurd rfl hkind

/-! ## The head of an expression -/

def Expr.chars (value : Expr) : List Char := value.text.toList

/-- The expressions that have no other one in front. -/
inductive Expr.Simple : Expr → Prop where
  | ident {name} (hname : IsName name) : Simple (.ident name)
  | literal {kind text} (htext : kind.Spells text) : Simple (.literal kind text)

theorem exists_cons_of_isWord {word : String} (h : Text.isWord word.toList = true) :
    ∃ c cs, word.toList = c :: cs ∧ Text.isLetter c = true := by
  cases hchars : word.toList with
  | nil =>
    rw [hchars] at h
    cases h
  | cons c cs =>
    rw [hchars] at h
    exact ⟨c, cs, rfl, (Bool.and_eq_true_iff.mp h).1⟩

theorem Number.Valid.exists_cons {number : Number} (h : number.Valid) :
    ∃ c cs, number.text = c :: cs ∧ (c = '-' ∨ c.isDigit = true) := by
  obtain ⟨sign, digits, fraction⟩ := number
  rcases h.sign with rfl | rfl
  · obtain ⟨d, ds, rfl⟩ := List.exists_cons_of_ne_nil h.digits.1
    exact ⟨d, ds ++ fraction, rfl, .inr (h.digits.2 d List.mem_cons_self)⟩
  · exact ⟨'-', digits ++ fraction, rfl, .inl rfl⟩

/-- The characters that no name starts with. -/
theorem LitKind.Spells.exists_cons {kind : LitKind} {text : String} (h : kind.Spells text) :
    ∃ c cs, text.toList = c :: cs ∧ Text.isLetter c = false ∧ (c = '"' ↔ kind = .string) ∧
      (c = '"' ∨ c = '-' ∨ c.isDigit = true) := by
  by_cases hkind : kind = .string
  · subst hkind
    cases h with
    | string _ _ htext => exact ⟨'"', _, htext, rfl, by simp, .inl rfl⟩
  · obtain ⟨number, hvalid, htext, -⟩ := h.exists_number hkind
    obtain ⟨c, cs, hcons, hc⟩ := hvalid.exists_cons
    refine ⟨c, cs, htext.trans hcons, ?_, ?_, .inr hc⟩
    · rcases hc with rfl | hdigit
      · rfl
      · exact Token.not_isLetter_of_isDigit hdigit
    · refine ⟨?_, fun hstring => absurd hstring hkind⟩
      rintro rfl
      rcases hc with hminus | hdigit
      · cases hminus
      · cases hdigit

/-- The characters that expressions start with. -/
def startsExpr (c : Char) : Bool := Text.isLetter c || c == '"' || c == '-' || c.isDigit

theorem Expr.Simple.exists_cons {value : Expr} (h : value.Simple) :
    ∃ c cs, value.chars = c :: cs ∧ startsExpr c = true := by
  cases h with
  | ident hname =>
    obtain ⟨c, cs, hcons, hletter⟩ := exists_cons_of_isWord hname.1
    exact ⟨c, cs, by simpa [chars, text] using hcons, by simp [startsExpr, hletter]⟩
  | literal htext =>
    obtain ⟨c, cs, hcons, -, -, hc⟩ := htext.exists_cons
    refine ⟨c, cs, by simpa [chars, text] using hcons, ?_⟩
    rcases hc with rfl | rfl | hdigit
    · rfl
    · rfl
    · simp [startsExpr, hdigit]

theorem separable_literal :
    Separable (fun literal : LitKind × String => literal.1.Spells literal.2)
      (fun literal => literal.2.toList) EndsHead := by
  rintro ⟨kind, text⟩ ⟨kind', text'⟩ h h' rest rest' hrest hrest' htext
  dsimp only at h h' htext
  -- The first character tells a string from a number.
  have hstring : kind = .string ↔ kind' = .string := by
    obtain ⟨c, cs, hcons, -, hc, -⟩ := h.exists_cons
    obtain ⟨c', cs', hcons', -, hc', -⟩ := h'.exists_cons
    rw [hcons, hcons'] at htext
    obtain rfl : c = c' := (List.cons.inj htext).1
    exact hc.symm.trans hc'
  by_cases hkind : kind = .string
  · have hkind' := hstring.mp hkind
    subst hkind hkind'
    cases h with
    | string hbody _ hquoted =>
      cases h' with
      | string hbody' _ hquoted' =>
        rw [hquoted, hquoted'] at htext
        obtain ⟨rfl, hsame⟩ := separable_quoted hbody hbody' trivial trivial htext
        rw [String.toList_injective (hquoted.trans hquoted'.symm)]
        exact ⟨rfl, hsame⟩
  · obtain ⟨number, hvalid, hnumber, hfraction⟩ := h.exists_number hkind
    obtain ⟨number', hvalid', hnumber', hfraction'⟩ := h'.exists_number (mt hstring.mpr hkind)
    rw [hnumber, hnumber'] at htext
    obtain ⟨rfl, hsame⟩ := separable_number hvalid hvalid' hrest hrest' htext
    rw [String.toList_injective (hnumber.trans hnumber'.symm), hfraction, hfraction']
    exact ⟨rfl, hsame⟩

theorem LitKind.Spells.ne_word {kind : LitKind} {text word : String} (h : kind.Spells text)
    (hword : Text.isWord word.toList = true) (rest rest' : List Char) :
    text.toList ++ rest ≠ word.toList ++ rest' := by
  intro htext
  obtain ⟨c, cs, hcons, hnone, -⟩ := h.exists_cons
  obtain ⟨c', cs', hcons', hletter⟩ := exists_cons_of_isWord hword
  rw [hcons, hcons'] at htext
  obtain rfl : c = c' := (List.cons.inj htext).1
  rw [hletter] at hnone
  cases hnone

theorem separable_simple : Separable Expr.Simple Expr.chars EndsHead := by
  rintro value value' (hname | hspells) (hname' | hspells') rest rest' hrest hrest' htext
  all_goals simp only [Expr.chars, Expr.text] at htext
  · obtain ⟨rfl, hsame⟩ := separable_name hname hname' hrest.1 hrest'.1 htext
    exact ⟨rfl, hsame⟩
  · exact absurd htext.symm (hspells'.ne_word hname.1 _ _)
  · exact absurd htext (hspells.ne_word hname'.1 _ _)
  · obtain ⟨hliteral, hsame⟩ := separable_literal (a := (_, _)) (b := (_, _)) hspells hspells'
      hrest hrest' htext
    cases hliteral
    exact ⟨rfl, hsame⟩

/-! ## What is behind the head -/

/-- One step from an expression to the next: to a member of it, or to a call. -/
inductive Tail where
  | member (name : String)
  | call (arguments : List Expr)

namespace Tail

def text : Tail → List Char
  | member name => '.' :: name.toList
  | call arguments => '(' :: ((Expr.listText arguments).toList ++ [')'])

def extend (base : Expr) : Tail → Expr
  | member name => .member base name
  | call arguments => .call base arguments

/-- A step whose arguments are valid. -/
inductive Over (valid : Expr → Prop) : Tail → Prop where
  | member {name} (hname : IsName name) : Over valid (.member name)
  | call {arguments} (harguments : ∀ argument ∈ arguments, valid argument) :
      Over valid (.call arguments)

end Tail

namespace Expr

/-- The name or literal that an expression starts with. -/
def head : Expr → Expr
  | .member base _ => base.head
  | .call function _ => function.head
  | value => value

/-- What is behind the head of an expression. -/
def tails : Expr → List Tail
  | .member base name => base.tails ++ [.member name]
  | .call function arguments => function.tails ++ [.call arguments]
  | _ => []

theorem foldl_tails : (value : Expr) → value.tails.foldl Tail.extend value.head = value
  | .ident _ => rfl
  | .literal _ _ => rfl
  | .member base name => by
    rw [tails, head, List.foldl_append, foldl_tails base]
    rfl
  | .call function arguments => by
    rw [tails, head, List.foldl_append, foldl_tails function]
    rfl

theorem chars_eq : (value : Expr) → value.chars = value.head.chars ++ value.tails.flatMap Tail.text
  | .ident _ => by simp [head, tails]
  | .literal _ _ => by simp [head, tails]
  | .member base name => by
    have hbase := chars_eq base
    simp_all [chars, head, tails, text, Tail.text]
  | .call function arguments => by
    have hfunction := chars_eq function
    simp_all [chars, head, tails, text, Tail.text]

theorem Lexical.simple_head {value : Expr} (h : value.Lexical) : value.head.Simple := by
  induction h with
  | ident hname => exact .ident hname
  | literal htext => exact .literal htext
  | member _ _ ih => exact ih
  | call _ _ ih => exact ih

theorem Lexical.over_tails {value : Expr} (h : value.Lexical) :
    ∀ tail ∈ value.tails, tail.Over Lexical := by
  induction h with
  | ident | literal => exact List.forall_mem_nil _
  | member _ hname ih =>
    rw [Expr.tails, List.forall_mem_append, List.forall_mem_singleton]
    exact ⟨ih, .member hname⟩
  | call _ harguments ih =>
    rw [Expr.tails, List.forall_mem_append, List.forall_mem_singleton]
    exact ⟨ih, .call harguments⟩

def listChars (values : List Expr) : List Char := (listText values).toList

/-- An expression that is not the first of a list, with what stands before it. -/
def nextChars (value : Expr) : List Char := ',' :: ' ' :: value.chars

theorem listChars_cons (value : Expr) (values : List Expr) :
    listChars (value :: values) = value.chars ++ values.flatMap nextChars := by
  induction values generalizing value with
  | nil => simp [listChars, listText, chars]
  | cons next values ih =>
    have hnext := ih next
    simp_all [listChars, listText, chars, nextChars]

end Expr

/-! ## Whole expressions -/

def EndsExpr (rest : List Char) : Prop := ∀ c ∈ rest.head?, c ∈ [',', ')', ' ', '\n']

def EndsList (rest : List Char) : Prop := ∀ c ∈ rest.head?, c ∈ [')', ' ', '\n']

theorem EndsList.endsExpr {rest : List Char} (h : EndsList rest) : EndsExpr rest :=
  fun c hc => List.mem_cons_of_mem _ (h c hc)

theorem EndsExpr.endsName {rest : List Char} (h : EndsExpr rest) : EndsName rest := by
  have hall : [',', ')', ' ', '\n'].all (fun c => !continuesName c) = true := by decide
  intro c hc
  simpa using List.all_eq_true.mp hall c (h c hc)

/-- No expression starts as what may follow a list of expressions. -/
theorem Expr.Lexical.not_endsList {value : Expr} (h : value.Lexical) (rest : List Char) :
    ¬EndsList (value.chars ++ rest) := by
  have hnone : [')', ' ', '\n'].all (fun c => !startsExpr c) = true := by decide
  obtain ⟨c, cs, hcons, hstart⟩ := h.simple_head.exists_cons
  intro hends
  rw [value.chars_eq, hcons] at hends
  have hc := List.all_eq_true.mp hnone c (hends c rfl)
  rw [hstart] at hc
  cases hc

theorem endsExpr_next (values : List Expr) {rest : List Char} (hrest : EndsList rest) :
    EndsExpr (values.flatMap Expr.nextChars ++ rest) := by
  cases values with
  | nil => exact hrest.endsExpr
  | cons value values => simp [EndsExpr, Expr.nextChars]

section

variable {valid : Expr → Prop} (h : Separable valid Expr.chars EndsExpr)
  (hvalid : ∀ value, valid value → value.Lexical)

include h

theorem separable_next : Separable (fun values => ∀ value ∈ values, valid value)
    (List.flatMap Expr.nextChars) EndsList := by
  have hitem : Separable valid Expr.nextChars EndsExpr := by
    intro value value' hvalue hvalue' rest rest' hrest hrest' htext
    exact h hvalue hvalue' hrest hrest' (List.cons.inj (List.cons.inj htext).2).2
  apply hitem.row
  · intro value _ rest
    simp [EndsExpr, Expr.nextChars]
  · exact fun rest => EndsList.endsExpr
  · intro value _ rest hrest
    exact absurd (hrest ',' rfl) (by decide)

include hvalid

/-- Lists of expressions can be told apart if the expressions can. -/
theorem separable_list :
    Separable (fun values => ∀ value ∈ values, valid value) Expr.listChars EndsList := by
  have hempty {value : Expr} {values : List Expr} {rest rest' : List Char} (hvalue : valid value)
      (hrest : EndsList rest) : rest ≠ Expr.listChars (value :: values) ++ rest' := by
    rintro rfl
    rw [Expr.listChars_cons, List.append_assoc] at hrest
    exact (hvalid value hvalue).not_endsList _ hrest
  intro values values' hvalues hvalues' rest rest' hrest hrest' htext
  cases values with
  | nil =>
    cases values' with
    | nil => exact ⟨rfl, htext⟩
    | cons value' values' => exact absurd htext (hempty (hvalues' value' List.mem_cons_self) hrest)
  | cons value values =>
    cases values' with
    | nil => exact absurd htext.symm (hempty (hvalues value List.mem_cons_self) hrest')
    | cons value' values' =>
      rw [List.forall_mem_cons] at hvalues hvalues'
      simp only [Expr.listChars_cons, List.append_assoc] at htext
      obtain ⟨rfl, htail⟩ := h hvalues.1 hvalues'.1 (endsExpr_next values hrest)
        (endsExpr_next values' hrest') htext
      obtain ⟨rfl, hsame⟩ := separable_next h hvalues.2 hvalues'.2 hrest hrest' htail
      exact ⟨rfl, hsame⟩

theorem separable_tail : Separable (Tail.Over valid) Tail.text EndsName := by
  rintro tail tail' (hname | harguments) (hname' | harguments') rest rest' hrest hrest' htext
  · obtain ⟨rfl, hsame⟩ := separable_name hname hname' hrest hrest' (List.cons.inj htext).2
    exact ⟨rfl, hsame⟩
  · cases (List.cons.inj htext).1
  · cases (List.cons.inj htext).1
  · have hclosing (rest : List Char) : EndsList (')' :: rest) := by simp [EndsList]
    simp only [Tail.text, List.cons_append, List.append_assoc, List.nil_append, List.cons.injEq,
      true_and] at htext
    obtain ⟨rfl, hsame⟩ := separable_list h hvalid harguments harguments' (hclosing rest)
      (hclosing rest') htext
    exact ⟨rfl, (List.cons.inj hsame).2⟩

theorem separable_tails :
    Separable (fun tails => ∀ tail ∈ tails, tail.Over valid) (List.flatMap Tail.text) EndsExpr := by
  apply (separable_tail h hvalid).row
  · rintro tail (_ | _) rest
    · exact endsName_cons rfl _
    · exact endsName_cons rfl _
  · exact fun rest => EndsExpr.endsName
  · rintro tail (_ | _) rest hrest
    · exact absurd (hrest '.' rfl) (by decide)
    · exact absurd (hrest '(' rfl) (by decide)

end

theorem endsHead_tails {valid : Expr → Prop} {tails : List Tail}
    (htails : ∀ tail ∈ tails, tail.Over valid) {rest : List Char} (hrest : EndsExpr rest) :
    EndsHead (tails.flatMap Tail.text ++ rest) := by
  cases tails with
  | nil =>
    refine ⟨hrest.endsName, ?_⟩
    rintro c cs rfl
    exact absurd (hrest '.' rfl) (by decide)
  | cons tail tails =>
    cases htails tail List.mem_cons_self with
    | member hname =>
      refine ⟨endsName_cons rfl _, ?_⟩
      intro c cs htext
      -- A member is a name, and a name does not start with a digit.
      obtain ⟨first, others, hcons, hletter⟩ := exists_cons_of_isWord hname.1
      simp only [List.flatMap_cons, Tail.text, hcons, List.cons_append, List.cons.injEq,
        true_and] at htext
      obtain ⟨rfl, -⟩ := htext
      cases hdigit : first.isDigit with
      | false => rfl
      | true =>
        rw [Token.not_isLetter_of_isDigit hdigit] at hletter
        cases hletter
    | call =>
      refine ⟨endsName_cons rfl _, ?_⟩
      intro c cs htext
      cases (List.cons.inj htext).1

/-- Expressions can be told apart if those in their calls can. -/
theorem separable_over {valid valid' : Expr → Prop} (h : Separable valid Expr.chars EndsExpr)
    (hvalid : ∀ value, valid value → value.Lexical)
    (hvalid' : ∀ value, valid' value → value.Lexical ∧ ∀ tail ∈ value.tails, tail.Over valid) :
    Separable valid' Expr.chars EndsExpr := by
  intro value value' hvalue hvalue' rest rest' hrest hrest' htext
  obtain ⟨hlexical, htails⟩ := hvalid' value hvalue
  obtain ⟨hlexical', htails'⟩ := hvalid' value' hvalue'
  rw [value.chars_eq, value'.chars_eq, List.append_assoc, List.append_assoc] at htext
  obtain ⟨hhead, htail⟩ := separable_simple hlexical.simple_head hlexical'.simple_head
    (endsHead_tails htails hrest) (endsHead_tails htails' hrest') htext
  obtain ⟨hsame, hrests⟩ := separable_tails h hvalid htails htails' hrest hrest' htail
  rw [← value.foldl_tails, ← value'.foldl_tails, hhead, hsame]
  exact ⟨rfl, hrests⟩

theorem length_le_flatMap {α : Type} {text : α → List Char} {item : α} {items : List α}
    (h : item ∈ items) : (text item).length ≤ (items.flatMap text).length := by
  obtain ⟨before, after, rfl⟩ := List.append_of_mem h
  simp only [List.flatMap_append, List.flatMap_cons, List.length_append]
  omega

theorem length_le_listChars {value : Expr} {values : List Expr} (h : value ∈ values) :
    value.chars.length ≤ (Expr.listChars values).length := by
  cases values with
  | nil => cases h
  | cons first values =>
    rw [Expr.listChars_cons, List.length_append]
    rcases List.mem_cons.mp h with rfl | h
    · omega
    · have hle : (Expr.nextChars value).length ≤ (values.flatMap Expr.nextChars).length :=
        length_le_flatMap h
      simp only [Expr.nextChars, List.length_cons] at hle
      omega

/-- The texts of expressions can be told apart. The induction is on a bound of their lengths, since
the arguments of a call are not parts of its head. -/
theorem separable_expr : Separable Expr.Lexical Expr.chars EndsExpr := by
  apply Separable.of_bounded
  intro bound
  induction bound with
  | zero =>
    intro value _ hvalue
    exact absurd hvalue.2 (Nat.not_lt_zero _)
  | succ bound ih =>
    apply separable_over ih
    · exact fun value hvalue => hvalue.1
    · intro value hvalue
      refine ⟨hvalue.1, ?_⟩
      intro tail htail
      cases hvalue.1.over_tails tail htail with
      | member hname => exact .member hname
      | @call arguments harguments =>
        refine .call fun argument hargument => ⟨harguments argument hargument, ?_⟩
        have hargument := length_le_listChars hargument
        have hcall : (Tail.call arguments).text.length ≤ (value.tails.flatMap Tail.text).length :=
          length_le_flatMap htail
        have hlength := hvalue.2
        rw [value.chars_eq, List.length_append] at hlength
        simp only [Tail.text, List.length_cons, List.length_append] at hcall
        change argument.chars.length < bound
        change _ ≤ (Expr.listText arguments).toList.length at hargument
        omega

end SexprCompiler.Target
