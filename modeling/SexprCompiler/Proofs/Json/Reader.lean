import SexprCompiler.Json

/-!
# Reading JSON text

A reader of all of JSON, whatever its layout. A text is first cut into lexemes: the six marks,
strings, numbers and the three literal names, with blanks between them. The lexemes are then put
together to a value in one pass, with a stack of the arrays and objects that are still open.
Nothing here depends on how texts are written elsewhere.
-/
namespace SexprCompiler.Json

/-- The values of JSON. A number is `mantissa` times ten to the power of `exponent`. -/
inductive Value where
  | null
  | bool (value : Bool)
  | number (mantissa exponent : Int)
  | string (text : String)
  | array (items : List Value)
  | object (fields : List (String × Value))

/-! ## Lexemes -/

inductive Mark where
  | beginArray | endArray | beginObject | endObject | colon | comma
deriving DecidableEq

def Mark.char : Mark → Char
  | beginArray => '['
  | endArray => ']'
  | beginObject => '\x7b'
  | endObject => '\x7d'
  | colon => ':'
  | comma => ','

def Mark.all : List Mark := [beginArray, endArray, beginObject, endObject, colon, comma]

def Mark.ofChar? (c : Char) : Option Mark := all.find? fun mark => mark.char == c

/-- A piece of JSON text. A constant is a number or one of the literal names. -/
inductive Lexeme where
  | mark (mark : Mark)
  | string (text : String)
  | constant (value : Value)

def blanks : List Char := [' ', '\t', '\n', '\r']

def unescape? : Char → Option Char
  | '"' => some '"'
  | '\\' => some '\\'
  | '/' => some '/'
  | 'b' => some '\x08'
  | 'f' => some '\x0c'
  | 'n' => some '\n'
  | 'r' => some '\r'
  | 't' => some '\t'
  | _ => none

/-- The codes in a string, from after its opening quote, and the text after its closing quote. The
two halves of a surrogate pair are codes of their own. -/
def codes? : List Char → Option (List Nat × List Char)
  | [] => none
  | '"' :: rest => some ([], rest)
  | '\\' :: 'u' :: a :: b :: c :: d :: rest => do
    let code ← Text.ofHex? [a, b, c, d]
    let (codes, after) ← codes? rest
    return (code :: codes, after)
  | '\\' :: c :: rest => do
    let char ← unescape? c
    let (codes, after) ← codes? rest
    return (char.toNat :: codes, after)
  | c :: rest =>
    if c.toNat < 0x20 then none
    else do
      let (codes, after) ← codes? rest
      return (c.toNat :: codes, after)

/-- The characters of codes. A surrogate that is not part of a pair has none. -/
def ofCodes? : List Nat → Option (List Char)
  | [] => some []
  | code :: rest =>
    if 0xD800 ≤ code ∧ code < 0xDC00 then
      match rest with
      | low :: rest =>
        if 0xDC00 ≤ low ∧ low < 0xE000 then
          (Char.ofNat (0x10000 + (code - 0xD800) * 0x400 + (low - 0xDC00)) :: ·) <$> ofCodes? rest
        else none
      | [] => none
    else if 0xDC00 ≤ code ∧ code < 0xE000 then none
    else (Char.ofNat code :: ·) <$> ofCodes? rest

def string? (cs : List Char) : Option (Lexeme × List Char) := do
  let (codes, rest) ← codes? cs
  let text ← ofCodes? codes
  return (.string (String.ofList text), rest)

/-- The digits at the front, of which there has to be one. -/
def digits? (cs : List Char) : Option (List Char × List Char) :=
  let digits := cs.takeWhile Char.isDigit
  if digits = [] then none else some (digits, cs.dropWhile Char.isDigit)

/-- The whole part of a number, which starts with a zero only if it is zero. -/
def whole? (cs : List Char) : Option (List Char × List Char) := do
  let (digits, rest) ← digits? cs
  if digits.head? = some '0' ∧ digits ≠ ['0'] then none else some (digits, rest)

/-- The digits behind a decimal point, if there is one. -/
def fraction? : List Char → Option (List Char × List Char)
  | '.' :: cs => digits? cs
  | cs => some ([], cs)

def factor : List Char → Int × List Char
  | '-' :: cs => (-1, cs)
  | '+' :: cs => (1, cs)
  | cs => (1, cs)

def exponent? : List Char → Option (Int × List Char)
  | 'e' :: cs | 'E' :: cs => do
    let (digits, rest) ← digits? (factor cs).2
    return ((factor cs).1 * Nat.ofDigitChars 10 digits 0, rest)
  | cs => some (0, cs)

def unsigned? (cs : List Char) : Option (Int × Int × List Char) := do
  let (whole, cs) ← whole? cs
  let (fraction, cs) ← fraction? cs
  let (exponent, cs) ← exponent? cs
  return ((Nat.ofDigitChars 10 (whole ++ fraction) 0 : Int), exponent - fraction.length, cs)

def number? : List Char → Option (Lexeme × List Char)
  | '-' :: cs => do
    let (mantissa, exponent, rest) ← unsigned? cs
    return (.constant (.number (-mantissa) exponent), rest)
  | cs => do
    let (mantissa, exponent, rest) ← unsigned? cs
    return (.constant (.number mantissa exponent), rest)

def name? : List Char → Option (Lexeme × List Char)
  | 'n' :: 'u' :: 'l' :: 'l' :: rest => some (.constant .null, rest)
  | 't' :: 'r' :: 'u' :: 'e' :: rest => some (.constant (.bool true), rest)
  | 'f' :: 'a' :: 'l' :: 's' :: 'e' :: rest => some (.constant (.bool false), rest)
  | _ => none

/-- The lexeme that starts with a character, and the text after it. -/
def lexeme? (c : Char) (cs : List Char) : Option (Lexeme × List Char) :=
  match Mark.ofChar? c with
  | some mark => some (.mark mark, cs)
  | none =>
    if c = '"' then string? cs
    else if c.isAlpha then name? (c :: cs)
    else number? (c :: cs)

/-! Every lexeme takes its characters off the front of the text. -/

theorem suffix_of_codes? {cs rest : List Char} {codes : List Nat}
    (h : codes? cs = some (codes, rest)) : rest <:+ cs := by
  fun_induction codes? cs generalizing codes with
  | case1 => cases h
  | case2 =>
    cases h
    exact List.suffix_cons _ _
  | case3 a b c d tail ih =>
    simp only [Option.bind_eq_bind, Option.bind_eq_some_iff] at h
    obtain ⟨code, -, ⟨found, after⟩, hfound, hresult⟩ := h
    cases hresult
    exact (ih hfound).trans (List.suffix_append ['\\', 'u', a, b, c, d] tail)
  | case4 c tail _ ih =>
    simp only [Option.bind_eq_bind, Option.bind_eq_some_iff] at h
    obtain ⟨char, -, ⟨found, after⟩, hfound, hresult⟩ := h
    cases hresult
    exact (ih hfound).trans (List.suffix_append ['\\', c] tail)
  | case5 => cases h
  | case6 c tail _ _ _ _ ih =>
    simp only [Option.bind_eq_bind, Option.bind_eq_some_iff] at h
    obtain ⟨⟨found, after⟩, hfound, hresult⟩ := h
    cases hresult
    exact (ih hfound).trans (List.suffix_cons c tail)

theorem suffix_of_digits? {cs digits rest : List Char} (h : digits? cs = some (digits, rest)) :
    rest <:+ cs := by
  simp only [digits?] at h
  split at h
  · cases h
  · cases h
    exact List.dropWhile_suffix _

theorem suffix_of_digits?_cons {c : Char} {cs digits rest : List Char}
    (h : digits? (c :: cs) = some (digits, rest)) : rest <:+ cs := by
  by_cases hdigit : c.isDigit = true
  · simp only [digits?, List.takeWhile_cons_of_pos hdigit, List.dropWhile_cons_of_pos hdigit,
      reduceCtorEq, if_false] at h
    cases h
    exact List.dropWhile_suffix _
  · simp [digits?, hdigit] at h

theorem suffix_of_fraction? {cs digits rest : List Char} (h : fraction? cs = some (digits, rest)) :
    rest <:+ cs := by
  unfold fraction? at h
  split at h
  · exact (suffix_of_digits? h).trans (List.suffix_cons _ _)
  · cases h
    exact List.suffix_refl _

theorem suffix_factor (cs : List Char) : (factor cs).2 <:+ cs := by
  unfold factor
  split
  · exact List.suffix_cons _ _
  · exact List.suffix_cons _ _
  · exact List.suffix_refl _

theorem suffix_of_exponent? {cs rest : List Char} {exponent : Int}
    (h : exponent? cs = some (exponent, rest)) : rest <:+ cs := by
  unfold exponent? at h
  split at h
  · simp only [Option.bind_eq_bind, Option.bind_eq_some_iff] at h
    obtain ⟨⟨digits, after⟩, hdigits, hresult⟩ := h
    cases hresult
    exact ((suffix_of_digits? hdigits).trans (suffix_factor _)).trans (List.suffix_cons _ _)
  · simp only [Option.bind_eq_bind, Option.bind_eq_some_iff] at h
    obtain ⟨⟨digits, after⟩, hdigits, hresult⟩ := h
    cases hresult
    exact ((suffix_of_digits? hdigits).trans (suffix_factor _)).trans (List.suffix_cons _ _)
  · cases h
    exact List.suffix_refl _

theorem suffix_of_unsigned?_cons {c : Char} {cs rest : List Char} {mantissa exponent : Int}
    (h : unsigned? (c :: cs) = some (mantissa, exponent, rest)) : rest <:+ cs := by
  simp only [unsigned?, whole?, Option.bind_eq_bind, Option.bind_eq_some_iff] at h
  obtain ⟨⟨whole, afterWhole⟩, ⟨⟨digits, after⟩, hdigits, hwhole⟩, ⟨fraction, afterFraction⟩,
    hfraction, ⟨power, afterExponent⟩, hexponent, hresult⟩ := h
  split at hwhole
  · cases hwhole
  · cases hwhole
    cases hresult
    exact ((suffix_of_exponent? hexponent).trans (suffix_of_fraction? hfraction)).trans
      (suffix_of_digits?_cons hdigits)

theorem suffix_of_number?_cons {c : Char} {cs rest : List Char} {found : Lexeme}
    (h : number? (c :: cs) = some (found, rest)) : rest <:+ cs := by
  unfold number? at h
  split at h
  · rename_i tail hcons
    cases hcons
    simp only [Option.bind_eq_bind, Option.bind_eq_some_iff] at h
    obtain ⟨⟨mantissa, exponent, after⟩, hunsigned, hresult⟩ := h
    cases hresult
    cases cs with
    | nil => simp [unsigned?, whole?, digits?] at hunsigned
    | cons c cs => exact (suffix_of_unsigned?_cons hunsigned).trans (List.suffix_cons c cs)
  · simp only [Option.bind_eq_bind, Option.bind_eq_some_iff] at h
    obtain ⟨⟨mantissa, exponent, after⟩, hunsigned, hresult⟩ := h
    cases hresult
    exact suffix_of_unsigned?_cons hunsigned

theorem suffix_of_name?_cons {c : Char} {cs rest : List Char} {found : Lexeme}
    (h : name? (c :: cs) = some (found, rest)) : rest <:+ cs := by
  unfold name? at h
  split at h
  · rename_i tail hcons
    cases hcons
    cases h
    exact List.suffix_append ['u', 'l', 'l'] rest
  · rename_i tail hcons
    cases hcons
    cases h
    exact List.suffix_append ['r', 'u', 'e'] rest
  · rename_i tail hcons
    cases hcons
    cases h
    exact List.suffix_append ['a', 'l', 's', 'e'] rest
  · cases h

theorem suffix_of_lexeme? {c : Char} {cs rest : List Char} {found : Lexeme}
    (h : lexeme? c cs = some (found, rest)) : rest <:+ cs := by
  unfold lexeme? at h
  split at h
  · cases h
    exact List.suffix_refl _
  · split at h
    · simp only [string?, Option.bind_eq_bind, Option.bind_eq_some_iff] at h
      obtain ⟨⟨codes, after⟩, hcodes, text, -, hresult⟩ := h
      cases hresult
      exact suffix_of_codes? hcodes
    · split at h
      · exact suffix_of_name?_cons h
      · exact suffix_of_number?_cons h

def lexemes? : List Char → Option (List Lexeme)
  | [] => some []
  | c :: cs =>
    if c ∈ blanks then lexemes? cs
    else
      match h : lexeme? c cs with
      | none => none
      | some (found, rest) =>
        have := (suffix_of_lexeme? h).length_le
        (found :: ·) <$> lexemes? rest
termination_by cs => cs.length

theorem lexemes?_blank {c : Char} (h : c ∈ blanks) (cs : List Char) :
    lexemes? (c :: cs) = lexemes? cs := by
  rw [lexemes?, if_pos h]

theorem lexemes?_cons {c : Char} {cs rest : List Char} {found : Lexeme} (hblank : c ∉ blanks)
    (h : lexeme? c cs = some (found, rest)) :
    lexemes? (c :: cs) = (found :: ·) <$> lexemes? rest := by
  rw [lexemes?, if_neg hblank]
  split
  · simp_all
  · simp_all

/-! ## Values -/

/-- An array or object that is still open, with its latest part first. An object has a key whose
value comes next. -/
inductive Frame where
  | array (items : List Value)
  | object (fields : List (String × Value)) (key : String)

/-- What has been read, innermost first: a value is wanted, an array or an object was just opened,
a key or the colon behind it is wanted, or a value is complete. -/
inductive State where
  | value (outer : List Frame)
  | firstItem (outer : List Frame)
  | firstKey (outer : List Frame)
  | key (fields : List (String × Value)) (outer : List Frame)
  | colon (fields : List (String × Value)) (key : String) (outer : List Frame)
  | complete (value : Value) (outer : List Frame)

def start (outer : List Frame) : Lexeme → Option State
  | .string text => some (.complete (.string text) outer)
  | .constant value => some (.complete value outer)
  | .mark .beginArray => some (.firstItem outer)
  | .mark .beginObject => some (.firstKey outer)
  | .mark _ => none

/-- What a lexeme leads to. -/
def step : State → Lexeme → Option State
  | .value outer, lexeme => start outer lexeme
  | .firstItem outer, .mark .endArray => some (.complete (.array []) outer)
  | .firstItem outer, lexeme => start (.array [] :: outer) lexeme
  | .firstKey outer, .mark .endObject => some (.complete (.object []) outer)
  | .firstKey outer, .string key => some (.colon [] key outer)
  | .key fields outer, .string key => some (.colon fields key outer)
  | .colon fields key outer, .mark .colon => some (.value (.object fields key :: outer))
  | .complete value (.array items :: outer), .mark .comma =>
    some (.value (.array (value :: items) :: outer))
  | .complete value (.array items :: outer), .mark .endArray =>
    some (.complete (.array (value :: items).reverse) outer)
  | .complete value (.object fields key :: outer), .mark .comma =>
    some (.key ((key, value) :: fields) outer)
  | .complete value (.object fields key :: outer), .mark .endObject =>
    some (.complete (.object ((key, value) :: fields).reverse) outer)
  | _, _ => none

def ofLexemes? (lexemes : List Lexeme) : Option Value :=
  match lexemes.foldlM step (.value []) with
  | some (.complete value []) => some value
  | _ => none

def ofText? (text : String) : Option Value := (lexemes? text.toList).bind ofLexemes?

end SexprCompiler.Json
