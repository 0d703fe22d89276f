/-!
# Characters and texts

What the notations on both sides share: which characters are blank and which make up words, what
stands between quotes, and numbers in hexadecimal, by which escapes give code points.
-/
namespace SexprCompiler.Text

/-- The ranges of code points with the property `White_Space`, both ends included. -/
def blankRanges : List (Nat × Nat) :=
  [(0x09, 0x0D), (0x20, 0x20), (0x85, 0x85), (0xA0, 0xA0), (0x1680, 0x1680), (0x2000, 0x200A),
    (0x2028, 0x2029), (0x202F, 0x202F), (0x205F, 0x205F), (0x3000, 0x3000)]

def isBlank (c : Char) : Bool :=
  blankRanges.any fun range => range.1 ≤ c.toNat && c.toNat ≤ range.2

/-- The ASCII letters and the low line. -/
def isLetter (c : Char) : Bool := c.isAlpha || c == '_'

def isWord : List Char → Bool
  | [] => false
  | c :: cs => isLetter c && cs.all fun c => isLetter c || c.isDigit

/-! ## Texts between quotes -/

def quotedBody? : List Char → Option (List Char)
  | '"' :: rest => if rest.getLast? = some '"' then some rest.dropLast else none
  | _ => none

def unquote (cs : List Char) : List Char := (quotedBody? cs).getD cs

theorem quotedBody?_quoted (body : List Char) :
    quotedBody? ('"' :: (body ++ ['"'])) = some body := by
  simp [quotedBody?]

theorem eq_quoted_of_quotedBody? {cs body : List Char} (h : quotedBody? cs = some body) :
    cs = '"' :: (body ++ ['"']) := by
  unfold quotedBody? at h
  split at h
  · rename_i rest
    split at h
    · rename_i hlast
      obtain ⟨front, rfl⟩ := List.getLast?_eq_some_iff.mp hlast
      simp_all
    · simp at h
  · simp at h

/-! ## Hexadecimal numbers of a fixed width -/

/-- A number in hexadecimal on `width` places, with zeros in front. Higher places are left out. -/
def hex (width number : Nat) : List Char :=
  (List.range width).reverse.map fun place => Nat.digitChar (number >>> (4 * place) % 16)

def hexDigit? (c : Char) : Option Nat :=
  if c.isDigit then some (c.toNat - '0'.toNat)
  else if 'a' ≤ c ∧ c ≤ 'f' then some (c.toNat - 'a'.toNat + 10)
  else if 'A' ≤ c ∧ c ≤ 'F' then some (c.toNat - 'A'.toNat + 10)
  else none

def ofHex? (digits : List Char) : Option Nat :=
  digits.foldlM (fun number c => (number * 16 + ·) <$> hexDigit? c) 0

theorem hexDigit?_digitChar : ∀ digit < 16, hexDigit? (Nat.digitChar digit) = some digit := by
  decide

/-- Four places are enough for a number of sixteen bits. -/
theorem ofHex?_hex {number : Nat} (h : number < 0x10000) : ofHex? (hex 4 number) = some number := by
  have hdigit (rest : Nat) : hexDigit? (Nat.digitChar (rest % 16)) = some (rest % 16) :=
    hexDigit?_digitChar _ (Nat.mod_lt _ (by decide))
  have hdigits : hex 4 number =
      [number / 4096, number / 256, number / 16, number].map fun rest =>
        Nat.digitChar (rest % 16) := by
    simp [hex, List.range_succ, Nat.shiftRight_eq_div_pow]
  simp only [ofHex?, hdigits, List.map_cons, List.map_nil, List.foldlM_cons, List.foldlM_nil,
    hdigit, Option.map_eq_map, Option.map_some, Option.bind_eq_bind, Option.bind_some,
    Option.pure_def, Option.some.injEq]
  omega

end SexprCompiler.Text
