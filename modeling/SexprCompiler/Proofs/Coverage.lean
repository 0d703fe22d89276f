import Mathlib.Data.List.Forall2
import SexprCompiler.Proofs.Lexing

/-!
# Every character is accounted for

The tokens of a text stand on stretches of it, one after another. Whatever lies outside these
stretches is a separator, but for a string at the end that is never closed. What this says of the
part of a text before a position is kept when a separator or a token is added behind that part. A
piece gives no token only if it is a separator or a string whose quotes are all escaped.
-/
namespace SexprCompiler.Token

/-! ## Strings that are not closed -/

def slashes (before : List Char) : Nat := (before.reverse.takeWhile (· == '\\')).length

/-- A character is escaped if an odd number of backslashes stands right before it: the others take
each other along in pairs. -/
def Escaped (before : List Char) : Prop := slashes before % 2 = 1

/-- After an opening quote: no quote comes that is not escaped. -/
def Unclosed (cs : List Char) : Prop := ∀ body rest, cs = body ++ '"' :: rest → Escaped body

theorem slashes_le (cs : List Char) : slashes cs ≤ cs.length := by
  rw [slashes, ← @List.length_reverse _ cs]
  exact (List.takeWhile_sublist _).length_le

theorem slashes_cons (c : Char) (cs : List Char) :
    slashes (c :: cs) =
      if slashes cs = cs.length ∧ c = '\\' then cs.length + 1 else slashes cs := by
  simp only [slashes, List.reverse_cons, List.takeWhile_append, List.length_reverse]
  by_cases hall : (cs.reverse.takeWhile (· == '\\')).length = cs.length
  · by_cases hc : c = '\\' <;> simp [hall, hc]
  · simp [hall]

theorem escaped_cons {c : Char} (hc : c ≠ '\\') (cs : List Char) :
    Escaped (c :: cs) ↔ Escaped cs := by
  simp [Escaped, slashes_cons, hc]

/-- A backslash and the character that it takes along escape nothing behind them. -/
theorem escaped_pair (c : Char) (cs : List Char) : Escaped ('\\' :: c :: cs) ↔ Escaped cs := by
  have hle := slashes_le cs
  rw [Escaped, slashes_cons, slashes_cons c, List.length_cons, Escaped]
  by_cases hall : slashes cs = cs.length ∧ c = '\\'
  · rw [if_pos hall, if_pos ⟨rfl, rfl⟩, hall.1]
    omega
  · rw [if_neg hall, if_neg (by omega)]

theorem unclosed_cons {c : Char} (hquote : c ≠ '"') (hslash : c ≠ '\\') (cs : List Char) :
    Unclosed (c :: cs) ↔ Unclosed cs := by
  constructor
  · intro h body rest hsplit
    exact (escaped_cons hslash body).mp (h (c :: body) rest (by rw [hsplit]; rfl))
  · intro h body rest hsplit
    rcases List.cons_eq_append_iff.mp hsplit with ⟨rfl, hfirst⟩ | ⟨inner, rfl, hrest⟩
    · exact absurd (List.cons_eq_cons.mp hfirst).1.symm hquote
    · exact (escaped_cons hslash inner).mpr (h inner rest hrest)

theorem unclosed_pair (c : Char) (cs : List Char) :
    Unclosed ('\\' :: c :: cs) ↔ Unclosed cs := by
  constructor
  · intro h body rest hsplit
    exact (escaped_pair c body).mp (h ('\\' :: c :: body) rest (by rw [hsplit]; rfl))
  · intro h body rest hsplit
    rcases body with _ | ⟨first, _ | ⟨second, inner⟩⟩
    · simp at hsplit
    · obtain ⟨rfl, -⟩ := List.cons_eq_cons.mp hsplit
      rfl
    · simp only [List.cons_append, List.cons.injEq] at hsplit
      obtain ⟨rfl, rfl, hrest⟩ := hsplit
      exact (escaped_pair c inner).mpr (h inner rest hrest)

/-- The closing quote is found unless every quote is escaped. -/
theorem closingQuote_eq_none_iff (cs : List Char) : closingQuote cs = none ↔ Unclosed cs := by
  fun_induction closingQuote cs with
  | case1 => simp [Unclosed]
  | case2 rest =>
    simp only [reduceCtorEq, false_iff]
    intro h
    exact Nat.zero_ne_one (h [] rest rfl)
  | case3 =>
    simp only [true_iff]
    intro body rest hsplit
    rcases List.cons_eq_append_iff.mp hsplit with ⟨rfl, hfirst⟩ | ⟨inner, rfl, hrest⟩
    · simp at hfirst
    · simp at hrest
  | case4 c rest ih => rw [Option.map_eq_none_iff, unclosed_pair, ih]
  | case5 c rest hquote hlast hpair ih =>
    rw [Option.map_eq_none_iff, unclosed_cons hquote (ne_backslash hlast hpair), ih]

/-! ## Pieces without a token -/

theorem exists_kind_number (cs : List Char) : ∃ kind, (number cs).kind = some kind := by
  unfold number
  dsimp only
  split
  · split <;> exact ⟨_, rfl⟩
  · exact ⟨_, rfl⟩

theorem exists_kind_comparison (alone doubled : Kind) (cs : List Char) :
    ∃ kind, (comparison alone doubled cs).kind = some kind := by
  unfold comparison
  split <;> exact ⟨_, rfl⟩

theorem exists_kind_sign : ∀ c ∈ signs,
    c ∈ separators ∨ c = '"' ∨ ∀ cs, ∃ kind, (piece c cs).kind = some kind := by
  simp only [signs, List.forall_mem_cons]
  exact ⟨.inr (.inr fun _ => ⟨_, rfl⟩), .inr (.inr fun _ => ⟨_, rfl⟩),
    .inl (by decide), .inl (by decide), .inl (by decide), .inl (by decide), .inl (by decide),
    .inr (.inr fun _ => ⟨_, rfl⟩), .inr (.inl trivial),
    .inr (.inr fun _ => ⟨_, rfl⟩), .inr (.inr fun _ => ⟨_, rfl⟩),
    .inr (.inr fun _ => ⟨_, rfl⟩), .inr (.inr fun _ => ⟨_, rfl⟩),
    .inr (.inr (exists_kind_comparison _ _)), .inr (.inr (exists_kind_comparison _ _)),
    .inr (.inr (exists_kind_comparison _ _)), .inr (.inr (exists_kind_comparison _ _)),
    List.forall_mem_nil _⟩

theorem exists_kind_piece (c : Char) :
    c ∈ separators ∨ c = '"' ∨ ∀ cs, ∃ kind, (piece c cs).kind = some kind := by
  by_cases hsign : c ∈ signs
  · exact exists_kind_sign c hsign
  · refine .inr (.inr fun cs => ?_)
    rw [piece_of_not_sign hsign]
    split
    · exact ⟨_, rfl⟩
    · split
      · exact exists_kind_number cs
      · exact ⟨_, rfl⟩

/-- A piece without a token is a separator or a string that is not closed. -/
theorem separator_or_unclosed {c : Char} {cs : List Char} (h : (piece c cs).kind = none) :
    (c ∈ separators ∧ (piece c cs).extra = 0) ∨
      (c = '"' ∧ Unclosed cs ∧ (piece c cs).extra = cs.length) := by
  rcases exists_kind_piece c with hseparator | rfl | hkind
  · exact .inl ⟨hseparator, by rw [piece_separator c hseparator]⟩
  · change (quoted cs).kind = none at h
    change _ ∨ '"' = '"' ∧ Unclosed cs ∧ (quoted cs).extra = cs.length
    unfold quoted at h ⊢
    cases hclose : closingQuote cs with
    | some extra => simp [hclose] at h
    | none => exact .inr ⟨rfl, (closingQuote_eq_none_iff cs).mp hclose, rfl⟩
  · obtain ⟨kind, hsome⟩ := hkind cs
    simp [hsome] at h

/-! ## Stretches of a text -/

structure Span where
  start : Nat
  stop : Nat

def Span.Has (span : Span) (position : Nat) : Prop :=
  span.start ≤ position ∧ position < span.stop

/-- A token, not empty and not an end, is what stands on a stretch of the text, and its line is one
more than the number of line feeds up to the end of the stretch. -/
structure StandsOn (text : List Char) (token : Token) (span : Span) : Prop where
  kind : token.kind ≠ .eof
  lexeme_ne : token.lexeme ≠ ""
  stop_le : span.stop ≤ text.length
  lexeme : token.lexeme.toList = text.extract span.start span.stop
  line : token.line = 1 + (text.take span.stop).count '\n'

theorem StandsOn.start_lt {text : List Char} {token : Token} {span : Span}
    (h : StandsOn text token span) : span.start < span.stop := by
  have hne : text.extract span.start span.stop ≠ [] := by
    rw [← h.lexeme]
    simpa using h.lexeme_ne
  rw [List.extract_eq_take_drop, ← List.length_pos_iff, List.length_take] at hne
  omega

/-- The tokens stand on stretches of the text before the position `stop`, one after another, with
nothing but separators outside of them. -/
structure Covers (text : List Char) (tokens : List Token) (spans : List Span) (stop : Nat) :
    Prop where
  stands : List.Forall₂ (StandsOn text) tokens spans
  increasing : spans.Pairwise fun span later => span.stop ≤ later.start
  within : ∀ span ∈ spans, span.stop ≤ stop
  between : ∀ position c, text[position]? = some c → position < stop →
    (∀ span ∈ spans, ¬span.Has position) → c ∈ separators

/-- After what the tokens cover comes nothing, or a string that is not closed. -/
structure Accounts (text : List Char) (tokens : List Token) (spans : List Span) (unread : Nat) :
    Prop extends Covers text tokens spans unread where
  unclosed : unread = text.length ∨ ∃ rest, text.drop unread = '"' :: rest ∧ Unclosed rest

section

variable {text : List Char} {tokens : List Token} {spans : List Span} {stop : Nat}

theorem covers_nil (text : List Char) : Covers text [] [] 0 where
  stands := .nil
  increasing := .nil
  within := List.forall_mem_nil _
  between := by
    intro position c _ hlt
    omega

theorem Covers.skip (h : Covers text tokens spans stop) {c : Char} (hchar : text[stop]? = some c)
    (hc : c ∈ separators) : Covers text tokens spans (stop + 1) where
  stands := h.stands
  increasing := h.increasing
  within := fun span hspan => Nat.le_succ_of_le (h.within span hspan)
  between := by
    intro position other hother hlt hfree
    rcases Nat.lt_succ_iff_lt_or_eq.mp hlt with hearlier | rfl
    · exact h.between position other hother hearlier hfree
    · obtain rfl : c = other := Option.some.inj (hchar.symm.trans hother)
      exact hc

theorem Covers.concat (h : Covers text tokens spans stop) {token : Token} {next : Nat}
    (htoken : StandsOn text token ⟨stop, next⟩) :
    Covers text (tokens ++ [token]) (spans ++ [⟨stop, next⟩]) next where
  stands := List.rel_append h.stands (.cons htoken .nil)
  increasing := by
    refine List.pairwise_append.mpr ⟨h.increasing, List.pairwise_singleton _ _, ?_⟩
    simpa using h.within
  within := by
    have hlt : stop < next := htoken.start_lt
    refine List.forall_mem_append.mpr ⟨?_, by simp⟩
    intro span hspan
    exact Nat.le_trans (h.within span hspan) (Nat.le_of_lt hlt)
  between := by
    intro position c hc hlt hfree
    rw [List.forall_mem_append] at hfree
    have hearlier : position < stop :=
      Nat.lt_of_not_le fun hle => hfree.2 _ List.mem_cons_self ⟨hle, hlt⟩
    exact h.between position c hc hearlier hfree.1

end

end SexprCompiler.Token
