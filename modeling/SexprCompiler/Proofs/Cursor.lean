import SexprCompiler.Proofs.Grammar

/-!
# Reading tree after tree

Tokens are read by one call after another. Each call goes on where the one before it has stopped,
whether that one found a tree or a fault. So a place among the tokens is a position in their list,
and a call moves from one position to a later one. It finds a tree exactly when the grammar
derives that tree from the tokens between the two positions.
-/
namespace SexprCompiler.Sexpr

open Token (withEnd)

def leftAfter (tokens : List Token) : Nat → List Token
  | 0 => withEnd tokens
  | calls + 1 => (read (leftAfter tokens calls)).2

def cursor (tokens : List Token) (calls : Nat) : Nat :=
  (withEnd tokens).length - (leftAfter tokens calls).length

theorem leftAfter_suffix (tokens : List Token) (calls : Nat) :
    leftAfter tokens calls <:+ withEnd tokens := by
  induction calls with
  | zero => exact List.suffix_refl _
  | succ calls ih => exact (read_suffix _).trans ih

theorem drop_cursor (tokens : List Token) (calls : Nat) :
    (withEnd tokens).drop (cursor tokens calls) = leftAfter tokens calls :=
  (List.suffix_iff_eq_drop.mp (leftAfter_suffix tokens calls)).symm

theorem cursor_le (tokens : List Token) (calls : Nat) :
    cursor tokens calls ≤ (withEnd tokens).length :=
  Nat.sub_le _ _

/-- From one position to another the tokens are those of a tree, in groups nested at most `limit`
deep. -/
structure DerivesAt (limit : Nat) (tokens : List Token) (start stop : Nat) (tree : Sexpr) :
    Prop where
  start_le : start ≤ stop
  stop_le : stop ≤ tokens.length
  derives : Derives limit (tokens.extract start stop) [tree]

theorem derivesAt_iff {tokens : List Token} {start stop : Nat} {tree : Sexpr}
    (hstart : start ≤ tokens.length) :
    DerivesAt maxDepth tokens start stop tree ↔
      stop ≤ tokens.length ∧ read (tokens.drop start) = (.ok tree, tokens.drop stop) := by
  rw [read_eq_ok_iff]
  constructor
  · rintro ⟨hle, hstop, hderives⟩
    refine ⟨hstop, _, ?_, hderives⟩
    have hrest : (tokens.drop start).drop (stop - start) = tokens.drop stop := by
      rw [List.drop_drop, Nat.add_sub_cancel' hle]
    rw [List.extract_eq_take_drop, ← hrest, List.take_append_drop]
  · rintro ⟨hstop, taken, htaken, hderives⟩
    have hlength := congrArg List.length htaken
    rw [List.length_append, List.length_drop, List.length_drop] at hlength
    have hextract : tokens.extract start stop = taken := by
      rw [List.extract_eq_take_drop, htaken]
      exact List.take_left' (by omega)
    exact ⟨by omega, hstop, hextract ▸ hderives⟩

/-- From a position at most one tree can be derived, to at most one other position. -/
theorem DerivesAt.unique {tokens : List Token} {start stop stop' : Nat} {tree tree' : Sexpr}
    (h : DerivesAt maxDepth tokens start stop tree)
    (h' : DerivesAt maxDepth tokens start stop' tree') : tree = tree' ∧ stop = stop' := by
  have hstart := Nat.le_trans h.start_le h.stop_le
  obtain ⟨hstop, hread⟩ := (derivesAt_iff hstart).mp h
  obtain ⟨hstop', hread'⟩ := (derivesAt_iff hstart).mp h'
  rw [hread, Prod.mk.injEq, Except.ok.injEq] at hread'
  have hlength := congrArg List.length hread'.2
  rw [List.length_drop, List.length_drop] at hlength
  exact ⟨hread'.1, by omega⟩

/-- Whatever tokens are given and however many calls came before, a call finds a tree and stops at a
position exactly when the grammar derives the tree from the tokens up to there, and there is only
one such tree and position. -/
theorem call_accepts_exactly_grammar (tokens : List Token) (calls : Nat) :
    (∀ tree stop,
      (read (leftAfter tokens calls)).1 = .ok tree ∧ cursor tokens (calls + 1) = stop ↔
        DerivesAt 256 (withEnd tokens) (cursor tokens calls) stop tree) ∧
    ∀ tree tree' stop stop',
      DerivesAt 256 (withEnd tokens) (cursor tokens calls) stop tree →
        DerivesAt 256 (withEnd tokens) (cursor tokens calls) stop' tree' →
          tree = tree' ∧ stop = stop' := by
  refine ⟨fun tree stop => ?_, fun _ _ _ _ h h' => h.unique h'⟩
  change _ ↔ DerivesAt maxDepth _ _ _ _
  rw [derivesAt_iff (cursor_le tokens calls), drop_cursor]
  constructor
  · rintro ⟨htree, rfl⟩
    exact ⟨cursor_le tokens (calls + 1), Prod.ext htree (drop_cursor tokens (calls + 1)).symm⟩
  · rintro ⟨hstop, hread⟩
    refine ⟨congrArg Prod.fst hread, ?_⟩
    rw [cursor, leftAfter, hread, List.length_drop]
    omega

/-- A group that is opened twice, with an end in the middle and none at the end. -/
def restartedTokens : List Token :=
  [⟨.leftParen, "(", 1⟩, ⟨.leftParen, "(", 2⟩, ⟨.keyword, ":int", 2⟩, ⟨.number, "7", 3⟩,
    ⟨.rightParen, ")", 4⟩, ⟨.eof, "", 4⟩, ⟨.name, "x", 5⟩]

theorem second_call_accepts_group :
    cursor restartedTokens 1 = 1 ∧ cursor restartedTokens 2 = 5 ∧
      DerivesAt 256 (withEnd restartedTokens) 1 5 ⟨":int", 2, [leaf "7" 3]⟩ ∧
        ∀ tree stop, DerivesAt 256 (withEnd restartedTokens) 1 stop tree →
          tree = ⟨":int", 2, [leaf "7" 3]⟩ ∧ stop = 5 := by
  have hcalls := call_accepts_exactly_grammar restartedTokens 1
  have hderives := (hcalls.1 ⟨":int", 2, [leaf "7" 3]⟩ 5).mp ⟨rfl, rfl⟩
  exact ⟨rfl, rfl, hderives, fun tree stop h => hcalls.2 _ _ _ _ h hderives⟩

end SexprCompiler.Sexpr
