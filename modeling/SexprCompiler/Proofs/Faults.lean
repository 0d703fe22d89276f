import SexprCompiler.Proofs.Cursor

/-!
# Where and why reading fails

A call that finds no tree has met a token that no tree can go on with. The tokens before it can be
completed to a tree: an open group gets a tag, if it lacks one, and is closed. With the token they
cannot, since reading would stop there whatever follows. The kind of the fault depends on the
token and on the groups that are open before it, which are found by counting parentheses.
-/
namespace SexprCompiler.Sexpr

open Token (withEnd)

/-- The tokens can be completed to a tree, in groups nested at most `limit` deep. -/
def Completable (limit : Nat) (tokens : List Token) : Prop :=
  ∃ more tree, Derives limit (tokens ++ more) [tree]

def pairUp (opened : List Token) (token : Token) : List Token :=
  match token.role with
  | .opening => token :: opened
  | .closing => opened.tail
  | .ending | .atom => opened

def openings (tokens : List Token) : List Token := tokens.foldl pairUp []

/-- The next token stands in the place of a tag, right after an opening token. -/
def AwaitsTag (tokens : List Token) : Prop :=
  ∃ opening, tokens.getLast? = some opening ∧ opening.role = .opening

/-- The error that a token calls for after the given ones, when at most `limit` groups may be
open. -/
structure Explains (limit : Nat) (before : List Token) (token : Token) (error : ReadError) :
    Prop where
  unexpectedEnd : error = .unexpectedEnd ↔ before = [] ∧ token.role = .ending
  unexpectedClosing : ∀ line, error = .unexpectedClosing line ↔
    before = [] ∧ token.role = .closing ∧ token.line = line
  unclosedGroup : ∀ line, error = .unclosedGroup line ↔
    token.role = .ending ∧ ∃ opening, (openings before).head? = some opening ∧ opening.line = line
  emptyGroup : ∀ line, error = .emptyGroup line ↔
    token.role = .closing ∧
      ∃ opening, before.getLast? = some opening ∧ opening.role = .opening ∧ opening.line = line
  invalidTag : ∀ lexeme line, error = .invalidTag lexeme line ↔
    token.role = .opening ∧ AwaitsTag before ∧ token.lexeme = lexeme ∧ token.line = line
  tooDeep : ∀ line, error = .tooDeep line ↔
    token.role = .opening ∧ ¬ AwaitsTag before ∧ (openings before).length = limit ∧
      token.line = line

theorem openings_concat (tokens : List Token) (token : Token) :
    openings (tokens ++ [token]) = pairUp (openings tokens) token := by
  simp [openings]

theorem awaitsTag_concat (tokens : List Token) (token : Token) :
    AwaitsTag (tokens ++ [token]) ↔ token.role = .opening := by
  simp [AwaitsTag]

/-! ## What a step does -/

inductive Moves : Nesting → Token → Nesting → Prop where
  | tag {line groups token} (hrole : token.role = .atom) :
      Moves ⟨some line, groups⟩ token ⟨none, ⟨line, token, []⟩ :: groups⟩
  | opening {groups token} (hrole : token.role = .opening) :
      Moves ⟨none, groups⟩ token ⟨some token.line, groups⟩
  | closing {group parent outer token} (hrole : token.role = .closing) :
      Moves ⟨none, group :: parent :: outer⟩ token ⟨none, parent.push group.close :: outer⟩
  | atom {group outer token} (hrole : token.role = .atom) :
      Moves ⟨none, group :: outer⟩ token
        ⟨none, group.push (leaf token.lexeme token.line) :: outer⟩

inductive Stops : Nesting → Token → ReadError → Prop where
  | tagOpening {line groups token} (hrole : token.role = .opening) :
      Stops ⟨some line, groups⟩ token (.invalidTag token.lexeme token.line)
  | tagClosing {line groups token} (hrole : token.role = .closing) :
      Stops ⟨some line, groups⟩ token (.emptyGroup line)
  | tagEnding {line groups token} (hrole : token.role = .ending) :
      Stops ⟨some line, groups⟩ token (.unclosedGroup line)
  | opening {groups token} (hrole : token.role = .opening) (hdepth : groups.length = maxDepth) :
      Stops ⟨none, groups⟩ token (.tooDeep token.line)
  | closing {token} (hrole : token.role = .closing) :
      Stops ⟨none, []⟩ token (.unexpectedClosing token.line)
  | ending {token} (hrole : token.role = .ending) : Stops ⟨none, []⟩ token .unexpectedEnd
  | endingInside {group outer token} (hrole : token.role = .ending) :
      Stops ⟨none, group :: outer⟩ token (.unclosedGroup group.line)

theorem moves_of_step {nesting next : Nesting} {token : Token}
    (h : step nesting token = .more next) : Moves nesting token next := by
  obtain ⟨_ | line, groups⟩ := nesting
  · dsimp only [step, stepTree] at h
    cases hrole : token.role with
    | opening =>
      simp only [hrole] at h
      split at h
      · cases h
      · cases h
        exact .opening hrole
    | closing =>
      simp only [hrole] at h
      rcases groups with _ | ⟨group, _ | ⟨parent, outer⟩⟩ <;> cases h
      exact .closing hrole
    | ending =>
      simp only [hrole] at h
      cases h
    | atom =>
      simp only [hrole] at h
      rcases groups with _ | ⟨group, outer⟩ <;> cases h
      exact .atom hrole
  · dsimp only [step, stepTag] at h
    cases hrole : token.role <;> simp only [hrole] at h <;> cases h
    exact .tag hrole

theorem stops_of_step {nesting : Nesting} {token : Token} {error : ReadError} {taken : Bool}
    (h : step nesting token = .fault error taken) : Stops nesting token error := by
  obtain ⟨_ | line, groups⟩ := nesting
  · dsimp only [step, stepTree] at h
    cases hrole : token.role with
    | opening =>
      simp only [hrole] at h
      split at h
      · rename_i hdepth
        cases h
        exact .opening hrole hdepth
      · cases h
    | closing =>
      simp only [hrole] at h
      rcases groups with _ | ⟨group, _ | ⟨parent, outer⟩⟩ <;> cases h
      exact .closing hrole
    | ending =>
      simp only [hrole] at h
      cases h
      cases groups with
      | nil => exact .ending hrole
      | cons group outer => exact .endingInside hrole
    | atom =>
      simp only [hrole] at h
      cases groups <;> cases h
  · dsimp only [step, stepTag] at h
    cases hrole : token.role <;> simp only [hrole] at h <;> cases h
    · exact .tagOpening hrole
    · exact .tagClosing hrole
    · exact .tagEnding hrole

theorem step_of_ending {token : Token} (h : token.role = .ending) (nesting : Nesting) :
    step nesting token = .fault nesting.endError false := by
  obtain ⟨_ | line, groups⟩ := nesting <;> simp [step, stepTree, stepTag, h, Nesting.endError]

/-! ## The place that tokens lead to -/

def Nesting.lines (nesting : Nesting) : List Nat :=
  nesting.pending.toList ++ nesting.groups.map OpenGroup.line

/-- After the given tokens the reader is at a place, which shows what parentheses are open. -/
structure Arrives (used : List Token) (nesting : Nesting) : Prop where
  reached : Reached used nesting
  reads : ∀ rest, read (used ++ rest) = readFrom nesting rest
  lines : (openings used).map Token.line = nesting.lines
  pending : nesting.pending.isSome ↔ AwaitsTag used
  inside : nesting.lines = [] → used = []

theorem arrives_outside : Arrives [] Nesting.outside where
  reached := .inside .nil
  reads := fun _ => rfl
  lines := rfl
  pending := by simp [Nesting.outside, AwaitsTag]
  inside := fun _ => rfl

theorem Arrives.step {used : List Token} {nesting next : Nesting} {token : Token}
    (h : Arrives used nesting) (hstep : step nesting token = .more next) :
    Arrives (used ++ [token]) next where
  reached := by
    have hsound := h.reached.sound_step token
    rwa [hstep] at hsound
  reads := by
    intro rest
    rw [List.append_assoc, h.reads, List.singleton_append, readFrom, hstep]
  lines := by
    have hlines := h.lines
    rw [openings_concat]
    cases moves_of_step hstep with
    | tag hrole => simpa [pairUp, hrole, Nesting.lines] using hlines
    | opening hrole => simpa [pairUp, hrole, Nesting.lines] using hlines
    | closing hrole =>
      have htail := congrArg List.tail hlines
      simpa [pairUp, hrole, Nesting.lines, OpenGroup.push] using htail
    | atom hrole => simpa [pairUp, hrole, Nesting.lines, OpenGroup.push] using hlines
  pending := by
    rw [awaitsTag_concat]
    cases moves_of_step hstep with
    | tag hrole | opening hrole | closing hrole | atom hrole => simp [hrole]
  inside := by
    intro hlines
    cases moves_of_step hstep <;> simp [Nesting.lines] at hlines

/-- Tokens on the way can be completed to a tree by closing all groups, the innermost first. -/
theorem Reached.completable_of_groups {used : List Token} {groups : List OpenGroup}
    (h : Reached used ⟨none, groups⟩) (hgroups : groups ≠ []) : Completable maxDepth used := by
  generalize hcount : groups.length = count
  induction count generalizing used groups with
  | zero => exact absurd (List.length_eq_zero_iff.mp hcount) hgroups
  | succ count ih =>
    have hsound := h.sound_step ⟨.rightParen, ")", 0⟩
    rcases groups with _ | ⟨group, _ | ⟨parent, outer⟩⟩
    · exact absurd rfl hgroups
    · exact ⟨_, group.close, hsound⟩
    · obtain ⟨more, tree, hderives⟩ := ih hsound (by simp) (by simpa using hcount)
      exact ⟨_ :: more, tree, by simpa using hderives⟩

theorem Reached.completable {used : List Token} {nesting : Nesting} (h : Reached used nesting) :
    Completable maxDepth used := by
  obtain ⟨_ | line, groups⟩ := nesting
  · by_cases hgroups : groups = []
    · subst hgroups
      have hsound := h.sound_step ⟨.name, "nil", 0⟩
      exact ⟨_, leaf "nil" 0, hsound⟩
    · exact h.completable_of_groups hgroups
  · have hsound := h.sound_step ⟨.name, "nil", 0⟩
    obtain ⟨more, tree, hderives⟩ := Reached.completable_of_groups hsound (by simp)
    exact ⟨_ :: more, tree, by simpa using hderives⟩

/-- With a token that stops the reader, the tokens cannot be completed. -/
theorem Arrives.not_completable {used : List Token} {nesting : Nesting} {token : Token}
    {error : ReadError} {taken : Bool} (h : Arrives used nesting)
    (hstep : Sexpr.step nesting token = .fault error taken) :
    ¬ Completable maxDepth (used ++ [token]) := by
  rintro ⟨more, tree, hderives⟩
  have hread := hderives.read_append (Nat.le_refl _) []
  rw [List.append_nil, List.append_assoc, h.reads, List.singleton_append, readFrom, hstep] at hread
  cases taken <;> cases hread

/-! ## The error at the token that stops the reader -/

theorem head?_openings_of_getLast? {tokens : List Token} {opening : Token}
    (hlast : tokens.getLast? = some opening) (hrole : opening.role = .opening) :
    (openings tokens).head? = some opening := by
  obtain ⟨front, rfl⟩ := List.getLast?_eq_some_iff.mp hlast
  simp [openings_concat, pairUp, hrole]

/-- The innermost open group is the one whose line the place tells. -/
theorem Arrives.exists_head? {used : List Token} {nesting : Nesting} (h : Arrives used nesting)
    {line : Nat} {outer : List Nat} (hlines : nesting.lines = line :: outer) :
    ∃ opening, (openings used).head? = some opening ∧ opening.line = line := by
  obtain ⟨opening, others, hopenings, hline, -⟩ := List.map_eq_cons_iff.mp (h.lines.trans hlines)
  exact ⟨opening, by rw [hopenings, List.head?_cons], hline⟩

/-- In the place of a tag the token before is the opening one of the innermost group. -/
theorem Arrives.exists_getLast? {used : List Token} {line : Nat} {groups : List OpenGroup}
    (h : Arrives used ⟨some line, groups⟩) :
    ∃ opening, used.getLast? = some opening ∧ opening.role = .opening ∧ opening.line = line ∧
      (openings used).head? = some opening := by
  obtain ⟨opening, hlast, hrole⟩ := h.pending.mp rfl
  have hhead := head?_openings_of_getLast? hlast hrole
  obtain ⟨found, hfound, hline⟩ := h.exists_head? rfl
  rw [hhead, Option.some.injEq] at hfound
  subst hfound
  exact ⟨opening, hlast, hrole, hline, hhead⟩

theorem Arrives.length_openings {used : List Token} {groups : List OpenGroup}
    (h : Arrives used ⟨none, groups⟩) : (openings used).length = groups.length := by
  simpa [Nesting.lines] using congrArg List.length h.lines

theorem Arrives.explains_tag {used : List Token} {line : Nat} {groups : List OpenGroup}
    {token : Token} {error : ReadError} (h : Arrives used ⟨some line, groups⟩)
    (hstops : Stops ⟨some line, groups⟩ token error) : Explains maxDepth used token error := by
  obtain ⟨opening, hlast, hopening, hline, hhead⟩ := h.exists_getLast?
  have hawaits : AwaitsTag used := ⟨opening, hlast, hopening⟩
  have hused : used ≠ [] := by
    rintro rfl
    cases hlast
  cases hstops with
  | tagOpening hrole => constructor <;> simp [hrole, hawaits]
  | tagClosing hrole => constructor <;> simp [hrole, hused, hlast, hopening, hline]
  | tagEnding hrole => constructor <;> simp [hrole, hused, hhead, hline]

theorem Arrives.explains_tree {used : List Token} {groups : List OpenGroup} {token : Token}
    {error : ReadError} (h : Arrives used ⟨none, groups⟩)
    (hstops : Stops ⟨none, groups⟩ token error) : Explains maxDepth used token error := by
  have hawaits : ¬ AwaitsTag used := fun hawaits => absurd (h.pending.mpr hawaits) nofun
  have hlength := h.length_openings
  cases hstops with
  | opening hrole hdepth => constructor <;> simp [hrole, hawaits, hlength, hdepth]
  | closing hrole =>
    obtain rfl := h.inside rfl
    constructor <;> simp [hrole]
  | ending hrole =>
    obtain rfl := h.inside rfl
    constructor <;> simp [hrole, openings]
  | @endingInside group outer _ hrole =>
    obtain ⟨opening, hhead, hline⟩ := h.exists_head? rfl
    have hused : used ≠ [] := by
      rintro rfl
      cases hhead
    constructor <;> simp [hrole, hused, hhead, hline]

theorem Arrives.explains {used : List Token} {nesting : Nesting} {token : Token}
    {error : ReadError} {taken : Bool} (h : Arrives used nesting)
    (hstep : Sexpr.step nesting token = .fault error taken) :
    Explains maxDepth used token error := by
  obtain ⟨_ | line, groups⟩ := nesting
  · exact h.explains_tree (stops_of_step hstep)
  · exact h.explains_tag (stops_of_step hstep)

structure FailsAt (limit : Nat) (before : List Token) (token : Token) (error : ReadError) :
    Prop where
  completable : Completable limit before
  impossible : ¬ Completable limit (before ++ [token])
  explains : Explains limit before token error

theorem Arrives.exists_failsAt {used tokens rest : List Token} {nesting : Nesting}
    {error : ReadError} (h : Arrives used nesting) (hend : ∃ token ∈ tokens, token.role = .ending)
    (hread : readFrom nesting tokens = (.error error, rest)) :
    ∃ before token after, tokens = before ++ token :: after ∧
      FailsAt maxDepth (used ++ before) token error := by
  induction tokens generalizing used nesting with
  | nil => simp at hend
  | cons token tokens ih =>
    rw [readFrom] at hread
    cases hstep : Sexpr.step nesting token with
    | more next =>
      rw [hstep] at hread
      have hrest : ∃ token ∈ tokens, token.role = .ending := by
        obtain ⟨ending, hmem, hrole⟩ := hend
        rcases List.mem_cons.mp hmem with rfl | hmem
        · rw [step_of_ending hrole] at hstep
          cases hstep
        · exact ⟨ending, hmem, hrole⟩
      obtain ⟨before, found, after, rfl, hfails⟩ := ih (h.step hstep) hrest hread
      exact ⟨token :: before, found, after, rfl, by simpa using hfails⟩
    | done tree =>
      rw [hstep] at hread
      cases hread
    | fault found taken =>
      rw [hstep] at hread
      obtain rfl : found = error := by cases taken <;> cases hread <;> rfl
      refine ⟨[], token, tokens, rfl, ?_⟩
      rw [List.append_nil]
      exact ⟨h.reached.completable, h.not_completable hstep, h.explains hstep⟩

/-! ## Calls -/

/-- The end of the tokens is never taken. -/
theorem exists_ending_readFrom {tokens : List Token} (h : ∃ token ∈ tokens, token.role = .ending)
    (nesting : Nesting) : ∃ token ∈ (readFrom nesting tokens).2, token.role = .ending := by
  induction tokens generalizing nesting with
  | nil => simp at h
  | cons token tokens ih =>
    obtain ⟨ending, hmem, hrole⟩ := h
    rw [readFrom]
    rcases List.mem_cons.mp hmem with rfl | hrest
    · rw [step_of_ending hrole]
      exact ⟨ending, hmem, hrole⟩
    · split
      · exact ih ⟨ending, hrest, hrole⟩ _
      · exact ⟨ending, hrest, hrole⟩
      · exact ⟨ending, hrest, hrole⟩
      · exact ⟨ending, hmem, hrole⟩

theorem exists_ending_withEnd (tokens : List Token) :
    ∃ token ∈ withEnd tokens, token.role = .ending := by
  unfold withEnd
  split
  · exact ⟨_, List.mem_singleton_self _, rfl⟩
  · rename_i last hlast
    split
    · exact ⟨last, List.mem_of_getLast? hlast, by assumption⟩
    · exact ⟨_, List.mem_append_right _ (List.mem_singleton_self _), rfl⟩

theorem exists_ending_leftAfter (tokens : List Token) (calls : Nat) :
    ∃ token ∈ leftAfter tokens calls, token.role = .ending := by
  induction calls with
  | zero => exact exists_ending_withEnd tokens
  | succ calls ih => exact exists_ending_readFrom ih _

/-- Whatever tokens are given and however many calls came before, a call that fails does so at the
first token that no tree can go on with from where the call started, and its error is the one that
this token calls for. -/
theorem call_fails_at_first_impossible_token {tokens : List Token} {calls : Nat}
    {error : ReadError} (h : (read (leftAfter tokens calls)).1 = .error error) :
    ∃ position token, cursor tokens calls ≤ position ∧ (withEnd tokens)[position]? = some token ∧
      Completable 256 ((withEnd tokens).extract (cursor tokens calls) position) ∧
      ¬ Completable 256 ((withEnd tokens).extract (cursor tokens calls) (position + 1)) ∧
      Explains 256 ((withEnd tokens).extract (cursor tokens calls) position) token error := by
  obtain ⟨before, token, after, hleft, hfails⟩ :=
    arrives_outside.exists_failsAt (exists_ending_leftAfter tokens calls) (Prod.ext h rfl)
  rw [← drop_cursor] at hleft
  rw [List.nil_append] at hfails
  have hbefore : (withEnd tokens).extract (cursor tokens calls)
      (cursor tokens calls + before.length) = before := by
    rw [List.extract_eq_take_drop, hleft]
    simp
  have htoken : (withEnd tokens).extract (cursor tokens calls)
      (cursor tokens calls + before.length + 1) = before ++ [token] := by
    rw [List.extract_eq_take_drop, hleft, Nat.add_assoc, Nat.add_sub_cancel_left,
      ← List.singleton_append, ← List.append_assoc]
    exact List.take_left' List.length_append
  refine ⟨cursor tokens calls + before.length, token, Nat.le_add_right _ _, ?_, ?_⟩
  · rw [← List.getElem?_drop, hleft]
    simp
  · rw [hbefore, htoken]
    exact ⟨hfails.completable, hfails.impossible, hfails.explains⟩

def unfinishedTokens : List Token :=
  [⟨.name, "x", 1⟩, ⟨.leftParen, "(", 2⟩, ⟨.keyword, ":if", 2⟩, ⟨.leftParen, "(", 3⟩,
    ⟨.keyword, ":true", 3⟩, ⟨.rightParen, ")", 3⟩, ⟨.leftParen, "(", 4⟩, ⟨.keyword, ":lvar", 5⟩]

/-- The first call takes the leaf, and the second fails at the end for the group on line 4. -/
theorem second_call_fails_at_end :
    cursor unfinishedTokens 1 = 1 ∧
      (read (leftAfter unfinishedTokens 1)).1 = .error (.unclosedGroup 4) ∧
      ∃ position token, 1 ≤ position ∧ (withEnd unfinishedTokens)[position]? = some token ∧
        Completable 256 ((withEnd unfinishedTokens).extract 1 position) ∧
        ¬ Completable 256 ((withEnd unfinishedTokens).extract 1 (position + 1)) ∧
        token.role = .ending := by
  have hread : (read (leftAfter unfinishedTokens 1)).1 = .error (.unclosedGroup 4) := rfl
  obtain ⟨position, token, hle, htoken, hbefore, himpossible, hexplains⟩ :=
    call_fails_at_first_impossible_token hread
  obtain ⟨hrole, -⟩ := (hexplains.unclosedGroup 4).mp rfl
  exact ⟨rfl, hread, position, token, hle, htoken, hbefore, himpossible, hrole⟩

end SexprCompiler.Sexpr
