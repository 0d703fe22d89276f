import SexprCompiler.Proofs.Faults

/-!
# Reading by recursive descent

A reader that holds all tokens, a position among them and the number of open groups goes down into
a group by calling itself. It looks tokens up by their position, which may have none, moves back by
one to see what it has just passed, and counts groups up and down on its way. All of this could go
wrong: a look-up outside of the tokens, a step back from the first position, one group too many
left. It never does, however often the reader is called and whatever the calls before have found,
and each call finds what reading the tokens that are left finds.
-/
namespace SexprCompiler.Sexpr

open Token (withEnd)

/-- Tokens with the position of the next one and the number of groups that are open. -/
structure Reader where
  tokens : List Token
  position : Nat
  depth : Nat

namespace Reader

def start (tokens : List Token) : Reader := ⟨withEnd tokens, 0, 0⟩

def peek? (reader : Reader) : Option Token := reader.tokens[reader.position]?

def previous? (reader : Reader) : Option Token :=
  if reader.position = 0 then none else reader.tokens[reader.position - 1]?

def moved (reader : Reader) (count : Nat) : Reader :=
  { reader with position := reader.position + count }

/-- Moves on by one token, but not beyond an end, and tells what token is then the one before. -/
def advance? (reader : Reader) : Option (Token × Reader) := do
  let next ← reader.peek?
  let reader := if next.role = .ending then reader else reader.moved 1
  return (← reader.previous?, reader)

def enter (reader : Reader) : Reader := { reader with depth := reader.depth + 1 }

/-- Leaves a group, if one is open. -/
def leave? (reader : Reader) : Option Reader :=
  if reader.depth = 0 then none else some { reader with depth := reader.depth - 1 }

/-- What was found and the reader afterwards. There is no answer if anything goes wrong. -/
abbrev Answer := Option (Except ReadError Sexpr × Reader)

def readGroup (readChildren : OpenGroup → Reader → Answer) (line : Nat) (reader : Reader) :
    Answer := do
  let token ← reader.peek?
  match token.role with
  | .ending => return (.error (.unclosedGroup line), reader)
  | .closing => return (.error (.emptyGroup line), reader)
  | .opening => return (.error (.invalidTag token.lexeme token.line), reader)
  | .atom =>
    let (tag, reader) ← reader.advance?
    readChildren ⟨line, tag, []⟩ reader

def readTree (readChildren : OpenGroup → Reader → Answer) (reader : Reader) : Answer := do
  let token ← reader.peek?
  match token.role with
  | .ending => return (.error .unexpectedEnd, reader)
  | .closing => return (.error (.unexpectedClosing token.line), reader)
  | .opening =>
    let (opening, reader) ← reader.advance?
    if reader.depth = maxDepth then return (.error (.tooDeep opening.line), reader)
    let (outcome, reader) ← readGroup readChildren opening.line reader.enter
    return (outcome, ← reader.leave?)
  | .atom =>
    let (atom, reader) ← reader.advance?
    return (.ok (leaf atom.lexeme atom.line), reader)

/-- Reads the other children of a group up to its closing token, in at most so many turns. -/
def readChildren : Nat → OpenGroup → Reader → Answer
  | 0, _, _ => none
  | turns + 1, group, reader => do
    let token ← reader.peek?
    match token.role with
    | .closing =>
      let (_, reader) ← reader.advance?
      return (.ok group.close, reader)
    | .ending => return (.error (.unclosedGroup group.line), reader)
    | .opening | .atom =>
      let (outcome, reader) ← readTree (readChildren turns) reader
      match outcome with
      | .ok tree => readChildren turns (group.push tree) reader
      | .error error => return (.error error, reader)

/-- A call of the reader. A turn passes a token, so there are as many turns as tokens. -/
def call (reader : Reader) : Answer := readTree (readChildren reader.tokens.length) reader

/-! ## Looking tokens up -/

def left (reader : Reader) : List Token := reader.tokens.drop reader.position

@[simp] theorem left_moved (reader : Reader) (count : Nat) :
    (reader.moved count).left = reader.left.drop count := by
  simp [left, moved]

@[simp] theorem left_enter (reader : Reader) : reader.enter.left = reader.left := rfl

@[simp] theorem depth_moved (reader : Reader) (count : Nat) :
    (reader.moved count).depth = reader.depth := rfl

@[simp] theorem moved_moved (reader : Reader) (count more : Nat) :
    (reader.moved count).moved more = reader.moved (count + more) := by
  simp [moved, Nat.add_assoc]

@[simp] theorem leave?_enter_moved (reader : Reader) (count : Nat) :
    (reader.enter.moved count).leave? = some (reader.moved count) := by
  simp [leave?, enter, moved]

section

variable {reader : Reader} {token : Token} {rest : List Token}

theorem peek?_of_left (h : reader.left = token :: rest) : reader.peek? = some token := by
  rw [peek?, ← List.head?_drop, ← left, h, List.head?_cons]

theorem advance?_of_left (h : reader.left = token :: rest) (hrole : token.role ≠ .ending) :
    reader.advance? = some (token, reader.moved 1) := by
  have hpeek := peek?_of_left h
  have hprevious : (reader.moved 1).previous? = some token := by
    simpa [previous?, moved, peek?] using hpeek
  simp [advance?, hpeek, hrole, hprevious]

end

/-! ## What a call does -/

/-- What was found goes into the open groups, and reading goes on unless it was a fault. -/
def resume (groups : List OpenGroup) (rest : List Token) :
    Except ReadError Sexpr → Except ReadError Sexpr × List Token
  | .ok tree => readAfter tree groups rest
  | .error error => (.error error, rest)

def Ends (reader : Reader) : Prop := ∃ token ∈ reader.left, token.role = .ending

/-- A call passes some tokens, none of them an end, and comes back at the depth at which it was
made. Reading on from the given place leads to the same: what the call has found goes into the
groups that are open outside of it. -/
structure Follows (reader : Reader) (answer : Answer) (nesting : Nesting) (outer : List OpenGroup)
    (taken rest : List Token) (outcome : Except ReadError Sexpr) : Prop where
  left : reader.left = taken ++ rest
  passed : ∀ token ∈ taken, token.role ≠ .ending
  answer : answer = some (outcome, reader.moved taken.length)
  reads : readFrom nesting reader.left = resume outer rest outcome

section

variable {reader : Reader} {answer : Answer} {nesting next : Nesting} {outer : List OpenGroup}
  {taken rest : List Token} {outcome : Except ReadError Sexpr} {token : Token}

theorem Ends.moved (h : reader.Ends) (hleft : reader.left = taken ++ rest)
    (hpassed : ∀ token ∈ taken, token.role ≠ .ending) : (reader.moved taken.length).Ends := by
  obtain ⟨ending, hmem, hrole⟩ := h
  rw [hleft, List.mem_append] at hmem
  have hrest := hmem.resolve_left fun htaken => hpassed ending htaken hrole
  exact ⟨ending, by simpa [hleft] using hrest, hrole⟩

theorem Follows.prepend {front others : List Token} (hleft : reader.left = front ++ others)
    (hpassed : ∀ token ∈ front, token.role ≠ .ending)
    (h : Follows (reader.moved front.length) answer next outer taken rest outcome)
    (hreads : readFrom nesting reader.left = readFrom next others) :
    Follows reader answer nesting outer (front ++ taken) rest outcome := by
  have hothers : (reader.moved front.length).left = others := by simp [hleft]
  constructor
  · rw [hleft, ← hothers, h.left, List.append_assoc]
  · exact List.forall_mem_append.mpr ⟨hpassed, h.passed⟩
  · rw [h.answer, moved_moved, List.length_append]
  · rw [hreads, ← hothers, h.reads]

theorem follows_fault {error : ReadError} (hanswer : answer = some (.error error, reader))
    (hreads : readFrom nesting reader.left = (.error error, reader.left)) :
    Follows reader answer nesting outer [] reader.left (.error error) :=
  ⟨rfl, List.forall_mem_nil _, hanswer, hreads⟩

end

/-- In so many turns the children of a group are read if fewer tokens are left. -/
def ChildrenFollow (turns : Nat) : Prop :=
  ∀ (reader : Reader) (group : OpenGroup) (outer : List OpenGroup),
    reader.left.length < turns → reader.Ends → reader.depth = outer.length + 1 →
      ∃ taken rest outcome,
        Follows reader (readChildren turns group reader) ⟨none, group :: outer⟩ outer taken rest
          outcome

section

variable {reader : Reader} {token : Token} {rest : List Token} {groups : List OpenGroup}
  {turns : Nat}

theorem exists_follows_group (hchildren : ChildrenFollow turns)
    (hturns : reader.left.length ≤ turns) (line : Nat) (hends : reader.Ends)
    (hdepth : reader.depth = groups.length + 1) :
    ∃ taken rest outcome,
      Follows reader (readGroup (readChildren turns) line reader) ⟨some line, groups⟩ groups taken
        rest outcome := by
  cases hleft : reader.left with
  | nil => simp [Ends, hleft] at hends
  | cons token rest =>
    have hpeek := peek?_of_left hleft
    cases hrole : token.role with
    | ending =>
      have hanswer : readGroup (readChildren turns) line reader =
          some (.error (.unclosedGroup line), reader) := by
        simp [readGroup, hpeek, hrole]
      exact ⟨[], _, _, follows_fault hanswer (by simp [hleft, readFrom, step, stepTag, hrole])⟩
    | closing =>
      have hanswer : readGroup (readChildren turns) line reader =
          some (.error (.emptyGroup line), reader) := by
        simp [readGroup, hpeek, hrole]
      exact ⟨[], _, _, follows_fault hanswer (by simp [hleft, readFrom, step, stepTag, hrole])⟩
    | opening =>
      have hanswer : readGroup (readChildren turns) line reader =
          some (.error (.invalidTag token.lexeme token.line), reader) := by
        simp [readGroup, hpeek, hrole]
      exact ⟨[], _, _, follows_fault hanswer (by simp [hleft, readFrom, step, stepTag, hrole])⟩
    | atom =>
      have hpassed : ∀ passed ∈ [token], passed.role ≠ .ending := by simp [hrole]
      have hanswer : readGroup (readChildren turns) line reader =
          readChildren turns ⟨line, token, []⟩ (reader.moved 1) := by
        simp [readGroup, hpeek, hrole, advance?_of_left hleft]
      have hshorter : (reader.moved 1).left.length < turns := by
        have hlength : (reader.moved 1).left.length = rest.length := by simp [hleft]
        rw [hleft, List.length_cons] at hturns
        omega
      obtain ⟨taken, others, outcome, hfollows⟩ :=
        hchildren (reader.moved 1) ⟨line, token, []⟩ groups hshorter (hends.moved hleft hpassed)
          hdepth
      refine ⟨_, others, outcome, Follows.prepend hleft hpassed (hanswer ▸ hfollows) ?_⟩
      simp [hleft, readFrom, step, stepTag, hrole]

theorem exists_follows_tree (hchildren : ChildrenFollow turns)
    (hturns : reader.left.length ≤ turns) (hleft : reader.left = token :: rest)
    (hrole : token.role = .opening ∨ token.role = .atom)
    (hends : reader.Ends) (hdepth : reader.depth = groups.length) :
    ∃ taken others outcome,
      Follows reader (readTree (readChildren turns) reader) ⟨none, groups⟩ groups (token :: taken)
        others outcome := by
  have hpeek := peek?_of_left hleft
  have hpassed : ∀ passed ∈ [token], passed.role ≠ .ending := by
    rcases hrole with hrole | hrole <;> simp [hrole]
  rcases hrole with hrole | hrole
  · by_cases hdeep : reader.depth = maxDepth
    · have hanswer : readTree (readChildren turns) reader =
          some (.error (.tooDeep token.line), reader.moved 1) := by
        simp [readTree, hpeek, hrole, advance?_of_left hleft, hdeep]
      have hreads : readFrom ⟨none, groups⟩ reader.left = (.error (.tooDeep token.line), rest) := by
        simp [hleft, readFrom, step, stepTree, hrole, ← hdepth, hdeep]
      exact ⟨[], rest, _, hleft, hpassed, hanswer, hreads⟩
    · have hinner : (reader.moved 1).enter.left.length ≤ turns := by
        rw [left_enter, left_moved, List.length_drop]
        omega
      obtain ⟨taken, others, outcome, hgroup⟩ := exists_follows_group hchildren hinner token.line
        (hends.moved hleft hpassed) (congrArg (· + 1) hdepth)
      have hanswer : readTree (readChildren turns) reader =
          some (outcome, (reader.moved 1).moved taken.length) := by
        simp [readTree, hpeek, hrole, advance?_of_left hleft, hdeep, hgroup.answer]
      have hinside : Follows (reader.moved 1) (readTree (readChildren turns) reader)
          ⟨some token.line, groups⟩ groups taken others outcome :=
        ⟨hgroup.left, hgroup.passed, hanswer, hgroup.reads⟩
      refine ⟨taken, others, outcome, Follows.prepend hleft hpassed hinside ?_⟩
      simp [hleft, readFrom, step, stepTree, hrole, ← hdepth, hdeep]
  · have hanswer : readTree (readChildren turns) reader =
        some (.ok (leaf token.lexeme token.line), reader.moved 1) := by
      simp [readTree, hpeek, hrole, advance?_of_left hleft]
    exact ⟨[], rest, _, hleft, hpassed, hanswer, by rw [hleft]; exact readFrom_atom hrole rest⟩

end

/-- Reads the children of a group one after another, with fewer tokens left each time. -/
theorem childrenFollow (turns : Nat) : ChildrenFollow turns := by
  induction turns with
  | zero => exact fun _ _ _ hlength => absurd hlength (Nat.not_lt_zero _)
  | succ turns ih =>
    intro reader group outer hlength hends hdepth
    cases hleft : reader.left with
    | nil => simp [Ends, hleft] at hends
    | cons token rest =>
      have hpeek := peek?_of_left hleft
      cases hrole : token.role with
      | ending =>
        have hanswer : readChildren (turns + 1) group reader =
            some (.error (.unclosedGroup group.line), reader) := by
          rw [readChildren]
          simp [hpeek, hrole]
        refine ⟨[], _, _, follows_fault hanswer ?_⟩
        simp [hleft, readFrom, step_of_ending hrole, Nesting.endError]
      | closing =>
        have hanswer : readChildren (turns + 1) group reader =
            some (.ok group.close, reader.moved 1) := by
          rw [readChildren]
          simp [hpeek, hrole, advance?_of_left hleft]
        refine ⟨[token], rest, _, hleft, by simp [hrole], hanswer, ?_⟩
        rw [hleft]
        exact readFrom_closing hrole rest
      | opening | atom =>
        have hopen : reader.depth = (group :: outer).length := hdepth
        obtain ⟨taken, others, outcome, hchild⟩ :=
          exists_follows_tree ih (Nat.le_of_lt_succ hlength) hleft (by simp [hrole]) hends hopen
        cases outcome with
        | error error =>
          have hanswer : readChildren (turns + 1) group reader =
              some (.error error, reader.moved (taken.length + 1)) := by
            rw [readChildren]
            simp [hpeek, hrole, hchild.answer]
          exact ⟨_, others, _, hchild.left, hchild.passed, hanswer, hchild.reads⟩
        | ok tree =>
          have hanswer : readChildren (turns + 1) group reader =
              readChildren turns (group.push tree) (reader.moved (taken.length + 1)) := by
            rw [readChildren]
            simp [hpeek, hrole, hchild.answer]
          have hshorter : (reader.moved (taken.length + 1)).left.length < turns := by
            have hpos : 0 < reader.left.length := by simp [hleft]
            rw [left_moved, List.length_drop]
            omega
          obtain ⟨more, rest, outcome, hothers⟩ := ih _ (group.push tree) outer hshorter
            (hends.moved hchild.left hchild.passed) hdepth
          rw [← hanswer] at hothers
          exact ⟨_, rest, outcome, .prepend hchild.left hchild.passed hothers hchild.reads⟩

/-! ## Call after call -/

@[simp] theorem resume_nil (rest : List Token) (outcome : Except ReadError Sexpr) :
    resume [] rest outcome = (outcome, rest) := by
  cases outcome <;> rfl

/-- The two faults that leave a reader outside of all groups where it is. -/
def Stuck (outcome : Except ReadError Sexpr) : Prop :=
  outcome = .error .unexpectedEnd ∨ ∃ line, outcome = .error (.unexpectedClosing line)

/-- A call outside of all groups passes a token, or is stuck. -/
theorem exists_follows_call {reader : Reader} (hends : reader.Ends) (hdepth : reader.depth = 0) :
    ∃ taken rest outcome, Follows reader reader.call Nesting.outside [] taken rest outcome ∧
      (taken = [] → Stuck outcome) := by
  cases hleft : reader.left with
  | nil => simp [Ends, hleft] at hends
  | cons token rest =>
    have hpeek := peek?_of_left hleft
    have houtside : reader.depth = ([] : List OpenGroup).length := hdepth
    cases hrole : token.role with
    | ending =>
      have hanswer : reader.call = some (.error .unexpectedEnd, reader) := by
        simp [call, readTree, hpeek, hrole]
      refine ⟨[], _, _, follows_fault hanswer ?_, fun _ => .inl rfl⟩
      rw [hleft, readFrom, step_of_ending hrole]
      rfl
    | closing =>
      have hanswer : reader.call = some (.error (.unexpectedClosing token.line), reader) := by
        simp [call, readTree, hpeek, hrole]
      refine ⟨[], _, _, follows_fault hanswer ?_, fun _ => .inr ⟨token.line, rfl⟩⟩
      simp [hleft, readFrom, step, stepTree, Nesting.outside, hrole]
    | opening | atom =>
      have hturns : reader.left.length ≤ reader.tokens.length := by simp [left]
      obtain ⟨taken, others, outcome, hfollows⟩ :=
        exists_follows_tree (childrenFollow _) hturns hleft (by simp [hrole]) hends houtside
      exact ⟨_, others, outcome, hfollows, by simp⟩

theorem Follows.read_eq {reader : Reader} {answer : Answer} {taken rest : List Token}
    {outcome : Except ReadError Sexpr}
    (h : Follows reader answer Nesting.outside [] taken rest outcome) :
    read reader.left = (outcome, rest) :=
  h.reads.trans (resume_nil rest outcome)

/-- A call depends on nothing but the tokens that are left. -/
theorem Follows.call_of_left {reader other : Reader} {answer : Answer}
    {taken rest : List Token} {outcome : Except ReadError Sexpr}
    (h : Follows reader answer Nesting.outside [] taken rest outcome) (hends : reader.Ends)
    (hleft : other.left = reader.left) (hdepth : other.depth = 0) :
    other.call = some (outcome, other.moved taken.length) := by
  have hother : other.Ends := by rwa [Ends, hleft]
  obtain ⟨taken', rest', outcome', h', -⟩ := exists_follows_call hother hdepth
  have hread : (outcome', rest') = (outcome, rest) := by rw [← h'.read_eq, hleft, h.read_eq]
  obtain ⟨rfl, rfl⟩ := Prod.mk.inj hread
  have htaken : taken' ++ rest' = taken ++ rest' := by rw [← h'.left, hleft, h.left]
  rw [h'.answer, List.append_cancel_right htaken]

def after (tokens : List Token) : Nat → Option Reader
  | 0 => some (start tokens)
  | calls + 1 => ((after tokens calls).bind call).map Prod.snd

def answer (tokens : List Token) (calls : Nat) : Answer := (after tokens calls).bind call

/-- A reader between calls: the tokens are all there, the position is that of one of them, and no
group is open. -/
structure Ready (tokens : List Token) (reader : Reader) : Prop where
  tokens_eq : reader.tokens = withEnd tokens
  position_lt : reader.position < (withEnd tokens).length
  depth_eq : reader.depth = 0

def atCall (tokens : List Token) (calls : Nat) : Reader := ⟨withEnd tokens, cursor tokens calls, 0⟩

theorem left_atCall (tokens : List Token) (calls : Nat) :
    (atCall tokens calls).left = leftAfter tokens calls :=
  drop_cursor tokens calls

theorem ends_atCall (tokens : List Token) (calls : Nat) : (atCall tokens calls).Ends := by
  rw [Ends, left_atCall]
  exact exists_ending_leftAfter tokens calls

theorem ready_atCall (tokens : List Token) (calls : Nat) : Ready tokens (atCall tokens calls) where
  tokens_eq := rfl
  position_lt := by
    obtain ⟨ending, hmem, -⟩ := ends_atCall tokens calls
    have hpos := List.length_pos_of_mem hmem
    rw [left, List.length_drop] at hpos
    exact Nat.lt_of_sub_pos hpos
  depth_eq := rfl

theorem exists_follows_atCall (tokens : List Token) (calls : Nat) :
    ∃ taken rest outcome,
      Follows (atCall tokens calls) (atCall tokens calls).call Nesting.outside [] taken rest
        outcome ∧
      (taken = [] → Stuck outcome) ∧
      (atCall tokens calls).moved taken.length = atCall tokens (calls + 1) := by
  obtain ⟨taken, rest, outcome, hfollows, hstuck⟩ :=
    exists_follows_call (ends_atCall tokens calls) rfl
  refine ⟨taken, rest, outcome, hfollows, hstuck, ?_⟩
  have hleft : leftAfter tokens calls = taken ++ rest := left_atCall tokens calls ▸ hfollows.left
  have hnext : leftAfter tokens (calls + 1) = rest := by
    rw [leftAfter, ← left_atCall, hfollows.read_eq]
  have hlength := (leftAfter_suffix tokens calls).length_le
  have hcursor : cursor tokens calls + taken.length = cursor tokens (calls + 1) := by
    rw [cursor, cursor, hnext]
    rw [hleft, List.length_append] at hlength ⊢
    omega
  simp [moved, atCall, hcursor]

theorem after_eq (tokens : List Token) (calls : Nat) :
    after tokens calls = some (atCall tokens calls) := by
  induction calls with
  | zero => simp [after, start, atCall, cursor, leftAfter]
  | succ calls ih =>
    obtain ⟨taken, rest, outcome, hfollows, -, hnext⟩ := exists_follows_atCall tokens calls
    simp [after, ih, hfollows.answer, hnext]

/-- A call that leaves the reader as it was is repeated by all later ones. -/
theorem answer_of_unmoved {tokens : List Token} {calls : Nat} {reader : Reader}
    {outcome : Except ReadError Sexpr} (h : after tokens calls = some reader)
    (hstill : answer tokens calls = some (outcome, reader)) (more : Nat) :
    answer tokens (calls + more) = some (outcome, reader) := by
  have hread : reader.call = some (outcome, reader) := by simpa [answer, h] using hstill
  have hafter : after tokens (calls + more) = some reader := by
    induction more with
    | zero => exact h
    | succ more ih => simp [after, ih, hread]
  simp [answer, hafter, hread]

/-- However many calls were made, whatever they have found and whatever tokens were given, the next
call looks nothing up that is not there and leaves the reader ready for another one. It finds what
reading the tokens that are left finds. It moves on, or else it is stuck, and then so is every later
call. Any other reader with the same tokens left finds the same and moves on by as many tokens. -/
theorem calls_never_go_wrong (tokens : List Token) (calls : Nat) :
    ∃ reader outcome next,
      after tokens calls = some reader ∧ answer tokens calls = some (outcome, next) ∧
      after tokens (calls + 1) = some next ∧ Ready tokens reader ∧ Ready tokens next ∧
      (outcome, next.left) = read (leftAfter tokens calls) ∧
      (reader.position < next.position ∨
        next = reader ∧ Stuck outcome ∧
          ∀ later, calls ≤ later → answer tokens later = some (outcome, reader)) ∧
      ∀ other : Reader, other.depth = 0 → other.left = reader.left →
        other.call = some (outcome, other.moved (next.position - reader.position)) := by
  obtain ⟨taken, rest, outcome, hfollows, hstuck, hnext⟩ := exists_follows_atCall tokens calls
  have hanswer : answer tokens calls = some (outcome, atCall tokens (calls + 1)) := by
    rw [answer, after_eq, Option.bind_some, hfollows.answer, hnext]
  refine ⟨atCall tokens calls, outcome, atCall tokens (calls + 1), after_eq tokens calls, hanswer,
    after_eq tokens (calls + 1), ready_atCall tokens calls, ready_atCall tokens (calls + 1), ?_, ?_,
    ?_⟩
  · rw [left_atCall, leftAfter, ← left_atCall, hfollows.read_eq]
  · by_cases htaken : taken = []
    · subst htaken
      have hstill : answer tokens calls = some (outcome, atCall tokens calls) := by
        rw [hanswer, ← hnext]
        rfl
      refine .inr ⟨hnext.symm, hstuck rfl, fun later hlater => ?_⟩
      obtain ⟨more, rfl⟩ := Nat.exists_eq_add_of_le hlater
      exact answer_of_unmoved (after_eq tokens calls) hstill more
    · left
      rw [← hnext]
      exact Nat.lt_add_of_pos_right (List.length_pos_iff.mpr htaken)
  · intro other hdepth hleft
    rw [← hnext]
    have hmoved : ((atCall tokens calls).moved taken.length).position -
        (atCall tokens calls).position = taken.length := Nat.add_sub_cancel_left _ _
    rw [hmoved]
    exact hfollows.call_of_left (ends_atCall tokens calls) hleft hdepth

end Reader

end SexprCompiler.Sexpr
