import SexprCompiler.Sexpr.Read

/-!
# The grammar of trees

A tree is written as an atom, or as a group of a tag and any number of trees in parentheses.
Reading succeeds exactly on tokens that start with a tree of this grammar, in which groups are
nested no deeper than allowed, and takes the tokens of that tree.
-/
namespace SexprCompiler.Sexpr

/-- The tokens that trees in a row are written with, in groups nested at most `limit` deep. -/
inductive Derives : Nat → List Token → List Sexpr → Prop where
  | nil {limit} : Derives limit [] []
  | atom {limit token tokens trees} (hatom : token.role = .atom)
      (hrest : Derives limit tokens trees) :
      Derives limit (token :: tokens) (leaf token.lexeme token.line :: trees)
  | group {limit opening tag inner children closing tokens trees}
      (hopening : opening.role = .opening) (htag : tag.role = .atom)
      (hchildren : Derives limit inner children) (hclosing : closing.role = .closing)
      (hrest : Derives (limit + 1) tokens trees) :
      Derives (limit + 1) (opening :: tag :: (inner ++ closing :: tokens))
        (⟨tag.lexeme, tag.line, children⟩ :: trees)

theorem Derives.append {limit : Nat} {tokens others : List Token} {trees more : List Sexpr}
    (h : Derives limit tokens trees) (hmore : Derives limit others more) :
    Derives limit (tokens ++ others) (trees ++ more) := by
  induction h with
  | nil => exact hmore
  | atom hatom _ ih => exact .atom hatom (ih hmore)
  | group hopening htag hchildren hclosing _ _ ih =>
    simpa using Derives.group hopening htag hchildren hclosing (ih hmore)

mutual

def tags : Sexpr → List String
  | ⟨tag, _, children⟩ => tag :: allTags children

def allTags : List Sexpr → List String
  | [] => []
  | tree :: trees => tree.tags ++ allTags trees

end

theorem Derives.exists_token {limit : Nat} {tokens : List Token} {trees : List Sexpr}
    (h : Derives limit tokens trees) {tag : String} (htag : tag ∈ allTags trees) :
    ∃ token ∈ tokens, token.role = .atom ∧ token.lexeme = tag := by
  induction h with
  | nil => simp [allTags] at htag
  | @atom _ token _ _ hatom _ ih =>
    simp only [allTags, leaf, tags, List.singleton_append, List.mem_cons] at htag
    rcases htag with rfl | htag
    · exact ⟨token, List.mem_cons_self, hatom, rfl⟩
    · obtain ⟨found, hfound, h⟩ := ih htag
      exact ⟨found, List.mem_cons_of_mem _ hfound, h⟩
  | @group _ _ label _ _ _ _ _ _ hlabel _ _ _ ihchildren ihrest =>
    simp only [allTags, tags, List.cons_append, List.mem_cons, List.mem_append] at htag
    rcases htag with rfl | htag | htag
    · exact ⟨label, by simp, hlabel, rfl⟩
    · obtain ⟨found, hfound, h⟩ := ihchildren htag
      exact ⟨found, by simp [hfound], h⟩
    · obtain ⟨found, hfound, h⟩ := ihrest htag
      exact ⟨found, by simp [hfound], h⟩

theorem Derives.role_ne_ending {limit : Nat} {tokens : List Token} {trees : List Sexpr}
    (h : Derives limit tokens trees) : ∀ token ∈ tokens, token.role ≠ .ending := by
  induction h with
  | nil => exact List.forall_mem_nil _
  | atom hatom _ ih => exact List.forall_mem_cons.mpr ⟨by simp [hatom], ih⟩
  | group hopening htag _ hclosing _ ihchildren ihrest =>
    simp only [List.forall_mem_cons, List.forall_mem_append]
    exact ⟨by simp [hopening], by simp [htag], ihchildren, by simp [hclosing], ihrest⟩

/-- Every level of a tree but the last takes a group. -/
theorem Derives.height_le {limit : Nat} {tokens : List Token} {trees : List Sexpr}
    (h : Derives limit tokens trees) : height trees ≤ limit + 1 := by
  induction h with
  | nil => simp [height]
  | atom _ _ ih =>
    rw [height, depth_leaf]
    omega
  | group _ _ _ _ _ ihchildren ihrest =>
    rw [height, depth]
    omega

/-! ## What is derived is read -/

def readAfter (tree : Sexpr) : List OpenGroup → List Token → Except ReadError Sexpr × List Token
  | [], rest => (.ok tree, rest)
  | group :: outer, rest => readFrom ⟨none, group.push tree :: outer⟩ rest

section

variable {groups outer : List OpenGroup} {group : OpenGroup} {token : Token}

theorem readFrom_atom (h : token.role = .atom) (rest : List Token) :
    readFrom ⟨none, groups⟩ (token :: rest) =
      readAfter (leaf token.lexeme token.line) groups rest := by
  cases groups <;> simp [readFrom, step, stepTree, h, settle, readAfter]

theorem readFrom_closing (h : token.role = .closing) (rest : List Token) :
    readFrom ⟨none, group :: outer⟩ (token :: rest) = readAfter group.close outer rest := by
  cases outer <;> simp [readFrom, step, stepTree, h, settle, readAfter]

theorem readFrom_opening (h : token.role = .opening) (hdepth : groups.length ≠ maxDepth)
    {tag : Token} (htag : tag.role = .atom) (rest : List Token) :
    readFrom ⟨none, groups⟩ (token :: tag :: rest) =
      readFrom ⟨none, ⟨token.line, tag, []⟩ :: groups⟩ rest := by
  simp [readFrom, step, stepTree, stepTag, h, htag, hdepth]

end

/-- Trees in a row become children of the innermost open group. -/
theorem Derives.readFrom_append {limit : Nat} {tokens : List Token} {trees : List Sexpr}
    (h : Derives limit tokens trees) {group : OpenGroup} {outer : List OpenGroup}
    (hdepth : outer.length + 1 + limit ≤ maxDepth) (rest : List Token) :
    readFrom ⟨none, group :: outer⟩ (tokens ++ rest) =
      readFrom ⟨none, ⟨group.line, group.tag, trees.reverse ++ group.children⟩ :: outer⟩ rest := by
  induction h generalizing group outer rest with
  | nil => rfl
  | atom hatom _ ih =>
    rw [List.cons_append, readFrom_atom hatom, readAfter, ih hdepth]
    simp [OpenGroup.push]
  | group hopening htag _ hclosing _ ihchildren ihrest =>
    have hinner : (group :: outer).length ≠ maxDepth := by
      rw [List.length_cons]
      omega
    simp only [List.cons_append, List.append_assoc]
    rw [readFrom_opening hopening hinner htag, ihchildren (by rw [List.length_cons]; omega),
      readFrom_closing hclosing, readAfter, ihrest hdepth]
    simp [OpenGroup.push, OpenGroup.close]

theorem Derives.read_append {limit : Nat} {tokens : List Token} {tree : Sexpr}
    (h : Derives limit tokens [tree]) (hlimit : limit ≤ maxDepth) (rest : List Token) :
    read (tokens ++ rest) = (.ok tree, rest) := by
  unfold read Nesting.outside
  cases h with
  | atom hatom hrest =>
    cases hrest
    rw [List.cons_append, readFrom_atom hatom]
    rfl
  | group hopening htag hchildren hclosing hrest =>
    cases hrest
    have hdepth : ([] : List OpenGroup).length ≠ maxDepth := by
      rw [List.length_nil]
      omega
    simp only [List.cons_append, List.append_assoc]
    rw [readFrom_opening hopening hdepth htag,
      hchildren.readFrom_append (by rw [List.length_nil]; omega), readFrom_closing hclosing]
    simp [readAfter, OpenGroup.close]

/-! ## What is read is derived -/

/-- The tokens that have led to open groups, inside which `limit` more may be opened. -/
inductive Opened : Nat → List Token → List OpenGroup → Prop where
  | nil : Opened maxDepth [] []
  | group {limit before outer opening tag inner children}
      (hbefore : Opened (limit + 1) before outer) (hopening : opening.role = .opening)
      (htag : tag.role = .atom) (hchildren : Derives limit inner children) :
      Opened limit (before ++ opening :: tag :: inner)
        (⟨opening.line, tag, children.reverse⟩ :: outer)

theorem Opened.length_add {limit : Nat} {used : List Token} {groups : List OpenGroup}
    (h : Opened limit used groups) : groups.length + limit = maxDepth := by
  induction h with
  | nil => simp
  | group _ _ _ _ ih =>
    rw [List.length_cons]
    omega

inductive Reached : List Token → Nesting → Prop where
  | inside {limit used groups} (hgroups : Opened limit used groups) : Reached used ⟨none, groups⟩
  | opening {limit used groups token} (hgroups : Opened (limit + 1) used groups)
      (hopening : token.role = .opening) : Reached (used ++ [token]) ⟨some token.line, groups⟩

def Progress.Sound (used : List Token) : Progress → Prop
  | .more nesting => Reached used nesting
  | .done tree => Derives maxDepth used [tree]
  | .fault _ _ => True

/-- A complete tree is a child of the innermost open group, or all that was read. -/
theorem Opened.sound_settle {limit : Nat} {used tokens : List Token} {groups : List OpenGroup}
    {tree : Sexpr} (h : Opened limit used groups) (htree : Derives limit tokens [tree]) :
    (settle tree groups).Sound (used ++ tokens) := by
  cases h with
  | nil => exact htree
  | @group _ before outer opening tag inner children hbefore hopening htag hchildren =>
    have hgroup := Opened.group hbefore hopening htag (hchildren.append htree)
    rw [List.reverse_append] at hgroup
    simpa [settle, OpenGroup.push, Progress.Sound] using Reached.inside hgroup

theorem Opened.sound_stepTree {limit : Nat} {used : List Token} {groups : List OpenGroup}
    (h : Opened limit used groups) (token : Token) :
    (stepTree groups token).Sound (used ++ [token]) := by
  unfold stepTree
  cases hrole : token.role with
  | opening =>
    dsimp only
    split
    · trivial
    · rename_i hdepth
      obtain ⟨inner, rfl⟩ : ∃ inner, limit = inner + 1 :=
        Nat.exists_eq_succ_of_ne_zero fun hzero => hdepth (by simpa [hzero] using h.length_add)
      exact .opening h hrole
  | closing =>
    cases h with
    | nil => trivial
    | @group _ before outer opening tag inner children hbefore hopening htag hchildren =>
      have hsettle := hbefore.sound_settle (.group hopening htag hchildren hrole .nil)
      simpa [OpenGroup.close] using hsettle
  | ending => trivial
  | atom => exact h.sound_settle (.atom hrole .nil)

theorem Reached.sound_step {used : List Token} {nesting : Nesting} (h : Reached used nesting)
    (token : Token) : (step nesting token).Sound (used ++ [token]) := by
  cases h with
  | inside hgroups => exact hgroups.sound_stepTree token
  | @opening _ before groups opening hgroups hopening =>
    dsimp only [step]
    unfold stepTag
    cases hrole : token.role with
    | opening | closing | ending => trivial
    | atom => simpa [Progress.Sound] using Reached.inside (.group hgroups hopening hrole .nil)

/-- What is read successfully follows the grammar together with what led to the place. -/
theorem Reached.exists_derives {used : List Token} {nesting : Nesting} (h : Reached used nesting)
    {tokens rest : List Token} {tree : Sexpr} (hread : readFrom nesting tokens = (.ok tree, rest)) :
    ∃ taken, tokens = taken ++ rest ∧ Derives maxDepth (used ++ taken) [tree] := by
  induction tokens generalizing used nesting with
  | nil => simp [readFrom] at hread
  | cons token tokens ih =>
    have hsound := h.sound_step token
    rw [readFrom] at hread
    cases hstep : step nesting token with
    | more next =>
      rw [hstep] at hread hsound
      obtain ⟨taken, rfl, hderives⟩ := ih hsound hread
      exact ⟨token :: taken, rfl, by simpa using hderives⟩
    | done found =>
      rw [hstep] at hread hsound
      cases hread
      exact ⟨[token], rfl, hsound⟩
    | fault error taken =>
      rw [hstep] at hread
      cases taken <;> cases hread

/-- Reading succeeds exactly on a tree of the grammar with anything after it. -/
theorem read_eq_ok_iff {tokens rest : List Token} {tree : Sexpr} :
    read tokens = (.ok tree, rest) ↔
      ∃ taken, tokens = taken ++ rest ∧ Derives maxDepth taken [tree] := by
  constructor
  · exact (Reached.inside .nil).exists_derives
  · rintro ⟨taken, rfl, hderives⟩
    exact hderives.read_append (Nat.le_refl _) rest

end SexprCompiler.Sexpr
