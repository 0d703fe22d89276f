import SexprCompiler.Proofs.Printing.Expressions
import SexprCompiler.Proofs.Quoting

/-!
# Telling files apart by their text

A statement is led by a keyword or by an expression, which is never mistaken for a keyword, and ends
with its line. The lines of a block are indented deeper than the brace that closes it. Imports and
functions start lines of their own with different words. So a file whose names and literals are what
they should be can be recovered from its text.
-/
namespace SexprCompiler.Target

/-! ## Lexical well-formedness -/

inductive Stmt.Lexical : Stmt → Prop where
  | declare {name type} (hname : IsName name) : Lexical (.declare name type)
  | assign {left op right} (hleft : left ≠ [] ∧ ∀ value ∈ left, value.Lexical)
      (hright : right ≠ [] ∧ ∀ value ∈ right, value.Lexical) : Lexical (.assign left op right)
  | evaluate {value} (hvalue : value.Lexical) : Lexical (.evaluate value)
  | branch {test body otherwise} (htest : test.Lexical) (hbody : ∀ stmt ∈ body, Lexical stmt)
      (hotherwise : ∀ block ∈ otherwise, ∀ stmt ∈ block, Lexical stmt) :
      Lexical (.branch test body otherwise)

structure Func.Lexical (function : Func) : Prop where
  name : IsName function.name
  body : ∀ stmt ∈ function.body, stmt.Lexical

/-- Names and literals are what they should be, and assignments have two sides. Imports are quoted,
so they may be any texts. -/
structure File.Lexical (file : File) : Prop where
  package : IsName file.package
  functions : ∀ function ∈ file.functions, function.Lexical

/-! ## Blocks and lines -/

def tabs (depth : Nat) : List Char := List.replicate depth '\t'

theorem toList_indentation (depth : Nat) : (indentation depth).toList = tabs depth := by
  induction depth with
  | zero => rfl
  | succ depth ih => simp [indentation, ih, tabs, List.replicate_succ]

namespace Stmt

def chars (depth : Nat) (stmt : Stmt) : List Char := (stmt.text depth).toList

/-- A statement with its indentation and line end. -/
def lineChars (depth : Nat) (stmt : Stmt) : List Char := tabs depth ++ (stmt.chars depth ++ ['\n'])

theorem toList_lines (depth : Nat) (stmts : List Stmt) :
    (lines depth stmts).toList = stmts.flatMap (lineChars depth) := by
  induction stmts with
  | nil => rfl
  | cons stmt stmts ih => simp [lines, ih, lineChars, chars, toList_indentation]

/-- A block with its braces, the second of which stands inside the given number of blocks. -/
def blockChars (depth : Nat) (body : List Stmt) : List Char :=
  '\x7b' :: '\n' :: (body.flatMap (lineChars (depth + 1)) ++ (tabs depth ++ ['\x7d']))

def otherwiseChars (depth : Nat) : Option (List Stmt) → List Char
  | none => []
  | some block => ' ' :: 'e' :: 'l' :: 's' :: 'e' :: ' ' :: blockChars depth block

theorem chars_branch (depth : Nat) (test : Expr) (body : List Stmt)
    (otherwise : Option (List Stmt)) :
    (Stmt.branch test body otherwise).chars depth =
      "if".toList ++ ' ' :: (test.chars ++ ' ' :: (blockChars depth body ++
        otherwiseChars depth otherwise)) := by
  cases otherwise with
  | none =>
    simp [chars, text, blockChars, otherwiseChars, toList_lines, toList_indentation, Expr.chars]
  | some block =>
    simp [chars, text, blockChars, otherwiseChars, toList_lines, toList_indentation, Expr.chars]

theorem chars_declare (depth : Nat) (name : String) (type : Ty) :
    (Stmt.declare name type).chars depth =
      "var".toList ++ ' ' :: (name.toList ++ ' ' :: type.text.toList) := by
  simp [chars, text]

theorem chars_assign (depth : Nat) (left : List Expr) (op : AssignOp) (right : List Expr) :
    (Stmt.assign left op right).chars depth =
      Expr.listChars left ++ ' ' :: (op.text.toList ++ ' ' :: Expr.listChars right) := by
  simp [chars, text, Expr.listChars]

theorem chars_evaluate (depth : Nat) (value : Expr) :
    (Stmt.evaluate value).chars depth = Expr.listChars [value] := by
  simp [chars, text, Expr.listChars, Expr.listText]

end Stmt

def EndsLine (rest : List Char) : Prop := rest.head? = some '\n'

theorem endsLine (rest : List Char) : EndsLine ('\n' :: rest) := rfl

theorem EndsLine.endsList {rest : List Char} (h : EndsLine rest) : EndsList rest := by
  intro c hc
  rw [h] at hc
  obtain rfl := Option.some.inj hc
  decide

theorem separable_exprs :
    Separable (fun values => ∀ value ∈ values, value.Lexical) Expr.listChars EndsList :=
  separable_list separable_expr fun _ => id

/-- Blocks can be told apart if their statements can: a line of a block has one more blank in front
than the closing brace. -/
theorem separable_block {valid : Stmt → Prop} {depth : Nat}
    (h : Separable valid (Stmt.chars (depth + 1)) EndsLine) :
    Separable (fun body => ∀ stmt ∈ body, valid stmt) (Stmt.blockChars depth) (fun _ => True) := by
  have hline : Separable valid (Stmt.lineChars (depth + 1)) (fun _ => True) := by
    intro stmt stmt' hstmt hstmt' rest rest' _ _ htext
    simp only [Stmt.lineChars, List.append_assoc] at htext
    obtain ⟨rfl, hsame⟩ := h hstmt hstmt' (endsLine rest) (endsLine rest')
      (List.append_cancel_left htext)
    exact ⟨rfl, (List.cons.inj hsame).2⟩
  have hrow : Separable (fun body => ∀ stmt ∈ body, valid stmt)
      (List.flatMap (Stmt.lineChars (depth + 1)))
      (fun rest => ∃ tail, rest = tabs depth ++ '\x7d' :: tail) := by
    apply hline.row
    · exact fun _ _ _ => trivial
    · exact fun _ _ => trivial
    · rintro stmt - rest ⟨tail, htext⟩
      rw [Stmt.lineChars, tabs, List.replicate_succ', List.append_assoc, List.append_assoc] at htext
      cases (List.cons.inj (List.append_cancel_left htext)).1
  intro body body' hbody hbody' rest rest' _ _ htext
  simp only [Stmt.blockChars, List.cons_append, List.append_assoc, List.nil_append, List.cons.injEq,
    true_and] at htext
  obtain ⟨rfl, hsame⟩ := hrow hbody hbody' ⟨rest, rfl⟩ ⟨rest', rfl⟩ htext
  exact ⟨rfl, (List.cons.inj (List.append_cancel_left hsame)).2⟩

/-! ## Statements -/

namespace Stmt

/-- The keyword that leads a statement. -/
def keyword? : Stmt → Option String
  | .declare _ _ => some "var"
  | .branch _ _ _ => some "if"
  | .assign _ _ _ => none
  | .evaluate _ => none

def blocks : Stmt → List (List Stmt)
  | .branch _ body otherwise => body :: otherwise.toList
  | _ => []

/-- The expressions that lead a statement without a keyword. -/
def front : Stmt → List Expr
  | .assign left _ _ => left
  | .evaluate value => [value]
  | _ => []

/-- What is behind the expressions that lead a statement. -/
def back : Stmt → List Char
  | .assign _ op right => ' ' :: (op.text.toList ++ ' ' :: Expr.listChars right)
  | _ => []

theorem exists_chars_of_keyword? {stmt : Stmt} {keyword : String} (h : stmt.keyword? = some keyword)
    (depth : Nat) :
    keyword ∈ keywords ∧ ∃ tail, stmt.chars depth = keyword.toList ++ ' ' :: tail := by
  cases stmt with
  | declare name type =>
    cases h
    exact ⟨by decide, _, chars_declare depth name type⟩
  | branch test body otherwise =>
    cases h
    exact ⟨by decide, _, chars_branch depth test body otherwise⟩
  | assign | evaluate => cases h

theorem Lexical.front_valid {stmt : Stmt} (hlexical : stmt.Lexical) (h : stmt.keyword? = none) :
    stmt.front ≠ [] ∧ ∀ value ∈ stmt.front, value.Lexical := by
  cases hlexical with
  | declare | branch => cases h
  | assign hleft _ => exact hleft
  | evaluate hvalue => exact ⟨List.cons_ne_nil _ _, List.forall_mem_singleton.mpr hvalue⟩

theorem chars_of_keyword?_none {stmt : Stmt} (h : stmt.keyword? = none) (depth : Nat) :
    stmt.chars depth = Expr.listChars stmt.front ++ stmt.back := by
  cases stmt with
  | declare | branch => cases h
  | assign left op right => exact chars_assign depth left op right
  | evaluate value => exact (chars_evaluate depth value).trans (List.append_nil _).symm

theorem endsList_back {stmt : Stmt} {rest : List Char} (hrest : EndsLine rest) :
    EndsList (stmt.back ++ rest) := by
  cases stmt with
  | assign => simp [back, EndsList]
  | declare | branch | evaluate => exact hrest.endsList

end Stmt

theorem isWord_keywords : ∀ keyword ∈ keywords, Text.isWord keyword.toList = true := by decide

theorem Expr.Simple.ne_keyword {value : Expr} (h : value.Simple) {rest : List Char}
    (hrest : EndsHead rest) {keyword : String} (hkeyword : keyword ∈ keywords) (tail : List Char) :
    value.chars ++ rest ≠ keyword.toList ++ ' ' :: tail := by
  intro htext
  have hword := isWord_keywords keyword hkeyword
  cases h with
  | ident hname =>
    obtain ⟨rfl, -⟩ := separable_word hname.1 hword hrest.1 (endsName_cons rfl tail) htext
    exact hname.2 hkeyword
  | literal hspells => exact hspells.ne_word hword _ _ htext

/-- No row of expressions is mistaken for a keyword. -/
theorem listChars_ne_keyword {values : List Expr}
    (h : values ≠ [] ∧ ∀ value ∈ values, value.Lexical) {rest : List Char} (hrest : EndsList rest)
    {keyword : String} (hkeyword : keyword ∈ keywords) (tail : List Char) :
    Expr.listChars values ++ rest ≠ keyword.toList ++ ' ' :: tail := by
  obtain ⟨value, values, rfl⟩ := List.exists_cons_of_ne_nil h.1
  have hvalue := h.2 value List.mem_cons_self
  rw [Expr.listChars_cons, value.chars_eq, List.append_assoc, List.append_assoc]
  exact hvalue.simple_head.ne_keyword
    (endsHead_tails hvalue.over_tails (endsExpr_next values hrest)) hkeyword tail

/-- Statements with the same text are led by the same keyword, or neither by one. -/
theorem keyword?_eq {stmt stmt' : Stmt} (h : stmt.Lexical) (h' : stmt'.Lexical) {depth : Nat}
    {rest rest' : List Char} (hrest : EndsLine rest) (hrest' : EndsLine rest')
    (htext : stmt.chars depth ++ rest = stmt'.chars depth ++ rest') :
    stmt.keyword? = stmt'.keyword? := by
  have hother {stmt stmt' : Stmt} {keyword : String} {rest rest' : List Char} (h : stmt.Lexical)
      (hnone : stmt.keyword? = none) (hkeyword : stmt'.keyword? = some keyword)
      (hrest : EndsLine rest) : stmt.chars depth ++ rest ≠ stmt'.chars depth ++ rest' := by
    obtain ⟨hmem, tail, hchars⟩ := Stmt.exists_chars_of_keyword? hkeyword depth
    rw [Stmt.chars_of_keyword?_none hnone, hchars, List.append_assoc, List.append_assoc]
    exact listChars_ne_keyword (h.front_valid hnone) (Stmt.endsList_back hrest) hmem _
  cases hkeyword : stmt.keyword? with
  | none =>
    cases hkeyword' : stmt'.keyword? with
    | none => rfl
    | some keyword' => exact absurd htext (hother h hkeyword hkeyword' hrest)
  | some keyword =>
    cases hkeyword' : stmt'.keyword? with
    | none => exact absurd htext.symm (hother h' hkeyword' hkeyword hrest')
    | some keyword' =>
      obtain ⟨hmem, tail, hchars⟩ := Stmt.exists_chars_of_keyword? hkeyword depth
      obtain ⟨hmem', tail', hchars'⟩ := Stmt.exists_chars_of_keyword? hkeyword' depth
      rw [hchars, hchars', List.append_assoc, List.append_assoc] at htext
      rw [(separable_word (isWord_keywords keyword hmem) (isWord_keywords keyword' hmem')
        (endsName_cons rfl _) (endsName_cons rfl _) htext).1]

theorem separable_type :
    Separable (fun _ : Ty => True) (fun type => type.text.toList) EndsName := by
  have hword (type : Ty) : Text.isWord type.text.toList = true := by cases type <;> decide
  intro type type' _ _ rest rest' hrest hrest' htext
  obtain ⟨hsame, hrests⟩ := separable_word (hword type) (hword type') hrest hrest' htext
  refine ⟨?_, hrests⟩
  revert hsame
  cases type <;> cases type' <;> decide

theorem separable_op :
    Separable (fun _ : AssignOp => True) (fun op => op.text.toList) (fun _ => True) := by
  intro op op' _ _ rest rest' _ _ htext
  cases op <;> cases op' <;> simp_all [AssignOp.text]

theorem led_inj {stmt stmt' : Stmt} (h : stmt.Lexical) (h' : stmt'.Lexical)
    (hkeyword : stmt.keyword? = none) (hkeyword' : stmt'.keyword? = none) {depth : Nat}
    {rest rest' : List Char} (hrest : EndsLine rest) (hrest' : EndsLine rest')
    (htext : stmt.chars depth ++ rest = stmt'.chars depth ++ rest') :
    stmt = stmt' ∧ rest = rest' := by
  rw [Stmt.chars_of_keyword?_none hkeyword, Stmt.chars_of_keyword?_none hkeyword',
    List.append_assoc, List.append_assoc] at htext
  obtain ⟨hfront, hback⟩ := separable_exprs (h.front_valid hkeyword).2 (h'.front_valid hkeyword').2
    (Stmt.endsList_back hrest) (Stmt.endsList_back hrest') htext
  -- A statement that goes on behind its expressions does so on the same line.
  have hother {left right : List Expr} {op : AssignOp} {rest rest' : List Char}
      (hrest : EndsLine rest) : rest ≠ (Stmt.assign left op right).back ++ rest' := by
    rintro rfl
    cases hrest
  cases h with
  | declare | branch => cases hkeyword
  | assign hleft hright =>
    cases h' with
    | declare | branch => cases hkeyword'
    | evaluate => exact absurd hback.symm (hother hrest')
    | assign hleft' hright' =>
      obtain rfl := hfront
      simp only [Stmt.back, List.append_assoc, List.cons_append, List.cons.injEq, true_and] at hback
      obtain ⟨rfl, htail⟩ := separable_op trivial trivial trivial trivial hback
      obtain ⟨rfl, hsame⟩ := separable_exprs hright.2 hright'.2 hrest.endsList hrest'.endsList
        (List.cons.inj htail).2
      exact ⟨rfl, hsame⟩
  | evaluate hvalue =>
    cases h' with
    | declare | branch => cases hkeyword'
    | assign => exact absurd hback (hother hrest)
    | evaluate hvalue' =>
      cases hfront
      exact ⟨rfl, hback⟩

theorem declare_inj {name name' : String} {type type' : Ty} (hname : IsName name)
    (hname' : IsName name') {depth : Nat} {rest rest' : List Char} (hrest : EndsLine rest)
    (hrest' : EndsLine rest') (htext : (Stmt.declare name type).chars depth ++ rest =
      (Stmt.declare name' type').chars depth ++ rest') :
    Stmt.declare name type = Stmt.declare name' type' ∧ rest = rest' := by
  simp only [Stmt.chars_declare, List.append_assoc, List.cons_append] at htext
  obtain ⟨rfl, htail⟩ := separable_name hname hname' (endsName_cons rfl _) (endsName_cons rfl _)
    (List.cons.inj (List.append_cancel_left htext)).2
  obtain ⟨rfl, hsame⟩ := separable_type trivial trivial hrest.endsList.endsExpr.endsName
    hrest'.endsList.endsExpr.endsName (List.cons.inj htail).2
  exact ⟨rfl, hsame⟩

theorem separable_otherwise {valid : Stmt → Prop} {depth : Nat}
    (h : Separable valid (Stmt.chars (depth + 1)) EndsLine) :
    Separable (fun otherwise => ∀ block ∈ otherwise, ∀ stmt ∈ block, valid stmt)
      (Stmt.otherwiseChars depth) EndsLine := by
  have hnone {block : List Stmt} {rest rest' : List Char} (hrest : EndsLine rest) :
      rest ≠ Stmt.otherwiseChars depth (some block) ++ rest' := by
    rintro rfl
    cases hrest
  intro otherwise otherwise' hvalid hvalid' rest rest' hrest hrest' htext
  cases otherwise with
  | none =>
    cases otherwise' with
    | none => exact ⟨rfl, htext⟩
    | some block' => exact absurd htext (hnone hrest)
  | some block =>
    cases otherwise' with
    | none => exact absurd htext.symm (hnone hrest')
    | some block' =>
      simp only [Stmt.otherwiseChars, List.cons_append, List.cons.injEq, true_and] at htext
      obtain ⟨rfl, hsame⟩ := separable_block h (hvalid block rfl) (hvalid' block' rfl) trivial
        trivial htext
      exact ⟨rfl, hsame⟩

theorem branch_inj {valid : Stmt → Prop} {depth : Nat}
    (h : Separable valid (Stmt.chars (depth + 1)) EndsLine) {test test' : Expr}
    {body body' : List Stmt} {otherwise otherwise' : Option (List Stmt)} (htest : test.Lexical)
    (htest' : test'.Lexical)
    (hblocks : ∀ block ∈ body :: otherwise.toList, ∀ stmt ∈ block, valid stmt)
    (hblocks' : ∀ block ∈ body' :: otherwise'.toList, ∀ stmt ∈ block, valid stmt)
    {rest rest' : List Char} (hrest : EndsLine rest) (hrest' : EndsLine rest')
    (htext : (Stmt.branch test body otherwise).chars depth ++ rest =
      (Stmt.branch test' body' otherwise').chars depth ++ rest') :
    Stmt.branch test body otherwise = Stmt.branch test' body' otherwise' ∧ rest = rest' := by
  have hspace (rest : List Char) : EndsExpr (' ' :: rest) := by simp [EndsExpr]
  simp only [List.forall_mem_cons, Option.mem_toList] at hblocks hblocks'
  simp only [Stmt.chars_branch, List.append_assoc, List.cons_append] at htext
  obtain ⟨rfl, hbody⟩ := separable_expr htest htest' (hspace _) (hspace _)
    (List.cons.inj (List.append_cancel_left htext)).2
  obtain ⟨rfl, hotherwise⟩ := separable_block h hblocks.1 hblocks'.1 trivial trivial
    (List.cons.inj hbody).2
  obtain ⟨rfl, hsame⟩ := separable_otherwise h hblocks.2 hblocks'.2 hrest hrest' hotherwise
  exact ⟨rfl, hsame⟩

/-- Statements can be told apart if those in their blocks can. -/
theorem separable_nesting {valid valid' : Stmt → Prop} {depth : Nat}
    (h : Separable valid (Stmt.chars (depth + 1)) EndsLine)
    (hvalid' : ∀ stmt, valid' stmt →
      stmt.Lexical ∧ ∀ block ∈ stmt.blocks, ∀ inner ∈ block, valid inner) :
    Separable valid' (Stmt.chars depth) EndsLine := by
  intro stmt stmt' hstmt hstmt' rest rest' hrest hrest' htext
  obtain ⟨hlexical, hblocks⟩ := hvalid' stmt hstmt
  obtain ⟨hlexical', hblocks'⟩ := hvalid' stmt' hstmt'
  have hkeyword := keyword?_eq hlexical hlexical' hrest hrest' htext
  cases hnone : stmt.keyword? with
  | none => exact led_inj hlexical hlexical' hnone (hkeyword ▸ hnone) hrest hrest' htext
  | some keyword =>
    rw [hnone] at hkeyword
    cases hlexical with
    | assign | evaluate => cases hnone
    | declare hname =>
      cases hnone
      cases hlexical' with
      | assign | evaluate => cases hkeyword
      | branch => exact absurd (Option.some.inj hkeyword) (by decide)
      | declare hname' => exact declare_inj hname hname' hrest hrest' htext
    | branch htest =>
      cases hnone
      cases hlexical' with
      | assign | evaluate => cases hkeyword
      | declare => exact absurd (Option.some.inj hkeyword) (by decide)
      | branch htest' => exact branch_inj h htest htest' hblocks hblocks' hrest hrest' htext

namespace Stmt

theorem Lexical.inner {stmt : Stmt} (h : stmt.Lexical) :
    ∀ block ∈ stmt.blocks, ∀ inner ∈ block, inner.Lexical := by
  cases h with
  | declare | assign | evaluate => exact List.forall_mem_nil _
  | branch _ hbody hotherwise =>
    rw [blocks, List.forall_mem_cons]
    exact ⟨hbody, fun block hblock => hotherwise block (Option.mem_toList.mp hblock)⟩

theorem length_lt_blockChars {inner : Stmt} {block : List Stmt} (h : inner ∈ block) (depth : Nat) :
    (inner.chars (depth + 1)).length < (blockChars depth block).length := by
  have hline : (inner.lineChars (depth + 1)).length ≤
      (block.flatMap (lineChars (depth + 1))).length := length_le_flatMap h
  simp only [lineChars, List.length_append, List.length_singleton] at hline
  simp only [blockChars, List.length_cons, List.length_append]
  omega

theorem length_lt_of_mem_blocks {stmt inner : Stmt} {block : List Stmt}
    (hblock : block ∈ stmt.blocks) (hinner : inner ∈ block) (depth : Nat) :
    (inner.chars (depth + 1)).length < (stmt.chars depth).length := by
  have hlt := length_lt_blockChars hinner depth
  cases stmt with
  | declare | assign | evaluate => cases hblock
  | branch test body otherwise =>
    rw [chars_branch]
    rw [blocks, List.mem_cons, Option.mem_toList] at hblock
    rcases hblock with rfl | hblock
    · simp only [List.length_append, List.length_cons]
      omega
    · obtain rfl : otherwise = some block := hblock
      simp only [otherwiseChars, List.length_append, List.length_cons]
      omega

end Stmt

/-- The texts of statements can be told apart, by induction on a bound of their lengths. -/
theorem separable_stmt (depth : Nat) : Separable Stmt.Lexical (Stmt.chars depth) EndsLine := by
  apply Separable.of_bounded
  intro bound
  induction bound generalizing depth with
  | zero =>
    intro stmt _ hstmt
    exact absurd hstmt.2 (Nat.not_lt_zero _)
  | succ bound ih =>
    apply separable_nesting (ih (depth + 1))
    intro stmt hstmt
    refine ⟨hstmt.1, ?_⟩
    intro block hblock inner hinner
    have hlt := Stmt.length_lt_of_mem_blocks hblock hinner depth
    exact ⟨hstmt.1.inner block hblock inner hinner, by omega⟩

/-! ## Functions and imports -/

/-- A function with the blank line before it. -/
def Func.chars (function : Func) : List Char := '\n' :: function.text.toList

theorem Func.chars_eq (function : Func) :
    function.chars = '\n' :: ("func ".toList ++ (function.name.toList ++
      '(' :: ')' :: ' ' :: (Stmt.blockChars 0 function.body ++ ['\n']))) := by
  simp [chars, text, Stmt.blockChars, Stmt.toList_lines, tabs]

theorem separable_func : Separable Func.Lexical Func.chars (fun _ => True) := by
  intro function function' h h' rest rest' _ _ htext
  simp only [Func.chars_eq, List.cons_append, List.append_assoc] at htext
  obtain ⟨hname, hbody⟩ := separable_name h.name h'.name (endsName_cons rfl _) (endsName_cons rfl _)
    (List.append_cancel_left (List.cons.inj htext).2)
  simp only [List.cons.injEq, true_and] at hbody
  obtain ⟨hbody, hsame⟩ := separable_block (separable_stmt 1) h.body h'.body trivial trivial hbody
  obtain ⟨name, body⟩ := function
  obtain ⟨name', body'⟩ := function'
  obtain rfl : name = name' := hname
  obtain rfl : body = body' := hbody
  exact ⟨rfl, (List.cons.inj hsame).2⟩

theorem separable_quote :
    Separable (fun _ : String => True) (fun path => (quote path).toList) (fun _ => True) := by
  intro path path' _ _ rest rest' _ _ htext
  simp only [toList_quote] at htext
  obtain ⟨hsame, hrest⟩ := separable_quoted (stringBody_flatMap_escapeChar path.toList)
    (stringBody_flatMap_escapeChar path'.toList) trivial trivial htext
  have hvalue := congrArg bodyValue? hsame
  rw [bodyValue?_flatMap_escapeChar, bodyValue?_flatMap_escapeChar] at hvalue
  exact ⟨String.toList_injective (Option.some.inj hvalue), hrest⟩

def importChars (paths : List String) : List Char := (importText paths).toList

def pathChars (path : String) : List Char := '\t' :: ((quote path).toList ++ ['\n'])

/-- The imports of a file that has some, from after the keyword on. -/
def pathsChars : List String → List Char
  | [path] => (quote path).toList ++ ['\n']
  | paths => '(' :: '\n' :: (paths.flatMap pathChars ++ [')', '\n'])

theorem importChars_cons (path : String) (paths : List String) :
    importChars (path :: paths) = '\n' :: ("import ".toList ++ pathsChars (path :: paths)) := by
  cases paths with
  | nil => simp [importChars, importText, pathsChars]
  | cons next paths =>
    have hpath : (fun path => ("\t" ++ quote path ++ "\n").toList) = pathChars := by
      funext path
      simp [pathChars]
    simp only [importChars, importText, pathsChars, String.toList_append, String.toList_join,
      List.flatMap_map]
    simp [← hpath]

/-- What may follow the imports: functions or nothing. -/
def EndsImports (rest : List Char) : Prop := rest = [] ∨ ∃ tail, rest = '\n' :: 'f' :: tail

theorem separable_path : Separable (fun _ : String => True) pathChars (fun _ => True) := by
  intro path path' _ _ rest rest' _ _ htext
  simp only [pathChars, List.cons_append, List.append_assoc, List.cons.injEq, true_and] at htext
  obtain ⟨rfl, hsame⟩ := separable_quote trivial trivial trivial trivial htext
  exact ⟨rfl, (List.cons.inj hsame).2⟩

/-- One path stands behind the keyword, several stand in parentheses. -/
theorem separable_paths : Separable (· ≠ []) pathsChars (fun _ => True) := by
  have hrow : Separable (fun paths : List String => ∀ path ∈ paths, True) (List.flatMap pathChars)
      (fun rest => ∃ tail, rest = ')' :: tail) := by
    apply separable_path.row
    · exact fun _ _ _ => trivial
    · exact fun _ _ => trivial
    · rintro path - rest ⟨tail, htext⟩
      cases (List.cons.inj htext).1
  have hother {path first next : String} {paths : List String} {rest rest' : List Char} :
      pathsChars [path] ++ rest ≠ pathsChars (first :: next :: paths) ++ rest' := by
    simp [pathsChars, toList_quote]
  intro paths paths' h h' rest rest' _ _ htext
  obtain ⟨path, paths, rfl⟩ := List.exists_cons_of_ne_nil h
  obtain ⟨path', paths', rfl⟩ := List.exists_cons_of_ne_nil h'
  cases paths with
  | nil =>
    cases paths' with
    | nil =>
      simp only [pathsChars, List.append_assoc] at htext
      obtain ⟨rfl, hsame⟩ := separable_quote trivial trivial trivial trivial htext
      exact ⟨rfl, (List.cons.inj hsame).2⟩
    | cons => exact absurd htext hother
  | cons next paths =>
    cases paths' with
    | nil => exact absurd htext.symm hother
    | cons next' paths' =>
      simp only [pathsChars, List.cons_append, List.append_assoc, List.cons.injEq, true_and,
        List.nil_append] at htext
      obtain ⟨hsame, hrest⟩ := hrow (fun _ _ => trivial) (fun _ _ => trivial) ⟨_, rfl⟩ ⟨_, rfl⟩
        htext
      simp only [List.cons.injEq, true_and] at hrest
      exact ⟨hsame, hrest⟩

theorem separable_imports :
    Separable (fun _ : List String => True) importChars EndsImports := by
  have hnone {path : String} {paths : List String} {rest rest' : List Char}
      (hrest : EndsImports rest) : rest ≠ importChars (path :: paths) ++ rest' := by
    rw [importChars_cons]
    rintro rfl
    rcases hrest with hrest | ⟨tail, htext⟩
    · cases hrest
    · simp at htext
  intro paths paths' _ _ rest rest' hrest hrest' htext
  cases paths with
  | nil =>
    cases paths' with
    | nil => exact ⟨rfl, htext⟩
    | cons path' paths' => exact absurd htext (hnone hrest)
  | cons path paths =>
    cases paths' with
    | nil => exact absurd htext.symm (hnone hrest')
    | cons path' paths' =>
      simp only [importChars_cons, List.cons_append, List.append_assoc, List.cons.injEq,
        true_and] at htext
      exact separable_paths (List.cons_ne_nil _ _) (List.cons_ne_nil _ _) trivial trivial
        (List.append_cancel_left htext)

/-! ## Files -/

theorem File.toList_text (file : File) :
    file.text.toList = "package ".toList ++ (file.package.toList ++
      '\n' :: (importChars file.imports ++ file.functions.flatMap Func.chars)) := by
  have hchars : (fun function : Func => ("\n" ++ function.text).toList) = Func.chars := by
    funext function
    simp [Func.chars]
  simp [text, importChars, String.toList_join, List.flatMap_map, ← hchars]

theorem endsImports_functions (functions : List Func) :
    EndsImports (functions.flatMap Func.chars) := by
  cases functions with
  | nil => exact .inl rfl
  | cons function functions =>
    rw [List.flatMap_cons, Func.chars_eq]
    exact .inr ⟨_, rfl⟩

/-- Files are the same exactly if their texts are. -/
theorem file_determined_by_text {file other : File} (h : file.Lexical) (hother : other.Lexical) :
    file.text = other.text ↔ file = other := by
  refine ⟨?_, congrArg File.text⟩
  intro htext
  have hchars := congrArg String.toList htext
  rw [file.toList_text, other.toList_text] at hchars
  obtain ⟨hpackage, hrest⟩ := separable_name h.package hother.package (endsName_cons rfl _)
    (endsName_cons rfl _) (List.append_cancel_left hchars)
  obtain ⟨himports, hfunctions⟩ := separable_imports trivial trivial
    (endsImports_functions file.functions) (endsImports_functions other.functions)
    (List.cons.inj hrest).2
  have hrow : Separable (fun functions => ∀ function ∈ functions, function.Lexical)
      (List.flatMap Func.chars) (· = []) := by
    apply separable_func.row
    · exact fun _ _ _ => trivial
    · exact fun _ _ => trivial
    · intro function _ rest hempty
      cases hempty
  rw [← List.append_nil (file.functions.flatMap _), ← List.append_nil (other.functions.flatMap _)]
    at hfunctions
  obtain ⟨hfunctions, -⟩ := hrow h.functions hother.functions rfl rfl hfunctions
  obtain ⟨package, imports, functions⟩ := file
  obtain ⟨package', imports', functions'⟩ := other
  obtain rfl : package = package' := hpackage
  obtain rfl : imports = imports' := himports
  obtain rfl : functions = functions' := hfunctions
  rfl

/-- A program that prints strings, given as literals. -/
def printingFile (literals : List String) : File :=
  ⟨"main", ["fmt"], [⟨"main", [.evaluate (.call (.member (.ident "fmt") "Println")
    (literals.map (.literal .string)))]⟩]⟩

theorem lexical_printingFile {literals : List String}
    (h : ∀ text ∈ literals, LitKind.string.Spells text) : (printingFile literals).Lexical := by
  have hmain : IsName "main" := by decide
  have hcall : Expr.Lexical (.call (.member (.ident "fmt") "Println")
      (literals.map (.literal .string))) := by
    refine .call (.member (.ident (by decide)) (by decide)) ?_
    intro argument hargument
    obtain ⟨text, htext, rfl⟩ := List.mem_map.mp hargument
    exact .literal (h text htext)
  refine ⟨hmain, List.forall_mem_singleton.mpr ⟨hmain, ?_⟩⟩
  exact List.forall_mem_singleton.mpr (.evaluate hcall)

/-- Two strings with a comma between them are not one string with quotes and a comma in it. -/
theorem one_or_two_strings_differ :
    (printingFile ["\"a\"", "\"b\""]).Lexical ∧ (printingFile ["\"a\\\", \\\"b\""]).Lexical ∧
      (printingFile ["\"a\"", "\"b\""]).text ≠ (printingFile ["\"a\\\", \\\"b\""]).text := by
  have hspells {text : String} (body : List Char) (htext : text.toList = '"' :: (body ++ ['"']))
      (hlexeme : Token.IsLexeme .string ('"' :: (body ++ ['"']))) (hline : '\n' ∉ body) :
      LitKind.string.Spells text :=
    .string (Token.isLexeme_quoted_iff.mp hlexeme).2 hline htext
  have htwo : (printingFile ["\"a\"", "\"b\""]).Lexical := by
    apply lexical_printingFile
    rw [List.forall_mem_cons, List.forall_mem_singleton]
    exact ⟨hspells ['a'] (by decide) rfl (by decide),
      hspells ['b'] (by decide) rfl (by decide)⟩
  have hone : (printingFile ["\"a\\\", \\\"b\""]).Lexical := by
    apply lexical_printingFile
    rw [List.forall_mem_singleton]
    exact hspells ['a', '\\', '"', ',', ' ', '\\', '"', 'b'] (by decide) rfl (by decide)
  refine ⟨htwo, hone, mt (file_determined_by_text htwo hone).mp ?_⟩
  simp [printingFile]

end SexprCompiler.Target
