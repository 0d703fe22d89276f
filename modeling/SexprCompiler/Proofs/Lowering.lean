import SexprCompiler.Proofs.Outcome
import SexprCompiler.Term.Shape

/-!
# Terms that trees mean

Every term inside the term of a tree is itself the term of some tree, because sequences are
flattened and nothing else is rearranged. So what holds of each construct as it is read off a tree
holds everywhere in a term. For assignments this gives the names of locals: they are words that
the target language leaves free.
-/
namespace SexprCompiler

/-- Trees by induction over their children. -/
@[elab_as_elim]
theorem Sexpr.induction_children {motive : Sexpr → Prop}
    (step : ∀ tree, (∀ child ∈ tree.children, motive child) → motive tree) : ∀ tree, motive tree
  | ⟨tag, line, children⟩ =>
    step ⟨tag, line, children⟩ fun child _ => Sexpr.induction_children step child

inductive Sexpr.Within (sub : Sexpr) : Sexpr → Prop where
  | self : Within sub sub
  | child {tree child} (hchild : child ∈ tree.children) (h : Within sub child) : Within sub tree

namespace Term

theorem ofSexpr_construct (construct : Construct) (line : Nat) (children : List Sexpr) :
    ofSexpr ⟨construct.tag, line, children⟩ = ofParts construct line (partsOf children) := by
  rw [ofSexpr, Construct.ofTag?_tag]

theorem isNil_of_ofTag? {tree : Sexpr} {construct : Construct}
    (h : Construct.ofTag? tree.tag = some construct) : tree.isNil = false := by
  cases hnil : tree.isNil with
  | false => rfl
  | true =>
    simp only [Sexpr.isNil, Bool.and_eq_true, beq_iff_eq] at hnil
    rw [hnil.2] at h
    cases h

inductive Inside : Term → Term → Prop where
  | self {term} : Inside term term
  | value {sub name value line} (h : Inside sub value) : Inside sub (.assign name value line)
  | test {sub test body otherwise} (h : Inside sub test) : Inside sub (.cond test body otherwise)
  | body {sub item test body otherwise} (hitem : item ∈ body) (h : Inside sub item) :
      Inside sub (.cond test body otherwise)
  | otherwise {sub item test body other} (hitem : item ∈ other) (h : Inside sub item) :
      Inside sub (.cond test body (some other))
  | argument {sub routine argument} (h : Inside sub argument) : Inside sub (.print routine argument)
  | item {sub item items} (hitem : item ∈ items) (h : Inside sub item) : Inside sub (.seq items)

theorem Inside.trans {part sub term : Term} (h : Inside part sub) (hsub : Inside sub term) :
    Inside part term := by
  induction hsub with
  | self => exact h
  | value _ ih => exact .value ih
  | test _ ih => exact .test ih
  | body hitem _ ih => exact .body hitem ih
  | otherwise hitem _ ih => exact .otherwise hitem ih
  | argument _ ih => exact .argument ih
  | item hitem _ ih => exact .item hitem ih

theorem Inside.of_items {sub item term : Term} (hitem : item ∈ term.items) (h : Inside sub item) :
    Inside sub term := by
  cases term with
  | seq items => exact .item hitem h
  | bool | literal | var | assign | cond | print | unknown =>
    obtain rfl := List.mem_singleton.mp hitem
    exact h

namespace Part

/-- Something inside the term of one of the parts. -/
def Holds (parts : List Part) (sub : Term) : Prop :=
  ∃ part ∈ parts, ∃ term, part.term = .ok term ∧ Inside sub term

theorem mem_body {part : Part} {items : List Term} {item : Term} (h : part.body = .ok items)
    (hitem : item ∈ items) : ∃ term, part.term = .ok term ∧ item ∈ term.items := by
  unfold body at h
  split at h
  · cases h
    simp at hitem
  · obtain ⟨term, hterm, rfl⟩ := Outcome.map_eq_ok.mp h
    exact ⟨term, hterm, hitem⟩

theorem mem_otherwise {part : Part} {items : List Term} {item : Term}
    (h : part.otherwise = .ok (some items)) (hitem : item ∈ items) :
    ∃ term, part.term = .ok term ∧ item ∈ term.items := by
  unfold otherwise at h
  split at h
  · cases h
  · obtain ⟨_, hbody, hsome⟩ := Outcome.map_eq_ok.mp h
    cases hsome
    exact mem_body hbody hitem

/-- The items of parts in a row are those of the single parts. -/
theorem mem_sequence {parts : List Part} {items : List Term} {item : Term}
    (h : sequence parts = .ok items) (hitem : item ∈ items) :
    ∃ part ∈ parts, ∃ term, part.term = .ok term ∧ item ∈ term.items := by
  induction parts generalizing items with
  | nil =>
    cases h
    simp at hitem
  | cons part parts ih =>
    simp only [sequence, Outcome.bind_eq_ok, Outcome.pure_eq_ok] at h
    obtain ⟨first, hfirst, others, hothers, rfl⟩ := h
    rcases List.mem_append.mp hitem with hitem | hitem
    · exact ⟨part, by simp, first, hfirst, hitem⟩
    · obtain ⟨found, hfound, hterm⟩ := ih hothers hitem
      exact ⟨found, by simp [hfound], hterm⟩

theorem inside_body {part : Part} {items : List Term} {item sub : Term}
    (h : part.body = .ok items) (hitem : item ∈ items) (hsub : Inside sub item) :
    ∃ term, part.term = .ok term ∧ Inside sub term := by
  obtain ⟨term, hterm, hitem⟩ := mem_body h hitem
  exact ⟨term, hterm, .of_items hitem hsub⟩

theorem inside_otherwise {part : Part} {items : List Term} {item sub : Term}
    (h : part.otherwise = .ok (some items)) (hitem : item ∈ items) (hsub : Inside sub item) :
    ∃ term, part.term = .ok term ∧ Inside sub term := by
  obtain ⟨term, hterm, hitem⟩ := mem_otherwise h hitem
  exact ⟨term, hterm, .of_items hitem hsub⟩

theorem inside_sequence {parts : List Part} {items : List Term} {item sub : Term}
    (h : sequence parts = .ok items) (hitem : item ∈ items) (hsub : Inside sub item) :
    Holds parts sub := by
  obtain ⟨part, hpart, term, hterm, hitem⟩ := mem_sequence h hitem
  exact ⟨part, hpart, term, hterm, .of_items hitem hsub⟩

end Part

/-- How a construct and its parts make a term. -/
inductive Composes : Construct → Nat → List Part → Term → Prop where
  | bool {value line} : Composes (.bool value) line [] (.bool value)
  | literal {kind line part} (hleaf : part.tree.isLeaf) :
      Composes (.literal kind) line [part] (.literal kind (literalText kind part.tree.tag))
  | negative {kind line sign digits} (hkind : kind ≠ .string) (hleaf : sign.tree.isLeaf)
      (hsign : sign.tree.tag = "-") (hdigits : digits.tree.isLeaf) :
      Composes (.literal kind) line [sign, digits]
        (.literal kind ("-" ++ literalText kind digits.tree.tag))
  | var {line part name} (hname : nameOf part.tree = .ok name) :
      Composes .var line [part] (.var name)
  | assign {line target part name value} (hname : nameOf target.tree = .ok name)
      (hvalue : part.term = .ok value) :
      Composes .assign line [target, part] (.assign name value line)
  | cond {line first second test body} (htest : first.term = .ok test)
      (hbody : second.body = .ok body) :
      Composes .cond line [first, second] (.cond test body none)
  | condElse {line first second third test body otherwise} (htest : first.term = .ok test)
      (hbody : second.body = .ok body) (hother : third.otherwise = .ok otherwise) :
      Composes .cond line [first, second, third] (.cond test body otherwise)
  | print {line receiver selector part routine argument}
      (hroutine : routineOf? receiver.tree selector.tree = some routine)
      (hargument : part.term = .ok argument) :
      Composes .send line [receiver, selector, part] (.print routine argument)
  | seq {line parts items} (hitems : Part.sequence parts = .ok items) :
      Composes .seq line parts (.seq items)

theorem composes_of_ofParts {construct : Construct} {line : Nat} {parts : List Part} {term : Term}
    (h : ofParts construct line parts = .ok term) : Composes construct line parts term := by
  unfold ofParts at h
  dsimp only at h
  split at h
  · cases h
    exact .bool
  · cases h
  · split at h
    · rename_i hleaf
      cases h
      exact .literal hleaf
    · cases h
  · split at h
    · rename_i hsigned
      obtain ⟨hkind, hleaf, hsign, hdigits⟩ := hsigned
      cases h
      exact .negative hkind hleaf hsign hdigits
    · cases h
  · cases h
  · obtain ⟨name, hname, rfl⟩ := Outcome.map_eq_ok.mp h
    exact .var hname
  · cases h
  · simp only [Outcome.bind_eq_ok, Outcome.pure_eq_ok] at h
    obtain ⟨name, hname, value, hvalue, rfl⟩ := h
    exact .assign hname hvalue
  · cases h
  · simp only [Outcome.bind_eq_ok, Outcome.pure_eq_ok] at h
    obtain ⟨test, htest, body, hbody, rfl⟩ := h
    exact .cond htest hbody
  · simp only [Outcome.bind_eq_ok, Outcome.pure_eq_ok] at h
    obtain ⟨otherwise, hother, test, htest, body, hbody, rfl⟩ := h
    exact .condElse htest hbody hother
  · cases h
  · split at h
    · rename_i hroutine
      obtain ⟨argument, hargument, rfl⟩ := Outcome.map_eq_ok.mp h
      exact .print hroutine hargument
    · cases h
  · cases h
  · obtain ⟨items, hitems, rfl⟩ := Outcome.map_eq_ok.mp h
    exact .seq hitems

/-- What stands inside a term of parts is that term or comes from one of the parts. -/
theorem inside_ofParts {construct : Construct} {line : Nat} {parts : List Part} {term sub : Term}
    (h : Composes construct line parts term) (hsub : Inside sub term) :
    sub = term ∨ Part.Holds parts sub := by
  cases h with
  | bool | literal | negative | var =>
    cases hsub
    exact .inl rfl
  | @assign _ _ part _ value _ hvalue =>
    cases hsub with
    | self => exact .inl rfl
    | value hsub => exact .inr ⟨part, by simp, value, hvalue, hsub⟩
  | @cond _ first second test _ htest hbody =>
    cases hsub with
    | self => exact .inl rfl
    | test hsub => exact .inr ⟨first, by simp, test, htest, hsub⟩
    | body hitem hsub => exact .inr ⟨second, by simp, Part.inside_body hbody hitem hsub⟩
  | @condElse _ first second third test _ _ htest hbody hother =>
    cases hsub with
    | self => exact .inl rfl
    | test hsub => exact .inr ⟨first, by simp, test, htest, hsub⟩
    | body hitem hsub => exact .inr ⟨second, by simp, Part.inside_body hbody hitem hsub⟩
    | otherwise hitem hsub => exact .inr ⟨third, by simp, Part.inside_otherwise hother hitem hsub⟩
  | @print _ _ _ part _ argument _ hargument =>
    cases hsub with
    | self => exact .inl rfl
    | argument hsub => exact .inr ⟨part, by simp, argument, hargument, hsub⟩
  | seq hitems =>
    cases hsub with
    | self => exact .inl rfl
    | item hitem hsub => exact .inr (Part.inside_sequence hitems hitem hsub)

/-- How a tree comes to its term: its tag has no meaning, or its construct makes the term of parts
that are its children. -/
theorem ofSexpr_cases {tree : Sexpr} {term : Term} (h : ofSexpr tree = .ok term) :
    term = .unknown tree.tag tree.line ∨
      ∃ construct parts, Composes construct tree.line parts term ∧
        ∀ part ∈ parts, part.tree ∈ tree.children ∧ part.term = ofSexpr part.tree := by
  cases hconstruct : Construct.ofTag? tree.tag with
  | none =>
    rw [ofSexpr_of_ofTag?_none hconstruct] at h
    cases h
    exact .inl rfl
  | some construct =>
    rw [ofSexpr_of_ofTag? hconstruct] at h
    refine .inr ⟨construct, _, composes_of_ofParts h, ?_⟩
    intro part hpart
    obtain ⟨child, hchild, rfl⟩ := List.mem_map.mp hpart
    exact ⟨hchild, rfl⟩

/-- Every term inside the term of a tree is the term of a tree inside it. -/
theorem exists_tree_of_inside (tree : Sexpr) {term sub : Term} (h : ofSexpr tree = .ok term)
    (hsub : Inside sub term) : ∃ origin, origin.Within tree ∧ ofSexpr origin = .ok sub := by
  induction tree using Sexpr.induction_children generalizing term with
  | step tree ih =>
    rcases ofSexpr_cases h with rfl | ⟨construct, parts, hcomposes, hparts⟩
    · cases hsub
      exact ⟨tree, .self, h⟩
    · rcases inside_ofParts hcomposes hsub with rfl | ⟨part, hpart, inner, hinner, hsub⟩
      · exact ⟨tree, .self, h⟩
      · obtain ⟨hchild, hterm⟩ := hparts part hpart
        rw [hterm] at hinner
        obtain ⟨origin, hwithin, horigin⟩ := ih part.tree hchild hinner hsub
        exact ⟨origin, .child hchild hwithin, horigin⟩

end Term

/-! ## Names of locals -/

namespace Target

def keywords : List String :=
  ["break", "case", "chan", "const", "continue", "default", "defer", "else", "fallthrough", "for",
    "func", "go", "goto", "if", "import", "interface", "map", "package", "range", "return",
    "select", "struct", "switch", "type", "var"]

/-- The names with a meaning that a program relies on: the blank name, constants, a package. -/
def fixedNames : List String := ["_", "true", "false", "nil", "iota", "fmt"]

/-- What a local may be called: a word that is neither a keyword nor a name with a fixed meaning. -/
structure LocalName (name : String) : Prop where
  word : Text.isWord name.toList = true
  free : name ∉ keywords ++ fixedNames

theorem LocalName.ne {name other : String} (h : LocalName name)
    (hother : other ∈ keywords ++ fixedNames) : name ≠ other := by
  rintro rfl
  exact h.free hother

end Target

namespace Name

open Target (LocalName keywords fixedNames)

theorem mem_reserved : ∀ word ∈ keywords ++ fixedNames, word ∈ reserved := by decide

theorem marked_not_mem : ∀ word ∈ reserved, word ++ "_" ∉ keywords ++ fixedNames := by decide

theorem marked_isWord {word : String} (h : Text.isWord word.toList = true) :
    Text.isWord (word ++ "_").toList = true := by
  cases hchars : word.toList with
  | nil => simp [hchars, Text.isWord] at h
  | cons c cs =>
    have hmark : Text.isLetter '_' = true := rfl
    rw [hchars] at h
    rw [String.toList_append, hchars]
    simp_all [Text.isWord]

theorem localName_escape {word : String} (h : Text.isWord word.toList = true) :
    LocalName (escape word) := by
  unfold escape
  split
  · rename_i hreserved
    exact ⟨marked_isWord h, marked_not_mem word hreserved⟩
  · rename_i hfree
    exact ⟨h, fun hmem => hfree (mem_reserved word hmem)⟩

theorem localName_ofText? {text name : String} (h : ofText? text = some name) :
    LocalName name := by
  unfold ofText? at h
  dsimp only at h
  split at h
  · rename_i hword
    cases h
    exact localName_escape (by simpa using hword)
  · cases h

end Name

namespace Term

open Target (LocalName)

theorem localName_nameOfText {text name : String} (h : nameOfText text = .ok name) :
    LocalName name := by
  unfold nameOfText at h
  split at h
  · rename_i found hfound
    cases h
    exact Name.localName_ofText? hfound
  · cases h

theorem localName_nameOf {tree : Sexpr} {name : String} (h : nameOf tree = .ok name) :
    LocalName name := by
  unfold nameOf at h
  split at h
  · exact localName_nameOfText h
  · split at h
    · exact localName_nameOfText h
    · cases h
  · cases h

/-- The local that a term reads or assigns by itself. -/
def name? : Term → Option String
  | .var name => some name
  | .assign name _ _ => some name
  | _ => none

def Named (term : Term) : Prop :=
  ∀ sub name, Inside sub term → sub.name? = some name → LocalName name

theorem Named.inner {term sub : Term} (h : term.Named) (hsub : Inside sub term) : sub.Named :=
  fun part name hpart hname => h part name (hpart.trans hsub) hname

theorem named_of_ofSexpr {tree : Sexpr} {term : Term} (h : ofSexpr tree = .ok term) :
    term.Named := by
  intro sub name hsub hname
  obtain ⟨origin, -, horigin⟩ := exists_tree_of_inside tree h hsub
  rcases ofSexpr_cases horigin with rfl | ⟨construct, parts, hcomposes, -⟩
  · cases hname
  · cases hcomposes with
    | var hfound | assign hfound =>
      cases hname
      exact localName_nameOf hfound
    | bool | literal | negative | cond | condElse | print | seq => cases hname

/-- Every assignment in the term of a tree is to a name that a local may have. -/
theorem localName_of_inside {tree : Sexpr} {term value : Term} {name : String} {line : Nat}
    (h : ofSexpr tree = .ok term) (hsub : Inside (.assign name value line) term) :
    LocalName name :=
  named_of_ofSexpr h _ _ hsub rfl

end Term

end SexprCompiler
