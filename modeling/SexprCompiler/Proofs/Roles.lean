import SexprCompiler.Proofs.Emission
import SexprCompiler.Proofs.Lexing

/-!
# What tags are read for

A construct reads each of its children for one thing: as a term, as a name, as a literal, and so on.
This makes a grammar of trees, and every tree whose term is emitted follows it. All but two of the
things that a tag is read for put a condition on it, and no lexeme that is spoiled meets any of
these. The tag of a literal is copied as it is, and that of a group around a name is not looked at.
-/
namespace SexprCompiler

open Token (IsLexeme)

namespace Sexpr

/-- What a tag is read for where it stands. -/
inductive Role where
  /-- It says which construct the tree is. -/
  | construct
  /-- It says that there is nothing. -/
  | nothing
  /-- It says which routine is called. -/
  | selector
  /-- It is the sign of a number. -/
  | sign
  /-- It names a local. -/
  | name
  /-- It stands at the front of a group around a name. -/
  | label
  /-- It is the text of a value. -/
  | literal
deriving DecidableEq

/-- The tags that a leaf may have in a role. -/
def Role.Accepts : Role → String → Prop
  | .nothing, tag => tag = "nil"
  | .selector, tag => ∃ routine, Routine.ofSelector? tag = some routine
  | .sign, tag => tag = "-"
  | .name, tag => ∃ name, Name.ofText? tag = some name
  | .literal, _ => True
  | .construct, _ | .label, _ => False

def Role.branches : List Role := [.construct, .nothing]

/-- A tag of a tree with its role. -/
structure Use where
  role : Role
  tag : String
  line : Nat

end Sexpr

open Sexpr (Role Use)

/-- What a construct reads its children for. -/
inductive Construct.Takes : Construct → List Role → Prop where
  | bool {value} : Takes (.bool value) []
  | literal {kind} : Takes (.literal kind) [.literal]
  | negative {kind} (hkind : kind ≠ .string) : Takes (.literal kind) [.sign, .literal]
  | var : Takes .var [.name]
  | assign : Takes .assign [.name, .construct]
  | cond {body} (hbody : body ∈ Role.branches) : Takes .cond [.construct, body]
  | condElse {body other} (hbody : body ∈ Role.branches) (hother : other ∈ Role.branches) :
      Takes .cond [.construct, body, other]
  | send : Takes .send [.nothing, .selector, .construct]
  | seq (count : Nat) : Takes .seq (List.replicate count .construct)

namespace Sexpr

/-- Trees in a row that can be read for the given things, with all their tags in order. -/
inductive Fits : List Role → List Sexpr → List Use → Prop where
  | nil : Fits [] [] []
  | leaf {role tag line roles trees uses} (htag : Role.Accepts role tag)
      (hrest : Fits roles trees uses) :
      Fits (role :: roles) (Sexpr.leaf tag line :: trees) (⟨role, tag, line⟩ :: uses)
  | labelled {label line name inner roles trees uses} (hname : Role.name.Accepts name)
      (hrest : Fits roles trees uses) :
      Fits (.name :: roles) (⟨label, line, [Sexpr.leaf name inner]⟩ :: trees)
        (⟨.label, label, line⟩ :: ⟨.name, name, inner⟩ :: uses)
  | construct {tag construct line inner children own roles trees uses}
      (htag : Construct.ofTag? tag = some construct) (htakes : construct.Takes inner)
      (hchildren : Fits inner children own) (hrest : Fits roles trees uses) :
      Fits (.construct :: roles) (⟨tag, line, children⟩ :: trees)
        (⟨.construct, tag, line⟩ :: (own ++ uses))

theorem Fits.append {roles others : List Role} {trees more : List Sexpr} {uses rest : List Use}
    (h : Fits roles trees uses) (hmore : Fits others more rest) :
    Fits (roles ++ others) (trees ++ more) (uses ++ rest) := by
  induction h with
  | nil => exact hmore
  | leaf htag _ ih => exact .leaf htag ih
  | labelled hname _ ih => exact .labelled hname ih
  | construct htag htakes hchildren _ _ ih =>
    simpa using Fits.construct htag htakes hchildren ih

def Fit (role : Role) (tree : Sexpr) : Prop := ∃ uses, Fits [role] [tree] uses

theorem exists_fits {roles : List Role} {trees : List Sexpr} (h : List.Forall₂ Fit roles trees) :
    ∃ uses, Fits roles trees uses := by
  induction h with
  | nil => exact ⟨[], .nil⟩
  | cons hfirst _ ih =>
    obtain ⟨uses, huses⟩ := hfirst
    obtain ⟨rest, hrest⟩ := ih
    exact ⟨uses ++ rest, huses.append hrest⟩

theorem fit_of_isLeaf {role : Role} {tree : Sexpr} (hleaf : tree.isLeaf = true)
    (htag : role.Accepts tree.tag) : Fit role tree := by
  obtain ⟨tag, line, children⟩ := tree
  obtain rfl : children = [] := by simpa [isLeaf] using hleaf
  exact ⟨_, .leaf htag .nil⟩

theorem fit_nothing {tree : Sexpr} (h : tree.isNil = true) : Fit .nothing tree := by
  simp only [isNil, Bool.and_eq_true, beq_iff_eq] at h
  exact fit_of_isLeaf h.1 h.2

end Sexpr

/-! ## Trees with a known meaning -/

open Sexpr (Fit Fits)

namespace Term

/-- No tag inside a term is without a meaning. -/
def Known (term : Term) : Prop := ∀ tag line, ¬ Inside (.unknown tag line) term

theorem known_of_items {term : Term} (h : ∀ item ∈ term.items, item.Known) : term.Known := by
  cases term with
  | seq items =>
    intro tag line hinside
    cases hinside with
    | item hitem hinside => exact h _ hitem tag line hinside
  | bool | literal | var | assign | cond | print | unknown => exact h _ List.mem_cons_self

theorem known_of_value {scope : Scope} {term : Term} {typed : TypedExpr}
    (h : term.value scope = .ok typed) : term.Known := by
  cases valued_of_value h with
  | bool | literal | var => rintro tag line ⟨⟩

theorem known_cond {test : Term} {body : List Term} {otherwise : Option (List Term)}
    (htest : test.Known) (hbody : ∀ item ∈ body, item.Known)
    (hother : ∀ items, otherwise = some items → ∀ item ∈ items, item.Known) :
    (cond test body otherwise).Known := by
  intro tag line hinside
  cases hinside with
  | test h => exact htest tag line h
  | body hitem h => exact hbody _ hitem tag line h
  | otherwise hitem h => exact hother _ rfl _ hitem tag line h

end Term

section

variable {place : Place} {scope scope' : Scope}

theorem EmitsOne.known {term : Term} {stmt : Target.Stmt}
    (h : EmitsOne place scope term stmt scope') : term.Known := by
  cases h with
  | unused hvalue => exact Term.known_of_value hvalue
  | update hvalue | define hvalue | hoist hvalue =>
    intro tag line hinside
    cases hinside with
    | value hinside => exact Term.known_of_value hvalue tag line hinside
  | print hvalue =>
    intro tag line hinside
    cases hinside with
    | argument hinside => exact Term.known_of_value hvalue tag line hinside

/-- Terms that are emitted have a meaning all the way down. -/
theorem Emits.known {terms : List Term} {stmts : List Target.Stmt}
    (h : Emits place scope terms stmts scope') : ∀ term ∈ terms, term.Known := by
  induction h with
  | nil => exact List.forall_mem_nil _
  | one hone _ ih => exact List.forall_mem_cons.mpr ⟨hone.known, ih⟩
  | seq _ _ ihitems ihrest =>
    exact List.forall_mem_cons.mpr ⟨Term.known_of_items ihitems, ihrest⟩
  | cond htest _ _ ihbody ihrest =>
    refine List.forall_mem_cons.mpr ⟨?_, ihrest⟩
    exact Term.known_cond (Term.known_of_value htest) ihbody (by rintro _ ⟨⟩)
  | condElse htest _ _ _ ihbody ihother ihrest =>
    refine List.forall_mem_cons.mpr ⟨?_, ihrest⟩
    refine Term.known_cond (Term.known_of_value htest) ihbody ?_
    rintro _ ⟨⟩
    exact ihother

end

namespace Term

theorem exists_ofText?_of_nameOfText {text name : String} (h : nameOfText text = .ok name) :
    Role.name.Accepts text := by
  unfold nameOfText at h
  split at h
  · rename_i found hfound
    exact ⟨found, hfound⟩
  · cases h

theorem fit_of_nameOf {tree : Sexpr} {name : String} (h : nameOf tree = .ok name) :
    Fit .name tree := by
  obtain ⟨tag, line, _ | ⟨⟨inner, innerLine, others⟩, _ | ⟨next, more⟩⟩⟩ := tree
  · exact Sexpr.fit_of_isLeaf rfl (exists_ofText?_of_nameOfText h)
  · simp only [nameOf] at h
    split at h
    · rename_i hleaf
      obtain rfl : others = [] := by simpa [Sexpr.isLeaf] using hleaf
      exact ⟨_, .labelled (exists_ofText?_of_nameOfText h) .nil⟩
    · cases h
  · cases h

namespace Part

def FitsKnown (part : Part) : Prop :=
  ∀ term, part.term = .ok term → term.Known → Fit .construct part.tree

theorem FitsKnown.of_body {part : Part} {items : List Term} (h : part.FitsKnown)
    (hbody : part.body = .ok items) (hitems : ∀ item ∈ items, item.Known) :
    ∃ role ∈ Role.branches, Fit role part.tree := by
  unfold body at hbody
  split at hbody
  · rename_i hnil
    exact ⟨.nothing, by decide, Sexpr.fit_nothing hnil⟩
  · obtain ⟨term, hterm, rfl⟩ := Outcome.map_eq_ok.mp hbody
    exact ⟨.construct, by decide, h term hterm (known_of_items hitems)⟩

theorem FitsKnown.of_otherwise {part : Part} {otherwise : Option (List Term)} (h : part.FitsKnown)
    (hother : part.otherwise = .ok otherwise)
    (hknown : ∀ items, otherwise = some items → ∀ item ∈ items, item.Known) :
    ∃ role ∈ Role.branches, Fit role part.tree := by
  unfold Part.otherwise at hother
  split at hother
  · rename_i hnil
    exact ⟨.nothing, by decide, Sexpr.fit_nothing hnil⟩
  · obtain ⟨items, hbody, rfl⟩ := Outcome.map_eq_ok.mp hother
    exact h.of_body hbody (hknown items rfl)

theorem forall₂_fit_of_sequence {parts : List Part} {items : List Term}
    (h : ∀ part ∈ parts, part.FitsKnown) (hitems : sequence parts = .ok items)
    (hknown : ∀ item ∈ items, item.Known) :
    List.Forall₂ Fit (List.replicate parts.length .construct) (parts.map Part.tree) := by
  induction parts generalizing items with
  | nil => exact .nil
  | cons part parts ih =>
    rw [List.forall_mem_cons] at h
    simp only [sequence, Outcome.bind_eq_ok, Outcome.pure_eq_ok] at hitems
    obtain ⟨first, hfirst, others, hothers, rfl⟩ := hitems
    rw [List.forall_mem_append] at hknown
    exact .cons (h.1 first hfirst (known_of_items hknown.1)) (ih h.2 hothers hknown.2)

end Part

theorem routineOf?_eq_some {receiver selector : Sexpr} {routine : Routine}
    (h : routineOf? receiver selector = some routine) :
    receiver.isNil = true ∧ selector.isLeaf = true ∧
      Routine.ofSelector? selector.tag = some routine := by
  unfold routineOf? at h
  split at h
  · rename_i hshape
    exact ⟨hshape.1, hshape.2, h⟩
  · cases h

theorem exists_takes {construct : Construct} {line : Nat} {parts : List Part} {term : Term}
    (h : Composes construct line parts term) (hknown : term.Known)
    (hparts : ∀ part ∈ parts, part.FitsKnown) :
    ∃ roles, construct.Takes roles ∧ List.Forall₂ Fit roles (parts.map Part.tree) := by
  cases h with
  | bool => exact ⟨[], .bool, .nil⟩
  | literal hleaf => exact ⟨_, .literal, .cons (Sexpr.fit_of_isLeaf hleaf trivial) .nil⟩
  | negative hkind hleaf hsign hdigits =>
    exact ⟨_, .negative hkind, .cons (Sexpr.fit_of_isLeaf hleaf hsign)
      (.cons (Sexpr.fit_of_isLeaf hdigits trivial) .nil)⟩
  | var hname => exact ⟨_, .var, .cons (fit_of_nameOf hname) .nil⟩
  | @assign _ _ part _ value hname hvalue =>
    have hfit := hparts part (by simp) value hvalue
      fun tag line hinside => hknown tag line (.value hinside)
    exact ⟨_, .assign, .cons (fit_of_nameOf hname) (.cons hfit .nil)⟩
  | @cond _ first second test body htest hbody =>
    have hfirst := hparts first (by simp) test htest
      fun tag line hinside => hknown tag line (.test hinside)
    obtain ⟨role, hrole, hsecond⟩ := (hparts second (by simp)).of_body hbody
      fun item hitem tag line hinside => hknown tag line (.body hitem hinside)
    exact ⟨_, .cond hrole, .cons hfirst (.cons hsecond .nil)⟩
  | @condElse _ first second third test body otherwise htest hbody hother =>
    have hfirst := hparts first (by simp) test htest
      fun tag line hinside => hknown tag line (.test hinside)
    obtain ⟨role, hrole, hsecond⟩ := (hparts second (by simp)).of_body hbody
      fun item hitem tag line hinside => hknown tag line (.body hitem hinside)
    obtain ⟨role', hrole', hthird⟩ := (hparts third (by simp)).of_otherwise hother (by
      rintro items rfl item hitem tag line hinside
      exact hknown tag line (.otherwise hitem hinside))
    exact ⟨_, .condElse hrole hrole', .cons hfirst (.cons hsecond (.cons hthird .nil))⟩
  | @print _ receiver selector part routine argument hroutine hargument =>
    obtain ⟨hreceiver, hselector, htag⟩ := routineOf?_eq_some hroutine
    have hfit := hparts part (by simp) argument hargument
      fun tag line hinside => hknown tag line (.argument hinside)
    exact ⟨_, .send, .cons (Sexpr.fit_nothing hreceiver)
      (.cons (Sexpr.fit_of_isLeaf hselector ⟨routine, htag⟩) (.cons hfit .nil))⟩
  | seq hitems =>
    have hfits := Part.forall₂_fit_of_sequence hparts hitems
      fun item hitem tag line hinside => hknown tag line (.item hitem hinside)
    exact ⟨_, .seq _, hfits⟩

/-- A tree with a known meaning follows the grammar of constructs. -/
theorem fit_of_ofSexpr (tree : Sexpr) {term : Term} (h : ofSexpr tree = .ok term)
    (hknown : term.Known) : Fit .construct tree := by
  induction tree using Sexpr.induction_children generalizing term with
  | step tree ih =>
    cases hconstruct : Construct.ofTag? tree.tag with
    | none =>
      rw [ofSexpr_of_ofTag?_none hconstruct] at h
      cases h
      exact absurd .self (hknown tree.tag tree.line)
    | some construct =>
      rw [ofSexpr_of_ofTag? hconstruct] at h
      have hparts : ∀ part ∈ tree.children.map fun child => (⟨child, ofSexpr child⟩ : Part),
          part.FitsKnown := by
        intro part hpart term hterm hknown
        obtain ⟨child, hchild, rfl⟩ := List.mem_map.mp hpart
        exact ih child hchild hterm hknown
      obtain ⟨roles, htakes, hfit⟩ := exists_takes (composes_of_ofParts h) hknown hparts
      rw [List.map_map,
        show Part.tree ∘ (fun child => (⟨child, ofSexpr child⟩ : Part)) = id from rfl,
        List.map_id] at hfit
      obtain ⟨uses, huses⟩ := Sexpr.exists_fits hfit
      obtain ⟨tag, line, children⟩ := tree
      exact ⟨_, .construct hconstruct htakes huses .nil⟩

end Term

/-! ## Spoiled lexemes -/

namespace Token

theorem not_isLexeme_invalid_of_ofText? {text name : String} (h : Name.ofText? text = some name) :
    ¬ IsLexeme .invalid text.toList := by
  intro hinvalid
  have hword : Text.isWord (Name.bare text.toList) = true := by
    by_contra hword
    simp [Name.ofText?, hword] at h
  cases hchars : text.toList with
  | nil =>
    rw [hchars] at hinvalid
    exact hinvalid
  | cons c cs =>
    rw [hchars] at hinvalid hword
    by_cases hcolon : c = ':'
    · subst hcolon
      cases hinvalid
    by_cases hquote : c = '"'
    · subst hquote
      have hkind : (quoted cs).kind = some .invalid := congrArg Piece.kind hinvalid
      unfold quoted at hkind
      split at hkind <;> cases hkind
    -- Without marks the text is a word itself, and a letter starts the token of a name.
    have hbare : Name.bare (c :: cs) = c :: cs := by
      simp [Name.bare, Text.unquote, Text.quotedBody?, hcolon, hquote]
    rw [hbare] at hword
    have hletter : Text.isLetter c = true := by
      simp only [Text.isWord, Bool.and_eq_true] at hword
      exact hword.1
    have hsign : c ∉ signs := by
      intro hmem
      rw [not_isLetter_of_mem_signs hmem] at hletter
      cases hletter
    have hkind := congrArg Piece.kind hinvalid
    rw [piece_of_not_sign hsign, if_pos hletter] at hkind
    cases hkind

theorem ofTag?_of_isLexeme_invalid {tag : String} (h : IsLexeme .invalid tag.toList) :
    Construct.ofTag? tag = none := by
  cases hconstruct : Construct.ofTag? tag with
  | none => rfl
  | some construct =>
    obtain rfl := Construct.tag_of_ofTag? hconstruct
    have hkeyword : IsLexeme .keyword construct.tag.toList := by
      rcases construct with (_ | _) | (_ | _ | _) | _ | _ | _ | _ | _ <;> rfl
    cases h.unique hkeyword

end Token

namespace Sexpr

/-- Only a literal may be spoiled. -/
theorem Role.Accepts.eq_literal {role : Role} {tag : String} (h : role.Accepts tag)
    (hinvalid : IsLexeme .invalid tag.toList) : role = .literal := by
  cases role with
  | construct | label => exact h.elim
  | nothing =>
    subst h
    cases hinvalid.unique (show IsLexeme .name "nil".toList from rfl)
  | sign =>
    subst h
    cases hinvalid.unique (show IsLexeme .minus "-".toList from rfl)
  | selector =>
    obtain ⟨routine, h⟩ := h
    unfold Routine.ofSelector? at h
    split at h
    · subst tag
      cases hinvalid.unique (show IsLexeme .keyword ":puts".toList from rfl)
    · split at h
      · subst tag
        cases hinvalid.unique (show IsLexeme .keyword ":print".toList from rfl)
      · cases h
  | name =>
    obtain ⟨name, hname⟩ := h
    exact absurd hinvalid (Token.not_isLexeme_invalid_of_ofText? hname)
  | literal => rfl

/-- In trees that follow the grammar, what is spoiled is a literal or the label of a name. -/
theorem Fits.role_of_invalid {roles : List Role} {trees : List Sexpr} {uses : List Use}
    (h : Fits roles trees uses) :
    ∀ use ∈ uses, IsLexeme .invalid use.tag.toList → use.role = .literal ∨ use.role = .label := by
  induction h with
  | nil => exact List.forall_mem_nil _
  | leaf htag _ ih =>
    exact List.forall_mem_cons.mpr ⟨fun hinvalid => .inl (htag.eq_literal hinvalid), ih⟩
  | labelled hname _ ih =>
    refine List.forall_mem_cons.mpr ⟨fun _ => .inr rfl, List.forall_mem_cons.mpr ⟨?_, ih⟩⟩
    intro hinvalid
    cases hname.eq_literal hinvalid
  | construct htag _ _ _ ihchildren ihrest =>
    refine List.forall_mem_cons.mpr ⟨?_, List.forall_mem_append.mpr ⟨ihchildren, ihrest⟩⟩
    intro hinvalid
    rw [Token.ofTag?_of_isLexeme_invalid hinvalid] at htag
    cases htag

end Sexpr

end SexprCompiler
