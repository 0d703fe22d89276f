import SexprCompiler.Proofs.Checking
import SexprCompiler.Proofs.Roles
import SexprCompiler.Proofs.RoundTrip

/-!
# Spoiled tokens that are not noticed

The tags of a tree are the atoms among its tokens, so each token that is not a parenthesis has a
role. A spoiled token in a source text that is compiled is a literal or the label of a name. Whether
a text is compiled does not depend on these, so any other token may stand there, spoiled or not.
-/
namespace SexprCompiler

open Token (IsLexeme)
open Sexpr (Role Use Fits Derives)

/-! ## Tokens and their roles -/

namespace Sexpr

theorem Fits.exists_of_cons {roles : List Role} {tag : String} {line : Nat}
    {children trees : List Sexpr} {uses : List Use}
    (h : Fits roles (⟨tag, line, children⟩ :: trees) uses) :
    ∃ role inner own others rest, uses = ⟨role, tag, line⟩ :: (own ++ rest) ∧
      Fits inner children own ∧ Fits others trees rest := by
  cases h with
  | leaf _ hrest => exact ⟨_, [], [], _, _, rfl, .nil, hrest⟩
  | labelled hname hrest => exact ⟨_, _, _, _, _, rfl, .leaf hname .nil, hrest⟩
  | construct _ _ hchildren hrest => exact ⟨_, _, _, _, _, rfl, hchildren, hrest⟩

/-- The tags of trees are the atoms among their tokens, in the same order. -/
theorem Derives.forall₂_uses {limit : Nat} {tokens : List Token} {trees : List Sexpr}
    (h : Derives limit tokens trees) {roles : List Role} {uses : List Use}
    (hfits : Fits roles trees uses) :
    List.Forall₂ (fun token use => use.tag = token.lexeme ∧ use.line = token.line)
      (tokens.filter fun token => token.role = .atom) uses := by
  induction h generalizing roles uses with
  | nil =>
    cases hfits
    exact .nil
  | atom hatom _ ih =>
    obtain ⟨role, inner, own, others, rest, rfl, hchildren, hrest⟩ := hfits.exists_of_cons
    cases hchildren
    rw [List.filter_cons_of_pos (by simpa using hatom)]
    exact .cons ⟨rfl, rfl⟩ (ih hrest)
  | group hopening htag _ hclosing _ ihchildren ihrest =>
    obtain ⟨role, inner, own, others, rest, rfl, hchildren, hrest⟩ := hfits.exists_of_cons
    rw [List.filter_cons_of_neg (by simp [hopening]), List.filter_cons_of_pos (by simpa using htag),
      List.filter_append, List.filter_cons_of_neg (by simp [hclosing])]
    exact .cons ⟨rfl, rfl⟩ (List.rel_append (ihchildren hchildren) (ihrest hrest))

end Sexpr

/-! ## Other tags in the same form -/

namespace Sexpr

inductive SameForm : List Sexpr → List Sexpr → Prop where
  | nil : SameForm [] []
  | cons {tag tag' line line' children children' trees trees'}
      (hchildren : SameForm children children') (hrest : SameForm trees trees') :
      SameForm (⟨tag, line, children⟩ :: trees) (⟨tag', line', children'⟩ :: trees')

theorem SameForm.length_allTags {trees others : List Sexpr} (h : SameForm trees others) :
    (allTags trees).length = (allTags others).length := by
  induction h with
  | nil => rfl
  | cons _ _ ihchildren ihrest => simp [allTags, tags, ihchildren, ihrest]

theorem Fits.length_uses {roles : List Role} {trees : List Sexpr} {uses : List Use}
    (h : Fits roles trees uses) : uses.length = (allTags trees).length := by
  induction h with
  | nil => rfl
  | leaf _ _ ih => simp [allTags, tags, Sexpr.leaf, ih]
  | labelled _ _ ih => simp [allTags, tags, Sexpr.leaf, ih]
  | construct _ _ _ _ ihchildren ihrest => simp [allTags, tags, ihchildren, ihrest]

/-- Another tag may stand where a literal or a label does, and the same tag anywhere. -/
def Use.Allows (use : Use) (tag : String) : Prop :=
  use.role = .literal ∨ use.role = .label ∨ tag = use.tag

end Sexpr

/-- Visits that ask the same of the types of locals. -/
inductive Visit.Alike : Visit → Visit → Prop where
  | use {value value'} (h : ∀ types, Term.type? types value' = Term.type? types value) :
      Alike (.use value) (.use value')
  | test {value value'} (h : ∀ types, Term.type? types value' = Term.type? types value) :
      Alike (.test value) (.test value')
  | assign {name value value'} (h : ∀ types, Term.type? types value' = Term.type? types value) :
      Alike (.assign name value) (.assign name value')

theorem Pass.of_alike {known final : TypeTable} {visits others : List Visit}
    (h : Pass known visits final) (halike : List.Forall₂ Visit.Alike visits others) :
    Pass known others final := by
  induction h generalizing others with
  | nil =>
    cases halike
    exact .nil
  | cons hstep _ ih =>
    cases halike with
    | cons hvisit hrest =>
      refine .cons ?_ (ih hrest)
      cases hstep with
      | use hvalue =>
        cases hvisit with
        | use h => exact .use ((h _).trans hvalue)
      | test hvalue =>
        cases hvisit with
        | test h => exact .test ((h _).trans hvalue)
      | assign hvalue hname =>
        cases hvisit with
        | assign h => exact .assign ((h _).trans hvalue) hname

namespace Term

/-- Terms that ask the same of the types of locals, as statements and as values. -/
structure Alike (term other : Term) : Prop where
  visits : List.Forall₂ Visit.Alike term.visits other.visits
  types : ∀ types, other.type? types = term.type? types

theorem visitsAll_append (terms others : List Term) :
    visitsAll (terms ++ others) = visitsAll terms ++ visitsAll others := by
  induction terms with
  | nil => rfl
  | cons term terms ih => simp [visitsAll, ih]

theorem visitsAll_items (term : Term) : visitsAll term.items = term.visits := by
  cases term with
  | seq items => rfl
  | bool | literal | var | assign | cond | print | unknown => simp [items, visitsAll]

/-- What a tree and another one have in common that are read for the same thing. -/
def Agrees : Role → Sexpr → Sexpr → Prop
  | .construct, tree, other =>
    tree.isNil = false ∧ other.isNil = false ∧
      ∃ term term', ofSexpr tree = .ok term ∧ ofSexpr other = .ok term' ∧ term.Alike term'
  | .nothing, tree, other => tree.isNil = true ∧ other.isNil = true
  | .selector, tree, other =>
    tree.isLeaf = true ∧ other.isLeaf = true ∧
      ∃ routine, Routine.ofSelector? tree.tag = some routine ∧
        Routine.ofSelector? other.tag = some routine
  | .sign, tree, other =>
    (tree.isLeaf = true ∧ tree.tag = "-") ∧ other.isLeaf = true ∧ other.tag = "-"
  | .name, tree, other => ∃ name, nameOf tree = .ok name ∧ nameOf other = .ok name
  | .literal, tree, other => tree.isLeaf = true ∧ other.isLeaf = true
  | .label, _, _ => False

inductive AgreeAll : List Role → List Sexpr → List Sexpr → Prop where
  | nil : AgreeAll [] [] []
  | cons {role tree other roles trees others} (h : Agrees role tree other)
      (hrest : AgreeAll roles trees others) :
      AgreeAll (role :: roles) (tree :: trees) (other :: others)

theorem alike_literal (kind : Target.LitKind) (text text' : String) :
    (literal kind text).Alike (.literal kind text') := by
  have htype (types : TypeTable) :
      (literal kind text).type? types = (literal kind text').type? types := by
    cases kind <;> rfl
  exact ⟨.cons (.use fun types => (htype types).symm) .nil, fun types => (htype types).symm⟩

theorem visits_cond (test : Term) (body : List Term) (otherwise : Option (List Term)) :
    (cond test body otherwise).visits =
      .test test :: (visitsAll body ++ otherwise.elim [] visitsAll) := by
  cases otherwise <;> simp [visits]

theorem exists_body {role : Role} {tree other : Sexpr} (hrole : role ∈ Role.branches)
    (h : Agrees role tree other) :
    ∃ items items', Part.body ⟨tree, ofSexpr tree⟩ = .ok items ∧
      Part.body ⟨other, ofSexpr other⟩ = .ok items' ∧
        List.Forall₂ Visit.Alike (visitsAll items) (visitsAll items') := by
  simp only [Role.branches, List.mem_cons, List.not_mem_nil, or_false] at hrole
  rcases hrole with rfl | rfl
  · obtain ⟨hnil, hnil', term, term', hterm, hterm', halike⟩ := h
    refine ⟨term.items, term'.items, ?_, ?_, ?_⟩
    · simp [Part.body, hnil, hterm]
    · simp [Part.body, hnil', hterm']
    · rw [visitsAll_items, visitsAll_items]
      exact halike.visits
  · exact ⟨[], [], if_pos h.1, if_pos h.2, .nil⟩

theorem exists_otherwise {role : Role} {tree other : Sexpr} (hrole : role ∈ Role.branches)
    (h : Agrees role tree other) :
    ∃ items items', Part.otherwise ⟨tree, ofSexpr tree⟩ = .ok items ∧
      Part.otherwise ⟨other, ofSexpr other⟩ = .ok items' ∧
        List.Forall₂ Visit.Alike (items.elim [] visitsAll) (items'.elim [] visitsAll) := by
  obtain ⟨items, items', hbody, hbody', halike⟩ := exists_body hrole h
  simp only [Role.branches, List.mem_cons, List.not_mem_nil, or_false] at hrole
  rcases hrole with rfl | rfl
  · obtain ⟨hnil, hnil', -⟩ := h
    refine ⟨some items, some items', ?_, ?_, halike⟩
    · simp [Part.otherwise, hnil, hbody]
    · simp [Part.otherwise, hnil', hbody']
  · exact ⟨none, none, if_pos h.1, if_pos h.2, .nil⟩

theorem exists_sequence {count : Nat} {trees others : List Sexpr}
    (h : AgreeAll (List.replicate count .construct) trees others) :
    ∃ items items', Part.sequence (partsOf trees) = .ok items ∧
      Part.sequence (partsOf others) = .ok items' ∧
        List.Forall₂ Visit.Alike (visitsAll items) (visitsAll items') := by
  induction count generalizing trees others with
  | zero =>
    cases h
    exact ⟨[], [], rfl, rfl, .nil⟩
  | succ count ih =>
    cases h with
    | cons hfirst hrest =>
      obtain ⟨-, -, term, term', hterm, hterm', halike⟩ := hfirst
      obtain ⟨items, items', hitems, hitems', halikeRest⟩ := ih hrest
      refine ⟨term.items ++ items, term'.items ++ items', ?_, ?_, ?_⟩
      · simp [partsOf, Part.sequence, hterm, hitems, Outcome.bind_eq_ok]
      · simp [partsOf, Part.sequence, hterm', hitems', Outcome.bind_eq_ok]
      · rw [visitsAll_append, visitsAll_append, visitsAll_items, visitsAll_items]
        exact List.rel_append halike.visits halikeRest

/-- A construct makes terms that are alike of children that agree. -/
theorem exists_ofParts {construct : Construct} {roles : List Role} {trees others : List Sexpr}
    (htakes : construct.Takes roles) (h : AgreeAll roles trees others) (line line' : Nat) :
    ∃ term term', ofParts construct line (partsOf trees) = .ok term ∧
      ofParts construct line' (partsOf others) = .ok term' ∧ term.Alike term' := by
  cases htakes with
  | @bool value =>
    cases h
    exact ⟨.bool value, .bool value, rfl, rfl, ⟨.cons (.use fun _ => rfl) .nil, fun _ => rfl⟩⟩
  | @literal kind =>
    obtain _ | ⟨hleaf, _ | _⟩ := h
    exact ⟨_, _, if_pos hleaf.1, if_pos hleaf.2, alike_literal kind _ _⟩
  | @negative kind hkind =>
    obtain _ | ⟨hsign, _ | ⟨hdigits, _ | _⟩⟩ := h
    exact ⟨_, _, if_pos ⟨hkind, hsign.1.1, hsign.1.2, hdigits.1⟩,
      if_pos ⟨hkind, hsign.2.1, hsign.2.2, hdigits.2⟩, alike_literal kind _ _⟩
  | var =>
    obtain _ | ⟨⟨name, hname, hname'⟩, _ | _⟩ := h
    refine ⟨.var name, .var name, ?_, ?_, ⟨.cons (.use fun _ => rfl) .nil, fun _ => rfl⟩⟩
    · exact Outcome.map_eq_ok.mpr ⟨name, hname, rfl⟩
    · exact Outcome.map_eq_ok.mpr ⟨name, hname', rfl⟩
  | assign =>
    obtain _ | ⟨⟨name, hname, hname'⟩, _ | ⟨hvalue, _ | _⟩⟩ := h
    obtain ⟨-, -, value, value', hvalue, hvalue', halike⟩ := hvalue
    refine ⟨.assign name value line, .assign name value' line', ?_, ?_,
      ⟨.cons (.assign halike.types) .nil, fun _ => rfl⟩⟩
    · simp [partsOf, ofParts, hname, hvalue, Outcome.bind_eq_ok]
    · simp [partsOf, ofParts, hname', hvalue', Outcome.bind_eq_ok]
  | cond hrole =>
    obtain _ | ⟨htest, _ | ⟨hbody, _ | _⟩⟩ := h
    obtain ⟨-, -, test, test', htest, htest', halike⟩ := htest
    obtain ⟨body, body', hbody, hbody', halikeBody⟩ := exists_body hrole hbody
    refine ⟨.cond test body none, .cond test' body' none, ?_, ?_, ⟨?_, fun _ => rfl⟩⟩
    · simp [partsOf, ofParts, htest, hbody, Outcome.bind_eq_ok]
    · simp [partsOf, ofParts, htest', hbody', Outcome.bind_eq_ok]
    · exact .cons (.test halike.types) halikeBody
  | condElse hrole hrole' =>
    obtain _ | ⟨htest, _ | ⟨hbody, _ | ⟨hother, _ | _⟩⟩⟩ := h
    obtain ⟨-, -, test, test', htest, htest', halike⟩ := htest
    obtain ⟨body, body', hbody, hbody', halikeBody⟩ := exists_body hrole hbody
    obtain ⟨items, items', hitems, hitems', halikeOther⟩ := exists_otherwise hrole' hother
    refine ⟨.cond test body items, .cond test' body' items', ?_, ?_, ⟨?_, fun _ => rfl⟩⟩
    · simp [partsOf, ofParts, htest, hbody, hitems, Outcome.bind_eq_ok]
    · simp [partsOf, ofParts, htest', hbody', hitems', Outcome.bind_eq_ok]
    · rw [visits_cond, visits_cond]
      exact .cons (.test halike.types) (List.rel_append halikeBody halikeOther)
  | send =>
    obtain _ | ⟨hreceiver, _ | ⟨hselector, _ | ⟨hargument, _ | _⟩⟩⟩ := h
    obtain ⟨hleaf, hleaf', routine, hroutine, hroutine'⟩ := hselector
    obtain ⟨-, -, argument, argument', hargument, hargument', halike⟩ := hargument
    refine ⟨.print routine argument, .print routine argument', ?_, ?_,
      ⟨.cons (.use halike.types) .nil, fun _ => rfl⟩⟩
    · simp [partsOf, ofParts, routineOf?, hreceiver.1, hleaf, hroutine, hargument]
    · simp [partsOf, ofParts, routineOf?, hreceiver.2, hleaf', hroutine', hargument']
  | seq count =>
    obtain ⟨items, items', hitems, hitems', halike⟩ := exists_sequence h
    exact ⟨.seq items, .seq items', Outcome.map_eq_ok.mpr ⟨items, hitems, rfl⟩,
      Outcome.map_eq_ok.mpr ⟨items', hitems', rfl⟩, ⟨halike, fun _ => rfl⟩⟩

theorem agrees_leaf {role : Role} {tag tag' : String} {line line' : Nat} (h : role.Accepts tag)
    (hallows : Use.Allows ⟨role, tag, line⟩ tag') :
    Agrees role (.leaf tag line) (.leaf tag' line') := by
  rcases hallows with rfl | rfl | rfl
  · exact ⟨rfl, rfl⟩
  · exact h.elim
  · cases role with
    | construct | label => exact h.elim
    | nothing =>
      subst h
      exact ⟨rfl, rfl⟩
    | selector =>
      obtain ⟨routine, hroutine⟩ := h
      exact ⟨rfl, rfl, routine, hroutine, hroutine⟩
    | sign => exact ⟨⟨rfl, h⟩, rfl, h⟩
    | name =>
      obtain ⟨name, hname⟩ := h
      have hnameOf : nameOfText tag' = .ok name := by rw [nameOfText, hname]
      exact ⟨name, hnameOf, hnameOf⟩
    | literal => exact ⟨rfl, rfl⟩

end Term

open Term (AgreeAll)

/-- Trees that follow the grammar agree with those that have other literals and labels. -/
theorem Sexpr.Fits.agreeAll {roles : List Role} {trees others : List Sexpr} {uses : List Use}
    (h : Fits roles trees uses) (hform : SameForm trees others)
    (htags : List.Forall₂ Use.Allows uses (allTags others)) : AgreeAll roles trees others := by
  induction h generalizing others with
  | nil =>
    cases hform
    exact .nil
  | leaf htag _ ih =>
    cases hform with
    | cons hchildren hrest =>
      cases hchildren
      cases htags with
      | cons hallows htags => exact .cons (Term.agrees_leaf htag hallows) (ih hrest htags)
  | labelled hname _ ih =>
    cases hform with
    | cons hchildren hrest =>
      cases hchildren with
      | cons hnone hnoneRest =>
        cases hnone
        cases hnoneRest
        cases htags with
        | cons _ htags =>
          cases htags with
          -- The label is left aside, so the group agrees as the leaf inside it does.
          | cons hallows htags => exact .cons (Term.agrees_leaf hname hallows) (ih hrest htags)
  | @construct _ _ line _ _ own _ _ uses htag htakes hfits _ ihchildren ihrest =>
    cases hform with
    | @cons _ tag' _ line' _ children' _ trees' hchildren hrest =>
      rw [allTags, tags, List.cons_append] at htags
      cases htags with
      | cons hallows htags =>
        have hlength : own.length = (allTags children').length :=
          hfits.length_uses.trans hchildren.length_allTags
        have hown := List.forall₂_take_append _ _ _ htags
        have hothers := List.forall₂_drop_append _ _ _ htags
        rw [← hlength, List.take_left] at hown
        rw [← hlength, List.drop_left] at hothers
        obtain rfl : tag' = _ := by
          rcases hallows with hrole | hrole | htag
          · cases hrole
          · cases hrole
          · exact htag
        obtain ⟨term, term', hterm, hterm', halike⟩ :=
          Term.exists_ofParts htakes (ihchildren hchildren hown) line line'
        refine .cons ⟨Term.isNil_of_ofTag? htag, Term.isNil_of_ofTag? htag, term, term', ?_, ?_,
          halike⟩ (ihrest hrest hothers)
        · simp only [Term.ofSexpr, htag, hterm]
        · simp only [Term.ofSexpr, htag, hterm']

theorem Sexpr.Derives.forall₂_roles {limit : Nat} {taken rest : List Token} {trees : List Sexpr}
    {source : String} (h : Derives limit taken trees) (hscan : Token.scan source = taken ++ rest)
    {roles : List Role} {uses : List Use} (hfits : Fits roles trees uses) :
    List.Forall₂ (fun token use => (use.tag = token.lexeme ∧ use.line = token.line) ∧
        (token.kind = .invalid → use.role = .literal ∨ use.role = .label))
      (taken.filter fun token => token.role = .atom) uses := by
  have hlexemes : ∀ token ∈ taken.filter fun token => token.role = .atom,
      IsLexeme token.kind token.lexeme.toList := by
    intro token htoken
    have htoken := List.mem_of_mem_filter htoken
    have hmem : token ∈ Token.scan source := by
      rw [hscan]
      exact List.mem_append_left _ htoken
    exact Token.isLexeme_of_mem_scan hmem (h.role_ne_ending token htoken)
  have hleft := (List.forall₂_and_left _ _).mpr ⟨hlexemes, h.forall₂_uses hfits⟩
  have hboth := ((List.forall₂_and_left _ _).mpr ⟨hfits.role_of_invalid, hleft.flip⟩).flip
  refine hboth.imp ?_
  rintro token use ⟨hrole, hlexeme, hsame⟩
  refine ⟨hsame, fun hkind => hrole ?_⟩
  rw [hsame.1, ← hkind]
  exact hlexeme

theorem Draft.exists_extend_of_sameForm {draft : Draft} {tree other : Sexpr} {term : Term}
    {stmts : List Target.Stmt} {scope : Scope} {uses : List Use}
    (hterm : Term.ofSexpr tree = .ok term)
    (hemits : Emits .main draft.toScope [term] stmts scope) (hfits : Fits [.construct] [tree] uses)
    (hform : Sexpr.SameForm [tree] [other]) (htags : List.Forall₂ Use.Allows uses other.tags) :
    ∃ next, draft.extend other = .ok next := by
  have hall : Sexpr.allTags [other] = other.tags := by simp [Sexpr.allTags]
  cases hfits.agreeAll hform (hall ▸ htags) with
  | cons hagrees _ =>
    obtain ⟨-, -, found, term', hfound, hterm', halike⟩ := hagrees
    obtain rfl : term = found := Except.ok.inj (hterm.symm.trans hfound)
    have hpass := hemits.pass_singleton.of_alike halike.visits
    obtain ⟨stmts', scope', hemits', -⟩ := exists_emits_of_pass .main term' hpass
    exact ⟨_, extend_eq_ok.mpr ⟨term', hterm', add_eq_ok.mpr ⟨stmts', scope', hemits', rfl⟩⟩⟩

/-- Of the tokens that the tree of a compiled source text is read from, each that is not a
parenthesis has a role, and a spoiled one is a literal or the label of a name. Every source text
that differs only in literals and labels, spoiled or not, is compiled as well. -/
theorem invalid_tokens_survive_unread {package source : String} {draft : Draft}
    (h : Draft.ofSource package source = .ok draft) :
    ∃ tree taken rest uses, Token.scan source = taken ++ rest ∧
      Sexpr.read (Token.withEnd (Token.scan source)) = (.ok tree, rest) ∧
      Fits [.construct] [tree] uses ∧
      List.Forall₂ (fun token use => (use.tag = token.lexeme ∧ use.line = token.line) ∧
          (token.kind = .invalid → use.role = .literal ∨ use.role = .label))
        (taken.filter fun token => token.role = .atom) uses ∧
      ∀ source' other, Sexpr.ofSource source' = .ok other → Sexpr.SameForm [tree] [other] →
        List.Forall₂ Use.Allows uses other.tags →
          ∃ draft', Draft.ofSource package source' = .ok draft' := by
  obtain ⟨tree, term, stmts, scope, htree, hterm, hemits, rfl⟩ := Draft.exists_emits_of_ofSource h
  obtain ⟨uses, hfits⟩ := Term.fit_of_ofSexpr tree hterm (hemits.known term List.mem_cons_self)
  obtain ⟨rest, hread⟩ : ∃ rest,
      Sexpr.read (Token.withEnd (Token.scan source)) = (.ok tree, rest) := ⟨_, Prod.ext htree rfl⟩
  obtain ⟨taken, htaken, hderives⟩ := Sexpr.read_eq_ok_iff.mp hread
  rw [Token.withEnd_scan] at htaken
  refine ⟨tree, taken, rest, uses, htaken, hread, hfits, hderives.forall₂_roles htaken hfits, ?_⟩
  intro source' other hother hform htags
  obtain ⟨next, hnext⟩ := Draft.exists_extend_of_sameForm hterm hemits hfits hform htags
  exact ⟨next, Draft.ofSource_eq_ok.mpr ⟨other, hother, hnext⟩⟩

def spoiledSource : String := "(:int 12.)"

/-- What is compiled with one spoiled literal is compiled with another one. -/
theorem other_spoiled_literal_is_compiled :
    ∃ draft, Draft.ofSource "main" spoiledSource = .ok draft ∧
      ∃ draft', Draft.ofSource "main" "(:int @)" = .ok draft' := by
  have hsource : Sexpr.ofSource spoiledSource = .ok ⟨":int", 1, [.leaf "12." 1]⟩ :=
    Outcome.eq_ok_of_toOption (by decide +kernel)
  have hother : Sexpr.ofSource "(:int @)" = .ok ⟨":int", 1, [.leaf "@" 1]⟩ :=
    Outcome.eq_ok_of_toOption (by decide +kernel)
  have hread : Sexpr.read (Token.withEnd (Token.scan spoiledSource)) =
      (.ok ⟨":int", 1, [.leaf "12." 1]⟩, [Token.endOn 1]) := Prod.ext hsource (by decide +kernel)
  obtain ⟨draft, hdraft⟩ : ∃ draft, Draft.ofSource "main" spoiledSource = .ok draft := by
    rw [Draft.ofSource, hsource]
    exact ⟨_, rfl⟩
  obtain ⟨tree, taken, rest, uses, hscan, htree, -, hroles, hothers⟩ :=
    invalid_tokens_survive_unread hdraft
  cases hread.symm.trans htree
  obtain rfl : taken = [⟨.leftParen, "(", 1⟩, ⟨.keyword, ":int", 1⟩, ⟨.invalid, "12.", 1⟩,
      ⟨.rightParen, ")", 1⟩] := by
    refine List.append_cancel_right (hscan.symm.trans ?_)
    decide +kernel
  cases hroles with
  | cons htag hroles =>
    cases hroles with
    | cons hliteral hroles =>
      cases hroles
      refine ⟨draft, hdraft, hothers _ _ hother (.cons (.cons .nil .nil) .nil) ?_⟩
      exact .cons (.inr (.inr htag.1.1.symm)) (.cons ((hliteral.2 rfl).imp_right .inl) .nil)

def spoiledLabelSource : String := "(:lvasgn (@ :x) (:int 1))"

/-- Both texts are read to their end and compiled. The program repeats the spoiled literal and says
nothing of the spoiled label. -/
theorem spoiled_tokens_are_not_rejected :
    ((Token.scan spoiledSource).filter (fun token => token.kind = .invalid) =
          [⟨.invalid, "12.", 1⟩] ∧
        (Sexpr.read (Token.withEnd (Token.scan spoiledSource))).2 = [Token.endOn 1] ∧
        (compile "main" spoiledSource).toOption =
          some "package main\n\nfunc main() \x7b\n\t_ = 12.\n\x7d\n") ∧
      (Token.scan spoiledLabelSource).filter (fun token => token.kind = .invalid) =
          [⟨.invalid, "@", 1⟩] ∧
        (Sexpr.read (Token.withEnd (Token.scan spoiledLabelSource))).2 = [Token.endOn 1] ∧
        (compile "main" spoiledLabelSource).toOption =
          some "package main\n\nfunc main() \x7b\n\tx := 1\n\x7d\n" := by
  refine ⟨⟨?_, ?_, ?_⟩, ?_, ?_, ?_⟩ <;> decide +kernel

end SexprCompiler
