import SexprCompiler.Proofs.Session

/-!
# All at once or one by one

A sequence of trees can be added to a draft as one tree, or its trees one after another. The first
way understands all trees before it emits anything and flattens what is nested in them, the second
goes from tree to tree. They succeed together and then give the same draft. This is shown by taking
the first tree of a sequence out.
-/
namespace SexprCompiler

open Target (Stmt)

section

variable {place : Place} {scope scope' : Scope} {stmts : List Stmt}

theorem not_emitsOne_seq {items : List Term} {stmt : Stmt} :
    ¬EmitsOne place scope (.seq items) stmt scope' := by
  intro h
  cases h with
  | unused hvalue => simp [Term.value] at hvalue

theorem emits_items_iff {term : Term} :
    Emits place scope term.items stmts scope' ↔ Emits place scope [term] stmts scope' := by
  cases term with
  | seq items =>
    constructor
    · intro h
      have hseq : Emits place scope [.seq items] (stmts ++ []) scope' := .seq h .nil
      rwa [List.append_nil] at hseq
    · intro h
      cases h with
      | one hone => exact (not_emitsOne_seq hone).elim
      | seq hitems hrest =>
        cases hrest
        rwa [List.append_nil]
  | bool | literal | var | assign | cond | print | unknown => rfl

end

namespace Term

/-- The items of trees in a row, flattened. -/
def itemsOf (trees : List Sexpr) : Except ShapeError (List Term) :=
  Part.sequence (trees.map fun tree => ⟨tree, ofSexpr tree⟩)

theorem itemsOf_cons_eq_ok {tree : Sexpr} {trees : List Sexpr} {items : List Term} :
    itemsOf (tree :: trees) = .ok items ↔
      ∃ term, ofSexpr tree = .ok term ∧ ∃ others, itemsOf trees = .ok others ∧
        term.items ++ others = items := by
  rw [itemsOf, List.map_cons, Part.sequence]
  simp only [Outcome.bind_eq_ok, Outcome.pure_eq_ok, itemsOf]

theorem ofSexpr_sequence (line : Nat) (trees : List Sexpr) :
    ofSexpr ⟨":begin", line, trees⟩ = .seq <$> itemsOf trees := by
  have htag : Construct.ofTag? ":begin" = some .seq := Construct.ofTag?_tag .seq
  rw [ofSexpr_of_ofTag? htag]
  rfl

end Term

namespace Draft

theorem grow_grow (draft : Draft) (scope scope' : Scope) (stmts others : List Stmt) :
    (draft.grow scope stmts).grow scope' others = draft.grow scope' (stmts ++ others) := by
  simp [grow]

theorem extend_eq_ok_iff {draft next : Draft} {tree : Sexpr} :
    draft.extend tree = .ok next ↔
      ∃ term, Term.ofSexpr tree = .ok term ∧ ∃ stmts scope,
        Emits .main draft.toScope term.items stmts scope ∧ next = draft.grow scope stmts := by
  simp only [extend_eq_ok, add_eq_ok, emits_items_iff]

theorem extend_sequence_eq_ok {draft next : Draft} {line : Nat} {trees : List Sexpr} :
    draft.extend ⟨":begin", line, trees⟩ = .ok next ↔
      ∃ items, Term.itemsOf trees = .ok items ∧ ∃ stmts scope,
        Emits .main draft.toScope items stmts scope ∧ next = draft.grow scope stmts := by
  rw [extend_eq_ok_iff, Term.ofSexpr_sequence]
  constructor
  · rintro ⟨term, hterm, hemits⟩
    obtain ⟨items, hitems, rfl⟩ := Outcome.map_eq_ok.mp hterm
    exact ⟨items, hitems, hemits⟩
  · rintro ⟨items, hitems, hemits⟩
    exact ⟨.seq items, Outcome.map_eq_ok.mpr ⟨items, hitems, rfl⟩, hemits⟩

/-- Adding a sequence is adding its first tree and then the sequence of the others. -/
theorem extend_sequence_cons {draft next : Draft} {line : Nat} {tree : Sexpr}
    {trees : List Sexpr} :
    draft.extend ⟨":begin", line, tree :: trees⟩ = .ok next ↔
      ∃ middle, draft.extend tree = .ok middle ∧
        middle.extend ⟨":begin", line, trees⟩ = .ok next := by
  constructor
  · intro h
    obtain ⟨items, hitems, stmts, scope, hemits, rfl⟩ := extend_sequence_eq_ok.mp h
    obtain ⟨term, hterm, others, hothers, rfl⟩ := Term.itemsOf_cons_eq_ok.mp hitems
    obtain ⟨first, rest, scope₁, rfl, hfirst, hrest⟩ := hemits.exists_of_append
    have htree : draft.extend tree = .ok (draft.grow scope₁ first) :=
      extend_eq_ok_iff.mpr ⟨term, hterm, first, scope₁, hfirst, rfl⟩
    refine ⟨_, htree, extend_sequence_eq_ok.mpr ⟨others, hothers, rest, scope, hrest, ?_⟩⟩
    rw [grow_grow]
  · rintro ⟨middle, htree, htrees⟩
    obtain ⟨term, hterm, first, scope₁, hfirst, rfl⟩ := extend_eq_ok_iff.mp htree
    obtain ⟨others, hothers, rest, scope, hrest, rfl⟩ := extend_sequence_eq_ok.mp htrees
    have hitems := Term.itemsOf_cons_eq_ok.mpr ⟨term, hterm, others, hothers, rfl⟩
    rw [grow_grow]
    exact extend_sequence_eq_ok.mpr ⟨_, hitems, _, scope, hfirst.append hrest, rfl⟩

theorem extend_sequence_nil (draft : Draft) (line : Nat) :
    draft.extend ⟨":begin", line, []⟩ = .ok draft :=
  extend_sequence_eq_ok.mpr ⟨[], rfl, [], draft.toScope, .nil, by simp [grow]⟩

theorem extend_sequence_iff {draft next : Draft} {line : Nat} {trees : List Sexpr} :
    draft.extend ⟨":begin", line, trees⟩ = .ok next ↔ trees.foldlM extend draft = .ok next := by
  induction trees generalizing draft with
  | nil => rw [extend_sequence_nil, List.foldlM_nil, Outcome.pure_eq_ok, Except.ok.injEq]
  | cons tree trees ih =>
    rw [extend_sequence_cons, List.foldlM_cons, Outcome.bind_eq_ok]
    exact exists_congr fun middle => and_congr_right fun _ => ih

end Draft

/-- To whatever draft, trees can be added all at once, as one sequence, exactly when they can be
added one after another. The two ways lead to the same draft, and so to the same text. -/
theorem batch_agrees_with_one_by_one (draft : Draft) (line : Nat) (trees : List Sexpr) :
    (∀ next, draft.extend ⟨":begin", line, trees⟩ = .ok next ↔
      trees.foldlM Draft.extend draft = .ok next) ∧
    ∀ text, Draft.text <$> draft.extend ⟨":begin", line, trees⟩ = .ok text ↔
      Draft.text <$> trees.foldlM Draft.extend draft = .ok text := by
  refine ⟨fun next => Draft.extend_sequence_iff, fun text => ?_⟩
  rw [Outcome.map_eq_ok, Outcome.map_eq_ok]
  exact exists_congr fun next => and_congr_left fun _ => Draft.extend_sequence_iff

end SexprCompiler
