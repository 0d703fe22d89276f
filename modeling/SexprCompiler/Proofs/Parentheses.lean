import Mathlib.Data.Finset.Lattice.Fold
import Mathlib.Data.Finset.Prod
import Mathlib.Order.Lattice.Nat
import Mathlib.Tactic.MkIffOfInductiveProp
import SexprCompiler.Token.Basic

/-!
# Groups by their parentheses

The groups among tokens can be found without reading a tree, by the roles of the tokens alone. A
group reaches from an opening parenthesis to the closing one that belongs to it, with balanced
parentheses between them. Its level is the number of groups around it, itself included. This says
how groups, levels and open groups are counted when balanced tokens come before others, and when a
group is put around them.
-/
namespace SexprCompiler.Parentheses

open Token (Role)

/-- As many groups are closed as are opened, and nowhere more. -/
@[mk_iff]
structure Balanced (roles : List Role) : Prop where
  count_eq : roles.count .opening = roles.count .closing
  count_take_le : ∀ length ≤ roles.length,
    (roles.take length).count .closing ≤ (roles.take length).count .opening

instance : DecidablePred Balanced := fun roles => decidable_of_iff' _ (balanced_iff roles)

/-- The positions of an opening and of a closing parenthesis. -/
@[ext]
structure Pair where
  opening : Nat
  closing : Nat
deriving DecidableEq

namespace Pair

/-- One pair stands inside of another, or is the same. -/
def Within (inner outer : Pair) : Prop :=
  outer.opening ≤ inner.opening ∧ inner.closing ≤ outer.closing

instance (inner outer : Pair) : Decidable (inner.Within outer) :=
  inferInstanceAs (Decidable (_ ∧ _))

/-- There is more between the parentheses than a tag. -/
def HasChild (pair : Pair) : Prop := pair.opening + 2 < pair.closing

instance : DecidablePred HasChild := fun _ => inferInstanceAs (Decidable (_ < _))

/-- Where a pair is when so many tokens are put before all others. -/
def shift (count : Nat) : Pair ↪ Pair where
  toFun pair := ⟨pair.opening + count, pair.closing + count⟩
  inj' pair other h := by simpa [Pair.ext_iff] using h

@[simp] theorem opening_shift (count : Nat) (pair : Pair) :
    (shift count pair).opening = pair.opening + count := rfl

@[simp] theorem closing_shift (count : Nat) (pair : Pair) :
    (shift count pair).closing = pair.closing + count := rfl

@[simp] theorem within_shift (count : Nat) (inner outer : Pair) :
    (shift count inner).Within (shift count outer) ↔ inner.Within outer := by
  simp [Within]

@[simp] theorem hasChild_shift (count : Nat) (pair : Pair) :
    (shift count pair).HasChild ↔ pair.HasChild := by
  rw [HasChild, HasChild, opening_shift, closing_shift]
  omega

theorem exists_shift {count : Nat} {pair : Pair} (hle : count ≤ pair.opening)
    (hlt : pair.opening < pair.closing) : ∃ other : Pair, other.shift count = pair := by
  refine ⟨⟨pair.opening - count, pair.closing - count⟩, Pair.ext ?_ ?_⟩
  · exact Nat.sub_add_cancel hle
  · exact Nat.sub_add_cancel (by omega)

end Pair

/-- The parentheses of a group. -/
@[mk_iff]
structure IsGroup (roles : List Role) (pair : Pair) : Prop where
  lt : pair.opening < pair.closing
  opening : roles[pair.opening]? = some .opening
  closing : roles[pair.closing]? = some .closing
  balanced : Balanced (roles.extract (pair.opening + 1) pair.closing)

instance (roles : List Role) : DecidablePred (IsGroup roles) := fun pair =>
  decidable_of_iff' _ (isGroup_iff roles pair)

def groups (roles : List Role) : Finset Pair :=
  ((Finset.range roles.length ×ˢ Finset.range roles.length).image fun positions =>
    ⟨positions.1, positions.2⟩).filter (IsGroup roles)

/-- The number of groups that a pair stands in, the one of the pair itself included. -/
def level (roles : List Role) (pair : Pair) : Nat := ((groups roles).filter pair.Within).card

/-- The greatest level of a group that has a child, or zero if there is none. -/
def peak (roles : List Role) : Nat := ((groups roles).filter Pair.HasChild).sup (level roles)

/-- The greatest number of parentheses that are open at one place. -/
def deepest (roles : List Role) : Nat :=
  (Finset.range (roles.length + 1)).sup fun length =>
    (roles.take length).count .opening - (roles.take length).count .closing

/-- An atom that is not a tag, as it does not come right after an opening parenthesis. -/
def IsFree (roles : List Role) (position : Nat) : Prop :=
  roles[position]? = some .atom ∧ (roles.take position).getLast? ≠ some .opening

instance (roles : List Role) : DecidablePred (IsFree roles) := fun _ =>
  inferInstanceAs (Decidable (_ ∧ _))

def freeAtoms (roles : List Role) : Nat := (List.range roles.length).countP (IsFree roles)

/-- A group around what is in it. -/
def enclosed (inner : List Role) : List Role := .opening :: (inner ++ [.closing])

@[simp] theorem length_enclosed (inner : List Role) :
    (enclosed inner).length = inner.length + 2 := by
  simp [enclosed]

@[simp] theorem mem_groups {roles : List Role} {pair : Pair} :
    pair ∈ groups roles ↔ IsGroup roles pair := by
  rw [groups, Finset.mem_filter, and_iff_right_iff_imp]
  intro h
  obtain ⟨hopening, -⟩ := List.getElem?_eq_some_iff.mp h.opening
  obtain ⟨hclosing, -⟩ := List.getElem?_eq_some_iff.mp h.closing
  exact Finset.mem_image.mpr ⟨(pair.opening, pair.closing), by simp [hopening, hclosing], rfl⟩

theorem IsGroup.closing_lt {roles : List Role} {pair : Pair} (h : IsGroup roles pair) :
    pair.closing < roles.length :=
  (List.getElem?_eq_some_iff.mp h.closing).1

theorem count_take_add_one {roles : List Role} {position : Nat} {role : Role}
    (h : roles[position]? = some role) (other : Role) :
    (roles.take (position + 1)).count other =
      (roles.take position).count other + if role = other then 1 else 0 := by
  simp [List.take_add_one, h, List.count_singleton]

/-! ## Balanced parentheses -/

section

variable {front rest inner : List Role} {pair : Pair}

theorem balanced_nil : Balanced [] := by decide

theorem balanced_atom : Balanced [.atom] := by decide

theorem Balanced.append (hfront : Balanced front) (hrest : Balanced rest) :
    Balanced (front ++ rest) where
  count_eq := by simp [hfront.count_eq, hrest.count_eq]
  count_take_le := by
    intro length hlength
    rw [List.length_append] at hlength
    rcases Nat.le_total length front.length with hle | hle
    · rw [List.take_append_of_le_length hle]
      exact hfront.count_take_le length hle
    · have hpart := hrest.count_take_le (length - front.length) (by omega)
      rw [List.take_append, List.take_of_length_le hle, List.count_append, List.count_append,
        hfront.count_eq]
      exact Nat.add_le_add_left hpart _

theorem count_opening_take_enclosed (inner : List Role) (length : Nat) :
    ((enclosed inner).take (length + 1)).count .opening =
      (inner.take length).count .opening + 1 := by
  have hlast : ([Role.closing].take (length - inner.length)).count .opening = 0 :=
    Nat.eq_zero_of_le_zero ((List.take_sublist _ _).count_le _)
  rw [enclosed, List.take_succ_cons, List.count_cons_self, List.take_append, List.count_append,
    hlast, Nat.add_zero]

theorem count_closing_take_enclosed {length : Nat} (hle : length ≤ inner.length) :
    ((enclosed inner).take (length + 1)).count .closing = (inner.take length).count .closing := by
  rw [enclosed, List.take_succ_cons, List.count_cons_of_ne (by decide),
    List.take_append_of_le_length hle]

theorem balanced_enclosed (h : Balanced inner) : Balanced (enclosed inner) := by
  have hcount : (enclosed inner).count .opening = (enclosed inner).count .closing := by
    simp [enclosed, h.count_eq]
  refine ⟨hcount, ?_⟩
  rintro (_ | length) hlength
  · simp
  · rw [length_enclosed] at hlength
    rcases Nat.le_or_eq_of_le_succ (Nat.le_of_succ_le_succ hlength) with hle | rfl
    · rw [count_opening_take_enclosed, count_closing_take_enclosed hle]
      exact Nat.le_succ_of_le (h.count_take_le length hle)
    · rw [List.take_of_length_le (by rw [length_enclosed]), hcount]

/-- The last of balanced tokens opens nothing. -/
theorem Balanced.getLast?_ne (h : Balanced front) : front.getLast? ≠ some .opening := by
  intro hlast
  obtain ⟨before, rfl⟩ := List.getLast?_eq_some_iff.mp hlast
  have hcount : before.count .opening + 1 = before.count .closing := by simpa using h.count_eq
  have hbefore := h.count_take_le before.length (by simp)
  rw [List.take_left] at hbefore
  omega

/-! ## Groups side by side -/

theorem isGroup_append_left (hclosing : pair.closing < front.length) :
    IsGroup (front ++ rest) pair ↔ IsGroup front pair := by
  rw [isGroup_iff, isGroup_iff, and_congr_right_iff]
  intro hlt
  have hextract : (front ++ rest).extract (pair.opening + 1) pair.closing =
      front.extract (pair.opening + 1) pair.closing := by
    have hle : pair.closing - (pair.opening + 1) ≤ (front.drop (pair.opening + 1)).length := by
      rw [List.length_drop]
      omega
    rw [List.extract_eq_take_drop, List.drop_append_of_le_length (by omega),
      List.take_append_of_le_length hle, List.extract_eq_take_drop]
  rw [hextract, List.getElem?_append_left hclosing, List.getElem?_append_left (by omega)]

theorem isGroup_append_right (front rest : List Role) :
    IsGroup (front ++ rest) (pair.shift front.length) ↔ IsGroup rest pair := by
  have hget : ∀ position, (front ++ rest)[position + front.length]? = rest[position]? := by
    intro position
    rw [List.getElem?_append_right (Nat.le_add_left _ _), Nat.add_sub_cancel]
  have hextract : (front ++ rest).extract (pair.opening + front.length + 1)
      (pair.closing + front.length) = rest.extract (pair.opening + 1) pair.closing := by
    have hstart : pair.opening + front.length + 1 = front.length + (pair.opening + 1) := by omega
    have hlength : pair.closing + front.length - (front.length + (pair.opening + 1)) =
        pair.closing - (pair.opening + 1) := by omega
    rw [List.extract_eq_take_drop, List.extract_eq_take_drop, hstart, hlength,
      List.drop_length_add_append]
  rw [isGroup_iff, isGroup_iff, Pair.opening_shift, Pair.closing_shift, hget, hget, hextract,
    Nat.add_lt_add_iff_right]

/-- No group reaches across the end of balanced tokens. -/
theorem Balanced.closing_lt (hfront : Balanced front) (h : IsGroup (front ++ rest) pair)
    (hopening : pair.opening < front.length) : pair.closing < front.length := by
  by_contra hle
  have hrole : front[pair.opening]? = some .opening := by
    rw [← List.getElem?_append_left hopening]
    exact h.opening
  -- What follows the opening parenthesis up to the end would start the inside of the group.
  have hinside : (front.drop (pair.opening + 1)).count .closing ≤
      (front.drop (pair.opening + 1)).count .opening := by
    have hbalanced := h.balanced
    rw [List.extract_eq_take_drop, List.drop_append_of_le_length hopening, List.take_append,
      List.take_of_length_le (by rw [List.length_drop]; omega)] at hbalanced
    have hcount := hbalanced.count_take_le (front.drop (pair.opening + 1)).length (by simp)
    rwa [List.take_left] at hcount
  have hbefore := hfront.count_take_le pair.opening hopening.le
  have hcount := hfront.count_eq
  rw [← List.take_append_drop (pair.opening + 1) front, List.count_append, List.count_append,
    count_take_add_one hrole, count_take_add_one hrole] at hcount
  simp only [reduceCtorEq, if_true, if_false] at hcount
  omega

theorem isGroup_append (hfront : Balanced front) :
    IsGroup (front ++ rest) pair ↔
      IsGroup front pair ∨ ∃ other, IsGroup rest other ∧ other.shift front.length = pair := by
  constructor
  · intro h
    by_cases hopening : pair.opening < front.length
    · exact .inl ((isGroup_append_left (hfront.closing_lt h hopening)).mp h)
    · obtain ⟨other, rfl⟩ := Pair.exists_shift (Nat.le_of_not_lt hopening) h.lt
      exact .inr ⟨other, (isGroup_append_right front rest).mp h, rfl⟩
  · rintro (h | ⟨other, h, rfl⟩)
    · exact (isGroup_append_left h.closing_lt).mpr h
    · exact (isGroup_append_right front rest).mpr h

theorem groups_append (hfront : Balanced front) (rest : List Role) :
    groups (front ++ rest) = groups front ∪ (groups rest).map (Pair.shift front.length) := by
  ext pair
  simp [isGroup_append hfront]

/-! ## Groups inside of a group -/

/-- A parenthesis that is opened before balanced tokens is closed after all of them. -/
theorem Balanced.eq_length (h : Balanced inner) {closing : Nat}
    (hgroup : IsGroup (enclosed inner) ⟨0, closing + 1⟩) : closing = inner.length := by
  have hle : closing ≤ inner.length := by
    have hlt := hgroup.closing_lt
    rw [length_enclosed] at hlt
    exact Nat.le_of_lt_succ (Nat.lt_of_succ_lt_succ hlt)
  by_contra hne
  have hlt : closing < inner.length := Nat.lt_of_le_of_ne hle hne
  have hrole : inner[closing]? = some .closing := by
    rw [← hgroup.closing, enclosed, List.getElem?_cons_succ, List.getElem?_append_left hlt]
  -- The tokens before the closing one are balanced, so with it more is closed than opened.
  have hinside : Balanced (inner.take closing) := by
    have hbalanced := hgroup.balanced
    rwa [enclosed, List.extract_eq_take_drop, List.drop_succ_cons, List.drop_zero,
      Nat.add_sub_cancel, List.take_append_of_le_length hle] at hbalanced
  have hcount := hinside.count_eq
  have hnext := h.count_take_le (closing + 1) hlt
  rw [count_take_add_one hrole, count_take_add_one hrole] at hnext
  simp only [reduceCtorEq, if_true, if_false] at hnext
  omega

theorem not_isGroup_closing : ¬IsGroup [.closing] pair := by
  intro h
  have hlt := h.lt
  have hclosing := h.closing_lt
  rw [List.length_singleton] at hclosing
  omega

theorem isGroup_enclosed (hinner : Balanced inner) :
    IsGroup (enclosed inner) pair ↔
      pair = ⟨0, inner.length + 1⟩ ∨ ∃ other, IsGroup inner other ∧ other.shift 1 = pair := by
  constructor
  · intro h
    have hlt := h.lt
    obtain ⟨_ | opening, _ | closing⟩ := pair
    · exact absurd hlt (Nat.lt_irrefl 0)
    · rw [hinner.eq_length h]
      exact .inl rfl
    · exact absurd hlt (Nat.not_lt_zero _)
    · right
      obtain ⟨other, hother⟩ := Pair.exists_shift (Nat.le_add_left 1 opening) hlt
      rw [← hother] at h ⊢
      have hafter : IsGroup (inner ++ [.closing]) other :=
        (isGroup_append_right [.opening] _).mp h
      rcases (isGroup_append hinner).mp hafter with hinside | ⟨last, hlast, -⟩
      · exact ⟨other, hinside, rfl⟩
      · exact absurd hlast not_isGroup_closing
  · rintro (rfl | ⟨other, h, rfl⟩)
    · exact ⟨Nat.succ_pos _, rfl, by simp [enclosed], by simpa [enclosed] using hinner⟩
    · have hafter : IsGroup (inner ++ [.closing]) other :=
        (isGroup_append_left h.closing_lt).mpr h
      exact (isGroup_append_right [.opening] _).mpr hafter

theorem groups_enclosed (hinner : Balanced inner) :
    groups (enclosed inner) =
      insert ⟨0, inner.length + 1⟩ ((groups inner).map (Pair.shift 1)) := by
  ext pair
  simp [isGroup_enclosed hinner]

theorem notMem_map_shift (pairs : Finset Pair) (closing : Nat) :
    ⟨0, closing⟩ ∉ pairs.map (Pair.shift 1) := by
  simp [Pair.ext_iff]

/-! ## Levels -/

/-- No group that opens later stands around a pair. -/
theorem filter_within_map_shift {count : Nat} (hopening : pair.opening < count)
    (pairs : Finset Pair) : (pairs.map (Pair.shift count)).filter pair.Within = ∅ := by
  rw [Finset.filter_eq_empty_iff]
  intro outer houter hwithin
  obtain ⟨other, -, rfl⟩ := Finset.mem_map.mp houter
  have hle := hwithin.1
  rw [Pair.opening_shift] at hle
  omega

theorem level_append_left (hfront : Balanced front) (hopening : pair.opening < front.length) :
    level (front ++ rest) pair = level front pair := by
  rw [level, groups_append hfront, Finset.filter_union, filter_within_map_shift hopening,
    Finset.union_empty, level]

theorem level_append_right (hfront : Balanced front) :
    level (front ++ rest) (pair.shift front.length) = level rest pair := by
  have hnone : (groups front).filter (pair.shift front.length).Within = ∅ := by
    rw [Finset.filter_eq_empty_iff]
    intro outer houter hwithin
    have hlt := (mem_groups.mp houter).closing_lt
    have hle := hwithin.2
    rw [Pair.closing_shift] at hle
    omega
  rw [level, groups_append hfront, Finset.filter_union, hnone, Finset.empty_union,
    Finset.filter_map, Finset.card_map, level]
  simp

theorem level_enclosed (hinner : Balanced inner) :
    level (enclosed inner) ⟨0, inner.length + 1⟩ = 1 := by
  rw [level, groups_enclosed hinner, Finset.filter_insert, if_pos ⟨le_rfl, le_rfl⟩,
    filter_within_map_shift Nat.zero_lt_one]
  rfl

/-- A group that is put around others takes them to the next level. -/
theorem level_enclosed_shift (hinner : Balanced inner) (hpair : IsGroup inner pair) :
    level (enclosed inner) (pair.shift 1) = level inner pair + 1 := by
  have hwithin : (pair.shift 1).Within ⟨0, inner.length + 1⟩ :=
    ⟨Nat.zero_le _, Nat.succ_le_succ hpair.closing_lt.le⟩
  rw [level, groups_enclosed hinner, Finset.filter_insert, if_pos hwithin, Finset.filter_map,
    Finset.card_insert_of_notMem (notMem_map_shift _ _), Finset.card_map, level]
  simp

theorem peak_append (hfront : Balanced front) (rest : List Role) :
    peak (front ++ rest) = max (peak front) (peak rest) := by
  rw [peak, groups_append hfront, Finset.filter_union, Finset.sup_union, Finset.filter_map,
    Finset.sup_map, peak, peak]
  congr 1
  · refine Finset.sup_congr rfl fun pair hpair => level_append_left hfront ?_
    have hgroup := mem_groups.mp (Finset.mem_filter.mp hpair).1
    exact hgroup.lt.trans hgroup.closing_lt
  · simp [Function.comp_def, level_append_right hfront]

theorem max_one_sup_add_one (pairs : Finset Pair) (f : Pair → Nat) :
    max 1 (pairs.sup fun pair => f pair + 1) = pairs.sup f + 1 := by
  induction pairs using Finset.induction_on with
  | empty => simp
  | insert pair pairs _ ih =>
    rw [Finset.sup_insert, Finset.sup_insert]
    omega

theorem peak_enclosed (hinner : Balanced inner) (hlength : 1 < inner.length) :
    peak (enclosed inner) = peak inner + 1 := by
  have hchild : Pair.HasChild ⟨0, inner.length + 1⟩ := Nat.succ_lt_succ hlength
  rw [peak, groups_enclosed hinner, Finset.filter_insert, if_pos hchild, Finset.sup_insert,
    Finset.filter_map, Finset.sup_map, level_enclosed hinner, peak, ← max_one_sup_add_one]
  congr 1
  refine Finset.sup_congr (by simp) fun pair hpair => ?_
  exact level_enclosed_shift hinner (mem_groups.mp (Finset.mem_filter.mp hpair).1)

/-! ## Open parentheses -/

theorem deepest_le_iff {roles : List Role} {bound : Nat} :
    deepest roles ≤ bound ↔ ∀ length ≤ roles.length,
      (roles.take length).count .opening ≤ (roles.take length).count .closing + bound := by
  simp only [deepest, Finset.sup_le_iff, Finset.mem_range, Nat.lt_succ_iff, Nat.sub_le_iff_le_add']

theorem deepest_append (hfront : Balanced front) (rest : List Role) :
    deepest (front ++ rest) = max (deepest front) (deepest rest) := by
  refine eq_of_forall_ge_iff fun bound => ?_
  rw [max_le_iff, deepest_le_iff, deepest_le_iff, deepest_le_iff, List.length_append]
  have hcount := hfront.count_eq
  constructor
  · refine fun h => ⟨fun length hle => ?_, fun length hle => ?_⟩
    · have hpart := h length (by omega)
      rwa [List.take_append_of_le_length hle] at hpart
    · have hpart := h (front.length + length) (by omega)
      rw [List.take_length_add_append, List.count_append, List.count_append] at hpart
      omega
  · rintro ⟨hleft, hright⟩ length hlength
    rcases Nat.le_total length front.length with hle | hle
    · rw [List.take_append_of_le_length hle]
      exact hleft length hle
    · have hpart := hright (length - front.length) (by omega)
      rw [List.take_append, List.take_of_length_le hle, List.count_append, List.count_append]
      omega

theorem deepest_enclosed (hinner : Balanced inner) :
    deepest (enclosed inner) = deepest inner + 1 := by
  refine eq_of_forall_ge_iff fun bound => ?_
  rw [deepest_le_iff, length_enclosed]
  constructor
  · intro h
    have hpos : 1 ≤ bound := by simpa [enclosed] using h 1 (Nat.le_add_left _ _)
    refine Nat.add_le_of_le_sub hpos (deepest_le_iff.mpr fun length hle => ?_)
    have hpart := h (length + 1) (by omega)
    rw [count_opening_take_enclosed, count_closing_take_enclosed hle] at hpart
    omega
  · rintro hbound (_ | length) hlength
    · simp
    · rcases Nat.le_or_eq_of_le_succ (Nat.le_of_succ_le_succ hlength) with hle | rfl
      · have hpart := deepest_le_iff.mp le_rfl length hle
        rw [count_opening_take_enclosed, count_closing_take_enclosed hle]
        omega
      · -- All is closed again after the last parenthesis.
        have hall := (balanced_enclosed hinner).count_eq
        rw [List.take_of_length_le (by rw [length_enclosed]), hall]
        exact Nat.le_add_right _ _

/-! ## Numbers of groups and atoms -/

theorem card_groups_append (hfront : Balanced front) (rest : List Role) :
    (groups (front ++ rest)).card = (groups front).card + (groups rest).card := by
  rw [groups_append hfront, Finset.card_union_of_disjoint, Finset.card_map]
  rw [Finset.disjoint_left]
  intro pair hfront hrest
  obtain ⟨other, -, rfl⟩ := Finset.mem_map.mp hrest
  have hlt := (mem_groups.mp hfront).closing_lt
  rw [Pair.closing_shift] at hlt
  omega

theorem card_groups_enclosed (hinner : Balanced inner) :
    (groups (enclosed inner)).card = (groups inner).card + 1 := by
  rw [groups_enclosed hinner, Finset.card_insert_of_notMem (notMem_map_shift _ _),
    Finset.card_map]

theorem isFree_append_left {position : Nat} (hlt : position < front.length) :
    IsFree (front ++ rest) position ↔ IsFree front position := by
  rw [IsFree, IsFree, List.getElem?_append_left hlt, List.take_append_of_le_length hlt.le]

theorem isFree_append_right (hlast : front.getLast? ≠ some .opening) (position : Nat) :
    IsFree (front ++ rest) (front.length + position) ↔ IsFree rest position := by
  rw [IsFree, IsFree, List.getElem?_append_right (Nat.le_add_right _ _), Nat.add_sub_cancel_left,
    List.take_length_add_append, List.getLast?_append]
  cases (rest.take position).getLast? with
  | none => simp [hlast]
  | some role => simp

theorem freeAtoms_append (hlast : front.getLast? ≠ some .opening) (rest : List Role) :
    freeAtoms (front ++ rest) = freeAtoms front + freeAtoms rest := by
  rw [freeAtoms, List.length_append, List.range_add, List.countP_append, List.countP_map]
  congr 1
  · refine List.countP_congr fun position hposition => ?_
    simp [isFree_append_left (List.mem_range.mp hposition)]
  · refine List.countP_congr fun position _ => ?_
    simp [isFree_append_right hlast]

/-! ## An atom before others, and a group with its tag -/

theorem balanced_tagged (hinner : Balanced inner) : Balanced (.atom :: inner) :=
  balanced_atom.append hinner

theorem card_groups_atom (roles : List Role) :
    (groups (.atom :: roles)).card = (groups roles).card := by
  have hatom : (groups [.atom]).card = 0 := by decide
  rw [← List.singleton_append, card_groups_append balanced_atom, hatom, Nat.zero_add]

theorem peak_atom (roles : List Role) : peak (.atom :: roles) = peak roles := by
  have hatom : peak [.atom] = 0 := by decide
  rw [← List.singleton_append, peak_append balanced_atom, hatom, Nat.zero_max]

theorem deepest_atom (roles : List Role) : deepest (.atom :: roles) = deepest roles := by
  have hatom : deepest [.atom] = 0 := by decide
  rw [← List.singleton_append, deepest_append balanced_atom, hatom, Nat.zero_max]

theorem freeAtoms_atom (roles : List Role) : freeAtoms (.atom :: roles) = freeAtoms roles + 1 := by
  have hatom : freeAtoms [.atom] = 1 := by decide
  rw [← List.singleton_append, freeAtoms_append (by decide), hatom, Nat.add_comm]

theorem count_opening_tagged (inner : List Role) :
    (enclosed (.atom :: inner)).count .opening = inner.count .opening + 1 := by
  simp [enclosed]

theorem card_groups_tagged (hinner : Balanced inner) :
    (groups (enclosed (.atom :: inner))).card = (groups inner).card + 1 := by
  rw [card_groups_enclosed (balanced_tagged hinner), card_groups_atom]

/-- A group without children does not count, and there is no other one inside of it. -/
theorem peak_tagged (hinner : Balanced inner) :
    peak (enclosed (.atom :: inner)) = if inner = [] then 0 else peak inner + 1 := by
  by_cases hempty : inner = []
  · subst hempty
    decide
  · have hlength : 1 < (Role.atom :: inner).length :=
      Nat.succ_lt_succ (List.length_pos_iff.mpr hempty)
    rw [if_neg hempty, peak_enclosed (balanced_tagged hinner) hlength, peak_atom]

theorem deepest_tagged (hinner : Balanced inner) :
    deepest (enclosed (.atom :: inner)) = deepest inner + 1 := by
  rw [deepest_enclosed (balanced_tagged hinner), deepest_atom]

theorem freeAtoms_tagged (hinner : Balanced inner) :
    freeAtoms (enclosed (.atom :: inner)) = freeAtoms inner := by
  have hsplit : enclosed (.atom :: inner) = [.opening, .atom] ++ (inner ++ [.closing]) := rfl
  have htag : freeAtoms [.opening, .atom] = 0 := by decide
  have hclosing : freeAtoms [.closing] = 0 := by decide
  rw [hsplit, freeAtoms_append (by decide), freeAtoms_append hinner.getLast?_ne, htag, hclosing,
    Nat.zero_add, Nat.add_zero]

end

end SexprCompiler.Parentheses
