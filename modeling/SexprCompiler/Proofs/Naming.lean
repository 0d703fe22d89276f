import SexprCompiler.Compile
import SexprCompiler.Proofs.Lowering

/-!
# Names that fall together

A local keeps the name it is written with, unless that is a reserved word, which gets a low line at
its end. The result may be the name of another local that is written with the low line. These are
the only names that fall together, and the two locals are then one variable of the program.
-/
namespace SexprCompiler

namespace Name

/-- One name is a reserved word and the other is what it turns into. -/
def Clash (word other : String) : Prop := word ∈ reserved ∧ other = word ++ "_"

theorem marked_not_reserved : ∀ word ∈ reserved, word ++ "_" ∉ reserved := by decide

theorem escape_of_mem {word : String} (h : word ∈ reserved) : escape word = word ++ "_" :=
  if_pos h

theorem escape_of_not_mem {word : String} (h : word ∉ reserved) : escape word = word :=
  if_neg h

theorem Clash.escape_eq {word other : String} (h : Clash word other) :
    escape word = escape other := by
  obtain ⟨hword, rfl⟩ := h
  rw [escape_of_mem hword, escape_of_not_mem (marked_not_reserved word hword)]

/-- Different names fall together exactly when they clash. -/
theorem escape_eq_iff {word other : String} :
    escape word = escape other ↔ word = other ∨ Clash word other ∨ Clash other word := by
  constructor
  · intro h
    by_cases hword : word ∈ reserved
    · by_cases hother : other ∈ reserved
      · rw [escape_of_mem hword, escape_of_mem hother] at h
        exact .inl ((String.append_left_inj "_").mp h)
      · rw [escape_of_mem hword, escape_of_not_mem hother] at h
        exact .inr (.inl ⟨hword, h.symm⟩)
    · by_cases hother : other ∈ reserved
      · rw [escape_of_not_mem hword, escape_of_mem hother] at h
        exact .inr (.inr ⟨hother, h⟩)
      · rw [escape_of_not_mem hword, escape_of_not_mem hother] at h
        exact .inl h
  · rintro (rfl | h | h)
    · rfl
    · exact h.escape_eq
    · exact h.escape_eq.symm

end Name

namespace Term

/-- The name that a tree is written with, without the marks of the source notation. -/
def writtenName? (tree : Sexpr) : Option String :=
  match tree.children with
  | [] => some (String.ofList (Name.bare tree.tag.toList))
  | [child] => if child.isLeaf then some (String.ofList (Name.bare child.tag.toList)) else none
  | _ => none

theorem nameOfText_eq_ok {text name : String} (h : nameOfText text = .ok name) :
    name = Name.escape (String.ofList (Name.bare text.toList)) := by
  unfold nameOfText Name.ofText? at h
  dsimp only at h
  split at h
  · rename_i found hfound
    cases h
    split at hfound
    · exact (Option.some.inj hfound).symm
    · cases hfound
  · cases h

theorem exists_writtenName? {tree : Sexpr} {name : String} (h : nameOf tree = .ok name) :
    ∃ word, writtenName? tree = some word ∧ name = Name.escape word := by
  obtain ⟨tag, line, _ | ⟨child, _ | ⟨next, others⟩⟩⟩ := tree
  · exact ⟨_, rfl, nameOfText_eq_ok h⟩
  · by_cases hleaf : child.isLeaf = true
    · simp only [nameOf, writtenName?, hleaf, if_true] at h ⊢
      exact ⟨_, rfl, nameOfText_eq_ok h⟩
    · simp [nameOf, hleaf] at h
  · cases h

end Term

open Term (nameOf writtenName?)

/-- Two trees that name locals name the same one exactly when they are written with the same name,
or one of them with a reserved word and the other with this word and a low line at its end. -/
theorem same_local_iff_written_names_clash {tree other : Sexpr} {name name' : String}
    (hname : nameOf tree = .ok name) (hother : nameOf other = .ok name') :
    name = name' ↔
      writtenName? tree = writtenName? other ∨
        ∃ word ∈ Name.reserved,
          (writtenName? tree = some word ∧ writtenName? other = some (word ++ "_")) ∨
            (writtenName? other = some word ∧ writtenName? tree = some (word ++ "_")) := by
  obtain ⟨word, hword, rfl⟩ := Term.exists_writtenName? hname
  obtain ⟨word', hword', rfl⟩ := Term.exists_writtenName? hother
  rw [hword, hword', Name.escape_eq_iff]
  simp only [Name.Clash, Option.some.injEq]
  constructor
  · rintro (rfl | ⟨hreserved, rfl⟩ | ⟨hreserved, rfl⟩)
    · exact .inl rfl
    · exact .inr ⟨word, hreserved, .inl ⟨rfl, rfl⟩⟩
    · exact .inr ⟨word', hreserved, .inr ⟨rfl, rfl⟩⟩
  · rintro (rfl | ⟨found, hreserved, ⟨rfl, rfl⟩ | ⟨rfl, rfl⟩⟩)
    · exact .inl rfl
    · exact .inr (.inl ⟨hreserved, rfl⟩)
    · exact .inr (.inr ⟨hreserved, rfl⟩)

theorem keyword_and_quoted_name_clash :
    nameOf (.leaf ":func" 1) = .ok "func_" ∧
      nameOf ⟨":target", 2, [.leaf "\"func_\"" 2]⟩ = .ok "func_" ∧
      ∃ word ∈ Name.reserved,
        (writtenName? (.leaf ":func" 1) = some word ∧
            writtenName? ⟨":target", 2, [.leaf "\"func_\"" 2]⟩ = some (word ++ "_")) ∨
          (writtenName? ⟨":target", 2, [.leaf "\"func_\"" 2]⟩ = some word ∧
            writtenName? (.leaf ":func" 1) = some (word ++ "_")) := by
  have hname : nameOf (.leaf ":func" 1) = .ok "func_" := rfl
  have hother : nameOf ⟨":target", 2, [.leaf "\"func_\"" 2]⟩ = .ok "func_" := rfl
  have hclash := (same_local_iff_written_names_clash hname hother).mp rfl
  exact ⟨hname, hother, hclash.resolve_left (by decide)⟩

def clashingSource : String :=
  "(:begin (:lvasgn :func (:int 1)) (:lvasgn :func_ (:int 2)) (:send nil :puts (:lvar :func)))"

/-- The two locals become one variable, so that the second assignment changes what is printed. -/
theorem different_locals_become_one_variable :
    writtenName? (.leaf ":func" 1) = some "func" ∧ nameOf (.leaf ":func" 1) = .ok "func_" ∧
      writtenName? (.leaf ":func_" 1) = some "func_" ∧ nameOf (.leaf ":func_" 1) = .ok "func_" ∧
      (compile "main" clashingSource).toOption =
        some ("package main\n\nimport \"fmt\"\n\nfunc main() \x7b\n" ++
          "\tfunc_ := 1\n\tfunc_ = 2\n\tfmt.Println(func_)\n\x7d\n") :=
  ⟨rfl, rfl, rfl, rfl, by decide +kernel⟩

end SexprCompiler
