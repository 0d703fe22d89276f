import SexprCompiler.Compile
import SexprCompiler.Json

/-!
# Listings of tokens and trees

What is known of a source text before it gets a meaning, as JSON text: all its tokens, or its
first tree. The fields of an object stand in alphabetical order.
-/
namespace SexprCompiler

def Token.toJson (token : Token) : Json :=
  .object [("kind", .string token.kind.label), ("lexeme", .string token.lexeme),
    ("line", .number token.line)]

mutual

def Sexpr.toJson : Sexpr → Json
  | ⟨tag, line, children⟩ =>
    .object [("children", .array (Sexpr.listToJson children)), ("line", .number line),
      ("tag", .string tag)]

def Sexpr.listToJson : List Sexpr → List Json
  | [] => []
  | tree :: trees => tree.toJson :: Sexpr.listToJson trees

end

namespace Listing

/-- What is listed. -/
inductive Stage where
  | tokens | tree
deriving DecidableEq

def json (stage : Stage) (source : String) : Except CompileError Json :=
  match stage with
  | .tokens => .ok (.array ((Token.scan source).map Token.toJson))
  | .tree =>
    match Sexpr.ofSource source with
    | .ok tree => .ok tree.toJson
    | .error error => .error (.read error)

/-- The text of a listing, pretty or compact. -/
def text (stage : Stage) (pretty : Bool) (source : String) : Except CompileError String :=
  (fun json => if pretty then json.pretty else json.compact) <$> json stage source

end Listing

end SexprCompiler
