import SexprCompiler.Draft.Emit
import SexprCompiler.Sexpr.Read
import SexprCompiler.Token.Scan

/-!
# From source text to target text

The first tree of a source text is read, understood as a term, and emitted into an empty draft.
What follows that tree is not looked at.
-/
namespace SexprCompiler

inductive BuildError where
  | shape (error : ShapeError)
  | type (error : TypeError)
deriving DecidableEq

def BuildError.message : BuildError → String
  | shape error => error.message
  | type error => error.message

inductive CompileError where
  | read (error : ReadError)
  | build (error : BuildError)
deriving DecidableEq

def CompileError.message : CompileError → String
  | read error => "parse error: " ++ error.message
  | build error => "transpile error: " ++ error.message

namespace Sexpr

def ofSource (source : String) : Except ReadError Sexpr :=
  (read (Token.withEnd (Token.scan source))).1

end Sexpr

namespace Draft

/-- Adds a tree. Imports and locals that were registered before a fault stay in the draft. -/
def addTree (draft : Draft) (tree : Sexpr) : Except BuildError Unit × Draft :=
  match Term.ofSexpr tree with
  | .error error => (.error (.shape error), draft)
  | .ok term =>
    match draft.add term with
    | (.ok (), draft) => (.ok (), draft)
    | (.error error, draft) => (.error (.type error), draft)

/-- The draft with a tree added, for trees that can be added without a fault. -/
def extend (draft : Draft) (tree : Sexpr) : Except BuildError Draft :=
  match draft.addTree tree with
  | (.ok (), draft) => .ok draft
  | (.error error, _) => .error error

def ofSource (package source : String) : Except CompileError Draft :=
  match Sexpr.ofSource source with
  | .error error => .error (.read error)
  | .ok tree =>
    match (empty package).extend tree with
    | .error error => .error (.build error)
    | .ok draft => .ok draft

end Draft

def compile (package source : String) : Except CompileError String :=
  Draft.text <$> Draft.ofSource package source

end SexprCompiler
