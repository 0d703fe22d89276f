import SexprCompiler.Proofs.Outcome
import SexprCompiler.Proofs.RoundTrip

/-!
# Reading without lines

What the reader does with a token depends on its text and its role only. The line is handed on, to
trees and to errors. So reading can be done on tokens without their lines, and gives the same tree
or error as before, without its lines. This is shown for one step and then for a whole run.
-/
namespace SexprCompiler

namespace Token

/-- What is left of a token without its line: its text and its role. -/
structure Face where
  lexeme : String
  role : Role
deriving DecidableEq

def face (token : Token) : Face := ⟨token.lexeme, token.role⟩

/-- A token of a role. -/
def Face.token : Face → Token
  | ⟨lexeme, .opening⟩ => ⟨.leftParen, lexeme, 0⟩
  | ⟨lexeme, .closing⟩ => ⟨.rightParen, lexeme, 0⟩
  | ⟨lexeme, .ending⟩ => ⟨.eof, lexeme, 0⟩
  | ⟨lexeme, .atom⟩ => ⟨.name, lexeme, 0⟩

@[simp] theorem Face.face_token (face : Face) : face.token.face = face := by
  obtain ⟨lexeme, role⟩ := face
  cases role <;> rfl

/-- The token without its line. -/
def eraseLine (token : Token) : Token := token.face.token

@[simp] theorem face_eraseLine (token : Token) : token.eraseLine.face = token.face :=
  Face.face_token token.face

@[simp] theorem role_eraseLine (token : Token) : token.eraseLine.role = token.role :=
  congrArg Face.role (face_eraseLine token)

@[simp] theorem lexeme_eraseLine (token : Token) : token.eraseLine.lexeme = token.lexeme :=
  congrArg Face.lexeme (face_eraseLine token)

@[simp] theorem line_eraseLine (token : Token) : token.eraseLine.line = 0 := by
  unfold eraseLine Face.token
  split <;> rfl

theorem map_eraseLine_eq {tokens others : List Token} (h : tokens.map face = others.map face) :
    tokens.map eraseLine = others.map eraseLine := by
  have hmap := congrArg (List.map Face.token) h
  rwa [List.map_map, List.map_map] at hmap

end Token

/-- The error without its line. -/
def ReadError.eraseLine : ReadError → ReadError
  | .unexpectedEnd => .unexpectedEnd
  | .unexpectedClosing _ => .unexpectedClosing 0
  | .unclosedGroup _ => .unclosedGroup 0
  | .emptyGroup _ => .emptyGroup 0
  | .invalidTag lexeme _ => .invalidTag lexeme 0
  | .tooDeep _ => .tooDeep 0

namespace Sexpr

theorem eraseLines_eq (tag : String) (line : Nat) (children : List Sexpr) :
    eraseLines ⟨tag, line, children⟩ = ⟨tag, 0, children.map eraseLines⟩ := by
  rw [eraseLines, eraseAll_eq_map]

@[simp] theorem eraseLines_leaf (tag : String) (line : Nat) :
    (leaf tag line).eraseLines = leaf tag 0 := by
  simp [leaf, eraseLines_eq]

/-- The result of reading without its lines. -/
def eraseResult : Except ReadError Sexpr → Except ReadError Sexpr :=
  Outcome.both ReadError.eraseLine eraseLines

def OpenGroup.eraseLines (group : OpenGroup) : OpenGroup :=
  ⟨0, group.tag.eraseLine, group.children.map Sexpr.eraseLines⟩

def Nesting.eraseLines (nesting : Nesting) : Nesting :=
  ⟨nesting.pending.map fun _ => 0, nesting.groups.map OpenGroup.eraseLines⟩

def Progress.eraseLines : Progress → Progress
  | .more nesting => .more nesting.eraseLines
  | .done tree => .done tree.eraseLines
  | .fault error taken => .fault error.eraseLine taken

theorem OpenGroup.close_eraseLines (group : OpenGroup) :
    group.eraseLines.close = group.close.eraseLines := by
  simp [OpenGroup.close, OpenGroup.eraseLines, eraseLines_eq]

theorem Nesting.endError_eraseLines (nesting : Nesting) :
    nesting.eraseLines.endError = nesting.endError.eraseLine := by
  obtain ⟨_ | line, _ | ⟨group, outer⟩⟩ := nesting <;> rfl

theorem settle_eraseLines (tree : Sexpr) (groups : List OpenGroup) :
    settle tree.eraseLines (groups.map OpenGroup.eraseLines) = (settle tree groups).eraseLines := by
  cases groups with
  | nil => rfl
  | cons group outer => rfl

theorem stepTag_eraseLines (line : Nat) (groups : List OpenGroup) (token : Token) :
    stepTag 0 (groups.map OpenGroup.eraseLines) token.eraseLine =
      (stepTag line groups token).eraseLines := by
  simp only [stepTag, Token.role_eraseLine, Token.lexeme_eraseLine, Token.line_eraseLine]
  cases token.role <;> rfl

theorem stepTree_eraseLines (groups : List OpenGroup) (token : Token) :
    stepTree (groups.map OpenGroup.eraseLines) token.eraseLine =
      (stepTree groups token).eraseLines := by
  simp only [stepTree, Token.role_eraseLine, Token.lexeme_eraseLine, Token.line_eraseLine,
    List.length_map]
  cases token.role with
  | opening =>
    by_cases hdepth : groups.length = maxDepth
    · simp only [hdepth, if_true]
      rfl
    · simp only [hdepth, if_false]
      rfl
  | closing =>
    cases groups with
    | nil => rfl
    | cons group outer =>
      simp only [List.map_cons, OpenGroup.close_eraseLines]
      exact settle_eraseLines group.close outer
  | ending => exact congrArg (Progress.fault · false) (Nesting.endError_eraseLines ⟨none, groups⟩)
  | atom =>
    have hleaf := settle_eraseLines (leaf token.lexeme token.line) groups
    rwa [eraseLines_leaf] at hleaf

/-- A step without lines is the step with its lines left out. -/
theorem step_eraseLines (nesting : Nesting) (token : Token) :
    step nesting.eraseLines token.eraseLine = (step nesting token).eraseLines := by
  obtain ⟨_ | line, groups⟩ := nesting
  · exact stepTree_eraseLines groups token
  · exact stepTag_eraseLines line groups token

/-- Reading without lines gives the tree or the error without its lines. -/
theorem readFrom_eraseLines (nesting : Nesting) (tokens : List Token) :
    readFrom nesting.eraseLines (tokens.map Token.eraseLine) =
      (eraseResult (readFrom nesting tokens).1,
        (readFrom nesting tokens).2.map Token.eraseLine) := by
  induction tokens generalizing nesting with
  | nil => exact congrArg (fun error => (Except.error error, [])) nesting.endError_eraseLines
  | cons token tokens ih =>
    rw [List.map_cons, readFrom, readFrom, step_eraseLines]
    cases step nesting token with
    | more next => exact ih next
    | done tree => rfl
    | fault error taken => cases taken <;> rfl

/-- Two texts with the same tokens but for lines give the same tree but for lines, or the same
error. -/
theorem eraseResult_ofSource {source other : String}
    (h : (Token.scan source).map Token.face = (Token.scan other).map Token.face) :
    eraseResult (ofSource source) = eraseResult (ofSource other) := by
  have hread (tokens : List Token) : eraseResult (read tokens).1 =
      (read (tokens.map Token.eraseLine)).1 :=
    (congrArg Prod.fst (readFrom_eraseLines Nesting.outside tokens)).symm
  rw [ofSource, ofSource, Token.withEnd_scan, Token.withEnd_scan, hread, hread,
    Token.map_eraseLine_eq h]

end Sexpr

end SexprCompiler
