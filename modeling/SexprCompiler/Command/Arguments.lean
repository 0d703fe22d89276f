import SexprCompiler.Draft.Basic
import SexprCompiler.Listing

/-!
# Command-line arguments

The first operand names a command, and the arguments after it belong to that command: settings in
any order and at most one operand, the input path. A setting is written with its long name
(`--output PATH`, `--output=PATH`) or with its letter (`-o PATH`, `-oPATH`, `-o=PATH`), and
letters of settings without a value may share one argument. After `--` all arguments are operands.
Arguments are taken from left to right, and the first that asks for help or the version, or that
cannot be taken, decides.
-/
namespace SexprCompiler

inductive Command where
  | build (input output : Option String) (package : String)
  | list (stage : Listing.Stage) (input : Option String) (pretty : Bool)
deriving DecidableEq

namespace Command

inductive Setting where
  | verbose | help | version | output | package | pretty
deriving DecidableEq

namespace Setting

def long : Setting → String
  | verbose => "verbose"
  | help => "help"
  | version => "version"
  | output => "output"
  | package => "package"
  | pretty => "pretty"

def letter? : Setting → Option Char
  | verbose => some 'v'
  | help => some 'h'
  | version => some 'V'
  | output => some 'o'
  | package => some 'p'
  | pretty => none

def takesValue : Setting → Bool
  | output | package => true
  | _ => false

end Setting

inductive UsageError where
  | missingCommand
  | unknownCommand (text : String)
  | unknownSetting (text : String)
  | missingValue (setting : Setting)
  | unexpectedValue (setting : Setting)
  | repeated (setting : Setting)
  | emptyPath
  | unexpectedOperand (text : String)
deriving DecidableEq

def UsageError.message : UsageError → String
  | missingCommand => "a command is required"
  | unknownCommand text => "unknown command '" ++ text ++ "'"
  | unknownSetting text => "unknown option '" ++ text ++ "'"
  | missingValue setting => "option '--" ++ setting.long ++ "' needs a value"
  | unexpectedValue setting => "option '--" ++ setting.long ++ "' takes no value"
  | repeated setting => "option '--" ++ setting.long ++ "' is given twice"
  | emptyPath => "a path is empty"
  | unexpectedOperand text => "unexpected argument '" ++ text ++ "'"

/-- What the arguments ask for instead of a command. -/
inductive Stop where
  | help | version
  | misuse (error : UsageError)
deriving DecidableEq

inductive Argument where
  | operand (text : String)
  | endOfSettings
  | long (name : List Char) (value : Option (List Char))
  | letters (cs : List Char)

def splitAtEquals : List Char → List Char × Option (List Char)
  | [] => ([], none)
  | '=' :: cs => ([], some cs)
  | c :: cs => (c :: (splitAtEquals cs).1, (splitAtEquals cs).2)

def Argument.ofText (text : String) : Argument :=
  match text.toList with
  | ['-', '-'] => .endOfSettings
  | '-' :: '-' :: cs => .long (splitAtEquals cs).1 (splitAtEquals cs).2
  | '-' :: c :: cs => .letters (c :: cs)
  | _ => .operand text

/-- What the arguments taken so far give. -/
structure Given where
  settings : List (Setting × String)
  input : Option String

namespace Given

def empty : Given := ⟨[], none⟩

def has (given : Given) (setting : Setting) : Bool := given.settings.any (·.1 == setting)

def value? (given : Given) (setting : Setting) : Option String := given.settings.lookup setting

/-- Makes a setting, with an empty value if it takes none. -/
def make (given : Given) (setting : Setting) (value : String) : Except Stop Given :=
  if setting = .help then .error .help
  else if setting = .version then .error .version
  else if given.has setting then .error (.misuse (.repeated setting))
  else if setting = .output ∧ value = "" then .error (.misuse .emptyPath)
  else .ok { given with settings := given.settings ++ [(setting, value)] }

def takeOperand (given : Given) (text : String) : Except Stop Given :=
  match given.input with
  | some _ => .error (.misuse (.unexpectedOperand text))
  | none => if text = "" then .error (.misuse .emptyPath) else .ok { given with input := some text }

/-- Takes the letters of one argument. The second part of the answer is the setting that still
needs a value, if any. -/
def takeLetters (allowed : List Setting) (given : Given) :
    List Char → Except Stop (Given × Option Setting)
  | [] => .ok (given, none)
  | c :: cs =>
    match allowed.find? fun setting => setting.letter? == some c with
    | none => .error (.misuse (.unknownSetting (String.ofList ['-', c])))
    | some setting =>
      if setting.takesValue then
        match cs with
        | [] => .ok (given, some setting)
        | '=' :: value => (·, none) <$> given.make setting (String.ofList value)
        | value => (·, none) <$> given.make setting (String.ofList value)
      else do takeLetters allowed (← given.make setting "") cs

def takeLong (allowed : List Setting) (given : Given) (name : List Char)
    (value : Option (List Char)) : Except Stop (Given × Option Setting) :=
  match allowed.find? fun setting => setting.long == String.ofList name with
  | none => .error (.misuse (.unknownSetting (String.ofList ('-' :: '-' :: name))))
  | some setting =>
    match setting.takesValue, value with
    | true, none => .ok (given, some setting)
    | true, some value => (·, none) <$> given.make setting (String.ofList value)
    | false, none => (·, none) <$> given.make setting ""
    | false, some _ => .error (.misuse (.unexpectedValue setting))

/-- Takes one argument. The second part of the answer is the setting that still needs a value, if
any. -/
def take (allowed : List Setting) (given : Given) :
    Argument → Except Stop (Given × Option Setting)
  | .operand text => (·, none) <$> given.takeOperand text
  | .long name value => given.takeLong allowed name value
  | .letters cs => given.takeLetters allowed cs
  | .endOfSettings => .ok (given, none)

/-- Takes the argument after a setting that needs a value. It must not look like a setting. -/
def takeValue (given : Given) (setting : Setting) (text : String) : Except Stop Given :=
  match Argument.ofText text with
  | .operand value => given.make setting value
  | _ => .error (.misuse (.missingValue setting))

/-- Takes arguments that are operands, whatever they look like. -/
def takeOperands (given : Given) : List String → Except Stop Given
  | [] => .ok given
  | text :: rest => do takeOperands (← given.takeOperand text) rest

/-- Takes the arguments of a command, the first of which is the value of the waiting setting. -/
def takeAll (allowed : List Setting) (given : Given) (waiting : Option Setting) :
    List String → Except Stop Given
  | [] =>
    match waiting with
    | some setting => .error (.misuse (.missingValue setting))
    | none => .ok given
  | text :: rest =>
    match waiting with
    | some setting => do takeAll allowed (← given.takeValue setting text) none rest
    | none =>
      match Argument.ofText text with
      | .endOfSettings => given.takeOperands rest
      | argument => do
        let (given, waiting) ← given.take allowed argument
        takeAll allowed given waiting rest

end Given

inductive Verb where
  | build
  | list (stage : Listing.Stage)
deriving DecidableEq

namespace Verb

def ofName? (name : String) : Option Verb :=
  if name = "build" then some build
  else if name = "tokens" then some (list .tokens)
  else if name = "tree" then some (list .tree)
  else none

def settings : Verb → List Setting
  | build => [.verbose, .help, .output, .package]
  | list _ => [.verbose, .help, .pretty]

def command : Verb → Given → Command
  | build, given =>
    .build given.input (given.value? .output)
      ((given.value? .package).getD Draft.defaultPackage)
  | list stage, given => .list stage given.input (given.has .pretty)

end Verb

/-- The help that is asked for by name, on the whole or on one command. -/
def helpOn : List String → Stop
  | [] => .help
  | [name] =>
    if name = "help" ∨ (Verb.ofName? name).isSome then .help
    else .misuse (.unknownCommand name)
  | _ :: name :: _ => .misuse (.unknownCommand name)

def generalSettings : List Setting := [.verbose, .help, .version]

/-- Takes arguments up to the name of the command, and then those of the command. -/
def ofArgumentsAfter (given : Given) : List String → Except Stop Command
  | [] => .error (.misuse .missingCommand)
  | text :: rest =>
    match Argument.ofText text with
    | .endOfSettings => .error (.misuse .missingCommand)
    | .operand name =>
      match Verb.ofName? name with
      | some verb => verb.command <$> Given.empty.takeAll verb.settings none rest
      | none => .error (if name = "help" then helpOn rest else .misuse (.unknownCommand name))
    | argument => do
      let (given, _) ← given.take generalSettings argument
      ofArgumentsAfter given rest

def ofArguments (arguments : List String) : Except Stop Command :=
  ofArgumentsAfter Given.empty arguments

end Command

end SexprCompiler
