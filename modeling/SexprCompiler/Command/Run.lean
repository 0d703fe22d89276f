import SexprCompiler.Command.Arguments
import SexprCompiler.Compile
import SexprCompiler.Files

/-!
# Running a command

A command reads one source text, from a file or from the standard input, makes one text of it,
and prints that or writes it to a file. A run reaches its machine only through a `Platform`, which
is the machine itself or a description of one as data (`World`).
The exit code is 0 on success, 1 on a failure and 2 on misuse.
-/
namespace SexprCompiler

inductive RunError where
  | compile (error : CompileError)
  | read (path : String) (error : FileError)
  | write (path : String) (error : FileError)
  | input (error : FileError)
deriving DecidableEq

def RunError.message : RunError → String
  | compile error => error.message
  | read path error => "cannot read '" ++ path ++ "': " ++ error.message
  | write path error => "cannot write '" ++ path ++ "': " ++ error.message
  | input error => "IO error: " ++ error.message

/-- What a program can do on a machine. Texts are read and written whole, and an access that
fails changes nothing and says why. -/
class Platform (m : Type → Type) where
  /-- Whether the standard input is a terminal. -/
  isTerminal : m Bool
  readInput : ExceptT RunError m String
  readFile (path : String) : ExceptT RunError m String
  writeFile (path content : String) : ExceptT RunError m Unit
  print (text : String) : m Unit
  /-- Prints a text on the standard error. -/
  report (text : String) : m Unit

namespace Command

def input : Command → Option String
  | build input _ _ => input
  | list _ input _ => input

/-- The file that takes the result, which is printed when there is none. -/
def output : Command → Option String
  | build _ output _ => output
  | list _ _ _ => none

/-- The result of a command on a source text. A listing ends its last line. -/
def result (command : Command) (source : String) : Except CompileError String :=
  match command with
  | build _ _ package => compile package source
  | list stage _ pretty => (· ++ "\n") <$> Listing.text stage pretty source

/-- The input file of a command that is given none and has only a terminal. -/
def defaultInput : String := "expr.s"

def versionText : String := "rugo 0.2.0\n"

def helpText : String :=
  "Commands:\n"
    ++ "  build [INPUT] [-o PATH] [-p NAME]\n"
    ++ "  tokens [INPUT] [--pretty]\n"
    ++ "  tree [INPUT] [--pretty]\n"

section Program

variable {m : Type → Type} [Monad m] [Platform m]

def load : Option String → ExceptT RunError m String
  | some path => Platform.readFile path
  | none => do
    if ← (Platform.isTerminal : m Bool) then Platform.readFile defaultInput
    else Platform.readInput

def deliver (text : String) : Option String → ExceptT RunError m Unit
  | some path => Platform.writeFile path text
  | none => (Platform.print text : m Unit)

def run (command : Command) : ExceptT RunError m Unit := do
  match command.result (← load command.input) with
  | .error error => throw (.compile error)
  | .ok text => deliver text command.output

def finish (command : Command) : m Nat := do
  match ← (run command).run with
  | .ok () => return 0
  | .error error =>
    Platform.report (error.message ++ "\n")
    return 1

def start (arguments : List String) : m Nat := do
  match ofArguments arguments with
  | .error .help =>
    Platform.print helpText
    return 0
  | .error .version =>
    Platform.print versionText
    return 0
  | .error (.misuse error) =>
    Platform.report ("error: " ++ error.message ++ "\n")
    return 2
  | .ok command => command.finish

end Program

end Command

/-! ## A machine as data -/

/-- What a command finds: the bytes on its standard input, unless that is a terminal, and the
files around it. -/
structure Host where
  input : Option ByteArray
  files : Files

namespace Host

def readInput (host : Host) : Except RunError String :=
  match decodeUtf8 (host.input.getD .empty) with
  | .ok text => .ok text
  | .error error => .error (.input error)

def read (host : Host) (path : String) : Except RunError String :=
  match host.files.read path with
  | .ok text => .ok text
  | .error error => .error (.read path error)

def write (host : Host) (path content : String) : Except RunError Files :=
  match host.files.write path content with
  | .ok files => .ok files
  | .error error => .error (.write path error)

end Host

inductive Access where
  | input
  | read (path : String)
  | write (path : String)

def Access.failure : Access → FileError → RunError
  | input => .input
  | read path => .read path
  | write path => .write path

/-- A machine in the course of a run: what is found on it, the accesses that it refuses for
reasons that the files do not show, and what has been printed. -/
structure World extends Host where
  refusal : Access → Option FileError
  stdout : String
  stderr : String

namespace World

def fresh (host : Host) : World :=
  { host with refusal := fun _ => none, stdout := "", stderr := "" }

/-- The outcome of an access, unless it is refused. -/
def attempt {α : Type} (world : World) (access : Access) (outcome : Except RunError α) :
    Except RunError α :=
  match world.refusal access with
  | some error => .error (access.failure error)
  | none => outcome

def writeFile (world : World) (path content : String) : Except RunError Unit × World :=
  match world.attempt (.write path) (world.write path content) with
  | .ok files => (.ok (), { world with files })
  | .error error => (.error error, world)

instance : Platform (StateM World) where
  isTerminal world := (world.input.isNone, world)
  readInput world := (world.attempt .input world.readInput, world)
  readFile path world := (world.attempt (.read path) (world.read path), world)
  writeFile path content world := world.writeFile path content
  print text world := ((), { world with stdout := world.stdout ++ text })
  report text world := ((), { world with stderr := world.stderr ++ text })

end World

namespace Command

structure Outcome where
  code : Nat
  stdout : String
  stderr : String
  files : Files

def execute (arguments : List String) (host : Host) : Outcome :=
  let (code, world) := (start arguments : StateM World Nat).run (.fresh host)
  ⟨code, world.stdout, world.stderr, world.files⟩

end Command

end SexprCompiler
