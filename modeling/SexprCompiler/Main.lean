import SexprCompiler.Command.Run

/-!
# The program on the machine

The thin layer between the program and the machine that it runs on.
-/
namespace SexprCompiler

def FileError.ofMachine : IO.Error → FileError
  | .noFileOrDirectory _ _ _ => .notFound
  | .inappropriateType _ code details =>
    if code = 20 then .notDirectory else if code = 21 then .isDirectory else .other details
  | error => .other (toString error)

/-- An access to the machine, of which a failure gives the cause. -/
def Access.perform {α : Type} (access : Access) (action : IO α) : ExceptT RunError IO α := do
  match ← action.toBaseIO with
  | .ok value => return value
  | .error error => throw (access.failure (.ofMachine error))

def Access.performRead (access : Access) (action : IO ByteArray) : ExceptT RunError IO String := do
  match decodeUtf8 (← access.perform action) with
  | .ok text => return text
  | .error error => throw (access.failure error)

instance : Platform IO where
  isTerminal := do (← IO.getStdin).isTty
  readInput := Access.input.performRead do (← IO.getStdin).readBinToEnd
  readFile path := (Access.read path).performRead (IO.FS.readBinFile path)
  writeFile path content := (Access.write path).perform (IO.FS.writeFile path content)
  print text := IO.print text
  report text := IO.eprint text

end SexprCompiler

def main (arguments : List String) : IO UInt32 :=
  Nat.toUInt32 <$> SexprCompiler.Command.start arguments
