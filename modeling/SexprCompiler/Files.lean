/-!
# Files below a working directory

A tree of directories and files with whole-file reading and writing. A path is followed from the
working directory one step at a time, and every step but the last must lead into a directory.
What lies outside the working directory is not described: nothing is found there.
Writing creates a file or replaces it, and changes nothing when it fails.
-/
namespace SexprCompiler

inductive FileError where
  | notFound | notDirectory | isDirectory | notUtf8
  | other (text : String)
deriving DecidableEq

def FileError.message : FileError → String
  | notFound => "No such file or directory (os error 2)"
  | notDirectory => "Not a directory (os error 20)"
  | isDirectory => "Is a directory (os error 21)"
  | notUtf8 => "stream did not contain valid UTF-8"
  | other text => text

def decodeUtf8 (bytes : ByteArray) : Except FileError String :=
  match String.fromUTF8? bytes with
  | some text => .ok text
  | none => .error .notUtf8

inductive Path.Step where
  | here | up
  | name (text : String)
deriving DecidableEq

/-- A path from the working directory or, when absolute, from outside it. A slash at the end asks
for a directory. -/
structure Path where
  absolute : Bool
  steps : List Path.Step
  slash : Bool
deriving DecidableEq

namespace Path

def parts : List Char → List (List Char)
  | [] => [[]]
  | '/' :: cs => [] :: parts cs
  | c :: cs =>
    match parts cs with
    | [] => [[c]]
    | part :: rest => (c :: part) :: rest

def stepOf? (part : List Char) : Option Step :=
  match part with
  | [] => none
  | ['.'] => some .here
  | ['.', '.'] => some .up
  | part => some (.name (String.ofList part))

def ofString (text : String) : Path :=
  let cs := text.toList
  { absolute := cs.head? == some '/'
    steps := (parts cs).filterMap stepOf?
    slash := cs.getLast? == some '/' }

/-- The place that a path names when all its steps lead into directories. -/
def place (path : Path) : List String :=
  path.steps.foldl (fun names step =>
    match step with
    | .here => names
    | .up => names.dropLast
    | .name name => names ++ [name]) []

end Path

/-- The directories and the files below a working directory, by the names that lead to them. -/
structure Files where
  directories : List (List String)
  contents : List (List String × ByteArray)

namespace Files

def empty : Files := ⟨[], []⟩

def get? (files : Files) (place : List String) : Option ByteArray := files.contents.lookup place

def set (files : Files) (place : List String) (bytes : ByteArray) : Files :=
  { files with
    contents := (place, bytes) :: files.contents.filter fun entry => entry.1 != place }

inductive Entry where
  | directory
  | file (bytes : ByteArray)

def entry? (files : Files) (place : List String) : Option Entry :=
  match files.get? place with
  | some bytes => some (.file bytes)
  | none => if place ∈ files.directories then some .directory else none

/-- Where a path leads: to a directory, a file, or a place in a directory that is free. -/
inductive Location where
  | directory
  | file (place : List String) (bytes : ByteArray)
  | free (place : List String)

/-- The directory above a directory. There is none described above the working directory. -/
def parent : Option (List String) → Option (List String)
  | some (name :: names) => some (name :: names).dropLast
  | _ => none

/-- Follows steps from a directory, which is `none` outside the working directory. -/
def follow (files : Files) (directory : Option (List String)) :
    List Path.Step → Except FileError Location
  | [] => .ok .directory
  | .here :: steps => follow files directory steps
  | .up :: steps => follow files (parent directory) steps
  | .name name :: steps =>
    match directory with
    | none => .error .notFound
    | some names =>
      let place := names ++ [name]
      match files.entry? place, steps with
      | some .directory, _ => follow files (some place) steps
      | some (.file bytes), [] => .ok (.file place bytes)
      | some (.file _), _ :: _ => .error .notDirectory
      | none, [] => .ok (.free place)
      | none, _ :: _ => .error .notFound

/-- Where a path leads. The empty path leads nowhere. -/
def locate (files : Files) (path : Path) : Except FileError Location :=
  if path.absolute then follow files none path.steps
  else if path.steps.isEmpty then .error .notFound
  else follow files (some []) path.steps

def read (files : Files) (text : String) : Except FileError String :=
  let path := Path.ofString text
  match files.locate path with
  | .error error => .error error
  | .ok .directory => .error .isDirectory
  | .ok (.free _) => .error .notFound
  | .ok (.file _ bytes) => if path.slash then .error .notDirectory else decodeUtf8 bytes

def write (files : Files) (text content : String) : Except FileError Files :=
  let path := Path.ofString text
  match files.locate path with
  | .error error => .error error
  | .ok .directory => .error .isDirectory
  | .ok (.free place) | .ok (.file place _) =>
    if path.slash then .error .isDirectory else .ok (files.set place content.toUTF8)

def addDirectory (files : Files) (place : List String) : Files :=
  let above := (List.range place.length).map fun length => place.take (length + 1)
  { files with directories := above ++ files.directories }

def addFile (files : Files) (place : List String) (bytes : ByteArray) : Files :=
  (files.addDirectory place.dropLast).set place bytes

theorem get?_set (files : Files) (place other : List String) (bytes : ByteArray) :
    (files.set place bytes).get? other =
      if other = place then some bytes else files.get? other := by
  unfold get? set
  by_cases h : other = place
  · subst h
    simp
  · simp only [List.lookup_cons, beq_eq_false_iff_ne.mpr h, if_neg h]
    induction files.contents with
    | nil => rfl
    | cons entry entries ih =>
      obtain ⟨key, value⟩ := entry
      by_cases hk : key = place
      · subst hk
        simp [List.lookup_cons, beq_eq_false_iff_ne.mpr h, ih]
      · simp [List.lookup_cons, hk, ih]

end Files

end SexprCompiler
