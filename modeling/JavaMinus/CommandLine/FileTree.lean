import JavaMinus.CommandLine.Run

/-!
# Runs in a tree of files

A tree of files as a value, with the rules by which a path leads to a place in it, and runs whose
files are all in such a tree. A directory is there because something is in it. Each step of a path
is taken from a directory, and a bar at the end of a path asks for one.
-/

namespace JavaMinus.CommandLine

/-- Why a file cannot be read or written. -/
inductive FileError where
  | notFound
  | denied
  | notDirectory
  | isDirectory
  | nameTooLong
  /-- The path holds a character that no path can hold. -/
  | nullInPath
deriving DecidableEq, Inhabited

namespace FileError

/-- The number of an error, if the system gives it. -/
def number? : FileError → Option Nat
  | .notFound => some 2
  | .denied => some 13
  | .notDirectory => some 20
  | .isDirectory => some 21
  | .nameTooLong => some 36
  | .nullInPath => none

/-- The error of a number. -/
def ofNumber? (n : Nat) : Option FileError :=
  [notFound, denied, notDirectory, isDirectory, nameTooLong].find? fun e => e.number? == some n

def wording : FileError → String
  | .notFound => "No such file or directory"
  | .denied => "Permission denied"
  | .notDirectory => "Not a directory"
  | .isDirectory => "Is a directory"
  | .nameTooLong => "File name too long"
  | .nullInPath => "file name contained an unexpected NUL byte"

def message (e : FileError) : String :=
  match e.number? with
  | some n => s!"{e.wording} (os error {n})"
  | none => e.wording

end FileError

/-- A place in a tree: the names from the root to it. -/
abbrev Place : Type := List String

/-- A tree of files. Paths that do not start at the root start in the working directory. -/
structure FileTree where
  workingDirectory : Place := []
  files : List (Place × String) := []
deriving Inhabited

namespace FileTree

/-- The most bytes of a name and of a path. -/
def longestName : Nat := 255
def longestPath : Nat := 4095

/-- The steps of a path. -/
def steps (path : String) : List String :=
  let names := (path.splitOn "/").filter fun s => !s.isEmpty
  if path.endsWith "/" then names ++ ["."] else names

def text? (t : FileTree) (p : Place) : Option String :=
  (t.files.find? fun f => f.1 == p).map Prod.snd

/-- A place is a directory if the working directory or a file is in it. -/
def isDirectory (t : FileTree) (p : Place) : Bool :=
  p.isPrefixOf t.workingDirectory ||
    t.files.any fun f => p.isPrefixOf f.1 && p.length < f.1.length

/-- Take steps from a place. -/
def follow (t : FileTree) (p : Place) : List String → Except FileError Place
  | [] => .ok p
  | step :: rest =>
    if !t.isDirectory p then .error (if (t.text? p).isSome then .notDirectory else .notFound)
    else if step == "." then follow t p rest
    else if step == ".." then follow t p.dropLast rest
    else if longestName < step.utf8ByteSize then .error .nameTooLong
    else follow t (p ++ [step]) rest

/-- The place that a path leads to, whatever is there. -/
def place (t : FileTree) (path : String) : Except FileError Place :=
  if path.contains '\x00' then .error .nullInPath
  else if path.isEmpty then .error .notFound
  else if longestPath < path.utf8ByteSize then .error .nameTooLong
  else t.follow (if path.startsWith "/" then [] else t.workingDirectory) (steps path)

/-- The text of a file. -/
def read (t : FileTree) (path : String) : Except FileError String := do
  let p ← t.place path
  if t.isDirectory p then throw .isDirectory
  match t.text? p with
  | some text => return text
  | none => throw .notFound

/-- The tree after a file is written, in the place of a file that was there. -/
def write (t : FileTree) (path text : String) : Except FileError FileTree := do
  let p ← t.place path
  if t.isDirectory p then throw .isDirectory
  return { t with files := (t.files.filter fun f => f.1 != p) ++ [(p, text)] }

/-- Reading for runs. -/
def reader (t : FileTree) : Read Id := fun path =>
  match t.read path with
  | .ok text => .ok text
  | .error e => .error e.message

/-- The files of the working directory that another tree does not have, named from there. -/
def since (t old : FileTree) : List (String × String) :=
  t.files.filterMap fun (p, text) =>
    if t.workingDirectory.isPrefixOf p && (old.text? p).isNone then
      some ("/".intercalate (p.drop t.workingDirectory.length), text)
    else none

end FileTree

/-- A run in a tree: how it ends, and the tree that it leaves. -/
def runIn (t : FileTree) (arguments : List String) : Outcome × FileTree :=
  let o : Outcome := run t.reader arguments
  match o.file with
  | none => (o, t)
  | some (path, text) =>
    match t.write path text with
    | .ok t => (o, t)
    | .error e => (o.writeFailed path e.message, t)

end JavaMinus.CommandLine
