import MiniJava.Error

/-!
# Files

What the command line needs of the files around it, and a file tree in memory that provides it.

A path is followed part by part from the working directory, and each part has to be in a directory;
`.` stays where it is and `..` goes one up.  `cleanPath` is the shortest path that leads to the same
place, if every directory on the way is there.
-/

set_option autoImplicit false

namespace MiniJava

/-- What a command does to the world: reading and writing whole files, and printing. -/
structure FileSystem (m : Type → Type) where
  read : Text → m (Except Cause Text)
  write : Text → Text → m (Except Cause Unit)
  print : Text → m Unit

/-! ## Paths -/

/-- The parts of a path. -/
def pathParts (path : Text) : List Text := path.splitOn '/'

/-- The path starts at the root. -/
def isRooted (path : Text) : Bool := path.signs.head? == some (.char '/')

/-- Adds a part to the parts of a clean path, the last one first. -/
def addPart (rooted : Bool) (parts : List Text) (part : Text) : List Text :=
  if part = "" || part = "." then parts
  else if part = ".." then
    match parts with
    | [] => if rooted then [] else [".."]
    | last :: rest => if last = ".." then ".." :: parts else rest
  else part :: parts

/-- The parts of a path without the ones that lead nowhere. -/
def cleanParts (path : Text) : List Text :=
  ((pathParts path).foldl (addPart (isRooted path)) []).reverse

/-- The shortest path to the same place. -/
def cleanPath (path : Text) : Text :=
  let body := Text.intercalate "/" (cleanParts path)
  if isRooted path then "/" ++ body else if body = "" then "." else body

/-- The path of a file in a directory. -/
def joinPath (dir file : Text) : Text :=
  if dir = "" then cleanPath file else cleanPath (dir ++ "/" ++ file)

/-! ## A tree in memory -/

/-- Files and directories below a working directory, and what was printed. -/
structure FileTree where
  /-- The files, by clean path. -/
  files : List (Text × Text) := []
  /-- The directories, by clean path. -/
  dirs : List Text := []
  printed : Text := ""
deriving DecidableEq, Repr, Inhabited

namespace FileTree

/-- The clean paths of the directories on the way to a file. -/
def dirsAbove (path : Text) : List Text :=
  let parts := cleanParts path
  (List.range parts.length).tail.map fun n ↦ cleanPath (Text.intercalate "/" (parts.take n))

/-- The tree of some files and directories, and of the directories that the files are in. -/
def ofFiles (files : List (Text × Text)) (dirs : List Text) : FileTree where
  files := files.map fun (path, text) ↦ (cleanPath path, text)
  dirs := dirs ++ files.flatMap fun (path, _) ↦ dirsAbove path

/-- Whether a clean path is a directory, which the working directory and those above it are. -/
def isDir (t : FileTree) (place : Text) : Bool :=
  (cleanParts place).all (· = "..") || t.dirs.contains place

/-- The most bytes that a part of a path can have. -/
def maxPartBytes : Nat := 255

/-- The most bytes that a path can have. -/
def maxPathBytes : Nat := 4095

/-- One step on the way to a file, from a clean path to the next. -/
def enter (t : FileTree) (place part : Text) : Except FileFault Text :=
  if t.isDir place then
    if maxPartBytes < part.bytes.length then .error .nameTooLong else .ok (joinPath place part)
  else if (t.files.lookup place).isSome then .error .notADirectory
  else .error .notFound

/-- The clean path of the place that a path leads to, whether or not something is there. -/
def follow (t : FileTree) (path : Text) : Except FileFault Text :=
  if path.signs.contains (.char '\x00') then .error .invalidName
  else if path = "" then .error .notFound
  else if maxPathBytes < path.bytes.length then .error .nameTooLong
  else (pathParts path).foldlM t.enter (if isRooted path then "/" else ".")

/-- The contents of a file. -/
def read (t : FileTree) (path : Text) : Except Cause Text :=
  match t.follow path with
  | .error fault => .error (.file "open" path fault)
  | .ok place =>
    match t.files.lookup place with
    | some text => .ok text
    | none =>
      if t.isDir place then .error (.file "read" path .isADirectory)
      else .error (.file "open" path .notFound)

/-- The tree with new contents of a file. -/
def write (t : FileTree) (path text : Text) : Except Cause FileTree :=
  match t.follow path with
  | .error fault => .error (.file "open" path fault)
  | .ok place =>
    if t.isDir place then .error (.file "open" path .isADirectory)
    else .ok { t with files := (place, text) :: t.files.filter (·.1 != place) }

/-- The files of a tree as the files that a command works on. -/
def system : FileSystem (StateM FileTree) where
  read path := do return (← get).read path
  write path text := do
    match (← get).write path text with
    | .ok t =>
      set t
      return .ok ()
    | .error cause => return .error cause
  print text := modify fun t ↦ { t with printed := t.printed ++ text }

/-- The files directly in a directory, by name. -/
def filesIn (t : FileTree) (dir : Text) : List (Text × Text) :=
  t.files.filterMap fun (path, text) ↦
    match cleanParts path with
    | [d, name] => if d == dir then some (name, text) else none
    | _ => none

end FileTree

end MiniJava
