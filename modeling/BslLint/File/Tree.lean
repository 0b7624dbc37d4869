import BslLint.Data.KeyMap
import BslLint.File.System

/-!
# Files in memory

A `FileTree` holds files and directories, and a `Disk` is such a tree seen from one of its
directories. A path is followed piece by piece, and every piece but the first one has to come after
a directory, even if it is a dot or nothing at all. So two dots after something that does not exist
lead nowhere.
-/

namespace BslLint

/-- A file, or a directory with what is in it. -/
inductive FileTree where
  | file (bytes : List UInt8)
  | directory (entries : List (String × FileTree))

namespace FileTree

/-- A directory with nothing in it. -/
def empty : FileTree := directory []

/-- What is found by following some names. -/
def find? : List String → FileTree → Option FileTree
  | [], t => some t
  | _ :: _, file _ => none
  | name :: names, directory entries =>
    match KeyMap.find? entries name with
    | some t => find? names t
    | none => none

/-- Puts something where some names lead, and makes the directories on the way. -/
def put (t : FileTree) (names : List String) (new : FileTree) : FileTree :=
  match names with
  | [] => new
  | name :: names =>
    let entries := match t with
      | file _ => []
      | directory entries => entries
    directory (KeyMap.insert entries name (put ((KeyMap.find? entries name).getD empty) names new))

mutual

/-- The paths of all files, given the path of what they are in. -/
def files (path : String) : FileTree → List String
  | file _ => [path]
  | directory entries => filesOf path entries

/-- The paths of all files in some entries of a directory. -/
def filesOf (path : String) : List (String × FileTree) → List String
  | [] => []
  | (name, t) :: entries => files (Path.join path name) t ++ filesOf path entries

end

end FileTree

/-- A tree of files seen from one of its directories. -/
structure Disk where
  /-- The whole tree. -/
  root : FileTree
  /-- The names that lead to the directory that one is in. -/
  here : List String := []

namespace Disk

/-- Follows a piece of a path from where some names lead. -/
def step (root : FileTree) (names : List String) (piece : String) :
    Except FileError (List String) :=
  match root.find? names with
  | none => .error .notFound
  | some (.file _) => .error .notDirectory
  | some (.directory _) =>
    if piece = "" || piece = "." then .ok names
    else if piece = ".." then .ok names.dropLast
    else .ok (names ++ [piece])

/-- Where a path begins, and its pieces. -/
def begin (d : Disk) (path : String) : List String × List String :=
  match Path.pieces path with
  | "" :: pieces => ([], pieces)
  | pieces => (d.here, pieces)

/-- The names of what a path leads to, which may not exist. -/
def locate (d : Disk) (path : String) : Except FileError (List String) :=
  if path.isEmpty then .error .notFound
  else
    let (start, pieces) := d.begin path
    pieces.foldlM (step d.root) start

/-- What a path leads to. -/
def find (d : Disk) (path : String) : Except FileError FileTree := do
  match d.root.find? (← d.locate path) with
  | some t => .ok t
  | none => .error .notFound

/-- The bytes of a file. -/
def read (d : Disk) (path : String) : Except FileError (List UInt8) := do
  match ← d.find path with
  | .file bytes => .ok bytes
  | .directory _ => .error .isDirectory

/-- Puts a text into a file. -/
def write (d : Disk) (path text : String) : Except FileError Disk := do
  let names ← d.locate path
  match d.root.find? names with
  | some (.directory _) => .error .isDirectory
  | found =>
    if found.isNone && path.toList.getLast? = some '/' then .error .isDirectory
    else .ok { d with root := d.root.put names (.file text.toUTF8.toList) }

/-- Follows a piece of a path and makes a directory where there is nothing. -/
def makeStep (at_ : FileTree × List String) (piece : String) :
    Except FileError (FileTree × List String) := do
  let names ← step at_.1 at_.2 piece
  match at_.1.find? names with
  | none => .ok (at_.1.put names .empty, names)
  | some _ => .ok (at_.1, names)

/-- Makes a directory, and those that it is in. -/
def makeDirectory (d : Disk) (path : String) : Except FileError Disk := do
  let (start, pieces) := d.begin path
  let (root, names) ← pieces.foldlM makeStep (d.root, start)
  match root.find? names with
  | some (.file _) => .error .alreadyExists
  | _ => .ok { d with root }

/-- Changes a disk if that can be done. -/
def change (f : Disk → Except FileError Disk) : StateM Disk (Except FileError Unit) := do
  match f (← get) with
  | .ok d => set d; return .ok ()
  | .error e => return .error e

/-- The operations on the files of a disk. -/
def system : FileSystem (StateM Disk) where
  isPresent path := return (Disk.find (← get) path).toBool
  isDirectory path := do
    match Disk.find (← get) path with
    | .ok (.directory _) => return true
    | _ => return false
  isFile path := do
    match Disk.find (← get) path with
    | .ok (.file _) => return true
    | _ => return false
  read path := return Disk.read (← get) path
  write path text := change (Disk.write · path text)
  makeDirectory path := change (Disk.makeDirectory · path)
  files path := do
    match Disk.find (← get) path with
    | .ok t => return t.files path
    | .error _ => return []

end Disk

end BslLint
