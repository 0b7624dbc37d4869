import BslLint.File.Path
import BslLint.Text.Encoding

/-!
# Files

What a program can do with files, apart from how it is done: a `FileSystem` gives the operations in
some monad. There is one in memory, `Disk.system`, and one that works on the files of the machine.
-/

namespace BslLint

/-- Why something could not be done with a file. -/
inductive FileError where
  /-- The machine refuses, for a reason that has a number. -/
  | system (reason : String) (number : Nat)
  /-- The file is no text. -/
  | notText
  deriving DecidableEq, Repr

namespace FileError

/-- There is no such file. -/
def notFound : FileError := system "No such file or directory" 2

/-- There is such a file already. -/
def alreadyExists : FileError := system "File exists" 17

/-- Something is no directory. -/
def notDirectory : FileError := system "Not a directory" 20

/-- Something is a directory. -/
def isDirectory : FileError := system "Is a directory" 21

/-- What is said about an error. -/
def message : FileError → String
  | system reason number => reason ++ " (os error " ++ toString number ++ ")"
  | notText => "stream did not contain valid UTF-8"

end FileError

/-- The operations on files. -/
structure FileSystem (m : Type → Type) where
  /-- Whether a path leads to anything. -/
  isPresent : String → m Bool
  /-- Whether a path leads to a directory. -/
  isDirectory : String → m Bool
  /-- Whether a path leads to a file. -/
  isFile : String → m Bool
  /-- The bytes of a file. -/
  read : String → m (Except FileError (List UInt8))
  /-- Puts a text into a file, which is made if there is none. -/
  write : String → String → m (Except FileError Unit)
  /-- Makes a directory, and those that it is in. -/
  makeDirectory : String → m (Except FileError Unit)
  /-- The paths of all files below a path, which each of them begins with, in any order. -/
  files : String → m (List String)

namespace FileSystem

variable {m : Type → Type} [Monad m] (fs : FileSystem m)

/-- The text of a file whose encoding is not known. -/
def readSource (path : String) : m (Except FileError String) := do
  return (← fs.read path).map Text.decode

/-- The text of a file that is in units of 8 bits. -/
def readText (path : String) : m (Except FileError String) := do
  match ← fs.read path with
  | .error e => return .error e
  | .ok bytes => match String.fromUTF8? bytes.toByteArray with
    | some s => return .ok s
    | none => return .error .notText

/-- The paths of the files below a path with one of some extensions, in the order of paths. -/
def sourceFiles (root : String) (extensions : List String) : m (List String) := do
  let files ← fs.files root
  return (files.filter fun path ↦ extensions.any (Path.hasExtension path)).mergeSort Path.le

end FileSystem

end BslLint
