-- SUMMARY: Directory trees in memory.
import Offside.Path

/-! # File trees

A tree of directories and files, all of whose directories have an entry of
their own. Places are given by the names from the root. -/

namespace Offside

/-- Why a path cannot be read. -/
inductive ReadError where
  | notFound
  | notADirectory
  | isADirectory
  deriving DecidableEq, Repr

/-- The wording of the failure. -/
def ReadError.message : ReadError → String
  | notFound => "No such file or directory (os error 2)"
  | notADirectory => "Not a directory (os error 20)"
  | isADirectory => "Is a directory (os error 21)"

/-- What stands at a place. -/
inductive Content where
  | file (bytes : List UInt8)
  | directory
  deriving DecidableEq, Repr

/-- The files and directories below a root, which itself has no entry. -/
structure FileTree where
  entries : List (List String × Content)
  deriving DecidableEq, Repr

namespace FileTree

/-- A root with nothing below it. -/
def empty : FileTree := ⟨[]⟩

/-- What stands at a place. -/
def find? (tree : FileTree) (place : List String) : Option Content :=
  if place.isEmpty then some .directory else tree.entries.lookup place

/-- Whether a directory stands at a place. -/
def isDirectory (tree : FileTree) (place : List String) : Bool :=
  tree.find? place = some .directory

/-- Put something at a place. A directory that is there stays. -/
def put (tree : FileTree) (place : List String) (content : Content) : FileTree :=
  if tree.isDirectory place then tree
  else ⟨tree.entries.filter (·.1 ≠ place) ++ [(place, content)]⟩

/-- The directories that a place lies in, outermost first, after `above`. -/
def ancestors (above : List String) : List String → List (List String)
  | [] => []
  | [_] => []
  | name :: names => (above ++ [name]) :: ancestors (above ++ [name]) names

/-- Put something at a path, with all directories that it needs. -/
def insert (tree : FileTree) (path : String) (content : Content) : FileTree :=
  let place := (Path.components path).filterMap fun | .named name => some name | _ => none
  ((ancestors [] place).foldl (·.put · .directory) tree).put place content

/-- The place that is reached from `place` by the segments of a path. Only
directories can be gone on from, and nothing is known above the root. -/
def walk (tree : FileTree) (place : List String) : List String → Except ReadError (List String)
  | [] => .ok place
  | s :: ss =>
    if !tree.isDirectory place then .error .notADirectory
    else if s = "" ∨ s = "." then walk tree place ss
    else if s = ".." then
      if place.isEmpty then .error .notFound else walk tree place.dropLast ss
    else
      match tree.find? (place ++ [s]) with
      | some _ => walk tree (place ++ [s]) ss
      | none => .error .notFound

/-- The place that a relative path names. -/
def locate (tree : FileTree) (path : String) : Except ReadError (List String) :=
  if path = "" ∨ path.startsWith "/" then .error .notFound else tree.walk [] (Path.segments path)

/-- Whether a path names anything. -/
def existsAt (tree : FileTree) (path : String) : Bool := (tree.locate path).isOk

/-- Whether a path names a directory. -/
def isDirectoryAt (tree : FileTree) (path : String) : Bool :=
  match tree.locate path with
  | .ok place => tree.isDirectory place
  | .error _ => false

/-- The bytes of the file that a path names. -/
def read (tree : FileTree) (path : String) : Except ReadError (List UInt8) := do
  match tree.find? (← tree.locate path) with
  | some (.file bytes) => .ok bytes
  | some .directory => .error .isADirectory
  | none => .error .notFound

/-- What lies below a directory at any depth, by the names from there. -/
def below (tree : FileTree) (path : String) : List (List String) :=
  match tree.locate path with
  | .ok place =>
    if tree.isDirectory place then
      tree.entries.filterMap fun (other, _) =>
        if place.isPrefixOf other && place.length < other.length then
          some (other.drop place.length)
        else none
    else []
  | .error _ => []

end FileTree

end Offside
