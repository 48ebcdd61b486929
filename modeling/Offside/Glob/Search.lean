-- SUMMARY: The paths of a file tree that a glob pattern names.
import Offside.FileTree
import Offside.Glob

/-! # Searching by patterns

A pattern is followed component by component. A component without wildcards is
gone into directly; any other is matched against the names in a directory. The
two names `.` and `..`, which every directory has, are found only by a pattern
that begins with a dot, and they are found first. -/

namespace Offside

namespace Glob

/-- A pattern split at its slashes. -/
structure Pattern where
  components : List (List Part)
  /-- A slash at the end asks for directories. -/
  needsDirectory : Bool

/-- The texts between slashes, without the empty one after a final slash. -/
def splitComponents (pattern : String) : List String :=
  let segments := Path.segments pattern
  if segments.getLast? = some "" then segments.dropLast else segments

/-- Read a pattern, first as a whole and then by component: a bracket must not
hold a slash. -/
def Pattern.ofString (pattern : String) : Except Fault Pattern := do
  let _ ← parse pattern
  let components ← (splitComponents pattern).mapM parse
  return ⟨components, pattern.endsWith "/"⟩

/-- Whether a component stands for any sequence of directories. -/
def isRecursive (component : List Part) : Bool := component.contains .anyDirectories

/-- The paths below `path` that the components name. -/
def follow (tree : FileTree) (needsDirectory : Bool) :
    (components : List (List Part)) → (path : String) → List String
  | [], path => if needsDirectory && !tree.isDirectoryAt path then [] else [path]
  | component :: rest, path =>
    match literal? component with
    | some cs =>
      let s := String.ofList cs
      let next := Path.child path s
      let found :=
        if s = "." ∨ s = ".." then tree.isDirectoryAt path else tree.existsAt next
      if found then follow tree needsDirectory rest next else []
    | none =>
      if isRecursive component then
        followBelow tree needsDirectory rest path
      else
        let special :=
          if component.head? = some (.char '.') && tree.isDirectoryAt path then
            ["..", "."].flatMap fun s =>
              if isMatch component s.toList then
                follow tree needsDirectory rest (Path.join path s)
              else []
          else []
        let named := (tree.below path).flatMap fun names =>
          match names with
          | [name] =>
            if isMatch component name.toList then
              follow tree needsDirectory rest (Path.child path name)
            else []
          | _ => []
        special ++ named
where
  /-- The same after a component that stands for any sequence of directories,
  to which further ones of the kind add nothing. -/
  followBelow (tree : FileTree) (needsDirectory : Bool) :
      (components : List (List Part)) → (path : String) → List String
    | [], path =>
      (tree.below path).filterMap fun names =>
        let next := names.foldl Path.child path
        if tree.isDirectoryAt next then some next else none
    | component :: rest, path =>
      if isRecursive component then followBelow tree needsDirectory rest path
      else
        (tree.below path).flatMap fun names =>
          let next := names.foldl Path.child path
          if isMatch component ((names.getLast?.getD "").toList) then
            follow tree needsDirectory rest next
          else []

/-- The paths that a pattern names, starting from the root. -/
def search (tree : FileTree) (pattern : Pattern) : List String :=
  if pattern.components.isEmpty then []
  else follow tree pattern.needsDirectory pattern.components "."

end Glob

end Offside
