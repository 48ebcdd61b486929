-- SUMMARY: Relative paths as texts: joining, components, extensions and order.

/-! # Paths

A path is kept as the text it was written with. Two texts may name the same
place: doubled slashes and single dots after the first component do not count,
and comparison goes by components. -/

namespace Offside

/-- A step of a path. -/
inductive Component where
  /-- A leading dot. -/
  | current
  | parent
  | named (name : String)
  deriving DecidableEq, Repr

namespace Component

/-- The leading dot comes first, then the parent, then names by code point. -/
def order : Component → Component → Ordering
  | current, current => .eq
  | current, _ => .lt
  | _, current => .gt
  | parent, parent => .eq
  | parent, _ => .lt
  | _, parent => .gt
  | named a, named b => compare a b

end Component

namespace Path

/-- The texts between the slashes of a path. -/
def segments (path : String) : List String := path.splitOn "/"

/-- The steps that segments stand for, after the first one. -/
def stepsOf : List String → List Component
  | [] => []
  | s :: ss =>
    if s = "" ∨ s = "." then stepsOf ss
    else if s = ".." then .parent :: stepsOf ss
    else .named s :: stepsOf ss

/-- The steps of a path. -/
def components (path : String) : List Component :=
  match segments path with
  | "." :: ss => .current :: stepsOf ss
  | ss => stepsOf ss

/-- Whether a path names the directory it starts from. -/
def isCurrent (path : String) : Bool := components path = [.current]

/-- The segment `s` after the path `base`. -/
def join (base s : String) : String :=
  if base = "" ∨ base.endsWith "/" then base ++ s else base ++ "/" ++ s

/-- The segment `s` in the directory `base`; the directory that paths start
from is left out. -/
def child (base s : String) : String :=
  if isCurrent base then s else join base s

/-- The last name of a path. -/
def fileName? (path : String) : Option String :=
  match (components path).getLast? with
  | some (.named name) => some name
  | _ => none

/-- What follows the last dot of a name, unless that dot is its first
character. -/
def nameExtension? (name : String) : Option String :=
  let after := name.toList.reverse.takeWhile (· ≠ '.')
  let before := name.toList.reverse.drop (after.length + 1)
  if before.isEmpty then none else some (String.ofList after.reverse)

/-- The extension of the last name of a path. -/
def extension? (path : String) : Option String := (fileName? path).bind nameExtension?

/-- Paths are ordered component by component. -/
def orderSteps : List Component → List Component → Ordering
  | [], [] => .eq
  | [], _ :: _ => .lt
  | _ :: _, [] => .gt
  | a :: as, b :: bs => (a.order b).then (orderSteps as bs)

/-- Whether `a` does not come after `b`. -/
def le (a b : String) : Bool := orderSteps (components a) (components b) ≠ .gt

/-- Keep the first of several texts in a row that name the same place. -/
def dedup : List String → List String
  | [] => []
  | [p] => [p]
  | p :: q :: ps =>
    if components p = components q then dedup (p :: ps) else p :: dedup (q :: ps)
  termination_by ps => ps.length

/-- Paths in order, each place once. -/
def sortDedup (paths : List String) : List String := dedup (paths.mergeSort le)

end Path

end Offside
