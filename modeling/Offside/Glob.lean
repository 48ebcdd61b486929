-- SUMMARY: Glob patterns: their parts, their faults, and which names they match.

/-! # Glob patterns

`?` is any character, `*` any sequence of characters, `[abc]` and `[a-z]` one
of some characters, and `[!abc]` any other character. `**` is any sequence of
directories, and has to be a component of its own. -/

namespace Offside

namespace Glob

/-- A pattern that means nothing, with the index of the character that shows
it. -/
inductive Fault where
  /-- A bracket that is not closed, or holds nothing. -/
  | badRange (index : Nat)
  /-- Three or more stars. -/
  | tooManyStars (index : Nat)
  /-- Two stars next to something other than a slash. -/
  | starsInName (index : Nat)
  deriving DecidableEq, Repr

/-- The wording of a fault. -/
def Fault.message : Fault → String
  | badRange index => s!"Pattern syntax error near position {index}: invalid range pattern"
  | tooManyStars index =>
    s!"Pattern syntax error near position {index}: " ++
      "wildcards are either regular `*` or recursive `**`"
  | starsInName index =>
    s!"Pattern syntax error near position {index}: " ++
      "recursive wildcards must form a single path component"

/-- A part of a pattern. -/
inductive Part where
  | char (c : Char)
  | anyChar
  | anySequence
  /-- Any sequence of directories. -/
  | anyDirectories
  /-- A character in one of some ranges. -/
  | within (ranges : List (Char × Char))
  /-- A character in none of some ranges. -/
  | outside (ranges : List (Char × Char))
  deriving DecidableEq, Repr

/-- The ranges that the characters between two brackets stand for. -/
def ranges : List Char → List (Char × Char)
  | a :: '-' :: b :: cs => (a, b) :: ranges cs
  | a :: cs => (a, a) :: ranges cs
  | [] => []

/-- Whether a character is in one of some ranges. -/
def inRanges (rs : List (Char × Char)) (c : Char) : Bool :=
  rs.any fun (first, last) => first ≤ c && c ≤ last

/-- What follows the closing bracket after `cs`, with what stands before it. -/
def closeBracket? (cs : List Char) :
    Option (List Char × { rest : List Char // rest.length < cs.length }) :=
  match h : cs.dropWhile (· ≠ ']') with
  | [] => none
  | _ :: rest =>
    have hlen : rest.length < cs.length := by
      have := (List.dropWhile_suffix (l := cs) (· ≠ ']')).length_le
      rw [h, List.length_cons] at this
      omega
    some (cs.takeWhile (· ≠ ']'), ⟨rest, hlen⟩)

/-- The choice of characters after an opening bracket, and what follows it.
The first character of the choice does not close it. -/
def choice? : (cs : List Char) → Option (Part × { rest : List Char // rest.length < cs.length })
  | [] => none
  | c :: cs =>
    match c, cs with
    | '!', first :: others =>
      (closeBracket? others).map fun (cs, ⟨rest, h⟩) =>
        (.outside (ranges (first :: cs)), ⟨rest, by simp only [List.length_cons]; omega⟩)
    | '!', [] => none
    | first, others =>
      (closeBracket? others).map fun (cs, ⟨rest, h⟩) =>
        (.within (ranges (first :: cs)), ⟨rest, by simp only [List.length_cons]; omega⟩)

/-- The parts of the end `cs` of a pattern of `total` characters, when the
character `before` stands before it. -/
def parseFrom (total : Nat) (before : Option Char) : List Char → Except Fault (List Part)
  | [] => .ok []
  | c :: cs =>
    let index := total - (cs.length + 1)
    match c, cs with
    | '*', '*' :: '*' :: _ => .error (.tooManyStars (index + 2))
    | '*', '*' :: rest =>
      if before.all (· = '/') then
        match rest with
        | [] => .ok [.anyDirectories]
        | '/' :: rest => return .anyDirectories :: (← parseFrom total (some '/') rest)
        | _ => .error (.starsInName (index + 2))
      else .error (.starsInName (index - 1))
    | '*', rest => return .anySequence :: (← parseFrom total (some '*') rest)
    | '?', rest => return .anyChar :: (← parseFrom total (some '?') rest)
    | '[', rest =>
      match choice? rest with
      | some (part, ⟨rest, _⟩) => return part :: (← parseFrom total (some ']') rest)
      | none => .error (.badRange index)
    | c, rest => return .char c :: (← parseFrom total (some c) rest)
  termination_by cs => cs.length
  decreasing_by all_goals (simp_all only [List.length_cons]; omega)

/-- The parts of a pattern. -/
def parse (pattern : String) : Except Fault (List Part) :=
  let cs := pattern.toList
  parseFrom cs.length none cs

/-- All ends of a list, from the whole to the empty one. -/
def ends {α : Type} : List α → List (List α)
  | [] => [[]]
  | a :: as => (a :: as) :: ends as

/-- Whether a name is of the form of some parts. -/
def isMatch : List Part → List Char → Bool
  | [], name => name.isEmpty
  | .anySequence :: parts, name | .anyDirectories :: parts, name =>
    (ends name).any fun rest => isMatch parts rest
  | .anyChar :: parts, _ :: name => isMatch parts name
  | .char c :: parts, d :: name => c = d && isMatch parts name
  | .within rs :: parts, d :: name => inRanges rs d && isMatch parts name
  | .outside rs :: parts, d :: name => !inRanges rs d && isMatch parts name
  | _ :: _, [] => false

/-- The characters of parts that are nothing else. -/
def literal? : List Part → Option (List Char)
  | [] => some []
  | .char c :: parts => (literal? parts).map (c :: ·)
  | _ => none

end Glob

end Offside
