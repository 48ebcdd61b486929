-- SUMMARY: Occurrences of names, plain and qualified.
import Offside.Span

/-! # Names -/

namespace Offside

/-- An identifier where it occurs. -/
structure Name where
  text : String
  span : Span
  deriving DecidableEq, Repr

/-- The texts of several names, with blanks between. -/
def Name.listText (names : List Name) : String :=
  " ".intercalate (names.map Name.text)

/-- A name with the modules it is looked up in, outermost first. -/
structure QualifiedName where
  span : Span
  segments : List Name
  deriving DecidableEq, Repr

namespace QualifiedName

/-- A name without qualification. -/
def simple (name : Name) : QualifiedName := ⟨name.span, [name]⟩

/-- The name itself, if it is not qualified. -/
def simple? (q : QualifiedName) : Option Name :=
  match q.segments with
  | [name] => some name
  | _ => none

/-- The segments with dots between. -/
def text (q : QualifiedName) : String :=
  ".".intercalate (q.segments.map Name.text)

@[simp] theorem simple?_simple (name : Name) : (simple name).simple? = some name := rfl

end QualifiedName

end Offside
