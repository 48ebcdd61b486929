-- SUMMARY: Parsers over a cursor: sequencing, failure, recording of problems, and repetition.
import Offside.Cursor
import Offside.Name
import Offside.Report

/-! # Parsers

A parser reads tokens from a cursor. It gives a report, and the cursor stands
where reading stopped, also when it failed. -/

namespace Offside

/-- A parser of `α`. -/
def Parser (α : Type) : Type := Cursor → Report α × Cursor

namespace Parser

variable {α β : Type}

/-- Go on with a value where the first parser stopped. -/
def andThen (p : Parser α) (next : α → Parser β) : Parser β := fun c =>
  match p c with
  | (⟨ds, .error d⟩, c₁) => (⟨ds, .error d⟩, c₁)
  | (⟨ds, .ok a⟩, c₁) =>
    let (r, c₂) := next a c₁
    (⟨ds ++ r.diagnostics, r.result⟩, c₂)

instance : Monad Parser where
  pure a := fun c => (pure a, c)
  bind := andThen

/-- Stop with a problem. -/
def fail (d : Diagnostic) : Parser α := fun c => (.fail d, c)

/-- Record problems and go on. -/
def record (ds : List Diagnostic) : Parser Unit := fun c => (.noted ((), ds), c)

/-- Look at the cursor without moving it. -/
def look (f : Cursor → α) : Parser α := fun c => (pure (f c), c)

/-- Stop with a problem at the current token. -/
def failHere (problem : Problem) : Parser α := fun c => (.fail (problem.at c.current.span), c)

/-- Stop because something else was expected. -/
def unexpected (expected : String) : Parser α := fun c => (.fail (c.unexpected expected), c)

/-- Move the cursor. -/
def move (f : Cursor → Cursor) : Parser Unit := fun c => (pure (), f c)

/-- Read the current token. -/
def advance : Parser Lexeme := fun c => (pure c.current, c.advance)

/-- Read the current token if it is `t`, and say whether it was. -/
def eat (t : Token) : Parser Bool := fun c =>
  match c.eat? t with
  | some (_, c₁) => (pure true, c₁)
  | none => (pure false, c)

/-- Read the current token, which has to be `t`. -/
def expect (t : Token) (context : String) : Parser Unit := fun c =>
  match c.expect t context with
  | .ok (_, c₁) => (pure (), c₁)
  | .error d => (.fail d, c)

/-- Where the current token starts. -/
def start : Parser Nat := look (·.current.span.start)

/-- The span from `start` to the end of the text read so far. -/
def spanFrom (start : Nat) : Parser Span := look (·.spanFrom start)

/-- Read `t` and then `p`, if `t` is there. -/
def optional (t : Token) (p : Parser α) : Parser (Option α) := do
  if ← eat t then some <$> p else pure none

/-! ## Repetition -/

/-- Repeat `item` as long as `more` holds of the value before, if there is one, and
of the cursor. A round that reads nothing is the last one, so this ends on every
stream. -/
def whileFrom (more : Option α → Cursor → Bool) (item : Parser α) (last : Option α) :
    Parser (List α) := fun c =>
  if more last c then
    match item c with
    | (⟨ds, .error d⟩, c₁) => (⟨ds, .error d⟩, c₁)
    | (⟨ds, .ok a⟩, c₁) =>
      if c₁.ahead.length < c.ahead.length then
        let (r, c₂) := whileFrom more item (some a) c₁
        (⟨ds ++ r.diagnostics, r.result.map (a :: ·)⟩, c₂)
      else (⟨ds, .ok [a]⟩, c₁)
  else (pure [], c)
  termination_by c => c.ahead.length

/-- Repeat `item` as long as `more` holds of the cursor. -/
def whileAt (more : Cursor → Bool) (item : Parser α) : Parser (List α) :=
  whileFrom (fun _ => more) item none

section

variable {more : Option α → Cursor → Bool} {item : Parser α} {last : Option α} {c c₁ : Cursor}
  {ds : List Diagnostic}

theorem whileFrom_stop (h : more last c = false) :
    whileFrom more item last c = (⟨[], .ok []⟩, c) := by
  rw [whileFrom, h]
  rfl

theorem whileFrom_error {d : Diagnostic} (h : more last c = true)
    (hitem : item c = (⟨ds, .error d⟩, c₁)) :
    whileFrom more item last c = (⟨ds, .error d⟩, c₁) := by
  rw [whileFrom, h, if_pos rfl, hitem]

theorem whileFrom_round {a : α} (h : more last c = true) (hitem : item c = (⟨ds, .ok a⟩, c₁))
    (hlt : c₁.ahead.length < c.ahead.length) : whileFrom more item last c =
      (⟨ds ++ (whileFrom more item (some a) c₁).1.diagnostics,
        (whileFrom more item (some a) c₁).1.result.map (a :: ·)⟩,
        (whileFrom more item (some a) c₁).2) := by
  rw [whileFrom, h, if_pos rfl, hitem]
  simp only [if_pos hlt]

theorem whileFrom_idle {a : α} (h : more last c = true) (hitem : item c = (⟨ds, .ok a⟩, c₁))
    (hlt : ¬ c₁.ahead.length < c.ahead.length) :
    whileFrom more item last c = (⟨ds, .ok [a]⟩, c₁) := by
  rw [whileFrom, h, if_pos rfl, hitem]
  simp only [if_neg hlt]

end

/-- Where the value before does not count, it does not matter which one it is. -/
theorem whileFrom_const (more : Cursor → Bool) (item : Parser α) (last : Option α) :
    whileFrom (fun _ => more) item last = whileAt more item := by
  funext c
  rw [whileAt, whileFrom.eq_def, whileFrom.eq_def]

theorem whileAt_stop {more : Cursor → Bool} {item : Parser α} {c : Cursor} (h : more c = false) :
    whileAt more item c = (⟨[], .ok []⟩, c) :=
  whileFrom_stop h

theorem whileAt_round {more : Cursor → Bool} {item : Parser α} {c c₁ : Cursor}
    {ds : List Diagnostic} {a : α} (h : more c = true) (hitem : item c = (⟨ds, .ok a⟩, c₁))
    (hlt : c₁.ahead.length < c.ahead.length) : whileAt more item c =
      (⟨ds ++ (whileAt more item c₁).1.diagnostics, (whileAt more item c₁).1.result.map (a :: ·)⟩,
        (whileAt more item c₁).2) := by
  rw [whileAt, whileFrom_round h hitem hlt, whileFrom_const]
  rfl

/-! ## Names -/

/-- Whether the current token is an identifier. -/
def atIdent (c : Cursor) : Bool := c.token.isIdent

/-- An identifier; `expected` describes it. -/
def name (expected : String) : Parser Name := fun c =>
  match c.token with
  | .ident text => (pure ⟨text, c.current.span⟩, c.advance)
  | _ => (.fail (c.unexpected expected), c)

/-- One or more identifiers. -/
def names (expected : String) : Parser (List Name) := do
  let first ← name expected
  let others ← whileAt atIdent (name expected)
  return first :: others

/-- Whether a dot and an identifier follow `stop` without blanks between. -/
def atSegment (stop : Nat) (c : Cursor) : Bool :=
  let next := c.peekAt 1
  c.isAt .dot && c.current.span.start == stop &&
    next.token.isIdent && next.span.start == c.current.span.stop

/-- Identifiers with dots between, and no blanks. -/
def qualifiedName (expected : String) : Parser QualifiedName := do
  let first ← name expected
  let others ← whileFrom (fun last => atSegment (last.getD first).span.stop)
    (do let _ ← advance; name "a name after `.`") none
  let stop := ((first :: others).getLast?.getD first).span.stop
  return ⟨⟨first.span.start, stop⟩, first :: others⟩

end Parser

end Offside
