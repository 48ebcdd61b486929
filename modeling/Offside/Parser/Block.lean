-- SUMMARY: Blocks of items, with recovery from items that do not parse.
import Offside.Parser.Basic

/-! # Blocks

A block is read item by item. An item that does not parse is recorded and
skipped, so the items after it are read all the same. -/

namespace Offside

namespace Parser

variable {α : Type}

/-- Whether the current token can stand after an item. -/
def atItemEnd (c : Cursor) : Bool :=
  c.token.isSeparator || c.isAt .blockEnd

/-- Read one item up to its end. What does not belong to it is recorded as a
problem and skipped. -/
def item (p : Parser α) : Parser (Option α) := fun c =>
  let (r, c₁) := p c
  match r.result with
  | .error d => (⟨r.diagnostics ++ [d], .ok none⟩, c₁.skipItem)
  | .ok a =>
    if atItemEnd c₁ then (⟨r.diagnostics, .ok (some a)⟩, c₁)
    else
      (⟨r.diagnostics ++ [c₁.unexpected "the end of the declaration"], .ok (some a)⟩, c₁.skipItem)

/-- Whether another item follows. -/
def moreItems (c : Cursor) : Bool :=
  let c := c.skipSeparators
  !c.isAt .blockEnd && !c.isAt .eof

/-- A block of items. -/
def block (p : Parser α) : Parser (List α) := do
  expect .blockStart "to open a block"
  let items ← whileAt moreItems (do move Cursor.skipSeparators; item p)
  move Cursor.skipSeparators
  if ← eat .blockEnd then return items.filterMap id
  else unexpected "the end of the block"

end Parser

end Offside
