-- SUMMARY: The Unicode property White_Space, which separates words.

/-! # Blank characters

Words of a source text are separated by the characters of the Unicode property
White_Space. The zero-width characters U+200B and U+FEFF and the separators
U+001C to U+001F do not have the property: they belong to words. -/

namespace Offside.Text

/-- The ranges of code points with the property White_Space, in increasing
order. -/
def blankRanges : List (Nat × Nat) :=
  [(0x09, 0x0D), (0x20, 0x20), (0x85, 0x85), (0xA0, 0xA0), (0x1680, 0x1680),
    (0x2000, 0x200A), (0x2028, 0x2029), (0x202F, 0x202F), (0x205F, 0x205F),
    (0x3000, 0x3000)]

/-- A blank is a character with the property White_Space. -/
def isBlank (c : Char) : Bool :=
  blankRanges.any fun (first, last) => first ≤ c.toNat && c.toNat ≤ last

/-- A blank outside ASCII. -/
def isWideBlank (c : Char) : Bool :=
  0x80 ≤ c.toNat && isBlank c

end Offside.Text
