-- SUMMARY: Strict decoding of UTF-8 bytes, with the place and length of the first fault.

/-! # UTF-8 decoding

Bytes are decoded strictly: no overlong forms, no surrogates, nothing above
U+10FFFF. The first fault stops the decoder. It is reported as the longest
run of bytes from the start of the bad character that could still have begun a
well-formed one, or as a truncation if the input ended inside such a run. -/

namespace Offside.Text.Utf8

/-- A byte sequence that is not the UTF-8 form of any text. -/
inductive Fault where
  /-- The `length` bytes at `offset` begin no character. -/
  | invalid (offset length : Nat)
  /-- The bytes from `offset` on are a character cut off by the end of input. -/
  | truncated (offset : Nat)
  deriving DecidableEq, Repr

/-- What a leading byte announces: how many bytes follow it, its share of the
code point, and the range of the first following byte. All later bytes range
over `80` to `BF`. -/
structure Lead where
  following : Nat
  bits : Nat
  low : UInt8
  high : UInt8

/-- The meaning of a byte outside ASCII as a leading byte. The narrowed ranges
exclude overlong forms, surrogates and code points above U+10FFFF. -/
def Lead.ofByte? (b : UInt8) : Option Lead :=
  if b < 0xC2 then none
  else if b < 0xE0 then some ⟨1, b.toNat - 0xC0, 0x80, 0xBF⟩
  else if b < 0xF0 then
    some ⟨2, b.toNat - 0xE0, if b = 0xE0 then 0xA0 else 0x80, if b = 0xED then 0x9F else 0xBF⟩
  else if b < 0xF5 then
    some ⟨3, b.toNat - 0xF0, if b = 0xF0 then 0x90 else 0x80, if b = 0xF4 then 0x8F else 0xBF⟩
  else none

/-- Read the `following` bytes of a character whose first `length` bytes, at
`offset`, have given the code point bits `bits`. -/
def follow (offset : Nat) :
    (following length bits : Nat) → (low high : UInt8) → (bytes : List UInt8) →
      Except Fault (Char × { rest : List UInt8 // rest.length ≤ bytes.length })
  | 0, _, bits, _, _, bytes => .ok (Char.ofNat bits, ⟨bytes, Nat.le_refl _⟩)
  | _ + 1, _, _, _, _, [] => .error (.truncated offset)
  | following + 1, length, bits, low, high, b :: bytes =>
    if low ≤ b ∧ b ≤ high then do
      let (c, ⟨rest, h⟩) ←
        follow offset following (length + 1) (bits * 64 + (b.toNat - 0x80)) 0x80 0xBF bytes
      .ok (c, ⟨rest, Nat.le_succ_of_le h⟩)
    else .error (.invalid offset length)

/-- Decode the bytes that stand at `offset`. -/
def decodeFrom (offset : Nat) : List UInt8 → Except Fault (List Char)
  | [] => .ok []
  | b :: bytes =>
    if b < 0x80 then do
      return Char.ofNat b.toNat :: (← decodeFrom (offset + 1) bytes)
    else
      match Lead.ofByte? b with
      | none => .error (.invalid offset 1)
      | some lead => do
        let (c, ⟨rest, _⟩) ← follow offset lead.following 1 lead.bits lead.low lead.high bytes
        return c :: (← decodeFrom (offset + 1 + lead.following) rest)
  termination_by bytes => bytes.length

/-- Decode a whole input. -/
def decode (bytes : List UInt8) : Except Fault (List Char) :=
  decodeFrom 0 bytes

end Offside.Text.Utf8
