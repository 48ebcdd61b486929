-- SUMMARY: Byte offsets into the UTF-8 form of a text, and the slices they delimit.

/-! # Byte offsets

A place in a text is the number of bytes of its UTF-8 form that stand before
it. Only the boundaries between characters are places, so every function here
that takes an offset answers `none` for one that lies inside a character or
past the end. -/

namespace Offside.Text

/-- The number of bytes of the UTF-8 form of a text. -/
def byteLength : List Char → Nat
  | [] => 0
  | c :: cs => c.utf8Size + byteLength cs

@[simp] theorem byteLength_nil : byteLength [] = 0 := rfl

@[simp] theorem byteLength_cons (c : Char) (cs : List Char) :
    byteLength (c :: cs) = c.utf8Size + byteLength cs := rfl

@[simp] theorem byteLength_append (as bs : List Char) :
    byteLength (as ++ bs) = byteLength as + byteLength bs := by
  induction as with
  | nil => rw [List.nil_append, byteLength_nil, Nat.zero_add]
  | cons c cs ih => rw [List.cons_append, byteLength_cons, byteLength_cons, ih, Nat.add_assoc]

/-- Cut `cs` at byte `offset` into what stands before it and what follows. -/
def splitAt? : List Char → Nat → Option (List Char × List Char)
  | cs, 0 => some ([], cs)
  | [], _ + 1 => none
  | c :: cs, offset + 1 =>
    if c.utf8Size ≤ offset + 1 then
      (splitAt? cs (offset + 1 - c.utf8Size)).map fun (before, after) => (c :: before, after)
    else none

/-- The characters before byte `offset`. -/
def before? (cs : List Char) (offset : Nat) : Option (List Char) :=
  (splitAt? cs offset).map (·.1)

/-- The characters from byte `start` up to byte `stop`. -/
def slice? (cs : List Char) (start stop : Nat) : Option (List Char) :=
  if start ≤ stop then do
    let (_, after) ← splitAt? cs start
    before? after (stop - start)
  else none

/-- The two parts of a cut make up the text, and the first ends at the offset. -/
theorem eq_append_of_splitAt? {cs before after : List Char} {offset : Nat}
    (h : splitAt? cs offset = some (before, after)) :
    cs = before ++ after ∧ byteLength before = offset := by
  fun_induction splitAt? cs offset generalizing before after with
  | case1 cs => simp_all
  | case2 => simp at h
  | case3 c cs offset hle ih =>
    obtain ⟨⟨b, a⟩, hcut, heq⟩ := Option.map_eq_some_iff.1 h
    obtain ⟨rfl, rfl⟩ := Prod.mk.inj heq
    obtain ⟨hcs, hlen⟩ := ih hcut
    simp only [List.cons_append, byteLength_cons, hlen, ← hcs, true_and]
    omega
  | case4 => simp at h

/-- Every boundary between characters can be cut at. -/
theorem splitAt?_byteLength (before after : List Char) :
    splitAt? (before ++ after) (byteLength before) = some (before, after) := by
  induction before with
  | nil => cases after <;> rfl
  | cons c cs ih =>
    have hpos := c.utf8Size_pos
    obtain ⟨n, hn⟩ : ∃ n, c.utf8Size + byteLength cs = n + 1 :=
      ⟨c.utf8Size + byteLength cs - 1, by omega⟩
    rw [List.cons_append, byteLength_cons, hn, splitAt?, if_pos (by omega),
      show n + 1 - c.utf8Size = byteLength cs by omega, ih]
    rfl

end Offside.Text
