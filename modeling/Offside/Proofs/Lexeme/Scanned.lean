-- SUMMARY: What every scanned text looks like: tokens with text, in order, and an end of file after them.
import Mathlib.Data.List.Basic
import Offside.Lexeme.Scan

/-! # Scanned texts

The lexemes of a text stand in order, each with text of its own, and only the
last one is an end of file. None of them is a marker, and the word `_` is
always the underscore. -/

namespace Offside

/-- A token that a text can hold. -/
structure Token.IsRaw (t : Token) : Prop where
  eof : t ≠ .eof
  isVirtual : t.isVirtual = false
  word : t ≠ .ident "_"

namespace Lexeme

/-! ## Chunks -/

/-- What a word can be: reserved, a number that fits, or a name. -/
theorem ofWord_cases {word : List Char} {next : Option Char} {t : Token}
    (h : Token.ofWord word next = some t) :
    (String.ofList word, t) ∈ Token.reserved ∨
    (word.all Char.isDigit = true ∧ Token.decimalValue word < UInt64.size ∧
      t = .integer (.ofNat (Token.decimalValue word))) ∨
    (word.all Char.isDigit = false ∧ t = .ident (String.ofList word) ∧
      (Token.reserved.lookup (String.ofList word) = none ∨ 2 ≤ word.length)) := by
  simp only [Token.ofWord] at h
  split at h
  · rename_i t' hlookup
    obtain rfl := Option.some.inj h
    split at hlookup
    · cases hlookup
    · obtain ⟨before, after, hreserved, -⟩ := List.lookup_eq_some_iff.1 hlookup
      exact .inl (by simp [hreserved])
  · rename_i hlookup
    split at h
    · rename_i hdigits
      split at h
      · rename_i hlt
        exact .inr (.inl ⟨hdigits, hlt, (Option.some.inj h).symm⟩)
      · cases h
    · rename_i hdigits
      refine .inr (.inr ⟨by simpa using hdigits, (Option.some.inj h).symm, ?_⟩)
      split at hlookup
      · rename_i hhidden
        exact .inr (of_decide_eq_true (Bool.and_eq_true_iff.1 hhidden).1)
      · exact .inl hlookup

theorem isRaw_of_mem_reserved {entry : String × Token} (h : entry ∈ Token.reserved) :
    entry.2.IsRaw := by
  simp only [Token.reserved, List.mem_cons, List.not_mem_nil, or_false] at h
  rcases h with rfl | rfl | rfl | rfl | rfl | rfl | rfl | rfl | rfl | rfl | rfl | rfl | rfl | rfl |
    rfl | rfl | rfl | rfl | rfl | rfl | rfl | rfl | rfl | rfl <;> exact ⟨nofun, rfl, nofun⟩

theorem isRaw_ofWord {word : List Char} {next : Option Char} {t : Token}
    (h : Token.ofWord word next = some t) : t.IsRaw := by
  obtain hreserved | ⟨-, -, rfl⟩ | ⟨-, rfl, hfree⟩ := ofWord_cases h
  · exact isRaw_of_mem_reserved hreserved
  · exact ⟨nofun, rfl, nofun⟩
  · refine ⟨nofun, rfl, fun hword => ?_⟩
    have hlist : word = ['_'] := String.ofList_injective (Token.ident.inj hword)
    subst hlist
    simp [Token.reserved] at hfree

theorem Chunk.isRaw_meaning {c : Char} {cs : List Char} {t : Token}
    (h : (Chunk.read c cs).meaning = .ok t) : t.IsRaw := by
  have hplain : ∀ {t' : Token}, Except.ok t' = (Except.ok t : Except Problem Token) → t'.IsRaw →
      t.IsRaw := fun heq ht' => Except.ok.inj heq ▸ ht'
  unfold Chunk.read at h
  split at h
  · exact hplain h ⟨by simp, rfl, by simp⟩
  · exact hplain h ⟨by simp, rfl, by simp⟩
  · exact hplain h ⟨by simp, rfl, by simp⟩
  · rw [blockComment] at h
    split at h
    · exact hplain h ⟨by simp, rfl, by simp⟩
    · simp at h
  · exact hplain h ⟨by simp, rfl, by simp⟩
  · exact hplain h ⟨by simp, rfl, by simp⟩
  · exact hplain h ⟨by simp, rfl, by simp⟩
  · exact hplain h ⟨by simp, rfl, by simp⟩
  · exact hplain h ⟨by simp, rfl, by simp⟩
  · exact hplain h ⟨by simp, rfl, by simp⟩
  · simp only [word] at h
    split at h
    · rename_i t' ht'
      exact hplain h (isRaw_ofWord ht')
    · simp at h

/-! ## Marks -/

theorem Mark.offset_past (tabWidth : Nat) (m : Mark) (c : Char) :
    (m.past tabWidth c).offset = m.offset + c.utf8Size := by
  rw [past]
  split <;> rfl

theorem Mark.le_offset_pastAll (tabWidth : Nat) (m : Mark) (cs : List Char) :
    m.offset ≤ (m.pastAll tabWidth cs).offset := by
  induction cs generalizing m with
  | nil => exact Nat.le_refl _
  | cons c cs ih =>
    have hpast := offset_past tabWidth m c
    have hrest : (m.past tabWidth c).offset ≤ (m.pastAll tabWidth (c :: cs)).offset := ih _
    omega

theorem Mark.lt_offset_pastAll (tabWidth : Nat) (m : Mark) {cs : List Char} (h : cs ≠ []) :
    m.offset < (m.pastAll tabWidth cs).offset := by
  cases cs with
  | nil => exact absurd rfl h
  | cons c cs =>
    have hpast := offset_past tabWidth m c
    have hrest : (m.past tabWidth c).offset ≤ (m.pastAll tabWidth (c :: cs)).offset :=
      le_offset_pastAll tabWidth _ cs
    have hpos := c.utf8Size_pos
    omega

theorem Mark.fresh_pastAll {tabWidth : Nat} {m : Mark} {cs : List Char} (h : '\n' ∉ cs) :
    (m.pastAll tabWidth cs).fresh = m.fresh := by
  induction cs generalizing m with
  | nil => rfl
  | cons c cs ih =>
    have hc : c ≠ '\n' := fun hc => h (hc ▸ List.mem_cons_self)
    have hpast : (m.past tabWidth c).fresh = m.fresh := by
      rw [past, if_neg hc]
    exact (ih fun hmem => h (List.mem_cons_of_mem _ hmem)).trans hpast

namespace Chunk

variable {tabWidth : Nat} {m : Mark} {chunk : Chunk}

theorem emit_of_ok {t : Token} (h : chunk.meaning = .ok t) (stop : Nat) : chunk.emit m stop =
    ⟨[⟨t, ⟨m.offset, stop⟩, m.line, m.column, m.fresh && !t.isComment⟩], []⟩ := by
  rw [emit, h]

theorem emit_of_error {problem : Problem} (h : chunk.meaning = .error problem) (stop : Nat) :
    chunk.emit m stop = ⟨[], [problem.at ⟨m.offset, stop⟩]⟩ := by
  rw [emit, h]

theorem next_of_ok {t : Token} (h : chunk.meaning = .ok t) : chunk.next tabWidth m =
    ({ m with fresh := m.fresh && t.isComment } : Mark).pastAll tabWidth chunk.text := by
  rw [next, h]

theorem next_of_error {problem : Problem} (h : chunk.meaning = .error problem) :
    chunk.next tabWidth m = { m.pastAll tabWidth chunk.text with fresh := m.fresh } := by
  rw [next, h]

/-- A chunk has text, so the mark behind it is further on. -/
theorem lt_offset_next (tabWidth : Nat) (m : Mark) (c : Char) (cs : List Char) :
    m.offset < ((read c cs).next tabWidth m).offset := by
  have htext := text_ne_nil c cs
  cases h : (read c cs).meaning with
  | ok t =>
    rw [next_of_ok h]
    exact Mark.lt_offset_pastAll tabWidth { m with fresh := m.fresh && t.isComment } htext
  | error problem =>
    rw [next_of_error h]
    exact Mark.lt_offset_pastAll tabWidth m htext

end Chunk

/-! ## Texts -/

/-- Lexemes from `offset` on, with an end of file after them. -/
structure IsScanned (offset : Nat) (toks : List Lexeme) : Prop where
  exists_eq : ∃ pre eof, toks = pre ++ [eof] ∧ (eof.token = .eof ∧ eof.span.isEmpty = true) ∧
    (∀ tok ∈ pre, tok.token.IsRaw ∧ tok.span.start < tok.span.stop ∧ offset ≤ tok.span.start) ∧
    pre.Pairwise fun a b => a.span.stop ≤ b.span.start

theorem isScanned_scanFrom (tabWidth : Nat) (m : Mark) (cs : List Char) :
    IsScanned m.offset (scanFrom tabWidth m cs).lexemes := by
  fun_induction scanFrom tabWidth m cs with
  | case1 m => exact ⟨[], _, rfl, ⟨rfl, Span.isEmpty_point _⟩, by simp, .nil⟩
  | case2 m c cs _ ih =>
    obtain ⟨pre, eof, heq, heof, hpre, horder⟩ := ih
    have hpast := Mark.offset_past tabWidth m c
    exact ⟨pre, eof, heq, heof, fun tok htok => ⟨(hpre tok htok).1, (hpre tok htok).2.1,
      by have := (hpre tok htok).2.2; omega⟩, horder⟩
  | case3 m c cs _ chunk next ih =>
    obtain ⟨pre, eof, heq, heof, hpre, horder⟩ := ih
    have hnext : m.offset < next.offset := Chunk.lt_offset_next tabWidth m c cs
    rw [TokenStream.lexemes_append, heq, Chunk.emit]
    split
    · rename_i t ht
      refine ⟨_ :: pre, eof, rfl, heof, ?_, .cons ?_ horder⟩
      · intro tok htok
        rcases List.mem_cons.1 htok with rfl | htok
        · exact ⟨Chunk.isRaw_meaning ht, hnext, Nat.le_refl _⟩
        · obtain ⟨hraw, hspan, hle⟩ := hpre tok htok
          exact ⟨hraw, hspan, by omega⟩
      · intro tok htok
        exact (hpre tok htok).2.2
    · refine ⟨pre, eof, rfl, heof, fun tok htok => ?_, horder⟩
      obtain ⟨hraw, hspan, hle⟩ := hpre tok htok
      exact ⟨hraw, hspan, by omega⟩

/-! ## Neighbours -/

/-- What is asked of two neighbours in a stream: a dot stands directly between
what is before and after it. -/
structure Joined (a b : Lexeme) : Prop where
  before : b.token = .dot → a.span.stop = b.span.start
  after : a.token = .dot → a.span.stop = b.span.start

instance : DecidableRel Joined := fun a b =>
  decidable_of_iff ((b.token = .dot → a.span.stop = b.span.start) ∧
    (a.token = .dot → a.span.stop = b.span.start)) ⟨fun h => ⟨h.1, h.2⟩, fun h => ⟨h.before, h.after⟩⟩

end Lexeme

end Offside
