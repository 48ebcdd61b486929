-- SUMMARY: A text whose columns fit in 32 bits is read as if they were numbers of any size.
import Offside.Proofs.Lexeme.Accounted
import Offside.Proofs.Lexeme.Comments
import Offside.Proofs.Source.Columns

/-! # Reading with checked columns

The checked count either gives the columns of the scan or nothing at all, so all
that holds of a scan holds of a checked one: `Source.parse?_eq`. Comments do not
decide whether a text can be read. Blanks in their place leave the columns of all
other tokens, and so a text that fits still does without them. -/

namespace Offside

namespace Lexeme

/-! ## Scans -/

section

variable {tabWidth : UInt32} {source : String} {s : TokenStream}

theorem mem_scan?_iff : s ∈ scan? tabWidth source ↔
    (∀ tok ∈ (scan tabWidth.toNat source).lexemes, tok.column < UInt32.size) ∧
      scan tabWidth.toNat source = s := by
  rw [scan?_eq, Option.mem_def]
  split <;> simp_all

/-- A checked scan accounts for every character of its text. -/
theorem accounted_of_mem_scan? (h : s ∈ scan? tabWidth source) : Accounted source s := by
  obtain ⟨-, rfl⟩ := mem_scan?_iff.1 h
  obtain ⟨pieces, htiles, hperm⟩ := exists_tiles_scanFrom tabWidth.toNat .start source.toList
  exact htiles.accounted hperm (ends_scan tabWidth.toNat source)

/-- Its lexemes are where a reader finds them. -/
theorem positioned_of_mem_scan? (h : s ∈ scan? tabWidth source) :
    Positioned tabWidth.toNat source s.lexemes := by
  obtain ⟨-, rfl⟩ := mem_scan?_iff.1 h
  exact (placed_scan tabWidth.toNat source).positioned

/-- A stream has no other columns than one that it is like. -/
theorem column_lt_of_alike {bound : Nat} {a b : TokenStream} (h : a.Alike b)
    (hb : ∀ tok ∈ b.lexemes, tok.column < bound) : ∀ tok ∈ a.lexemes, tok.column < bound := by
  intro tok htok
  have hmem : tok.unspanned ∈ b.lexemes.map unspanned := h.lexemes ▸ List.mem_map_of_mem htok
  obtain ⟨tok', htok', heq⟩ := List.mem_map.1 hmem
  have hcolumn : tok'.unspanned.column = tok.unspanned.column := congrArg column heq
  exact Nat.lt_of_le_of_lt (Nat.le_of_eq hcolumn.symm) (hb tok' htok')

/-- A text that has a checked scan has one without its comments too, with the same
tokens, problems and layout. -/
theorem exists_mem_scan?_withoutComments (h : s ∈ scan? tabWidth source) :
    ∃ s' ∈ scan? tabWidth (withoutComments tabWidth.toNat source),
      s'.meaningful.Alike s.meaningful ∧
        (Layout.resolve s'.lexemes).Alike (Layout.resolve s.lexemes) := by
  obtain ⟨hfits, rfl⟩ := mem_scan?_iff.1 h
  have halike := alike_scan tabWidth.toNat source
  refine ⟨_, mem_scan?_iff.2 ⟨column_lt_of_alike halike fun tok htok => ?_, rfl⟩,
    halike.meaningful, alike_resolve tabWidth.toNat source⟩
  exact hfits tok (List.mem_of_mem_filter htok)

end

/-! ## Texts that fit -/

section

variable (tabWidth : Nat) (source : String)

/-- A text is scanned with a check if its tab width and its columns fit, and then as
without one. -/
theorem scanFit?_eq : scanFit? tabWidth source =
    if tabWidth < UInt32.size ∧ ∀ tok ∈ (scan tabWidth source).lexemes, tok.column < UInt32.size then
      some (scan tabWidth source)
    else none := by
  rw [scanFit?]
  cases hwidth : Column.fit? tabWidth with
  | none =>
    have hlarge := Column.fit?_eq_none_iff.1 hwidth
    rw [if_neg fun h => Nat.not_lt.2 hlarge h.1]
    rfl
  | some width =>
    obtain rfl := Column.fit?_eq_some_iff.1 hwidth
    rw [Option.bind_eq_bind, Option.bind_some, scan?_eq]
    simp only [UInt32.toNat_lt_size, true_and]

theorem columnsFit_iff : columnsFit tabWidth source = true ↔ tabWidth < UInt32.size ∧
    ∀ tok ∈ (scan tabWidth source).lexemes, tok.column < UInt32.size := by
  rw [columnsFit, scanFit?_eq]
  split <;> simp_all

theorem scanFit?_eq_of_columnsFit : scanFit? tabWidth source =
    if columnsFit tabWidth source = true then some (scan tabWidth source) else none := by
  simp only [columnsFit_iff, scanFit?_eq]

end

end Lexeme

namespace Source

/-- A text whose columns fit is read as by numbers of any size, and any other text is
not read at all. -/
theorem parse?_eq (options : Options) (source : String) : parse? options source =
    if Lexeme.columnsFit options.tabWidth source = true then some (parse options source)
    else none := by
  rw [parse?, tokens?, Lexeme.scanFit?_eq_of_columnsFit]
  split <;> rfl

example : (parse? { tabWidth := 4294967295 } "\tx = y").isNone = true := by decide +kernel

/-- Only texts of billions of characters, or with tab stops as far apart, are not read. -/
theorem parse?_eq_some_of_short {options : Options} {source : String}
    (hwidth : options.tabWidth < UInt32.size)
    (h : source.toList.length + source.toList.count '\t' * (options.tabWidth - 1) <
      UInt32.size - 1) : parse? options source = some (parse options source) := by
  rw [parse?_eq, if_pos]
  exact (Lexeme.columnsFit_iff ..).2 ⟨hwidth, Lexeme.column_lt_of_short h⟩

end Source

end Offside
