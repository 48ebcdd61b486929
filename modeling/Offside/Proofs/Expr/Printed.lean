-- SUMMARY: A calculus for printed texts: the tokens they spell, and as what these are put out.
import Mathlib.Tactic.Simps.Basic
import Offside.Proofs.Expr.Respan
import Offside.Proofs.Expr.Written
import Offside.Proofs.Lexeme.Spelled

/-! # Printed texts

`Prints` says of a text in one line which tokens it spells, and as what they are
put out when layout is resolved: the blocks of its `let` forms are in braces in
the text and between markers after. `LinesPrint` says the same of an item in
lines. Two things are asked of the text: its names are words, and nothing in it
looks like the start of a comment. -/

namespace Offside

open Lexeme (IsWord Spells SpellsLine)
open Layout (Lays LaysItem)

/-- Blocks in braces, with semicolons between items. -/
def Style.braces : Style := ⟨[.lbrace], [.semicolon], [.rbrace], List.map (·.2)⟩

/-- A token that can be read off its written form. All but names always can. -/
def Token.Legible : Token → Prop
  | .ident name => IsWord name.toList (.ident name)
  | _ => True

theorem infix_intercalate {α : Type} {sep x : List α} {xs : List (List α)} (hx : x ∈ xs) :
    x <:+: sep.intercalate xs := by
  induction xs with
  | nil => simp at hx
  | cons y ys ih =>
    cases ys with
    | nil =>
      obtain rfl := List.mem_singleton.1 hx
      simp [List.intercalate]
    | cons z zs =>
      rw [List.intercalate_cons_cons]
      rcases List.mem_cons.1 hx with rfl | hx
      · exact ⟨[], sep ++ sep.intercalate (z :: zs), by simp⟩
      · exact (ih hx).trans (List.suffix_append _ _).isInfix

theorem mem_intercalate {α β : Type} {f : α → List β} {xs : List α} {sep : List β} {x : α} {b : β}
    (hx : x ∈ xs) (hb : b ∈ f x) : b ∈ sep.intercalate (xs.map f) :=
  (infix_intercalate (List.mem_map_of_mem hx)).subset hb

/-! ## Comments -/

/-- The characters that start a block comment do not occur. -/
def Uncommented (text : List Char) : Prop := ¬ ['\x7b', '-'] <:+: text

namespace Uncommented

variable {text part first second : List Char}

theorem of_part (h : Uncommented text) (hpart : part <:+: text) : Uncommented part :=
  fun hopen => h (hopen.trans hpart)

theorem of_append (h : Uncommented (first ++ second)) : Uncommented first ∧ Uncommented second :=
  ⟨h.of_part (List.prefix_append _ _).isInfix, h.of_part (List.suffix_append _ _).isInfix⟩

theorem of_cons {c : Char} (h : Uncommented (c :: text)) : Uncommented text :=
  h.of_part (List.suffix_cons c text).isInfix

end Uncommented

/-! ## Texts in one line -/

/-- If nothing in it starts a comment and its names are words, the text spells
`raw`, and that is put out as `out`. -/
def Prints (text : String) (raw out : List Token) : Prop :=
  Uncommented text.toList → (∀ t ∈ raw, t.Legible) → Spells text.toList raw ∧ Lays raw out

namespace Prints

variable {a b : String} {ts ts' us us' : List Token} {t : Token}

theorem of_toList (h : Prints b ts us) (heq : a.toList = b.toList) : Prints a ts us := by
  rw [Prints, heq]
  exact h

/-- A reserved word that neither opens nor closes a block. -/
theorem word (h : (a, t) ∈ Token.reserved) (hwritten : t.isWritten = true) (hflat : t.isFlat = true) :
    Prints a [t] [t] :=
  fun _ _ => ⟨(Lexeme.isWord_of_mem_reserved h).spells hwritten, .single hflat⟩

theorem blank (ha : Prints a ts us) (hb : Prints b ts' us') :
    Prints (a ++ " " ++ b) (ts ++ ts') (us ++ us') := by
  intro hplain hlegible
  have htext : (a ++ " " ++ b).toList = a.toList ++ ' ' :: b.toList := by simp
  rw [htext] at hplain ⊢
  obtain ⟨hleft, hright⟩ := List.forall_mem_append.1 hlegible
  obtain ⟨hspells, hlays⟩ := ha hplain.of_append.1 hleft
  obtain ⟨hspells', hlays'⟩ := hb hplain.of_append.2.of_cons hright
  exact ⟨hspells.blank hspells', hlays.append hlays'⟩

/-- A word between two texts. -/
theorem between {sep w : String} (ha : Prints a ts us) (hw : Prints w [t] [t])
    (hb : Prints b ts' us') (hsep : sep = " " ++ w ++ " ") :
    Prints (a ++ sep ++ b) (ts ++ t :: ts') (us ++ t :: us') := by
  refine (ha.blank (hw.blank hb)).of_toList ?_
  simp [hsep]

theorem paren (ha : Prints a ts us) :
    Prints ("(" ++ a ++ ")") (.lparen :: ts ++ [.rparen]) (.lparen :: us ++ [.rparen]) := by
  intro hplain hlegible
  have htext : ("(" ++ a ++ ")").toList = '(' :: a.toList ++ [')'] := by simp
  rw [htext] at hplain ⊢
  obtain ⟨hspells, hlays⟩ := ha hplain.of_append.1.of_cons
    (List.forall_mem_cons.1 (List.forall_mem_append.1 hlegible).1).2
  exact ⟨hspells.paren, hlays.brackets (.inl rfl) (.inl rfl)⟩

theorem implicit (ha : Prints a ts us) :
    Prints ("\x7b" ++ a ++ "\x7d") (.lbrace :: ts ++ [.rbrace]) (.lbrace :: us ++ [.rbrace]) := by
  intro hplain hlegible
  have htext : ("\x7b" ++ a ++ "\x7d").toList = '\x7b' :: a.toList ++ ['\x7d'] := by simp
  rw [htext] at hplain ⊢
  obtain ⟨hspells, hlays⟩ := ha hplain.of_append.1.of_cons
    (List.forall_mem_cons.1 (List.forall_mem_append.1 hlegible).1).2
  refine ⟨hspells.implicit ?_, hlays.brackets (.inr rfl) (.inr rfl)⟩
  rintro c hc rfl
  obtain ⟨cs, hcs⟩ := List.head?_eq_some_iff.1 hc
  rw [hcs] at hplain
  exact hplain ⟨[], cs ++ ['\x7d'], rfl⟩

theorem backslash (ha : Prints a ts us) :
    Prints ("\\" ++ a) (.backslash :: ts) (.backslash :: us) := by
  intro hplain hlegible
  have htext : ("\\" ++ a).toList = '\\' :: a.toList := by simp
  rw [htext] at hplain ⊢
  obtain ⟨hspells, hlays⟩ := ha hplain.of_cons (List.forall_mem_cons.1 hlegible).2
  exact ⟨hspells.backslash, (Lays.single rfl).append hlays⟩

theorem dotted (ha : Prints a ts us) (hb : Prints b ts' us') :
    Prints (a ++ "." ++ b) (ts ++ .dot :: ts') (us ++ .dot :: us') := by
  intro hplain hlegible
  have htext : (a ++ "." ++ b).toList = a.toList ++ '.' :: b.toList := by simp
  rw [htext] at hplain ⊢
  obtain ⟨hleft, hright⟩ := List.forall_mem_append.1 hlegible
  obtain ⟨hspells, hlays⟩ := ha hplain.of_append.1 hleft
  obtain ⟨hspells', hlays'⟩ := hb hplain.of_append.2.of_cons (List.forall_mem_cons.1 hright).2
  exact ⟨hspells.dotted hspells', hlays.append ((Lays.single rfl).append hlays')⟩

/-! ## Lists -/

section

variable {α : Type} {text : α → String} {raw out : α → List Token} {xs : List α}

/-- Texts with blanks between them. -/
theorem unwords (h : ∀ x ∈ xs, Prints (text x) (raw x) (out x)) (hne : xs ≠ []) :
    Prints (" ".intercalate (xs.map text)) (xs.flatMap raw) (xs.flatMap out) := by
  induction xs with
  | nil => exact absurd rfl hne
  | cons x xs ih =>
    obtain ⟨hx, hxs⟩ := List.forall_mem_cons.1 h
    cases xs with
    | nil => simpa using hx
    | cons y ys =>
      refine (hx.blank (ih hxs (by simp))).of_toList ?_
      simp [String.toList_intercalate]

/-- A text, and texts after blanks. -/
theorem unwordsCons (ha : Prints a ts us) (h : ∀ x ∈ xs, Prints (text x) (raw x) (out x)) :
    Prints (" ".intercalate (a :: xs.map text)) (ts ++ xs.flatMap raw) (us ++ xs.flatMap out) := by
  cases xs with
  | nil => simpa using ha
  | cons x xs =>
    refine (ha.blank (unwords h (by simp))).of_toList ?_
    simp [String.toList_intercalate]

/-- Items in braces, as they stand after a blank. -/
theorem items (h : ∀ x ∈ xs, Prints (text x) (raw x) (out x))
    (hplain : Uncommented (braced (xs.map text)).toList)
    (hlegible : ∀ x ∈ xs, ∀ t ∈ raw x, t.Legible) :
    ∃ cs, (braced (xs.map text)).toList = ' ' :: cs ∧
      Spells cs (.lbrace :: [Token.semicolon].intercalate (xs.map raw) ++ [.rbrace]) ∧
      Lays ([Token.semicolon].intercalate (xs.map raw)) ([Token.semicolon].intercalate (xs.map out)) := by
  cases xs with
  | nil =>
    exact ⟨['\x7b', ' ', '\x7d'], by simp [braced], Lexeme.spells_lbrace.blank Lexeme.spells_rbrace, .nil⟩
  | cons x xs =>
    have htext : (braced ((x :: xs).map text)).toList = ' ' :: (['\x7b'] ++ ' ' ::
        ((' ' :: [';'] ++ [' ']).intercalate (((x :: xs).map text).map String.toList) ++
          ' ' :: ['\x7d'])) := by
      rw [List.map_cons, braced]
      · simp [String.toList_intercalate]
      · simp
    rw [htext] at hplain
    have heach : ∀ y ∈ x :: xs, Spells (text y).toList (raw y) ∧ Lays (raw y) (out y) := by
      intro y hy
      refine h y hy (hplain.of_cons.of_append.2.of_cons.of_append.1.of_part ?_) (hlegible y hy)
      exact infix_intercalate (List.mem_map_of_mem (List.mem_map_of_mem hy))
    refine ⟨_, htext, ?_, ?_⟩
    · have hspells : List.Forall₂ Spells (((x :: xs).map text).map String.toList)
          ((x :: xs).map raw) := by
        rw [List.map_map, List.forall₂_map_left_iff, List.forall₂_map_right_iff, List.forall₂_same]
        exact fun y hy => (heach y hy).1
      have hinside := Spells.intercalate Lexeme.spells_semicolon hspells (by simp)
      have hall := Lexeme.spells_lbrace.blank (hinside.blank Lexeme.spells_rbrace)
      exact hall
    · exact .intercalate rfl fun y hy => (heach y hy).2

/-- Items in braces that delimit no block. -/
theorem bracketed (ha : Prints a ts us) (h : ∀ x ∈ xs, Prints (text x) (raw x) (out x)) :
    Prints (a ++ braced (xs.map text))
      (ts ++ .lbrace :: [Token.semicolon].intercalate (xs.map raw) ++ [.rbrace])
      (us ++ .lbrace :: [Token.semicolon].intercalate (xs.map out) ++ [.rbrace]) := by
  intro hplain hlegible
  rw [String.toList_append] at hplain ⊢
  rw [List.append_assoc, List.forall_mem_append] at hlegible
  obtain ⟨cs, htext, hspells, hlays⟩ := items h hplain.of_append.2 fun x hx t ht =>
    hlegible.2 t (by simpa using .inr (.inl (mem_intercalate hx ht)))
  obtain ⟨hspells', hlays'⟩ := ha hplain.of_append.1 hlegible.1
  rw [htext]
  have hall := hlays'.append (hlays.brackets (.inr rfl) (.inr rfl))
  have hspelled := hspells'.blank hspells
  exact ⟨by simpa using hspelled, by simpa using hall⟩

/-- The block of a keyword, in braces. -/
theorem block {w : String} {kind : Layout.BlockKind} (hw : (w, t) ∈ Token.reserved)
    (hannounced : Layout.announced t = some kind)
    (h : ∀ x ∈ xs, Prints (text x) (raw x) (out x)) :
    Prints (w ++ braced (xs.map text)) (t :: Style.braces.block (xs.map raw))
      (t :: (Style.marked .semicolon).block (xs.map out)) := by
  intro hplain hlegible
  rw [String.toList_append] at hplain ⊢
  obtain ⟨cs, htext, hspells, hlays⟩ := items h hplain.of_append.2 fun x hx t ht =>
    (List.forall_mem_cons.1 hlegible).2 t (by
      simpa [Style.block, Style.braces] using .inr (.inl (mem_intercalate hx ht)))
  rw [htext]
  have hwritten : t.isWritten = true := by
    cases t <;> first | rfl | simp [Layout.announced] at hannounced
  exact ⟨((Lexeme.isWord_of_mem_reserved hw).spells hwritten).blank hspells, hlays.block hannounced⟩

end

end Prints

/-! ## Names and leaves -/

theorem Prints.name (n : Name) : Prints n.text [n.token] [n.token] := by
  intro _ hlegible
  have hword : IsWord n.text.toList n.token := hlegible n.token List.mem_cons_self
  exact ⟨hword.spells rfl, .single rfl⟩

theorem Prints.boundName (n : Name) : Prints n.text [n.boundToken] [n.boundToken] := by
  unfold Name.boundToken
  split
  · rename_i hname
    rw [hname]
    exact .word (by simp [Token.reserved]) rfl rfl
  · exact .name n

theorem Prints.names {names : List Name} (hne : names ≠ []) :
    Prints (Name.listText names) (names.map Name.token) (names.map Name.token) := by
  have hunwords : Prints (Name.listText names) _ _ := .unwords (fun n _ => .name n) hne
  rwa [← List.map_eq_flatMap] at hunwords

theorem Prints.boundNames {names : List Name} (hne : names ≠ []) :
    Prints (Name.listText names) (names.map Name.boundToken) (names.map Name.boundToken) := by
  have hunwords : Prints (Name.listText names) _ _ := .unwords (fun n _ => .boundName n) hne
  rwa [← List.map_eq_flatMap] at hunwords

theorem Prints.qualified {q : QualifiedName} (hne : q.segments ≠ []) :
    Prints q.text q.tokens q.tokens := by
  obtain ⟨span, segments⟩ := q
  induction segments with
  | nil => exact absurd rfl hne
  | cons n ns ih =>
    cases ns with
    | nil =>
      refine (Prints.name n).of_toList ?_
      simp [QualifiedName.text]
    | cons m ns =>
      have hdotted := (Prints.name n).dotted (ih (by simp))
      rw [QualifiedName.tokens_cons] at hdotted ⊢
      refine hdotted.of_toList ?_
      simp [QualifiedName.text, String.toList_intercalate]

theorem Prints.integer {n : Nat} (h : n < UInt64.size) :
    Prints (toString n) [.integer (.ofNat n)] [.integer (.ofNat n)] :=
  fun _ _ => ⟨(Lexeme.isWord_toString h).spells rfl, .single rfl⟩

theorem Prints.leaf {l : Leaf} (hne : ∀ q, l = .name q → q.segments ≠ []) :
    Prints l.text l.tokens l.tokens := by
  cases l with
  | name q => exact .qualified (hne q rfl)
  | hole => exact .word (a := "_") (by simp [Token.reserved]) rfl rfl
  | unit =>
    have htext : "()".toList = ['(', ')'] := by simp
    exact fun _ _ => ⟨by rw [Leaf.text, htext]; exact Lexeme.spells_unit, .single rfl⟩
  | type => exact .word (a := "Type") (by simp [Token.reserved]) rfl rfl
  | integer span value =>
    have hinteger := Prints.integer value.toNat_lt
    rw [UInt64.ofNat_toNat] at hinteger
    exact hinteger

/-! ## Expressions -/

/-- The surface form of the expression prints it. -/
def ExprPrints (e : Expr) : Prop :=
  Prints e.print (e.tokens .braces) (e.tokens (.marked .semicolon))

theorem prints_arrow : Prints "->" [.arrow] [.arrow] := .word (by simp [Token.reserved]) rfl rfl

theorem prints_in : Prints "in" [.kwIn] [.kwIn] := fun _ _ =>
  ⟨(Lexeme.isWord_of_mem_reserved (by simp [Token.reserved])).spells rfl, .kwIn⟩

theorem prints_colon : Prints ":" [.colon] [.colon] := .word (by simp [Token.reserved]) rfl rfl

theorem prints_equals : Prints "=" [.equals] [.equals] := .word (by simp [Token.reserved]) rfl rfl

theorem prints_param {p : Param Expr} (hne : p.names ≠ []) (h : ExprPrints p.type) :
    Prints (printParam p) (writeParam .braces p) (writeParam (.marked .semicolon) p) := by
  have hinside : Prints (Name.listText p.names ++ " : " ++ p.type.print) _ _ :=
    (Prints.boundNames hne).between prints_colon h (by simp)
  rw [printParam_eq, writeParam_eq, writeParam_eq]
  cases p.isImplicit with
  | true => simpa using hinside.implicit
  | false => simpa using hinside.paren

theorem prints_assignment {f : Assignment Expr} (h : ExprPrints f.value) :
    Prints (f.name.text ++ " = " ++ f.value.print) (f.name.token :: .equals :: f.value.tokens .braces)
      (f.name.token :: .equals :: f.value.tokens (.marked .semicolon)) :=
  (Prints.name f.name).between prints_equals h (by simp)

theorem prints_signature {g : Signature Expr} (hne : g.names ≠ []) (h : ExprPrints g.type) :
    Prints (printSignature g) (writeSignature .braces g) (writeSignature (.marked .semicolon) g) :=
  (Prints.names hne).between prints_colon h (by simp)

/-- An expression after a word, if there is one. -/
theorem Prints.option {a sep w : String} {ts us : List Token} {t : Token} (ha : Prints a ts us)
    (hw : Prints w [t] [t]) (hsep : sep = " " ++ w ++ " ") {o : Option Expr}
    (h : ∀ e ∈ o, ExprPrints e) : Prints (a ++ printOption sep o) (ts ++ writeOption .braces t o)
      (us ++ writeOption (.marked .semicolon) t o) := by
  cases o with
  | none => simpa [printOption, writeOption] using ha
  | some e =>
    refine (ha.between hw (h e rfl) hsep).of_toList ?_
    simp [printOption]

theorem prints_header {h : Header Expr}
    (hparams : ∀ p ∈ h.params, p.names ≠ [] ∧ ExprPrints p.type) (htype : ∀ e ∈ h.type, ExprPrints e) :
    Prints (printHeader h) (writeHeader .braces h) (writeHeader (.marked .semicolon) h) := by
  rw [printHeader_eq, writeHeader_eq, writeHeader_eq]
  refine Prints.option ?_ prints_colon (by simp) htype
  exact (Prints.name h.name).unwordsCons fun p hp => prints_param (hparams p hp).1 (hparams p hp).2

/-! ## Lines -/

/-- If nothing in them starts a comment and the names of `raw` are words, the
lines are an item of a block that is put out as `out`. -/
def LinesPrint (texts : List String) (raw out : List Token) : Prop :=
  (∀ text ∈ texts, Uncommented text.toList) → (∀ t ∈ raw, t.Legible) →
    ∃ lines, List.Forall₂ SpellsLine (texts.map String.toList) lines ∧ LaysItem lines out

/-- A line may begin with these tokens. -/
def Leads (ts : List Token) : Prop :=
  ∀ t ∈ ts.head?, t ≠ .lbrace ∧ t ≠ .kwIn ∧ t.closesBracket = false

theorem Leads.nil : Leads [] := by simp [Leads]

theorem Leads.append {ts us : List Token} (hts : Leads ts) (hus : Leads us) : Leads (ts ++ us) := by
  cases ts with
  | nil => exact hus
  | cons t ts => exact hts

theorem Leads.cons {t : Token} {ts : List Token} (h : t ≠ .lbrace ∧ t ≠ .kwIn ∧ t.closesBracket = false) :
    Leads (t :: ts) := by
  rintro _ ⟨⟩
  exact h

theorem Leads.exists_first {ts : List Token} (h : Leads ts) (hne : ts ≠ []) :
    ∃ t ∈ ts.head?, t ≠ .lbrace ∧ t ≠ .kwIn ∧ t.closesBracket = false := by
  cases ts with
  | nil => exact absurd rfl hne
  | cons t ts => exact ⟨t, rfl, h t rfl⟩

theorem LinesPrint.single {text : String} {raw out : List Token} (h : Prints text raw out)
    (hleads : Leads raw) : LinesPrint [text] raw out := by
  intro hplain hlegible
  obtain ⟨hspells, hlays⟩ := h (hplain text List.mem_cons_self) hlegible
  refine ⟨[⟨0, raw⟩], .cons ⟨⟨_, rfl, hspells⟩, ?_⟩ .nil, .single hlays⟩
  exact hleads.exists_first hspells.ne_nil

section

variable {α : Type} {texts : α → List String} {raw out : α → List Token} {xs : List α}

theorem exists_lines (h : ∀ x ∈ xs, LinesPrint (texts x) (raw x) (out x))
    (hplain : ∀ text ∈ xs.flatMap texts, Uncommented text.toList)
    (hlegible : ∀ x ∈ xs, ∀ t ∈ raw x, t.Legible) :
    ∃ liness : List (List Layout.Line),
      List.Forall₂ SpellsLine ((xs.flatMap texts).map String.toList) liness.flatten ∧
      List.Forall₂ LaysItem liness (xs.map out) := by
  induction xs with
  | nil => exact ⟨[], .nil, .nil⟩
  | cons x xs ih =>
    obtain ⟨hx, hxs⟩ := List.forall_mem_cons.1 h
    obtain ⟨hlegible, hlegibles⟩ := List.forall_mem_cons.1 hlegible
    rw [List.flatMap_cons, List.forall_mem_append] at hplain
    obtain ⟨lines, hspells, hlays⟩ := hx hplain.1 hlegible
    obtain ⟨liness, hspells', hlays'⟩ := ih hxs hplain.2 hlegibles
    refine ⟨lines :: liness, ?_, .cons hlays hlays'⟩
    rw [List.flatMap_cons, List.map_append, List.flatten_cons]
    exact List.rel_append hspells hspells'

/-- A head with a block below it. -/
theorem LinesPrint.block {head : String} {ts us : List Token} (hhead : Prints head ts us)
    (hleads : Leads ts) (h : ∀ x ∈ xs, LinesPrint (texts x) (raw x) (out x)) :
    LinesPrint (blockLines head (xs.flatMap texts)) (ts ++ .kwWhere :: Style.braces.block (xs.map raw))
      (us ++ .kwWhere :: (Style.marked .blockSep).block (xs.map out)) := by
  intro hplain hlegible
  obtain ⟨hplain, hplains⟩ := List.forall_mem_cons.1 hplain
  rw [List.forall_mem_append, List.forall_mem_cons] at hlegible
  rw [String.toList_append] at hplain
  obtain ⟨hspells, hlays⟩ := hhead hplain.of_append.1 hlegible.1
  obtain ⟨liness, hspells', hlays'⟩ := exists_lines h (fun text htext => by
      have hindented := hplains _ (List.mem_map_of_mem htext)
      rw [String.toList_append] at hindented
      exact hindented.of_append.2) fun x hx t ht => hlegible.2.2 t (by
      simpa [Style.block, Style.braces] using .inr (.inl (mem_intercalate hx ht)))
  refine ⟨_, ?_, .block hlays hspells.ne_nil hlays' 2 (by decide)⟩
  have hkeyword : Spells "where".toList [.kwWhere] :=
    (Lexeme.isWord_of_mem_reserved (by simp [Token.reserved])).spells rfl
  rw [blockLines, List.map_cons]
  refine .cons ⟨⟨(head ++ " where").toList, rfl, ?_⟩, ?_⟩ ?_
  · have hline := hspells.blank hkeyword
    simpa using hline
  · exact (hleads.append (.cons (by simp [Token.closesBracket]))).exists_first (by simp)
  · rw [List.map_map, List.forall₂_map_left_iff, List.forall₂_map_right_iff]
    rw [List.forall₂_map_left_iff] at hspells'
    refine hspells'.imp fun text line hline => ?_
    simpa using hline.indented 2

end

/-! ## Items of blocks -/

/-- An item of a block: in one line and in lines, the tokens it is spelled as,
and what these are put out as in a block in braces and in one by indentation. -/
@[ext] structure Item where
  inline : String
  lines : List String
  raw : List Token
  inlineOut : List Token
  linesOut : List Token

namespace Item

/-- Both forms of the item print it. -/
structure Printed (item : Item) : Prop where
  inline : Prints item.inline item.raw item.inlineOut
  lines : LinesPrint item.lines item.raw item.linesOut

/-- An item that is always in one line. -/
@[simps] def line (text : String) (raw out : List Token) : Item := ⟨text, [text], raw, out, out⟩

/-- An item with a block of its own. -/
@[simps] def block (head : String) (raw out : List Token) (items : List Item) : Item where
  inline := head ++ " where" ++ braced (items.map Item.inline)
  lines := blockLines head (items.flatMap Item.lines)
  raw := raw ++ .kwWhere :: Style.braces.block (items.map Item.raw)
  inlineOut := out ++ .kwWhere :: (Style.marked .semicolon).block (items.map Item.inlineOut)
  linesOut := out ++ .kwWhere :: (Style.marked .blockSep).block (items.map Item.linesOut)

theorem printed_line {text : String} {raw out : List Token} (h : Prints text raw out)
    (hleads : Leads raw) : (line text raw out).Printed :=
  ⟨h, .single h hleads⟩

theorem printed_block {head : String} {raw out : List Token} {items : List Item}
    (h : Prints head raw out) (hleads : Leads raw) (hitems : ∀ item ∈ items, item.Printed) :
    (block head raw out items).Printed := by
  refine ⟨?_, .block h hleads fun item hitem => (hitems item hitem).lines⟩
  have hblock : Prints ("where" ++ braced (items.map Item.inline)) _ _ :=
    .block (t := .kwWhere) (by simp [Token.reserved]) rfl fun item hitem => (hitems item hitem).inline
  refine (h.blank hblock).of_toList ?_
  simp [block]

end Item

/-- A constructor as an item. -/
def signatureItem (g : Signature Expr) : Item :=
  .line (printSignature g) (writeSignature .braces g) (writeSignature (.marked .semicolon) g)

/-- The name of the constructor of a record type as an item. -/
def builderItem (n : Name) : Item :=
  .line ("constructor " ++ n.text) [.kwConstructor, n.token] [.kwConstructor, n.token]

/-- A field of a record type as an item. -/
def fieldItem (g : Signature Expr) : Item :=
  .line ("field " ++ printSignature g) (.kwField :: writeSignature .braces g)
    (.kwField :: writeSignature (.marked .semicolon) g)

/-- A declaration as an item. -/
@[simps] def declItem (d : Decl Expr) : Item where
  inline := printInline d
  lines := d.lines
  raw := writeDecl .braces .braces d
  inlineOut := writeDecl (.marked .semicolon) (.marked .semicolon) d
  linesOut := writeDecl (.marked .blockSep) (.marked .semicolon) d

/-- The surface form of the declaration prints it. -/
def DeclPrints (d : Decl Expr) : Prop := (declItem d).Printed

/-- A reserved word and what follows it. -/
theorem Prints.keyword {a b w : String} {t : Token} {ts us : List Token} (h : Prints a ts us)
    (hw : (w, t) ∈ Token.reserved) (hwritten : t.isWritten = true) (hflat : t.isFlat = true)
    (htext : b.toList = w.toList ++ ' ' :: a.toList) : Prints b (t :: ts) (t :: us) := by
  refine ((Prints.word hw hwritten hflat).blank h).of_toList ?_
  simp [htext]

theorem Leads.name (n : Name) (ts : List Token) : Leads (n.token :: ts) :=
  .cons (by simp [Token.closesBracket, Name.token])

theorem leads_names {names : List Name} {ts : List Token} (hne : names ≠ []) :
    Leads (names.map Name.token ++ ts) := by
  obtain ⟨n, ns, rfl⟩ := List.exists_cons_of_ne_nil hne
  exact .name n _

theorem printed_signature {g : Signature Expr} (hne : g.names ≠ []) (h : ExprPrints g.type) :
    (signatureItem g).Printed :=
  Item.printed_line (prints_signature hne h) (leads_names hne)

theorem printed_builder (n : Name) : (builderItem n).Printed := by
  refine Item.printed_line ?_ (.cons (by simp [Token.closesBracket]))
  exact (Prints.name n).keyword (w := "constructor") (by simp [Token.reserved]) rfl rfl (by simp)

theorem printed_field {g : Signature Expr} (hne : g.names ≠ []) (h : ExprPrints g.type) :
    (fieldItem g).Printed := by
  refine Item.printed_line ?_ (.cons (by simp [Token.closesBracket]))
  exact (prints_signature hne h).keyword (w := "field") (by simp [Token.reserved]) rfl rfl (by simp)

end Offside
