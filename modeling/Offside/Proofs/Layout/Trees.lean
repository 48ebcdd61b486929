-- SUMMARY: Layout resolution finds the blocks of every program that is laid out by the offside rule.
import Offside.Proofs.Layout.Steps

/-! # Trees of blocks

A program that is laid out by the offside rule is a tree: blocks of items, with
blocks inside items after `where` and between `let` and `in`. `Block.WellLaid`
says where the tokens of such a tree may stand, and `Block.laidOut` puts the
markers where the tree has its blocks. Resolution finds the tree from the
columns alone: `resolve_wellLaid`.

One line may close any number of blocks, so the end of a block is put out only
with the token after it. The proof goes from the end of the program to its
start: what is put out for the tokens after an item is known when the item is
looked at. -/

namespace Offside

/-- A token that has no part in the layout. -/
def Token.isOrdinary : Token → Bool
  | .lparen | .rparen | .lbrace | .rbrace | .kwWhere | .kwLet | .kwIn => false
  | .lineComment _ | .blockComment _ | .eof | .blockStart | .blockSep | .blockEnd => false
  | _ => true

namespace Layout

/-! ## Trees -/

mutual

/-- A block: the column of its items, and these. -/
inductive Block where
  | mk (column : Nat) (items : Items)

/-- One or more items. -/
inductive Items where
  | one (item : Item)
  | cons (item : Item) (others : Items)

/-- What is left of an item. A block after `where` ends it. -/
inductive Item where
  | done
  | token (tok : Lexeme) (rest : Item)
  | group (opening : Lexeme) (inside : List Lexeme) (closing : Lexeme) (rest : Item)
  | letBlock (keyword : Lexeme) (block : Block) (closing : Lexeme) (rest : Item)
  | whereBlock (keyword : Lexeme) (block : Block)
  /-- A `where` with no item after it. -/
  | emptyWhere (keyword : Lexeme)

end

/-- The column of the items of a block. -/
def Block.column : Block → Nat
  | .mk column _ => column

mutual

/-- The tokens of a block. -/
def Block.tokens : Block → List Lexeme
  | .mk _ items => items.tokens

/-- The tokens of items. -/
def Items.tokens : Items → List Lexeme
  | .one item => item.tokens
  | .cons item others => item.tokens ++ others.tokens

/-- The tokens of an item. -/
def Item.tokens : Item → List Lexeme
  | .done => []
  | .token tok rest => tok :: rest.tokens
  | .group opening inside closing rest => opening :: (inside ++ closing :: rest.tokens)
  | .letBlock keyword block closing rest => keyword :: (block.tokens ++ closing :: rest.tokens)
  | .whereBlock keyword block => keyword :: block.tokens
  | .emptyWhere keyword => [keyword]

end

/-- The tokens of an item whose column counts: those in no group and no block
inside it, and not the `in` after a block. -/
def Item.outside : Item → List Lexeme
  | .done => []
  | .token tok rest => tok :: rest.outside
  | .group opening _ _ rest => opening :: rest.outside
  | .letBlock keyword _ _ rest => keyword :: rest.outside
  | .whereBlock keyword _ | .emptyWhere keyword => [keyword]

/-- An item is not empty, and its lines after the first are further to the right
than `column`. -/
def Item.Hangs (item : Item) (column : Nat) : Prop :=
  item.tokens ≠ [] ∧ ∀ tok ∈ item.outside.tail, tok.lineStart = true → column < tok.column

mutual

/-- The first token of a block is at its column. -/
def Block.WellLaid : Block → Prop
  | .mk column items => (∀ tok ∈ items.tokens.head?, tok.column = column) ∧ items.WellLaid column

/-- Every further item begins a line at the column of the block. -/
def Items.WellLaid : Items → (column : Nat) → Prop
  | .one item, column => item.Hangs column ∧ item.WellLaid column
  | .cons item others, column => (item.Hangs column ∧ item.WellLaid column) ∧
    (∀ tok ∈ others.tokens.head?, tok.lineStart = true ∧ tok.column = column) ∧
    others.WellLaid column

/-- Groups hold ordinary tokens only, and blocks inside an item are further to
the right. -/
def Item.WellLaid : Item → (column : Nat) → Prop
  | .done, _ => True
  | .token tok rest, column => tok.token.isOrdinary = true ∧ rest.WellLaid column
  | .group opening inside closing rest, column => opening.token = .lparen ∧
    (∀ tok ∈ inside, tok.token.isOrdinary = true) ∧ closing.token = .rparen ∧ rest.WellLaid column
  | .letBlock keyword block closing rest, column => keyword.token = .kwLet ∧ block.WellLaid ∧
    column < block.column ∧ closing.token = .kwIn ∧ rest.WellLaid column
  | .whereBlock keyword block, column => keyword.token = .kwWhere ∧ block.WellLaid ∧
    column < block.column
  | .emptyWhere keyword, _ => keyword.token = .kwWhere

end

/-- The marker `t` before `toks`, at the place of the first of them. -/
def mark (t : Token) : (toks : List Lexeme) → List Lexeme
  | [] => []
  | tok :: toks => .marker t tok :: tok :: toks

mutual

/-- A block between its markers, and `after` following it. -/
def Block.laidOut : Block → (after : List Lexeme) → List Lexeme
  | .mk _ items, after => mark .blockStart (items.laidOut (mark .blockEnd after))

/-- Items with separators between. -/
def Items.laidOut : Items → (after : List Lexeme) → List Lexeme
  | .one item, after => item.laidOut after
  | .cons item others, after => item.laidOut (mark .blockSep (others.laidOut after))

/-- An item with markers around the blocks in it. -/
def Item.laidOut : Item → (after : List Lexeme) → List Lexeme
  | .done, after => after
  | .token tok rest, after => tok :: rest.laidOut after
  | .group opening inside closing rest, after =>
    opening :: (inside ++ closing :: rest.laidOut after)
  | .letBlock keyword block closing rest, after =>
    keyword :: block.laidOut (closing :: rest.laidOut after)
  | .whereBlock keyword block, after => keyword :: block.laidOut after
  | .emptyWhere keyword, after => keyword :: mark .blockStart (mark .blockEnd after)

end

/-! ## What is put out up to the end of file -/

/-- From `state` on, the tokens `toks` and the end of file are put out as `out`
without a problem. What is put out first stands at the place of the next
token. -/
structure Yields (eof : Lexeme) (state : State) (toks out : List Lexeme) : Prop where
  eq : (steps state toks).1 ++ finish (steps state toks).2 eof = ⟨out, []⟩
  mark_eq : ∀ t, mark t out = .marker t (toks.headD eof) :: out

namespace Yields

variable {eof tok : Lexeme} {state state' : State} {toks out : List Lexeme} {stack : List Frame}

theorem nil (eof : Lexeme) : Yields eof ⟨[], none⟩ [] [eof] := ⟨rfl, fun _ => rfl⟩

theorem cons {first : Lexeme} {others : List Lexeme}
    (hstep : step state tok = (⟨first :: others, []⟩, state'))
    (hplace : ∀ t, Lexeme.marker t first = .marker t tok) (h : Yields eof state' toks out) :
    Yields eof state (tok :: toks) (first :: others ++ out) := by
  refine ⟨?_, fun t => ?_⟩
  · rw [steps_cons, hstep, TokenStream.append_assoc, h.eq]
    rfl
  · change Lexeme.marker t first :: _ = _
    rw [hplace]
    rfl

/-- The token puts out markers and then what it does from another state. -/
theorem markers {t : Token} (ms : List Lexeme) {stream : TokenStream}
    (hstep : step state tok = (⟨.marker t tok :: ms, []⟩ ++ stream, state'))
    (hstep' : step ⟨stack, none⟩ tok = (stream, state'))
    (h : Yields eof ⟨stack, none⟩ (tok :: toks) out) :
    Yields eof state (tok :: toks) (.marker t tok :: ms ++ out) := by
  refine ⟨?_, fun _ => rfl⟩
  have heq := h.eq
  rw [steps_cons, hstep', TokenStream.append_assoc] at heq
  rw [steps_cons, hstep, TokenStream.append_assoc, TokenStream.append_assoc, heq]
  rfl

/-- A token that is put out as it is. -/
theorem plain (hstep : step state tok = (⟨[tok], []⟩, state')) (h : Yields eof state' toks out) :
    Yields eof state (tok :: toks) (tok :: out) := h.cons hstep fun _ => rfl

end Yields

/-! ## Ends of blocks -/

/-- Tokens that an item can begin with. -/
def startsItem (t : Token) : Bool := t.isOrdinary || t = .lparen || t = .kwLet || t = .kwWhere

/-- Such a token is compared with the open blocks at the start of a line. -/
theorem put_of_startsItem {tok : Lexeme} (h : startsItem tok.token = true) (opened : Bool)
    (stack : List Frame) : put tok opened stack =
      if tok.lineStart && !opened then
        ((dedent tok none stack).1 ++ (putPlain tok (dedent tok none stack).2).1,
          (putPlain tok (dedent tok none stack).2).2)
      else putPlain tok stack := by
  unfold put
  cases ht : tok.token <;> simp_all [startsItem, Token.isOrdinary]

/-- A line that begins with such a token. -/
theorem step_line {tok : Lexeme} (h : startsItem tok.token = true) (hline : tok.lineStart = true)
    (stack : List Frame) : step ⟨stack, none⟩ tok =
      ((dedent tok none stack).1 ++ ⟨[tok], []⟩, (putPlain tok (dedent tok none stack).2).2) := by
  simp only [step, put_of_startsItem h, hline]
  rfl

/-- What follows closes every block that is opened on `stack`: the end of file,
an `in` for a `let` on it, or a line that is not to the right of it. -/
inductive Ends : (stack : List Frame) → List Lexeme → Prop
  | eof {stack} : Ends stack []
  | kwIn {stack tok toks} (isIn : tok.token = .kwIn) (isOpen : (closeLet? stack).isSome = true) :
      Ends stack (tok :: toks)
  | line {kind column stack tok toks} (starts : startsItem tok.token = true)
      (lineStart : tok.lineStart = true) (le : tok.column ≤ column) :
      Ends (.implicit kind column :: stack) (tok :: toks)

/-- A block at `column` may be opened on `stack`. -/
def HasRoom (stack : List Frame) (column : Nat) : Prop := stack = [] ∨ margin stack < column

section

variable {eof tok : Lexeme} {toks out : List Lexeme} {stack : List Frame} {column : Nat}

theorem Ends.push (h : Ends stack toks) (hroom : HasRoom stack column) :
    Ends (.implicit .body column :: stack) toks := by
  cases h with
  | eof => exact .eof
  | kwIn isIn isOpen => exact .kwIn isIn (by simpa [closeLet?] using isOpen)
  | line starts lineStart le =>
    have hlt : _ < column := hroom.resolve_left (List.cons_ne_nil _ _)
    exact .line starts lineStart (Nat.le_trans le (Nat.le_of_lt hlt))

/-- If a line is not to the right of the innermost block, it does not matter
whether it has closed other blocks before. -/
theorem dedent_of_le {kind : BlockKind} (inner : Option Nat) (hle : tok.column ≤ column) :
    dedent tok inner (.implicit kind column :: stack) =
      dedent tok none (.implicit kind column :: stack) := by
  simp [dedent, Nat.not_lt.2 hle]

/-- An `in` with a `let` to close. -/
theorem exists_step_kwIn (hin : tok.token = .kwIn) (hopen : (closeLet? stack).isSome = true) :
    ∃ count left, closeLet? stack = some (count, left) ∧
      step ⟨stack, none⟩ tok = (⟨ends count tok ++ [tok], []⟩, ⟨left, none⟩) := by
  obtain ⟨⟨count, left⟩, hclose⟩ := Option.isSome_iff_exists.1 hopen
  exact ⟨count, left, hclose, by simp [step, put, hin, hclose]⟩

/-- A block that nothing but its end was missing of. -/
theorem Yields.close (h : Yields eof ⟨stack, none⟩ toks out) (hends : Ends stack toks)
    (hroom : HasRoom stack column) :
    Yields eof ⟨.implicit .body column :: stack, none⟩ toks (mark .blockEnd out) := by
  rw [h.mark_eq]
  cases hends with
  | eof =>
    refine ⟨?_, fun _ => rfl⟩
    have hfinish : finish ⟨.implicit .body column :: stack, none⟩ eof =
        ⟨[.marker .blockEnd eof], []⟩ ++ finish ⟨stack, none⟩ eof := rfl
    have heq : finish ⟨stack, none⟩ eof = ⟨out, []⟩ := h.eq
    change finish ⟨.implicit .body column :: stack, none⟩ eof = _
    rw [hfinish, heq]
    rfl
  | @kwIn _ tok toks isIn isOpen =>
    obtain ⟨count, left, hclose, hstep⟩ := exists_step_kwIn isIn isOpen
    refine h.markers [] ?_ hstep
    simp only [step, put, isIn, closeLet?, hclose]
    rfl
  | @line kind outer stack tok toks starts lineStart le =>
    have hlt : outer < column := hroom.resolve_left (List.cons_ne_nil _ _)
    refine h.markers [] ?_ (step_line starts lineStart _)
    have hdedent : dedent tok none (.implicit .body column :: .implicit kind outer :: stack) =
        (⟨[.marker .blockEnd tok], []⟩ ++ (dedent tok none (.implicit kind outer :: stack)).1,
          (dedent tok none (.implicit kind outer :: stack)).2) := by
      rw [dedent, if_neg (by omega), if_neg (by omega), dedent_of_le _ le]
      rfl
    rw [step_line starts lineStart, hdedent]
    rfl

/-- A `where` without items. An `in` opens the block and closes it again. -/
theorem Yields.empty (h : Yields eof ⟨stack, none⟩ toks out) (hends : Ends stack toks) :
    Yields eof ⟨stack, some .body⟩ toks (mark .blockStart (mark .blockEnd out)) := by
  rw [h.mark_eq]
  change Yields eof _ toks (.marker .blockStart (toks.headD eof) :: _)
  cases hends with
  | eof =>
    refine ⟨?_, fun _ => rfl⟩
    have hfinish : finish ⟨stack, some .body⟩ eof =
        ⟨[.marker .blockStart eof, .marker .blockEnd eof], []⟩ ++ finish ⟨stack, none⟩ eof := rfl
    have heq : finish ⟨stack, none⟩ eof = ⟨out, []⟩ := h.eq
    change finish ⟨stack, some .body⟩ eof = _
    rw [hfinish, heq]
    rfl
  | @kwIn _ tok toks isIn isOpen =>
    obtain ⟨count, left, hclose, hstep⟩ := exists_step_kwIn isIn isOpen
    refine h.markers [.marker .blockEnd tok] ?_ hstep
    cases hitems : hasItems stack tok with
    | true =>
      simp only [step, isIn, hitems, put, closeLet?, hclose]
      rfl
    | false =>
      simp only [step, isIn, hitems, put, hclose]
      rfl
  | @line kind outer stack tok toks starts lineStart le =>
    have hbrace : tok.token ≠ .lbrace := by
      intro ht
      simp [ht, startsItem, Token.isOrdinary] at starts
    have hitems : hasItems (.implicit kind outer :: stack) tok = false := by
      simp [hasItems, margin, Nat.not_lt.2 le]
    refine h.markers [.marker .blockEnd tok] ?_ rfl
    simp only [step, hbrace, hitems]
    rfl

/-- The `in` after the block of a `let`. -/
theorem Yields.closeLet (h : Yields eof ⟨stack, none⟩ toks out) (hin : tok.token = .kwIn) :
    Yields eof ⟨.implicit .bindings column :: stack, none⟩ (tok :: toks)
      (mark .blockEnd (tok :: out)) := by
  have hstep : step ⟨.implicit .bindings column :: stack, none⟩ tok =
      (⟨[.marker .blockEnd tok, tok], []⟩, ⟨stack, none⟩) := by
    simp [step, put, hin, closeLet?, ends]
  exact h.cons hstep fun _ => rfl

end

/-! ## Items -/

/-- The first of `toks` begins an item or goes on with one, and is put out
without a look at its column. -/
inductive Resumes (eof : Lexeme) (stack : List Frame) : (toks out : List Lexeme) → Prop
  | mk {tok toks out} (starts : startsItem tok.token = true)
      (rest : Yields eof (putPlain tok stack).2 toks out) :
      Resumes eof stack (tok :: toks) (tok :: out)

namespace Resumes

variable {eof : Lexeme} {toks out : List Lexeme} {kind : BlockKind} {column : Nat}
  {stack : List Frame}

/-- A keyword that announces a block. -/
theorem announce {tok : Lexeme} (hkeyword : announced tok.token = some kind)
    (rest : Yields eof ⟨stack, some kind⟩ toks out) :
    Resumes eof stack (tok :: toks) (tok :: out) := by
  refine .mk ?_ ?_
  · cases ht : tok.token <;> simp_all [announced, startsItem]
  · have hplain : (putPlain tok stack).2 = ⟨stack, some kind⟩ := by
      cases ht : tok.token <;> simp_all [announced, putPlain]
    rwa [hplain]

/-- An item goes on, in its line or in one further to the right. -/
theorem goOn (h : Resumes eof (.implicit kind column :: stack) toks out)
    (hright : ∀ tok ∈ toks.head?, tok.lineStart = true → column < tok.column) :
    Yields eof ⟨.implicit kind column :: stack, none⟩ toks out := by
  obtain ⟨starts, rest⟩ := h
  rename_i tok toks out
  refine rest.plain ?_
  cases hline : tok.lineStart with
  | false =>
    simp only [step, put_of_startsItem starts, hline]
    rfl
  | true =>
    have hlt := hright tok rfl hline
    have hdedent : dedent tok none (.implicit kind column :: stack) =
        (.empty, .implicit kind column :: stack) := by
      rw [dedent, if_neg (by omega), if_pos hlt]
    rw [step_line starts hline, hdedent]
    rfl

/-- A further item begins. -/
theorem separate (h : Resumes eof (.implicit kind column :: stack) toks out)
    (hline : ∀ tok ∈ toks.head?, tok.lineStart = true ∧ tok.column = column) :
    Yields eof ⟨.implicit kind column :: stack, none⟩ toks (mark .blockSep out) := by
  obtain ⟨starts, rest⟩ := h
  rename_i tok toks out
  obtain ⟨hstart, rfl⟩ := hline tok rfl
  have hstep : step ⟨.implicit kind tok.column :: stack, none⟩ tok =
      (⟨[.marker .blockSep tok, tok], []⟩,
        (putPlain tok (.implicit kind tok.column :: stack)).2) := by
    rw [step_line starts hstart, dedent, if_pos rfl]
    rfl
  exact rest.cons hstep fun _ => rfl

/-- A further item closes the blocks in the one before. -/
theorem ends (h : Resumes eof (.implicit kind column :: stack) toks out)
    (hline : ∀ tok ∈ toks.head?, tok.lineStart = true ∧ tok.column = column) :
    Ends (.implicit kind column :: stack) toks := by
  obtain ⟨starts, rest⟩ := h
  rename_i tok toks out
  obtain ⟨hstart, rfl⟩ := hline tok rfl
  exact .line starts hstart (Nat.le_refl _)

/-- A block begins. -/
theorem start (h : Resumes eof (.implicit kind column :: stack) toks out)
    (hcolumn : ∀ tok ∈ toks.head?, tok.column = column) (hroom : HasRoom stack column) :
    Yields eof ⟨stack, some kind⟩ toks (mark .blockStart out) := by
  obtain ⟨starts, rest⟩ := h
  rename_i tok toks out
  obtain rfl := hcolumn tok rfl
  have hbrace : tok.token ≠ .lbrace := by
    intro ht
    simp [ht, startsItem, Token.isOrdinary] at starts
  have hitems : hasItems stack tok = true := by
    rcases hroom with rfl | hlt
    · simp [hasItems]
    · simp [hasItems, hlt]
  have hput : put tok true (.implicit kind tok.column :: stack) =
      putPlain tok (.implicit kind tok.column :: stack) := by simp [put_of_startsItem starts]
  have hstep : step ⟨stack, some kind⟩ tok =
      (⟨[.marker .blockStart tok, tok], []⟩,
        (putPlain tok (.implicit kind tok.column :: stack)).2) := by
    simp only [step, hbrace, hitems, hput]
    rfl
  exact rest.cons hstep fun _ => rfl

end Resumes

theorem startsItem_of_isOrdinary {t : Token} (h : t.isOrdinary = true) : startsItem t = true := by
  simp [startsItem, h]

/-- An ordinary token opens and announces nothing. -/
theorem putPlain_of_isOrdinary {tok : Lexeme} (h : tok.token.isOrdinary = true)
    (stack : List Frame) : (putPlain tok stack).2 = ⟨stack, none⟩ := by
  unfold putPlain
  cases ht : tok.token <;> simp_all [Token.isOrdinary, announced]

/-- Between parentheses columns do not matter. -/
theorem Yields.inside {eof : Lexeme} {stack : List Frame} {inside toks out : List Lexeme}
    (h : Yields eof ⟨.bracket :: stack, none⟩ toks out)
    (hinside : ∀ tok ∈ inside, tok.token.isOrdinary = true) :
    Yields eof ⟨.bracket :: stack, none⟩ (inside ++ toks) (inside ++ out) := by
  induction inside with
  | nil => exact h
  | cons tok inside ih =>
    obtain ⟨htok, hinside⟩ := List.forall_mem_cons.1 hinside
    refine (ih hinside).plain ?_
    have hdedent : dedent tok none (.bracket :: stack) = (.empty, .bracket :: stack) := rfl
    have hput : put tok false (.bracket :: stack) = putPlain tok (.bracket :: stack) := by
      rw [put_of_startsItem (startsItem_of_isOrdinary htok), hdedent]
      split <;> rfl
    simp only [step, hput]
    rw [← putPlain_of_isOrdinary htok]
    rfl

/-- The closing parenthesis of a group. -/
theorem Yields.closeParen {eof tok : Lexeme} {stack : List Frame} {toks out : List Lexeme}
    (h : Yields eof ⟨stack, none⟩ toks out) (hparen : tok.token = .rparen) :
    Yields eof ⟨.bracket :: stack, none⟩ (tok :: toks) (tok :: out) := by
  refine h.plain ?_
  simp [step, put, hparen, putCloser, closeInside?, ends]

/-! ## Trees of blocks -/

theorem mem_head?_of_append {xs ys : List Lexeme} {tok : Lexeme} (hne : xs ≠ [])
    (h : tok ∈ (xs ++ ys).head?) : tok ∈ xs.head? := by
  cases xs with
  | nil => exact absurd rfl hne
  | cons x xs => exact h

/-- The first token of an item is one whose column counts. -/
theorem Item.head?_tokens (item : Item) : item.tokens.head? = item.outside.head? := by
  cases item <;> simp [tokens, outside]

theorem Items.tokens_ne_nil {items : Items} {column : Nat} (h : items.WellLaid column) :
    items.tokens ≠ [] := by
  cases items with
  | one item => exact h.1.1
  | cons item others =>
    rw [tokens]
    exact List.append_ne_nil_of_left_ne_nil h.1.1.1 _

/-- What is left of an item, if all of its lines are further to the right. -/
theorem Yields.item {eof : Lexeme} {kind : BlockKind} {column : Nat} {stack : List Frame}
    {toks out : List Lexeme} {item : Item}
    (h : Yields eof ⟨.implicit kind column :: stack, none⟩ toks out)
    (hright : ∀ tok ∈ item.outside, tok.lineStart = true → column < tok.column)
    (hitem : item.Hangs column →
      Resumes eof (.implicit kind column :: stack) (item.tokens ++ toks) (item.laidOut out)) :
    Yields eof ⟨.implicit kind column :: stack, none⟩ (item.tokens ++ toks) (item.laidOut out) := by
  by_cases hne : item.tokens = []
  · obtain rfl : item = .done := by cases item <;> simp [Item.tokens] at hne ⊢
    exact h
  · have hresumes := hitem ⟨hne, fun tok htok => hright tok (List.mem_of_mem_tail htok)⟩
    refine hresumes.goOn fun tok htok => hright tok ?_
    have hhead := mem_head?_of_append hne htok
    rw [Item.head?_tokens] at hhead
    exact List.mem_of_mem_head? hhead

mutual

/-- A block after the token that announces it. What comes after it is known, and
its end is part of that. -/
theorem Block.yields (eof : Lexeme) (kind : BlockKind) (stack : List Frame) (toks out : List Lexeme) :
    (block : Block) → block.WellLaid → HasRoom stack block.column →
    Ends (.implicit kind block.column :: stack) toks →
    Yields eof ⟨.implicit kind block.column :: stack, none⟩ toks (mark .blockEnd out) →
    Yields eof ⟨stack, some kind⟩ (block.tokens ++ toks) (block.laidOut out)
  | .mk column items, ⟨hcolumn, hitems⟩, hroom, hends, h => by
    have hresumes := items.resumes eof kind column stack toks _ hitems hends h
    refine hresumes.start (fun tok htok => hcolumn tok ?_) hroom
    exact mem_head?_of_append (Items.tokens_ne_nil hitems) htok

/-- The items of a block, the first of which is already known to begin here. -/
theorem Items.resumes (eof : Lexeme) (kind : BlockKind) (column : Nat) (stack : List Frame)
    (toks out : List Lexeme) : (items : Items) → items.WellLaid column →
    Ends (.implicit kind column :: stack) toks →
    Yields eof ⟨.implicit kind column :: stack, none⟩ toks out →
    Resumes eof (.implicit kind column :: stack) (items.tokens ++ toks) (items.laidOut out)
  | .one item, ⟨hhangs, hitem⟩, hends, h =>
    item.resumes eof kind column stack toks out hhangs hitem hends h
  | .cons item others, ⟨⟨hhangs, hitem⟩, hline, hothers⟩, hends, h => by
    have hresumes := others.resumes eof kind column stack toks out hothers hends h
    have hline' : ∀ tok ∈ (others.tokens ++ toks).head?,
        tok.lineStart = true ∧ tok.column = column := fun tok htok =>
      hline tok (mem_head?_of_append (Items.tokens_ne_nil hothers) htok)
    rw [Items.tokens, List.append_assoc]
    exact item.resumes eof kind column stack _ _ hhangs hitem (hresumes.ends hline')
      (hresumes.separate hline')

/-- An item that begins here. -/
theorem Item.resumes (eof : Lexeme) (kind : BlockKind) (column : Nat) (stack : List Frame)
    (toks out : List Lexeme) : (item : Item) → item.Hangs column → item.WellLaid column →
    Ends (.implicit kind column :: stack) toks →
    Yields eof ⟨.implicit kind column :: stack, none⟩ toks out →
    Resumes eof (.implicit kind column :: stack) (item.tokens ++ toks) (item.laidOut out)
  | .done, hhangs, _, _, _ => absurd rfl hhangs.1
  | .token tok rest, hhangs, ⟨htok, hrest⟩, hends, h => by
    refine .mk (startsItem_of_isOrdinary htok) ?_
    rw [putPlain_of_isOrdinary htok]
    exact h.item hhangs.2 fun hhangs =>
      rest.resumes eof kind column stack toks out hhangs hrest hends h
  | .group opening inside closing rest, hhangs, ⟨hopening, hinside, hclosing, hrest⟩, hends, h => by
    have hgoesOn := h.item hhangs.2 fun hhangs =>
      rest.resumes eof kind column stack toks out hhangs hrest hends h
    have hplain : (putPlain opening (.implicit kind column :: stack)).2 =
        ⟨.bracket :: .implicit kind column :: stack, none⟩ := by
      simp [putPlain, hopening, announced]
    rw [Item.tokens, List.cons_append, List.append_assoc, List.cons_append]
    refine .mk (by simp [startsItem, hopening]) ?_
    rw [hplain]
    exact (hgoesOn.closeParen hclosing).inside hinside
  | .letBlock keyword block closing rest, hhangs, ⟨hkeyword, hblock, hcolumn, hclosing, hrest⟩,
      hends, h => by
    have hgoesOn := h.item hhangs.2 fun hhangs =>
      rest.resumes eof kind column stack toks out hhangs hrest hends h
    rw [Item.tokens, List.cons_append, List.append_assoc, List.cons_append]
    refine .announce (by rw [hkeyword]; rfl) ?_
    exact block.yields eof .bindings _ _ _ hblock (.inr hcolumn) (.kwIn hclosing rfl)
      (hgoesOn.closeLet hclosing)
  | .whereBlock keyword block, _, ⟨hkeyword, hblock, hcolumn⟩, hends, h => by
    refine .announce (by rw [hkeyword]; rfl) ?_
    exact block.yields eof .body _ _ _ hblock (.inr hcolumn) (hends.push (.inr hcolumn))
      (h.close hends (.inr hcolumn))
  | .emptyWhere keyword, _, hkeyword, hends, h =>
    .announce (congrArg announced hkeyword) (h.empty hends)

end

/-- A program that is laid out by the offside rule has no layout problem, and
resolution puts markers at the blocks and items of its tree. -/
theorem resolve_wellLaid (file : Block) (toks : List Lexeme) (hfile : file.WellLaid)
    (htoks : program toks = file.tokens) :
    ∃ eof, IsEnd toks eof ∧ resolve toks = ⟨file.laidOut [eof], []⟩ := by
  obtain ⟨eof, hend, hresolve⟩ := resolve_eq_of_end toks
  have hclose : Yields eof ⟨[.implicit .body file.column], none⟩ [] (mark .blockEnd [eof]) :=
    (Yields.nil eof).close .eof (.inl rfl)
  have hyields := file.yields eof .body [] [] [eof] hfile (.inl rfl) .eof hclose
  rw [List.append_nil, ← htoks] at hyields
  exact ⟨eof, hend, hresolve.trans hyields.eq⟩

/-- One line closes two blocks, and an `in` closes the block of its `let` together
with the empty block of a `where`:

```
f where
  g = let a
          b where
   in ( c
) where
    h
k
```
-/
theorem resolve_wellLaid_dedents :
    let tok (t : Token) (start line column : Nat) (lineStart : Bool) : Lexeme :=
      ⟨t, ⟨start, start + 1⟩, line, column, lineStart⟩
    let inner : Block := .mk 11 (.cons (.token (tok (.ident "a") 18 2 11 false) .done)
      (.one (.token (tok (.ident "b") 30 3 11 true) (.emptyWhere (tok .kwWhere 32 3 13 false)))))
    let last : Item := .group (tok .lparen 44 4 7 false) [tok (.ident "c") 46 4 9 false]
      (tok .rparen 48 5 1 true) (.whereBlock (tok .kwWhere 50 5 3 false)
        (.mk 5 (.one (.token (tok (.ident "h") 60 6 5 true) .done))))
    let file : Block := .mk 1 (.cons
      (.token (tok (.ident "f") 0 1 1 true) (.whereBlock (tok .kwWhere 2 1 3 false)
        (.mk 3 (.one (.token (tok (.ident "g") 10 2 3 true) (.token (tok .equals 12 2 5 false)
          (.letBlock (tok .kwLet 14 2 7 false) inner (tok .kwIn 41 4 4 true) last)))))))
      (.one (.token (tok (.ident "k") 62 7 1 true) .done)))
    let toks := file.tokens ++ [tok .eof 63 7 2 false]
    file.WellLaid ∧ program toks = file.tokens ∧
      ∃ eof, IsEnd toks eof ∧ resolve toks = ⟨file.laidOut [eof], []⟩ := by
  intro tok inner last file toks
  have hfile : file.WellLaid := by
    simp [file, last, inner, tok, Block.WellLaid, Items.WellLaid, Item.WellLaid, Item.Hangs,
      Item.tokens, Items.tokens, Item.outside, Block.column, Token.isOrdinary]
  have htoks : program toks = file.tokens := by decide
  exact ⟨hfile, htoks, resolve_wellLaid file toks hfile htoks⟩

end Layout

end Offside
