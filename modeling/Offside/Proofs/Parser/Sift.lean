-- SUMMARY: Which tokens of a stream with resolved layout carry meaning, and which only delimit.
import Mathlib.Data.List.Basic
import Offside.Cursor

/-! # Tokens that carry meaning

A tree does not record how its blocks are delimited. `sift` goes over a stream
with resolved layout and marks the lexemes that a tree records. The others are
the markers of blocks, the separators of their items, a bar before a
constructor, and the `where` of a clause whose block is empty. `Sifts` is the calculus
for this: what a stretch of the stream contributes, wherever it stands. -/

namespace Offside

/-! ## Places -/

/-- What a token stands in. -/
inductive Place where
  /-- A block, with the first token of the current item, if that has begun. -/
  | block (head : Option Token)
  | bracket
  deriving DecidableEq, Repr

namespace Place

/-- The places after the token `t` of an item. -/
def begin (t : Token) : List Place → List Place
  | .block none :: ps => .block (some t) :: ps
  | ps => ps

/-- The places after the end of an item. -/
def newItem : List Place → List Place
  | .block _ :: ps => .block none :: ps
  | ps => ps

/-- Directly in a block. -/
def inBlock : List Place → Bool
  | .block _ :: _ => true
  | _ => false

/-- At the start of a constructor of a data type. -/
def atConstructor : List Place → Bool
  | .block none :: .block (some .kwData) :: _ => true
  | _ => false

/-- Directly in an item that is neither a type nor a module. -/
def inClause : List Place → Bool
  | .block (some head) :: _ => !([.kwData, .kwRecord, .kwModule] : List Token).contains head
  | _ => false

/-- The places after a token. -/
def after (ps : List Place) (t : Token) : List Place :=
  match t with
  | .blockStart => .block none :: ps
  | .blockEnd | .rparen | .rbrace => ps.tail
  | .blockSep | .semicolon => newItem ps
  | .lparen | .lbrace => .bracket :: begin t ps
  | .pipe | .eof => ps
  | _ => begin t ps

/-- The places after some tokens that belong to one item. -/
def entered (ps : List Place) : List Lexeme → List Place
  | [] => ps
  | tok :: _ => begin tok.token ps

end Place

/-- Whether an empty block comes next. -/
def emptyBlockAhead : List Lexeme → Bool
  | [] => false
  | tok :: toks =>
    tok.token = .blockStart &&
      (toks.dropWhile (·.token.isSeparator)).head?.any (·.token = .blockEnd)

/-- Whether a token carries meaning where it stands, before the tokens `toks`. -/
def carries (ps : List Place) (t : Token) (toks : List Lexeme) : Bool :=
  match t with
  | .blockStart | .blockEnd | .blockSep | .eof => false
  | .semicolon => !Place.inBlock ps
  | .pipe => !Place.atConstructor ps
  | .kwWhere => !(Place.inClause ps && emptyBlockAhead toks)
  | _ => true

/-- The lexemes of a stream, each with whether it carries meaning. -/
def sift : List Place → List Lexeme → List (Lexeme × Bool)
  | _, [] => []
  | ps, tok :: toks => (tok, carries ps tok.token toks) :: sift (Place.after ps tok.token) toks

theorem map_fst_sift (ps : List Place) (toks : List Lexeme) : (sift ps toks).map (·.1) = toks := by
  induction toks generalizing ps with
  | nil => rfl
  | cons tok toks ih => rw [sift, List.map_cons, ih]

/-- What carries meaning is no marker. -/
theorem isVirtual_of_mem_sift {ps : List Place} {toks : List Lexeme} {tok : Lexeme}
    (h : (tok, true) ∈ sift ps toks) : tok.token.isVirtual = false ∧ tok.token ≠ .eof := by
  induction toks generalizing ps with
  | nil => simp [sift] at h
  | cons x toks ih =>
    rw [sift] at h
    rcases List.mem_cons.1 h with heq | h
    · obtain ⟨rfl, hcarries⟩ := Prod.mk.inj heq
      cases ht : tok.token <;> simp [ht, carries, Token.isVirtual] at hcarries ⊢
    · exact ih h

/-! ## Contributions of parts of a stream -/

/-- The tokens `toks` of an item contribute `ts`, whatever follows. -/
def Sifts (ps : List Place) (toks : List Lexeme) (ts : List Token) : Prop :=
  ∀ rest, ∃ marks, sift ps (toks ++ rest) = marks ++ sift (Place.entered ps toks) rest ∧
    (marks.filter (·.2)).map (·.1.token) = ts

/-- An item has begun, or there is none. -/
def Place.Settled (ps : List Place) : Prop := ∀ t, Place.begin t ps = ps

namespace Place

variable {ps : List Place}

theorem settled_bracket : Settled (.bracket :: ps) := fun _ => rfl

theorem settled_nil : Settled [] := fun _ => rfl

theorem settled_head (t : Token) : Settled (.block (some t) :: ps) := fun _ => rfl

theorem settled_begin (t : Token) (ps : List Place) : Settled (begin t ps) := by
  match ps with
  | [] => exact settled_nil
  | .bracket :: _ => exact settled_bracket
  | .block none :: _ => exact settled_head t
  | .block (some u) :: _ => exact settled_head u

theorem Settled.entered (h : Settled ps) (toks : List Lexeme) : Place.entered ps toks = ps := by
  cases toks with
  | nil => rfl
  | cons tok toks => exact h tok.token

theorem entered_append (a b : List Lexeme) :
    Place.entered (Place.entered ps a) b = Place.entered ps (a ++ b) := by
  cases a with
  | nil => rfl
  | cons tok a => exact (settled_begin tok.token ps).entered b

theorem Settled.atConstructor (h : Settled ps) : atConstructor ps = false := by
  match ps with
  | [] | .bracket :: _ | .block (some _) :: _ => rfl
  | .block none :: _ => exact absurd (h .eof) (by simp [begin])

end Place

namespace Sifts

variable {ps : List Place} {a b toks : List Lexeme} {ts us : List Token} {tok : Lexeme}

theorem nil : Sifts ps [] [] := fun _ => ⟨[], rfl, rfl⟩

theorem append (ha : Sifts ps a ts) (hb : Sifts (Place.entered ps a) b us) :
    Sifts ps (a ++ b) (ts ++ us) := by
  intro rest
  obtain ⟨ma, hma, rfl⟩ := ha (b ++ rest)
  obtain ⟨mb, hmb, rfl⟩ := hb rest
  refine ⟨ma ++ mb, ?_, by simp⟩
  rw [List.append_assoc, hma, hmb, Place.entered_append, List.append_assoc]

/-- A single token that stands for itself. -/
theorem one (hafter : Place.after ps tok.token = Place.begin tok.token ps)
    (hcarries : ∀ rest, carries ps tok.token rest = true) : Sifts ps [tok] [tok.token] := by
  intro rest
  refine ⟨[(tok, true)], ?_, rfl⟩
  rw [List.singleton_append, sift, hcarries, hafter]
  rfl

/-- A token stands for itself wherever it is. -/
def isPlain : Token → Bool
  | .blockStart | .blockEnd | .blockSep | .eof | .semicolon | .pipe | .kwWhere
  | .lparen | .lbrace | .rparen | .rbrace => false
  | _ => true

theorem plain (h : isPlain tok.token = true) : Sifts ps [tok] [tok.token] := by
  apply one
  · cases ht : tok.token <;> first | rfl | simp [ht, isPlain] at h
  · intro rest
    cases ht : tok.token <;> first | rfl | simp [ht, isPlain] at h

theorem plains (h : ∀ tok ∈ toks, isPlain tok.token = true) :
    Sifts ps toks (toks.map (·.token)) := by
  induction toks generalizing ps with
  | nil => exact nil
  | cons tok toks ih =>
    exact (plain (h tok List.mem_cons_self)).append
      (ih fun t ht => h t (List.mem_cons_of_mem _ ht))

/-- A bar inside an item. -/
theorem bar (hps : Place.Settled ps) (h : tok.token = .pipe) : Sifts ps [tok] [.pipe] := by
  rw [← h]
  apply one
  · rw [h]
    exact (hps .pipe).symm
  · intro rest
    simp [h, carries, hps.atConstructor]

/-- A semicolon between brackets. -/
theorem semicolon (h : tok.token = .semicolon) : Sifts (.bracket :: ps) [tok] [.semicolon] := by
  rw [← h]
  apply one
  · rw [h]
    rfl
  · intro rest
    simp [h, carries, Place.inBlock]

/-- The `where` of a type or a module. -/
theorem header (hclause : Place.inClause ps = false)
    (h : tok.token = .kwWhere) : Sifts ps [tok] [.kwWhere] := by
  rw [← h]
  apply one
  · rw [h]
    rfl
  · intro rest
    simp [h, carries, hclause]

/-- Something in brackets. -/
theorem group {opening closing : Lexeme}
    (hopening : opening.token = .lparen ∨ opening.token = .lbrace)
    (hclosing : closing.token = .rparen ∨ closing.token = .rbrace)
    (h : Sifts (.bracket :: Place.begin opening.token ps) toks ts) :
    Sifts ps (opening :: toks ++ [closing]) (opening.token :: ts ++ [closing.token]) := by
  intro rest
  obtain ⟨marks, hmarks, rfl⟩ := h (closing :: rest)
  refine ⟨(opening, true) :: marks ++ [(closing, true)], ?_, by simp⟩
  have hopen : carries ps opening.token (toks ++ closing :: rest) = true ∧
      Place.after ps opening.token = .bracket :: Place.begin opening.token ps := by
    rcases hopening with h | h <;> simp [h, carries, Place.after]
  have hclose : ∀ qs : List Place, carries qs closing.token rest = true ∧
      Place.after qs closing.token = qs.tail := by
    intro qs
    rcases hclosing with h | h <;> simp [h, carries, Place.after]
  rw [Place.settled_bracket.entered, sift, (hclose _).1, (hclose _).2] at hmarks
  simp only [List.cons_append, List.append_assoc, sift, hopen, hmarks, List.nil_append]
  rfl

end Sifts

/-! ## Blocks -/

/-- A stretch of items, each after separators. If no item comes right before
it, the first one needs none. -/
inductive Items : (fresh : Bool) → List (List Lexeme) → List Lexeme → Prop
  | done {fresh seps} (seps_sep : ∀ tok ∈ seps, tok.token.isSeparator = true) :
      Items fresh [] seps
  | item {fresh seps item items toks} (seps_sep : ∀ tok ∈ seps, tok.token.isSeparator = true)
      (apart : fresh = true ∨ seps ≠ []) (rest : Items false items toks) :
      Items fresh (item :: items) (seps ++ (item ++ toks))

/-- A block of items between its markers. -/
structure IsBlock (items : List (List Lexeme)) (toks : List Lexeme) : Prop where
  intro ::
  exists_eq : ∃ opening inside closing, toks = opening :: inside ++ [closing] ∧
    opening.token = .blockStart ∧ closing.token = .blockEnd ∧ Items true items inside

/-- An item of a block contributes `ts`, whatever follows. -/
def SiftsItem (ps : List Place) (toks : List Lexeme) (ts : List Token) : Prop :=
  ∀ rest, ∃ head marks, sift (.block none :: ps) (toks ++ rest) =
      marks ++ sift (.block head :: ps) rest ∧ (marks.filter (·.2)).map (·.1.token) = ts

theorem Sifts.item {ps : List Place} {toks : List Lexeme} {ts : List Token}
    (h : Sifts (.block none :: ps) toks ts) : SiftsItem ps toks ts := by
  intro rest
  obtain ⟨marks, hmarks, hts⟩ := h rest
  cases toks with
  | nil => exact ⟨none, marks, hmarks, hts⟩
  | cons tok toks => exact ⟨some tok.token, marks, hmarks, hts⟩

/-- A bar before a constructor contributes nothing. -/
theorem SiftsItem.bar {ps : List Place} {tok : Lexeme} {toks : List Lexeme} {ts : List Token}
    (htok : tok.token = .pipe) (h : SiftsItem (.block (some .kwData) :: ps) toks ts) :
    SiftsItem (.block (some .kwData) :: ps) (tok :: toks) ts := by
  intro rest
  obtain ⟨head, marks, hmarks, hts⟩ := h rest
  refine ⟨head, (tok, false) :: marks, ?_, by simpa using hts⟩
  have hbar : ∀ us, carries (.block none :: .block (some .kwData) :: ps) tok.token us = false ∧
      Place.after (.block none :: .block (some .kwData) :: ps) tok.token =
        .block none :: .block (some .kwData) :: ps := by
    simp [htok, carries, Place.atConstructor, Place.after]
  rw [List.cons_append, sift, (hbar _).1, (hbar []).2, hmarks, List.cons_append]

theorem sift_separators {seps : List Lexeme} (h : ∀ tok ∈ seps, tok.token.isSeparator = true)
    (head : Option Token) (ps : List Place) (rest : List Lexeme) :
    sift (.block head :: ps) (seps ++ rest) =
      seps.map (·, false) ++ sift (.block (if seps = [] then head else none) :: ps) rest := by
  induction seps generalizing head with
  | nil => rfl
  | cons tok seps ih =>
    have htok : carries (.block head :: ps) tok.token (seps ++ rest) = false ∧
        Place.after (.block head :: ps) tok.token = .block none :: ps := by
      have hsep := h tok List.mem_cons_self
      cases ht : tok.token <;> simp [ht, Token.isSeparator] at hsep <;>
        simp [carries, Place.after, Place.newItem, Place.inBlock]
    have hrest := ih (fun t ht => h t (List.mem_cons_of_mem _ ht)) none
    rw [List.cons_append, sift, htok.1, htok.2, hrest]
    simp

theorem Items.sift {fresh : Bool} {items : List (List Lexeme)} {toks : List Lexeme}
    (h : Items fresh items toks) {ps : List Place} {tss : List (List Token)}
    (hitems : List.Forall₂ (SiftsItem ps) items tss) (head : Option Token)
    (hfresh : fresh = true → head = none) (rest : List Lexeme) :
    ∃ head' marks, Offside.sift (.block head :: ps) (toks ++ rest) =
        marks ++ Offside.sift (.block head' :: ps) rest ∧
      (marks.filter (·.2)).map (·.1.token) = tss.flatten := by
  induction h generalizing head tss with
  | done hseps =>
    cases hitems
    exact ⟨_, _, sift_separators hseps head ps rest, by simp [List.filter_map]⟩
  | @item fresh seps item items toks hseps apart _ ih =>
    cases hitems with
    | @cons _ ts _ tss hitem hitems =>
      have hnone : (if seps = [] then head else none) = none := by
        split
        · rename_i hnil
          exact hfresh (apart.resolve_right (absurd hnil))
        · rfl
      obtain ⟨head₁, marks, hmarks, rfl⟩ := hitem (toks ++ rest)
      obtain ⟨head', marks', hmarks', hflat⟩ := ih hitems head₁ (by simp)
      refine ⟨head', seps.map (·, false) ++ (marks ++ marks'), ?_, ?_⟩
      · rw [List.append_assoc, List.append_assoc, sift_separators hseps, hnone, hmarks, hmarks']
        simp
      · simp [List.filter_map, hflat, Function.comp_def]

/-- A block contributes what its items do. -/
theorem Sifts.block {ps : List Place} {items : List (List Lexeme)} {toks : List Lexeme}
    {tss : List (List Token)} (hps : Place.Settled ps) (h : IsBlock items toks)
    (hitems : List.Forall₂ (SiftsItem ps) items tss) :
    Sifts ps toks tss.flatten := by
  obtain ⟨opening, inside, closing, rfl, hopening, hclosing, hinside⟩ := h.exists_eq
  intro rest
  obtain ⟨head', marks, hmarks, hflat⟩ :=
    hinside.sift hitems none (fun _ => rfl) (closing :: rest)
  refine ⟨(opening, false) :: marks ++ [(closing, false)], ?_, by simp [hflat]⟩
  have hopen : carries ps opening.token (inside ++ closing :: rest) = false ∧
      Place.after ps opening.token = .block none :: ps := by
    simp [hopening, carries, Place.after]
  have hclose : carries (.block head' :: ps) closing.token rest = false ∧
      Place.after (.block head' :: ps) closing.token = ps := by
    simp [hclosing, carries, Place.after]
  rw [sift, hclose.1, hclose.2] at hmarks
  rw [hps.entered]
  simp only [List.cons_append, List.append_assoc, sift, hopen, hmarks, List.nil_append]

/-- A block is empty if it has no items, and each item begins with what may. -/
theorem emptyBlockAhead_eq {items : List (List Lexeme)} {toks rest : List Lexeme}
    (h : IsBlock items toks)
    (hheads : ∀ item ∈ items, ∃ tok us, item = tok :: us ∧ tok.token.isSeparator = false ∧
      tok.token ≠ .blockEnd) : emptyBlockAhead (toks ++ rest) = items.isEmpty := by
  obtain ⟨opening, inside, closing, rfl, hopening, hclosing, hinside⟩ := h.exists_eq
  cases hinside with
  | done hseps =>
    have hdrop : (inside ++ closing :: rest).dropWhile (·.token.isSeparator) = closing :: rest := by
      rw [List.dropWhile_append_of_pos hseps, List.dropWhile_cons_of_neg]
      simp [hclosing, Token.isSeparator]
    simp [emptyBlockAhead, hopening, hdrop, hclosing]
  | @item _ seps item items inside hseps _ _ =>
    obtain ⟨tok, us, rfl, hsep, hend⟩ := hheads item List.mem_cons_self
    have hdrop : (seps ++ (tok :: us ++ inside) ++ closing :: rest).dropWhile
        (·.token.isSeparator) = tok :: us ++ inside ++ closing :: rest := by
      rw [List.append_assoc, List.dropWhile_append_of_pos hseps, List.cons_append, List.cons_append,
        List.dropWhile_cons_of_neg (by simp [hsep])]
    simp only [emptyBlockAhead, List.cons_append, List.append_assoc, hopening] at hdrop ⊢
    simp [hdrop, hend]

/-- The `where` block of a clause contributes nothing if it is empty. -/
theorem Sifts.whereBlock {ps : List Place} {items : List (List Lexeme)} {keyword : Lexeme}
    {toks : List Lexeme} {tss : List (List Token)} (hps : Place.Settled ps)
    (hclause : Place.inClause ps = true) (hkeyword : keyword.token = .kwWhere)
    (h : IsBlock items toks) (hitems : List.Forall₂ (SiftsItem ps) items tss)
    (hheads : ∀ item ∈ items, ∃ tok us, item = tok :: us ∧ tok.token.isSeparator = false ∧
      tok.token ≠ .blockEnd) :
    Sifts ps (keyword :: toks) (if items.isEmpty then [] else .kwWhere :: tss.flatten) := by
  intro rest
  obtain ⟨marks, hmarks, hflat⟩ := Sifts.block hps h hitems rest
  have hcarries : carries ps keyword.token (toks ++ rest) = !items.isEmpty := by
    simp [hkeyword, carries, hclause, emptyBlockAhead_eq h hheads]
  have hafter : Place.after ps keyword.token = ps := by
    rw [hkeyword]
    exact hps .kwWhere
  refine ⟨(keyword, !items.isEmpty) :: marks, ?_, ?_⟩
  · rw [List.cons_append, sift, hcarries, hafter, hmarks, hps.entered, hps.entered, List.cons_append]
  · cases hitems with
    | nil => simpa using hflat
    | cons => simpa [hkeyword] using hflat

end Offside
