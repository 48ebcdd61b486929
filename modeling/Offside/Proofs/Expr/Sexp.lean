-- SUMMARY: S-expressions, their text, and that the text determines them.
import Offside.Proofs.Concrete.Written

/-! # S-expressions

An S-expression is a word or a list in brackets. Its text puts blanks between
the members of a list and escapes nothing. So it can be read back only if no
word has a blank or a bracket in it. Square brackets are no brackets to a word:
a list in them has to begin with a list in other brackets. -/

namespace Offside

/-- The kinds of brackets around a list. -/
inductive Bracket where
  | round
  | curly
  | square
  deriving DecidableEq, Repr

namespace Bracket

/-- What stands before the list. -/
def opening : Bracket → Char
  | round => '('
  | curly => '\x7b'
  | square => '['

/-- What stands after the list. -/
def closing : Bracket → Char
  | round => ')'
  | curly => '\x7d'
  | square => ']'

theorem opening_inj {a b : Bracket} (h : a.opening = b.opening) : a = b := by
  cases a <;> cases b <;> first | rfl | exact absurd h (by decide)

theorem closing_ne_blank (b : Bracket) : b.closing ≠ ' ' := by
  cases b <;> decide

end Bracket

/-- A word, or a list in brackets. -/
inductive Sexp where
  | word (text : String)
  | list (bracket : Bracket) (items : List Sexp)

namespace Sexp

mutual

/-- The text of an S-expression. -/
def text : Sexp → List Char
  | word w => w.toList
  | list b items => b.opening :: [' '].intercalate (texts items) ++ [b.closing]

/-- Each of some texts. -/
def texts : List Sexp → List (List Char)
  | [] => []
  | s :: ss => s.text :: texts ss

end

theorem texts_eq (ss : List Sexp) : texts ss = ss.map text := by
  induction ss with
  | nil => rfl
  | cons s ss ih => rw [texts, ih, List.map_cons]

theorem text_list (b : Bracket) (items : List Sexp) :
    (list b items).text = b.opening :: [' '].intercalate (items.map text) ++ [b.closing] := by
  rw [text, texts_eq]

/-- What stands after the first member of a list. -/
def tailText (items : List Sexp) : List Char := items.flatMap fun s => ' ' :: s.text

theorem text_nil (b : Bracket) : (list b []).text = [b.opening, b.closing] := by
  rw [text_list]
  rfl

theorem text_cons (b : Bracket) (s : Sexp) (ss : List Sexp) :
    (list b (s :: ss)).text = b.opening :: (s.text ++ tailText ss ++ [b.closing]) := by
  rw [text_list, List.map_cons, intercalate_cons, List.flatMap_map]
  rfl

/-- Whether an S-expression is a list in round or curly brackets. -/
def isGroup : Sexp → Bool
  | list .round _ | list .curly _ => true
  | _ => false

/-- The characters of a word. Square brackets are among them. -/
def isInk (c : Char) : Bool := !([' ', '(', ')', '\x7b', '\x7d'].contains c)

/-- All words can be told from what stands around them. -/
inductive Legible : Sexp → Prop
  | word {w} (ne_nil : w.toList ≠ []) (ink : ∀ c ∈ w.toList, isInk c = true) : Legible (.word w)
  | list {b items} (each : ∀ s ∈ items, Legible s)
      (groups : b = .square → items ≠ [] ∧ ∀ s ∈ items, s.isGroup = true) : Legible (.list b items)

/-! ## Reading back -/

/-- The characters that may stand after a word. -/
def isStop (c : Char) : Bool := [' ', ')', '\x7d'].contains c

theorem isInk_of_isStop {c : Char} (h : isStop c = true) : isInk c = false := by
  have hmem : c ∈ [' ', ')', '\x7d'] := List.contains_iff_mem.1 h
  simp only [List.mem_cons, List.not_mem_nil, or_false] at hmem
  rcases hmem with rfl | rfl | rfl <;> rfl

/-- What may stand after an S-expression: nothing that would continue a word. -/
def Ends (s : Sexp) (rest : List Char) : Prop :=
  s.isGroup = true ∨ ∀ c ∈ rest.head?, isStop c = true

/-- A member of a list ends before the next one and before the closing bracket. -/
theorem Legible.ends_tail {b : Bracket} {items : List Sexp} (h : Legible (.list b items)) {s : Sexp}
    (hs : s ∈ items) (ss : List Sexp) (rest : List Char) :
    s.Ends (tailText ss ++ b.closing :: rest) := by
  cases ss with
  | cons s' ss =>
    rw [tailText, List.flatMap_cons]
    exact .inr (by rintro c ⟨⟩; rfl)
  | nil =>
    cases h with
    | list _ groups =>
      cases b with
      | round | curly => exact .inr (by rintro c ⟨⟩; rfl)
      | square => exact .inl ((groups rfl).2 s hs)

/-- Words end where the ink does. -/
theorem ink_append_inj {a b rest rest' : List Char} (ha : ∀ c ∈ a, isInk c = true)
    (hb : ∀ c ∈ b, isInk c = true) (hrest : ∀ c ∈ rest.head?, isStop c = true)
    (hrest' : ∀ c ∈ rest'.head?, isStop c = true) (h : a ++ rest = b ++ rest') :
    a = b ∧ rest = rest' := by
  have htake : ∀ {a rest : List Char}, (∀ c ∈ a, isInk c = true) →
      (∀ c ∈ rest.head?, isStop c = true) → (a ++ rest).takeWhile isInk = a := by
    intro a rest ha hrest
    rw [List.takeWhile_append_of_pos ha]
    cases rest with
    | nil => simp
    | cons c rest => simp [isInk_of_isStop (hrest c rfl)]
  have hsame : a = b := by rw [← htake ha hrest, h, htake hb hrest']
  subst hsame
  exact ⟨rfl, List.append_cancel_left h⟩

/-- No S-expression begins like the end of a list. -/
theorem Legible.exists_head {s : Sexp} (h : s.Legible) :
    ∃ c cs, s.text = c :: cs ∧ isStop c = false := by
  cases h with
  | @word w ne_nil ink =>
    obtain ⟨c, cs, hw⟩ := List.exists_cons_of_ne_nil ne_nil
    refine ⟨c, cs, hw, ?_⟩
    rw [Bool.eq_false_iff]
    intro hstop
    have hink := ink c (hw ▸ List.mem_cons_self)
    rw [isInk_of_isStop hstop] at hink
    cases hink
  | @list b items each groups =>
    refine ⟨b.opening, _, text_list b items, ?_⟩
    cases b <;> rfl

/-- A list in round or curly brackets begins like no word and like no end of a list. -/
theorem exists_head_of_isGroup {s : Sexp} (h : s.isGroup = true) :
    ∃ c cs, s.text = c :: cs ∧ isInk c = false ∧ isStop c = false := by
  cases s with
  | word => cases h
  | list b items =>
    cases b with
    | round | curly => exact ⟨_, _, text_list _ items, rfl, rfl⟩
    | square => cases h

/-- A word is not read as a list: what follows a square bracket tells them apart. -/
theorem word_ne_list {w : String} {b : Bracket} {items : List Sexp} {rest rest' : List Char}
    (hw : Legible (.word w)) (hlist : Legible (.list b items))
    (hrest : ∀ c ∈ rest.head?, isStop c = true) :
    w.toList ++ rest ≠ (list b items).text ++ rest' := by
  intro h
  cases hw with
  | word ne_nil ink =>
    obtain ⟨c, cs, hcs⟩ := List.exists_cons_of_ne_nil ne_nil
    rw [hcs] at h ink
    obtain ⟨hc, ink⟩ := List.forall_mem_cons.1 ink
    cases hlist with
    | list each groups =>
      cases b with
      | round | curly =>
        rw [text_list] at h
        rw [(List.cons.inj h).1] at hc
        exact absurd hc (by decide)
      | square =>
        obtain ⟨hne, hgroups⟩ := groups rfl
        obtain ⟨s, ss, rfl⟩ := List.exists_cons_of_ne_nil hne
        obtain ⟨d, ds, hs, hink, hstop⟩ := exists_head_of_isGroup (hgroups s List.mem_cons_self)
        rw [text_cons, hs] at h
        have hnext := (List.cons.inj h).2
        -- A word may begin with a square bracket, but it neither goes on nor ends
        -- with the bracket that comes next.
        cases cs with
        | nil =>
          have hhead : d ∈ rest.head? := by simp [show rest = _ from hnext]
          rw [hrest d hhead] at hstop
          cases hstop
        | cons c' cs =>
          rw [← (List.cons.inj hnext).1, ink c' List.mem_cons_self] at hink
          cases hink

/-- The text of `s` can be told from what follows it. -/
def Cancels (s : Sexp) : Prop :=
  ∀ s' rest rest', s'.Legible → s.Ends rest → s'.Ends rest' →
    s.text ++ rest = s'.text ++ rest' → s = s' ∧ rest = rest'

/-- An empty list does not begin like one with members. -/
theorem nil_ne_cons {b : Bracket} {s : Sexp} {ss : List Sexp} {rest rest' : List Char}
    (hnil : Legible (.list b [])) (hs : s.Legible) :
    (list b []).text ++ rest ≠ (list b (s :: ss)).text ++ rest' := by
  obtain ⟨c, cs, hc, hstop⟩ := hs.exists_head
  rw [text_nil, text_cons, hc]
  intro h
  have hclosing : b.closing = c := (List.cons.inj (List.cons.inj h).2).1
  cases hnil with
  | list _ groups =>
    cases b with
    | round | curly =>
      rw [← hclosing] at hstop
      cases hstop
    | square => exact (groups rfl).1 rfl

/-- The members of a list one by one, after the first. -/
theorem tail_cancels {b : Bracket} {items items' : List Sexp} (h : Legible (.list b items))
    (h' : Legible (.list b items')) {ss ss' : List Sexp} {rest rest' : List Char}
    (hss : ∀ s ∈ ss, s ∈ items ∧ s.Cancels) (hss' : ∀ s ∈ ss', s ∈ items' ∧ s.Legible)
    (heq : tailText ss ++ b.closing :: rest = tailText ss' ++ b.closing :: rest') :
    ss = ss' ∧ rest = rest' := by
  have hblank := b.closing_ne_blank
  induction ss generalizing ss' with
  | nil =>
    cases ss' with
    | nil => exact ⟨rfl, (List.cons.inj heq).2⟩
    | cons s' ss' => exact absurd (List.cons.inj heq).1 hblank
  | cons s ss ih =>
    obtain ⟨⟨hs, hcancels⟩, hothers⟩ := List.forall_mem_cons.1 hss
    cases ss' with
    | nil => exact absurd (List.cons.inj heq).1 hblank.symm
    | cons s' ss' =>
      obtain ⟨⟨hs', hlegible⟩, hothers'⟩ := List.forall_mem_cons.1 hss'
      have hfirst : s.text ++ (tailText ss ++ b.closing :: rest) =
          s'.text ++ (tailText ss' ++ b.closing :: rest') := by
        simpa [tailText] using heq
      obtain ⟨hsame, htail⟩ := hcancels _ _ _ hlegible (h.ends_tail hs ss rest)
        (h'.ends_tail hs' ss' rest') hfirst
      obtain ⟨rfl, hrest⟩ := ih hothers hothers' htail
      exact ⟨hsame ▸ rfl, hrest⟩

theorem list_cancels {b : Bracket} {items : List Sexp} (h : Legible (.list b items))
    (hitems : ∀ s ∈ items, s.Cancels) : Cancels (.list b items) := by
  intro s' rest rest' hs' _ hrest' heq
  cases s' with
  | word w => exact absurd heq.symm (word_ne_list hs' h (hrest'.resolve_left nofun))
  | list b' items' =>
    have hopen : b.opening = b'.opening := by
      rw [text_list, text_list] at heq
      exact (List.cons.inj heq).1
    obtain rfl := Bracket.opening_inj hopen
    have hitems' : ∀ s ∈ items', s.Legible := by
      cases hs' with
      | list each _ => exact each
    cases items with
    | nil =>
      cases items' with
      | nil => exact ⟨rfl, List.append_cancel_left heq⟩
      | cons s' ss' => exact absurd heq (nil_ne_cons h (hitems' s' List.mem_cons_self))
    | cons s ss =>
      cases items' with
      | nil =>
        cases h with
        | list each _ => exact absurd heq.symm (nil_ne_cons hs' (each s List.mem_cons_self))
      | cons s' ss' =>
        -- The first members are the tails' with a blank before them.
        have htail : tailText (s :: ss) ++ b.closing :: rest =
            tailText (s' :: ss') ++ b.closing :: rest' := by
          rw [text_cons, text_cons] at heq
          simpa [tailText] using (List.cons.inj heq).2
        obtain ⟨hsame, hrest⟩ := tail_cancels h hs' (fun s hs => ⟨hs, hitems s hs⟩)
          (fun s hs => ⟨hs, hitems' s hs⟩) htail
        exact ⟨congrArg (Sexp.list b) hsame, hrest⟩

/-- An S-expression with legible words is determined by its text, and so is
where the text ends. -/
theorem Legible.cancels {s : Sexp} (h : s.Legible) : s.Cancels := by
  induction h with
  | list each groups ih => exact list_cancels (.list each groups) ih
  | @word w ne_nil ink =>
    intro s' rest rest' hs' hrest hrest' heq
    have hstop : ∀ c ∈ rest.head?, isStop c = true := hrest.resolve_left nofun
    cases hs' with
    | list each groups => exact absurd heq (word_ne_list (.word ne_nil ink) (.list each groups) hstop)
    | word _ ink' =>
      obtain ⟨hword, hrest⟩ := ink_append_inj ink ink' hstop (hrest'.resolve_left nofun) heq
      exact ⟨congrArg Sexp.word (String.toList_inj.1 hword), hrest⟩

/-- Lists in brackets, one on each line, are determined by the text of the lines. -/
theorem lines_inj {ss ss' : List Sexp} (hss : ∀ s ∈ ss, s.Legible ∧ s.isGroup = true)
    (hss' : ∀ s ∈ ss', s.Legible ∧ s.isGroup = true)
    (h : (ss.flatMap fun s => s.text ++ ['\n']) = ss'.flatMap fun s => s.text ++ ['\n']) :
    ss = ss' := by
  induction ss generalizing ss' with
  | nil =>
    cases ss' with
    | nil => rfl
    | cons s' ss' => simp at h
  | cons s ss ih =>
    cases ss' with
    | nil => simp at h
    | cons s' ss' =>
      obtain ⟨⟨hs, hgroup⟩, hothers⟩ := List.forall_mem_cons.1 hss
      obtain ⟨⟨hs', hgroup'⟩, hothers'⟩ := List.forall_mem_cons.1 hss'
      rw [List.flatMap_cons, List.flatMap_cons, List.append_assoc, List.append_assoc] at h
      -- Any text may follow a list in brackets, also the end of the line.
      obtain ⟨hsame, hrest⟩ := hs.cancels _ _ _ hs' (.inl hgroup) (.inl hgroup') h
      rw [hsame, ih hothers hothers' (List.append_cancel_left hrest)]

end Sexp

end Offside
