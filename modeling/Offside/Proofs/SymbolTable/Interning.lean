-- SUMMARY: One stable symbol for each text, in whatever order the steps of many callers come.
import Mathlib.Data.List.Dedup
import Offside.SymbolTable.Shared

/-! # Interning by many callers

Between the step of a call that looks for its text in vain and the step that adds
it, other callers may add the same text. This does no harm, because the second
step looks again. `Effect` says all that a step does to the table and to the calls
that have returned, `Consistent` what every step keeps, and `Grows` what a table
never loses: `run_interns`. -/

namespace Offside

namespace SymbolStore

/-! ## Stores -/

section

variable {σ κ : Type} [DecidableEq κ]

/-- The table `t'` is `t` with one more text, under a symbol that meant nothing in `t`. -/
structure Appends (store : SymbolStore σ κ) (t : σ) (text : String) (symbol : κ) (t' : σ) :
    Prop where
  fresh : store.resolve? t symbol = none
  lookup? : ∀ other,
    store.lookup? t' other = if other = text then some symbol else store.lookup? t other
  resolve? : ∀ other,
    store.resolve? t' other = if other = symbol then some text else store.resolve? t other
  size : store.size t' = store.size t + 1

/-- To intern a text gives the symbol that it has. A text without one is appended
under a fresh symbol. -/
structure Lawful (store : SymbolStore σ κ) : Prop where
  lookup?_empty : ∀ text, store.lookup? store.empty text = none
  resolve?_empty : ∀ symbol, store.resolve? store.empty symbol = none
  size_empty : store.size store.empty = 0
  present : ∀ {t text symbol}, store.lookup? t text = some symbol →
    store.intern t text = (symbol, t)
  absent : ∀ {t text}, store.lookup? t text = none →
    store.Appends t text (store.intern t text).1 (store.intern t text).2

end

end SymbolStore

namespace SymbolTable

/-- A new text at the end is found there. -/
theorem lookup?_concat {t : SymbolTable} {text : String} (h : text ∉ t.texts) (other : String) :
    lookup? ⟨t.texts ++ [text]⟩ other =
      if other = text then some ⟨t.size⟩ else t.lookup? other := by
  unfold lookup? List.idxOf?
  rw [List.findIdx?_append]
  by_cases hother : other = text
  · subst hother
    have hnone : t.texts.findIdx? (· == other) = none := List.idxOf?_eq_none_iff.2 h
    simp [hnone, size]
  · simp [hother, Ne.symm hother]

theorem resolve?_concat (t : SymbolTable) (text : String) (other : Symbol) :
    resolve? ⟨t.texts ++ [text]⟩ other =
      if other = ⟨t.size⟩ then some text else t.resolve? other := by
  obtain ⟨i⟩ := other
  unfold resolve? size
  by_cases hi : i = t.texts.length
  · simp [hi]
  · rw [if_neg (by simpa using hi)]
    rcases Nat.lt_or_gt_of_ne hi with hlt | hgt
    · exact List.getElem?_append_left hlt
    · rw [List.getElem?_eq_none, List.getElem?_eq_none (Nat.le_of_lt hgt)]
      simpa using Nat.succ_le_of_lt hgt

/-- The tables of this library do so: the symbol of a text is its place. -/
theorem lawful_store : SymbolTable.store.Lawful where
  lookup?_empty _ := rfl
  resolve?_empty _ := rfl
  size_empty := rfl
  present {t text symbol} h := by
    change t.lookup? text = some symbol at h
    change t.intern text = _
    rw [intern, h]
  absent {t text} h := by
    change t.lookup? text = none at h
    have hmem : text ∉ t.texts := by simpa [lookup?] using h
    have hintern : SymbolTable.store.intern t text = (⟨t.size⟩, ⟨t.texts ++ [text]⟩) := by
      change t.intern text = _
      rw [intern, h]
    rw [hintern]
    have hfresh : t.resolve? ⟨t.size⟩ = none := by simp [resolve?, size]
    have hsize : size ⟨t.texts ++ [text]⟩ = t.size + 1 := by simp [size]
    exact ⟨hfresh, lookup?_concat hmem, resolve?_concat t text, hsize⟩

end SymbolTable

namespace SymbolStore

variable {σ κ Caller : Type} [DecidableEq κ] [DecidableEq Caller] {store : SymbolStore σ κ}
  {s s' : SharedTable σ κ Caller}

/-! ## Steps -/

/-- What a step does to the table and to the calls that have returned. -/
inductive Effect (store : SymbolStore σ κ) (s s' : SharedTable σ κ Caller) : Prop
  | still (table : s'.table = s.table) (returned : s'.returned = s.returned)
  | found {text symbol} (present : store.lookup? s.table text = some symbol)
      (table : s'.table = s.table) (returned : s'.returned = ⟨text, symbol⟩ :: s.returned)
  | added {text symbol} (absent : store.lookup? s.table text = none)
      (table : store.Appends s.table text symbol s'.table)
      (returned : s'.returned = ⟨text, symbol⟩ :: s.returned)

/-- A caller that has missed its text returns with the symbol of that text,
whether it is still missing or not. -/
theorem Lawful.effect_add (lawful : store.Lawful) {caller : Caller} {text : String}
    (hmissed : s.missed caller = some text) : store.Effect s (store.step s (.add caller)) := by
  rw [step, hmissed]
  cases hlookup : store.lookup? s.table text with
  | some symbol =>
    simp only [lawful.present hlookup]
    exact .found hlookup rfl rfl
  | none => exact .added hlookup (lawful.absent hlookup) rfl

theorem Lawful.effect_step (lawful : store.Lawful) (s : SharedTable σ κ Caller)
    (x : InternStep Caller) : store.Effect s (store.step s x) := by
  cases x with
  | look caller text =>
    cases hmissed : s.missed caller with
    | some _ =>
      rw [step, hmissed]
      exact .still rfl rfl
    | none =>
      cases hlookup : store.lookup? s.table text with
      | some symbol =>
        rw [step, hmissed, hlookup]
        exact .found hlookup rfl rfl
      | none =>
        rw [step, hmissed, hlookup]
        exact .still rfl rfl
  | add caller =>
    cases hmissed : s.missed caller with
    | none =>
      rw [step, hmissed]
      exact .still rfl rfl
    | some text => exact lawful.effect_add hmissed

/-! ## What is kept -/

/-- Texts and symbols stand for each other, the calls that have returned have the
symbols of their texts, and only their texts are in the table. -/
structure Consistent (store : SymbolStore σ κ) (s : SharedTable σ κ Caller) : Prop where
  lookup?_iff : ∀ text symbol,
    store.lookup? s.table text = some symbol ↔ store.resolve? s.table symbol = some text
  returned : ∀ a ∈ s.returned, store.lookup? s.table a.text = some a.symbol
  known : ∀ text symbol, store.lookup? s.table text = some symbol →
    text ∈ s.returned.map Interned.text
  size : store.size s.table = (s.returned.map Interned.text).dedup.length

omit [DecidableEq Caller] in
theorem Lawful.consistent_start (lawful : store.Lawful) :
    store.Consistent (store.start : SharedTable σ κ Caller) where
  lookup?_iff text symbol := by
    change store.lookup? store.empty text = _ ↔ store.resolve? store.empty symbol = _
    simp [lawful.lookup?_empty, lawful.resolve?_empty]
  returned := by simp [start]
  known text symbol h := by
    change store.lookup? store.empty text = _ at h
    simp [lawful.lookup?_empty] at h
  size := lawful.size_empty

/-- A text and its symbol are not in the table before they are appended. -/
theorem Appends.lookup?_iff {t t' : σ} {text : String} {symbol : κ}
    (h : store.Appends t text symbol t') (habsent : store.lookup? t text = none)
    (hiff : ∀ text symbol, store.lookup? t text = some symbol ↔ store.resolve? t symbol = some text)
    (other : String) (r : κ) :
    store.lookup? t' other = some r ↔ store.resolve? t' r = some other := by
  have hfresh := hiff other symbol
  have habsent' := hiff text r
  rw [h.fresh] at hfresh
  rw [habsent] at habsent'
  rw [h.lookup?, h.resolve?]
  by_cases htext : other = text <;> by_cases hsymbol : r = symbol <;> grind

/-- Every step keeps the table consistent with what has been returned. -/
theorem Consistent.step (lawful : store.Lawful) (h : store.Consistent s) (x : InternStep Caller) :
    store.Consistent (store.step s x) := by
  generalize hs' : store.step s x = s'
  have heffect : store.Effect s s' := hs' ▸ lawful.effect_step s x
  cases heffect with
  | still table returned =>
    refine ⟨?_, ?_, ?_, ?_⟩ <;> rw [table]
    · exact h.lookup?_iff
    · exact returned ▸ h.returned
    · exact returned ▸ h.known
    · exact returned ▸ h.size
  | @found text symbol present table returned =>
    have htext := h.known text symbol present
    refine ⟨?_, ?_, ?_, ?_⟩ <;> rw [table]
    · exact h.lookup?_iff
    · rw [returned]
      exact List.forall_mem_cons.2 ⟨present, h.returned⟩
    · rw [returned]
      exact fun other r hr => List.mem_cons_of_mem _ (h.known other r hr)
    · rw [returned, List.map_cons, List.dedup_cons_of_mem htext, h.size]
  | @added text symbol absent table returned =>
    have hnew : text ∉ s.returned.map Interned.text := by
      intro hmem
      obtain ⟨a, ha, rfl⟩ := List.mem_map.1 hmem
      simp [h.returned a ha] at absent
    refine ⟨table.lookup?_iff absent h.lookup?_iff, ?_, ?_, ?_⟩
    · rw [returned]
      refine List.forall_mem_cons.2 ⟨by simp [table.lookup?], fun a ha => ?_⟩
      have hne : a.text ≠ text := fun heq => hnew (heq ▸ List.mem_map_of_mem ha)
      rw [table.lookup?, if_neg hne]
      exact h.returned a ha
    · intro other r hr
      rw [returned, List.map_cons]
      rw [table.lookup?] at hr
      split at hr
      · rename_i heq
        exact heq ▸ List.mem_cons_self
      · exact List.mem_cons_of_mem _ (h.known other r hr)
    · rw [returned, List.map_cons, List.dedup_cons_of_notMem hnew, List.length_cons, table.size,
        h.size]

theorem Consistent.run (lawful : store.Lawful) (h : store.Consistent s)
    (steps : List (InternStep Caller)) : store.Consistent (store.run s steps) := by
  induction steps generalizing s with
  | nil => exact h
  | cons x steps ih => exact ih (h.step lawful x)

/-- The table `t'` has all that `t` has. -/
structure Grows (store : SymbolStore σ κ) (t t' : σ) : Prop where
  lookup? : ∀ text symbol, store.lookup? t text = some symbol → store.lookup? t' text = some symbol
  resolve? : ∀ symbol text,
    store.resolve? t symbol = some text → store.resolve? t' symbol = some text

omit [DecidableEq κ] in
theorem Grows.refl (t : σ) : store.Grows t t := ⟨fun _ _ h => h, fun _ _ h => h⟩

omit [DecidableEq κ] in
theorem Grows.trans {t t' t'' : σ} (h : store.Grows t t') (h' : store.Grows t' t'') :
    store.Grows t t'' :=
  ⟨fun text symbol hs => h'.lookup? text symbol (h.lookup? text symbol hs),
    fun symbol text hs => h'.resolve? symbol text (h.resolve? symbol text hs)⟩

theorem Lawful.grows_step (lawful : store.Lawful) (s : SharedTable σ κ Caller)
    (x : InternStep Caller) : store.Grows s.table (store.step s x).table := by
  generalize hs' : store.step s x = s'
  have heffect : store.Effect s s' := hs' ▸ lawful.effect_step s x
  cases heffect with
  | still table | found _ table => exact table ▸ Grows.refl _
  | @added text symbol absent table =>
    refine ⟨fun other r hr => ?_, fun r other hr => ?_⟩
    · have hne : other ≠ text := by rintro rfl; simp [absent] at hr
      rw [table.lookup?, if_neg hne, hr]
    · have hne : r ≠ symbol := by rintro rfl; simp [table.fresh] at hr
      rw [table.resolve?, if_neg hne, hr]

theorem Lawful.grows_run (lawful : store.Lawful) (s : SharedTable σ κ Caller)
    (steps : List (InternStep Caller)) : store.Grows s.table (store.run s steps).table := by
  induction steps generalizing s with
  | nil => exact Grows.refl _
  | cons x steps ih => exact (lawful.grows_step s x).trans (ih _)

/-! ## Known texts -/

/-- The text that a step is about, if there is one, is in the table. -/
def Known (store : SymbolStore σ κ) (s : SharedTable σ κ Caller) : InternStep Caller → Prop
  | .look _ text => (store.lookup? s.table text).isSome
  | .add caller => ∀ text ∈ s.missed caller, (store.lookup? s.table text).isSome

/-- Nothing has been added since `s`, and no caller waits that did not wait there. -/
structure Quiet (s s' : SharedTable σ κ Caller) : Prop where
  table : s'.table = s.table
  missed : ∀ caller text, s'.missed caller = some text → s.missed caller = some text

theorem Quiet.step (lawful : store.Lawful) (h : Quiet s s') {x : InternStep Caller}
    (hx : store.Known s x) : Quiet s (store.step s' x) := by
  cases x with
  | look caller text =>
    obtain ⟨symbol, hlookup⟩ := Option.isSome_iff_exists.1 hx
    rw [← h.table] at hlookup
    rw [SymbolStore.step, hlookup]
    cases hmissed : s'.missed caller with
    | some _ => exact h
    | none => exact ⟨h.table, h.missed⟩
  | add caller =>
    cases hmissed : s'.missed caller with
    | none =>
      rw [SymbolStore.step, hmissed]
      exact h
    | some text =>
      obtain ⟨symbol, hlookup⟩ :=
        Option.isSome_iff_exists.1 (hx text (h.missed caller text hmissed))
      rw [← h.table] at hlookup
      rw [SymbolStore.step, hmissed]
      simp only [lawful.present hlookup]
      refine ⟨h.table, fun c other hother => ?_⟩
      change (if c = caller then none else s'.missed c) = some other at hother
      split at hother
      · cases hother
      · exact h.missed c other hother

/-- Calls for texts that are in the table leave it as it is. -/
theorem Quiet.run (lawful : store.Lawful) (h : Quiet s s') {steps : List (InternStep Caller)}
    (hsteps : ∀ x ∈ steps, store.Known s x) : Quiet s (store.run s' steps) := by
  induction steps generalizing s' with
  | nil => exact h
  | cons x steps ih =>
    obtain ⟨hx, hsteps⟩ := List.forall_mem_cons.1 hsteps
    exact ih (h.step lawful hx) hsteps

/-! ## Calls -/

/-- The call of `caller` for `text` returns from `s` to `s'`, with the symbol and the
table that interning the text at once gives. -/
structure Returns (store : SymbolStore σ κ) (s s' : SharedTable σ κ Caller) (text : String) :
    Prop where
  table : s'.table = (store.intern s.table text).2
  returned : s'.returned = ⟨text, (store.intern s.table text).1⟩ :: s.returned

omit [DecidableEq κ] in
/-- A caller that waits returns at its next step. -/
theorem returns_add {caller : Caller} {text : String} (h : s.missed caller = some text) :
    store.Returns s (store.step s (.add caller)) text := by
  rw [step, h]
  exact ⟨rfl, rfl⟩

/-- A call whose steps no other comes between returns. -/
theorem Lawful.returns_look_add (lawful : store.Lawful) {caller : Caller}
    (h : s.missed caller = none) (text : String) :
    store.Returns s (store.run s [.look caller text, .add caller]) text := by
  change store.Returns s (store.step (store.step s (.look caller text)) (.add caller)) text
  cases hlookup : store.lookup? s.table text with
  | some symbol =>
    have hfound : store.step s (.look caller text) =
        { s with returned := ⟨text, symbol⟩ :: s.returned } := by rw [step, h, hlookup]
    rw [hfound, step, h]
    exact ⟨by rw [lawful.present hlookup], by rw [lawful.present hlookup]⟩
  | none =>
    have hmissed : store.step s (.look caller text) =
        { s with missed := fun c => if c = caller then some text else s.missed c } := by
      rw [step, h, hlookup]
    have hwaits : (store.step s (.look caller text)).missed caller = some text := by
      simp [hmissed]
    have hadd : store.Returns (store.step s (.look caller text))
        (store.step (store.step s (.look caller text)) (.add caller)) text := returns_add hwaits
    obtain ⟨htable, hreturned⟩ := hadd
    rw [hmissed] at htable hreturned ⊢
    exact ⟨htable, hreturned⟩

/-- However the steps of any callers follow one another, two calls that have
returned have the same symbol exactly if they had the same text, and each symbol
resolves to the text of its call then and ever after. The table loses and changes
nothing, it has one entry for each text that a call has returned for, and calls
for texts that it has do not make it grow. Every call can return. -/
theorem run_interns (lawful : store.Lawful) (steps later : List (InternStep Caller)) :
    let s := store.run store.start steps
    let s' := store.run s later
    (∀ a ∈ s.returned, ∀ b ∈ s.returned, a.symbol = b.symbol ↔ a.text = b.text) ∧
    (∀ a ∈ s.returned, store.resolve? s'.table a.symbol = some a.text) ∧
    (∀ text symbol, store.lookup? s.table text = some symbol →
      store.lookup? s'.table text = some symbol) ∧
    (∀ symbol text, store.resolve? s.table symbol = some text →
      store.resolve? s'.table symbol = some text) ∧
    store.size s.table = (s.returned.map Interned.text).dedup.length ∧
    ((∀ x ∈ later, store.Known s x) → store.size s'.table = store.size s.table) ∧
    (∀ caller text, s.missed caller = none →
      store.Returns s (store.run s [.look caller text, .add caller]) text) ∧
    ∀ caller text, s.missed caller = some text →
      store.Returns s (store.step s (.add caller)) text := by
  intro s s'
  have hs : store.Consistent s := lawful.consistent_start.run lawful steps
  have hgrows : store.Grows s.table s'.table := lawful.grows_run s later
  refine ⟨fun a ha b hb => ⟨fun hsymbol => ?_, fun htext => ?_⟩, fun a ha => ?_, hgrows.lookup?,
    hgrows.resolve?, hs.size, fun hlater => ?_, fun caller text h => lawful.returns_look_add h text,
    fun caller text => returns_add⟩
  · have htext := (hs.lookup?_iff _ _).1 (hs.returned a ha)
    rw [hsymbol, (hs.lookup?_iff _ _).1 (hs.returned b hb)] at htext
    exact (Option.some.inj htext).symm
  · have hsymbol := hs.returned a ha
    rw [htext, hs.returned b hb] at hsymbol
    exact (Option.some.inj hsymbol).symm
  · exact hgrows.resolve? _ _ ((hs.lookup?_iff _ _).1 (hs.returned a ha))
  · have hquiet : Quiet s s := ⟨rfl, fun _ _ h => h⟩
    rw [(hquiet.run lawful hlater).table]

/-- Three callers miss their texts, two of them the same one, before any adds its
own. Later one looks for a text that the table has. -/
theorem run_interns_race :
    let steps : List (InternStep Nat) :=
      [.look 0 "x", .look 1 "x", .look 2 "y", .add 1, .add 2, .add 0]
    let later : List (InternStep Nat) := [.look 1 "y"]
    let store := SymbolTable.store
    let s := store.run store.start steps
    let s' := store.run s later
    store.Lawful ∧ s.returned = [⟨"x", ⟨0⟩⟩, ⟨"y", ⟨1⟩⟩, ⟨"x", ⟨0⟩⟩] ∧
      (∀ x ∈ later, store.Known s x) ∧ store.size s'.table = store.size s.table ∧
      ∀ a ∈ s.returned, store.resolve? s'.table a.symbol = some a.text := by
  intro steps later store s s'
  have hknown : ∀ x ∈ later, store.Known s x := by
    intro x hx
    rw [List.mem_singleton.1 hx]
    exact (by decide : (store.lookup? s.table "y").isSome)
  obtain ⟨-, hresolve, -, -, -, hsize, -, -⟩ := run_interns SymbolTable.lawful_store steps later
  exact ⟨SymbolTable.lawful_store, by decide, hknown, hsize hknown, hresolve⟩

end SymbolStore

end Offside
