-- SUMMARY: Balanced tokens, which the look-ahead of the parser passes over, and the balance of written trees.
import Mathlib.Data.List.Basic
import Offside.Cursor
import Offside.Proofs.Concrete.Respan

/-! # Balanced tokens

The parser looks ahead for a token outside all brackets and blocks. What it
passes over is balanced: brackets and blocks open and close again, and no token
outside of them is one that it looks for. Every written expression is balanced
in this sense, which is why a look-ahead decides rightly in front of it. -/

namespace Offside

theorem Token.of_isOpener {t : Token} (h : t.isOpener = true) :
    t ≠ .eof ∧ t.isSeparator = false ∧ t.isCloser = false := by
  cases t with
  | lparen | lbrace | blockStart => exact ⟨by simp, rfl, rfl⟩
  | _ => cases h

theorem Token.of_isCloser {t : Token} (h : t.isCloser = true) :
    t ≠ .eof ∧ t.isOpener = false := by
  cases t with
  | rparen | rbrace | blockEnd => exact ⟨by simp, rfl⟩
  | _ => cases h

/-- Tokens in which every bracket and block that opens also closes, and of
which those outside all brackets and blocks satisfy `ok`. -/
inductive Balanced : (ok : Token → Bool) → List Token → Prop
  | nil {ok : Token → Bool} : Balanced ok []
  | plain {ok : Token → Bool} {t : Token} {ts : List Token} (opener : t.isOpener = false)
      (closer : t.isCloser = false) (eof : t ≠ .eof) (allowed : ok t = true)
      (rest : Balanced ok ts) : Balanced ok (t :: ts)
  | group {ok : Token → Bool} {o c : Token} {ts us : List Token} (opener : o.isOpener = true)
      (closer : c.isCloser = true) (inside : Balanced (fun _ => true) ts) (rest : Balanced ok us) :
      Balanced ok (o :: ts ++ c :: us)

namespace Balanced

variable {ok ok' : Token → Bool} {ts us : List Token}

theorem append (h₁ : Balanced ok ts) (h₂ : Balanced ok us) : Balanced ok (ts ++ us) := by
  induction h₁ with
  | nil => exact h₂
  | plain opener closer eof allowed _ ih => exact .plain opener closer eof allowed (ih h₂)
  | group opener closer inside _ _ ih =>
    rw [List.append_assoc]
    exact .group opener closer inside (ih h₂)

theorem mono (h : Balanced ok ts) (hok : ∀ t, ok t = true → ok' t = true) : Balanced ok' ts := by
  induction h with
  | nil => exact .nil
  | plain opener closer eof allowed _ ih => exact .plain opener closer eof (hok _ allowed) (ih hok)
  | group opener closer inside _ _ ih => exact .group opener closer inside (ih hok)

theorem any (h : Balanced ok ts) : Balanced (fun _ => true) ts :=
  h.mono fun _ _ => rfl

theorem singleton {t : Token} (opener : t.isOpener = false) (closer : t.isCloser = false)
    (eof : t ≠ .eof) (allowed : ok t = true) : Balanced ok [t] :=
  .plain opener closer eof allowed .nil

theorem flatMap {ι : Type} {xs : List ι} {f : ι → List Token} (h : ∀ x ∈ xs, Balanced ok (f x)) :
    Balanced ok (xs.flatMap f) := by
  induction xs with
  | nil => exact .nil
  | cons x xs ih =>
    rw [List.flatMap_cons]
    exact (h x List.mem_cons_self).append (ih fun y hy => h y (List.mem_cons_of_mem _ hy))

theorem intercalate {sep : List Token} {items : List (List Token)} (hsep : Balanced ok sep)
    (h : ∀ item ∈ items, Balanced ok item) : Balanced ok (sep.intercalate items) := by
  induction items with
  | nil => exact .nil
  | cons x xs ih =>
    have hxs := ih fun y hy => h y (List.mem_cons_of_mem _ hy)
    cases xs with
    | nil => simpa using h x List.mem_cons_self
    | cons y ys =>
      rw [List.intercalate_cons_cons]
      exact ((h x List.mem_cons_self).append hsep).append hxs

/-- What holds of no lexemes, and with a plain lexeme or a group in front, holds of
all that are balanced. -/
theorem lexemes_induct {P : (Token → Bool) → List Lexeme → Prop} (nil : ∀ ok, P ok [])
    (plain : ∀ ok tok toks, tok.token.isOpener = false → tok.token.isCloser = false →
      tok.token ≠ .eof → ok tok.token = true → P ok toks → P ok (tok :: toks))
    (group : ∀ ok o pre c post, o.token.isOpener = true → c.token.isCloser = true →
      Balanced (fun _ => true) (pre.map (·.token)) → P (fun _ => true) pre → P ok post →
      P ok (o :: pre ++ c :: post))
    {toks : List Lexeme} (h : Balanced ok (toks.map (·.token))) : P ok toks := by
  generalize htoks : toks.map (·.token) = ts at h
  induction h generalizing toks with
  | nil =>
    rw [List.map_eq_nil_iff.1 htoks]
    exact nil _
  | plain opener closer eof allowed _ ih =>
    obtain ⟨tok, toks, rfl, rfl, hts⟩ := List.map_eq_cons_iff.1 htoks
    exact plain _ tok toks opener closer eof allowed (ih hts)
  | group opener closer inside _ ih₁ ih₂ =>
    obtain ⟨pre, post, rfl, hpre, hpost⟩ := List.map_eq_append_iff.1 htoks
    obtain ⟨o, pre, rfl, rfl, rfl⟩ := List.map_eq_cons_iff.1 hpre
    obtain ⟨c, post, rfl, rfl, hus⟩ := List.map_eq_cons_iff.1 hpost
    exact group _ o pre c post opener closer inside (ih₁ rfl) (ih₂ hus)

/-! ## Look-ahead -/

/-- Inside a bracket or block, a search passes over balanced tokens. -/
theorem findInItem_succ {toks : List Lexeme} (h : Balanced ok (toks.map (·.token)))
    (wanted : List Token) (depth : Nat) (rest : List Lexeme) :
    Cursor.findInItem wanted (depth + 1) (toks ++ rest) =
      Cursor.findInItem wanted (depth + 1) rest := by
  refine h.lexemes_induct (P := fun _ toks => ∀ depth rest,
    Cursor.findInItem wanted (depth + 1) (toks ++ rest) =
      Cursor.findInItem wanted (depth + 1) rest) (fun _ _ _ => rfl) ?_ ?_ depth rest
  · intro ok tok toks opener closer eof _ ih depth rest
    rw [List.cons_append, Cursor.findInItem]
    simp only [eof, opener, closer, Nat.add_one_ne_zero, false_and, if_false, Bool.false_eq_true]
    exact ih depth rest
  · intro ok o pre c post opener closer _ hpre hpost depth rest
    have ho := (Token.of_isOpener opener).1
    have hc := Token.of_isCloser closer
    rw [List.append_assoc, List.cons_append, Cursor.findInItem]
    simp only [ho, opener, Nat.add_one_ne_zero, false_and, if_false, if_true]
    rw [List.cons_append, hpre (depth + 1), Cursor.findInItem]
    simp only [hc, closer, Nat.add_one_ne_zero, false_and, if_false, if_true,
      Bool.false_eq_true, Nat.add_sub_cancel]
    exact hpost depth rest

/-- A search of an item passes over balanced tokens that neither end the item
nor are looked for. -/
theorem findInItem_zero {wanted : List Token} {toks : List Lexeme}
    (h : Balanced ok (toks.map (·.token)))
    (hok : ∀ t, ok t = true → t.isSeparator = false ∧ t ∉ wanted) (rest : List Lexeme) :
    Cursor.findInItem wanted 0 (toks ++ rest) = Cursor.findInItem wanted 0 rest := by
  refine h.lexemes_induct (P := fun ok toks =>
    (∀ t, ok t = true → t.isSeparator = false ∧ t ∉ wanted) → ∀ rest,
      Cursor.findInItem wanted 0 (toks ++ rest) = Cursor.findInItem wanted 0 rest)
    (fun _ _ _ => rfl) ?_ ?_ hok rest
  · intro ok tok toks opener closer eof allowed ih hok rest
    obtain ⟨hsep, hwanted⟩ := hok _ allowed
    rw [List.cons_append, Cursor.findInItem]
    simp only [eof, opener, closer, hsep, hwanted, or_self, and_false, if_false, Bool.false_eq_true]
    exact ih hok rest
  · intro ok o pre c post opener closer inside _ hpost hok rest
    have ho := Token.of_isOpener opener
    have hc := Token.of_isCloser closer
    rw [List.append_assoc, List.cons_append, Cursor.findInItem]
    simp only [ho, opener, or_self, and_false, if_false, if_true, Bool.false_eq_true]
    rw [List.cons_append, inside.findInItem_succ, Cursor.findInItem]
    simp only [hc, closer, Nat.zero_add, Nat.add_one_ne_zero, false_and, if_false, if_true,
      Bool.false_eq_true, Nat.sub_self]
    exact hpost hok rest

/-- Two brackets deep, the search for a colon passes over balanced tokens. -/
theorem colonInside_succ {toks : List Lexeme} (h : Balanced ok (toks.map (·.token))) (depth : Nat)
    (rest : List Lexeme) :
    Cursor.colonInside (depth + 2) (toks ++ rest) = Cursor.colonInside (depth + 2) rest := by
  refine h.lexemes_induct (P := fun _ toks => ∀ depth rest,
    Cursor.colonInside (depth + 2) (toks ++ rest) = Cursor.colonInside (depth + 2) rest)
    (fun _ _ _ => rfl) ?_ ?_ depth rest
  · intro ok tok toks opener closer eof _ ih depth rest
    have hdepth : depth + 2 ≠ 1 := by omega
    rw [List.cons_append, Cursor.colonInside]
    simp only [eof, opener, closer, hdepth, if_false, Bool.false_eq_true, decide_false,
      Bool.and_false, Bool.false_or]
    exact ih depth rest
  · intro ok o pre c post opener closer _ hpre hpost depth rest
    have ho := (Token.of_isOpener opener).1
    have hc := Token.of_isCloser closer
    have hdepth : decide (depth + 1 + 2 > 1) = true := by simp
    rw [List.append_assoc, List.cons_append, Cursor.colonInside]
    simp only [ho, opener, if_false, if_true]
    rw [List.cons_append, hpre (depth + 1), Cursor.colonInside]
    simp only [hc, closer, hdepth, if_false, if_true, Bool.false_eq_true, Bool.true_and]
    exact hpost depth rest

/-- Directly inside a bracket, the search for a colon passes over balanced
tokens without one. -/
theorem colonInside_one {toks : List Lexeme} (h : Balanced ok (toks.map (·.token)))
    (hok : ∀ t, ok t = true → t ≠ .colon) (rest : List Lexeme) :
    Cursor.colonInside 1 (toks ++ rest) = Cursor.colonInside 1 rest := by
  refine h.lexemes_induct (P := fun ok toks => (∀ t, ok t = true → t ≠ .colon) → ∀ rest,
    Cursor.colonInside 1 (toks ++ rest) = Cursor.colonInside 1 rest)
    (fun _ _ _ => rfl) ?_ ?_ hok rest
  · intro ok tok toks opener closer eof allowed ih hok rest
    rw [List.cons_append, Cursor.colonInside]
    simp only [eof, opener, closer, hok _ allowed, if_false, Bool.false_eq_true, decide_false,
      Bool.false_and, Bool.false_or]
    exact ih hok rest
  · intro ok o pre c post opener closer inside _ hpost hok rest
    have ho := (Token.of_isOpener opener).1
    have hc := Token.of_isCloser closer
    rw [List.append_assoc, List.cons_append, Cursor.colonInside]
    simp only [ho, opener, if_false, if_true]
    rw [List.cons_append, inside.colonInside_succ, Cursor.colonInside]
    simp only [hc, closer, if_false, if_true, Bool.false_eq_true]
    exact hpost hok rest

/-! ## Written trees -/

theorem wrap {o c : Token} (opener : o.isOpener = true) (closer : c.isCloser = true)
    (inside : Balanced ok' ts) : Balanced ok (o :: ts ++ [c]) :=
  .group opener closer inside.any .nil

theorem block {sep : Token} {items : List (List Token)} (hsep : sep.isSeparator = true)
    (h : ∀ item ∈ items, Balanced (fun _ => true) item) :
    Balanced ok ((Style.marked sep).block items) := by
  have hone : Balanced (fun _ => true) [sep] := by
    cases sep with
    | blockSep | semicolon => exact singleton rfl rfl (by simp) rfl
    | _ => simp [Token.isSeparator] at hsep
  exact wrap (o := .blockStart) (c := .blockEnd) rfl rfl (intercalate hone h)

theorem map {ι : Type} {xs : List ι} {f : ι → Token} (opener : ∀ x, (f x).isOpener = false)
    (closer : ∀ x, (f x).isCloser = false) (eof : ∀ x, f x ≠ .eof) (allowed : ∀ x, ok (f x) = true) :
    Balanced ok (xs.map f) := by
  induction xs with
  | nil => exact .nil
  | cons x xs ih => exact .plain (opener x) (closer x) (eof x) (allowed x) ih

end Balanced

/-- May stand in an expression outside all brackets and blocks. -/
def Token.inExpr (t : Token) : Bool :=
  !t.isSeparator && !([.colon, .equals, .kwWith, .pipe] : List Token).contains t

theorem Token.not_mem_of_inExpr {t : Token} (h : t.inExpr = true) :
    t.isSeparator = false ∧ t ∉ ([.colon, .equals, .kwWith, .pipe] : List Token) := by
  simpa [inExpr] using h

theorem Token.ne_colon_of_inExpr {t : Token} (h : t.inExpr = true) : t ≠ .colon := by
  rintro rfl
  exact (not_mem_of_inExpr h).2 List.mem_cons_self

namespace Concrete

open Offside.Balanced

variable {sep : Token}

theorem balanced_names {ok : Token → Bool} (hok : ∀ text, ok (.ident text) = true)
    (ns : List Name) : Balanced ok (ns.map Name.token) :=
  Balanced.map (fun _ => rfl) (fun _ => rfl) (fun _ => by simp [Name.token]) (fun n => hok n.text)

theorem balanced_bound (n : Name) : Balanced Token.inExpr [n.boundToken] := by
  rw [Name.boundToken]
  split
  · exact singleton rfl rfl (by simp) rfl
  · exact singleton rfl rfl (by simp) rfl

theorem balanced_bounds (ns : List Name) : Balanced Token.inExpr (ns.map Name.boundToken) := by
  rw [List.map_eq_flatMap]
  exact Balanced.flatMap fun n _ => balanced_bound n

theorem balanced_qualified (q : QualifiedName) : Balanced Token.inExpr q.tokens := by
  obtain ⟨span, segs⟩ := q
  rw [QualifiedName.tokens]
  induction segs with
  | nil => exact .nil
  | cons n ns ih =>
    cases ns with
    | nil => exact singleton rfl rfl (by simp [Name.token]) rfl
    | cons m ms =>
      rw [List.map_cons, List.map_cons, List.intersperse_cons_cons]
      exact .plain rfl rfl (by simp [Name.token]) rfl (.plain rfl rfl (by simp) rfl ih)

theorem balanced_leaf (l : Leaf) : Balanced Token.inExpr l.tokens := by
  cases l with
  | name q => exact balanced_qualified q
  | hole | unit | type | integer => exact singleton rfl rfl (by simp) rfl

theorem balanced_param {ok : Token → Bool} {s : Style} {p : Param Expr}
    (h : Balanced Token.inExpr (exprTokens s p.type)) : Balanced ok (paramTokens s p) := by
  have hinside : Balanced (fun _ => true) (p.names.map Name.boundToken ++
      .colon :: exprTokens s p.type) :=
    (balanced_bounds p.names).any.append (.plain rfl rfl (by simp) rfl h.any)
  rw [paramTokens_eq, List.cons_append]
  cases p.isImplicit with
  | true => exact wrap rfl rfl hinside
  | false => exact wrap rfl rfl hinside

theorem balanced_option {ok : Token → Bool} {s : Style} {before : Token} {o : Option Expr}
    (hbefore : Balanced ok [before]) (h : ∀ e ∈ o, Balanced ok (exprTokens s e)) :
    Balanced ok (optionTokens s before o) := by
  cases o with
  | none => exact .nil
  | some e => exact hbefore.append (h e rfl)

theorem balanced_signature {s : Style} {g : Signature Expr}
    (h : Balanced Token.inExpr (exprTokens s g.type)) :
    Balanced (fun _ => true) (signatureTokens s g) :=
  (balanced_names (fun _ => rfl) _).append (.plain rfl rfl (by simp) rfl h.any)

theorem balanced_header {s : Style} {h : Header Expr}
    (params : ∀ p ∈ h.params, Balanced Token.inExpr (exprTokens s p.type))
    (type : ∀ e ∈ h.type, Balanced Token.inExpr (exprTokens s e)) :
    Balanced (fun _ => true) (headerTokens s h) := by
  rw [headerTokens_eq, paramsTokens_eq]
  refine .append (.plain rfl rfl (by simp [Name.token]) rfl ?_)
    (balanced_option (singleton rfl rfl (by simp) rfl) fun e he => (type e he).any)
  exact Balanced.flatMap fun p hp => balanced_param (params p hp)

/-- Brackets and blocks of written trees are balanced. Outside of them an
expression holds neither separators nor what decides what a declaration is. -/
theorem balanced_cases (hsep : sep.isSeparator = true) :
    Cases (fun e => Balanced Token.inExpr (exprTokens (.marked sep) e))
      (fun a => Balanced Token.inExpr (atomTokens (.marked sep) a))
      (fun d => Balanced (fun _ => true) (declTokens (.marked sep) (.marked sep) d)) where
  run span atoms each := by
    rw [exprTokens, atomsTokens_eq]
    exact Balanced.flatMap each
  arrow span domain codomain each target := by
    rw [exprTokens, atomsTokens_eq]
    exact (Balanced.flatMap each).append (.plain rfl rfl (by simp) rfl target)
  bind span binder bindings body types result := by
    have hbinder : Balanced Token.inExpr [binder.token] := by
      cases binder <;> exact singleton rfl rfl (by simp [Binder.token]) rfl
    have hbindings : Balanced Token.inExpr (bindings.flatMap (bindingTokens (.marked sep))) := by
      refine Balanced.flatMap fun b hb => ?_
      cases b with
      | name n => exact balanced_bound n
      | typed p => exact balanced_param (types p hb)
    rw [exprTokens, bindingsTokens_eq]
    exact (hbinder.append hbindings).append (.plain rfl rfl (by simp) rfl result)
  letIn span decls body each result := by
    rw [exprTokens, declsTokens_eq]
    refine .append (.plain rfl rfl (by simp) rfl (Balanced.block hsep ?_))
      (.plain rfl rfl (by simp) rfl result)
    exact List.forall_mem_map.2 each
  leaf l := by
    rw [atomTokens]
    exact balanced_leaf l
  paren span e inner := by
    rw [atomTokens]
    exact wrap rfl rfl inner
  param p type := by
    rw [atomTokens]
    exact balanced_param type
  record span builder fields values := by
    have hbuilder : Balanced Token.inExpr ((builder.map (·.tokens)).getD []) := by
      cases builder with
      | none => exact .nil
      | some q => exact balanced_qualified q
    have hfields : Balanced (fun _ => true)
        ([Token.semicolon].intercalate (assignmentsTokens (.marked sep) fields)) := by
      rw [assignmentsTokens_eq]
      refine Balanced.intercalate (singleton rfl rfl (by simp) rfl) (List.forall_mem_map.2 ?_)
      intro f hf
      exact .plain rfl rfl (by simp [Name.token]) rfl (.plain rfl rfl (by simp) rfl (values f hf).any)
    rw [atomTokens, List.append_assoc]
    exact .append (.plain rfl rfl (by simp) rfl hbuilder) (wrap rfl rfl hfields)
  tail e inner := by
    rw [atomTokens]
    exact inner
  dataType span header constructors params type types := by
    rw [declTokens, signaturesTokens_eq]
    refine .append (.plain rfl rfl (by simp) rfl (balanced_header params type))
      (.plain rfl rfl (by simp) rfl (Balanced.block hsep (List.forall_mem_map.2 ?_)))
    exact fun g hg => balanced_signature (types g hg)
  emptyData span header params type := by
    rw [declTokens]
    exact .plain rfl rfl (by simp) rfl (balanced_header params type)
  recordType span header builder fields decls params type types each := by
    rw [declTokens, signaturesTokens_eq, declsTokens_eq]
    refine .append (.plain rfl rfl (by simp) rfl (balanced_header params type))
      (.plain rfl rfl (by simp) rfl (Balanced.block hsep ?_))
    intro item hitem
    obtain ⟨⟨key, item⟩, hmem, rfl⟩ := List.mem_map.1 hitem
    rcases List.mem_append.1 hmem with hmem | hmem
    · rcases List.mem_append.1 hmem with hmem | hmem
      · obtain ⟨n, -, heq⟩ := List.mem_map.1 hmem
        obtain ⟨rfl, rfl⟩ := Prod.mk.inj heq
        exact .plain rfl rfl (by simp) rfl (singleton rfl rfl (by simp [Name.token]) rfl)
      · obtain ⟨g', hg', rfl⟩ := List.mem_map.1 (List.of_mem_zip hmem).2
        obtain ⟨g, hg, rfl⟩ := List.mem_map.1 hg'
        exact .plain rfl rfl (by simp) rfl (balanced_signature (types g hg))
    · obtain ⟨d, hd, rfl⟩ := List.mem_map.1 (List.of_mem_zip hmem).2
      exact each d hd
  moduleBlock span name params decls types each := by
    rw [declTokens, paramsTokens_eq, declsTokens_eq]
    refine .append (.append (.plain rfl rfl (by simp) rfl (balanced_qualified name).any)
      (Balanced.flatMap fun p hp => balanced_param (types p hp)))
      (.plain rfl rfl (by simp) rfl (Balanced.block hsep (List.forall_mem_map.2 each)))
  importModule span kind name := by
    have hkind : Balanced (fun _ => true) kind.tokens := by
      cases kind with
      | importOnly | openOnly => exact singleton rfl rfl (by simp) rfl
      | openImport => exact .plain rfl rfl (by simp) rfl (singleton rfl rfl (by simp) rfl)
    rw [declTokens]
    exact hkind.append (balanced_qualified name).any
  ascription g type := by
    rw [declTokens_ascription]
    exact balanced_signature type
  clause span patterns isOperator withPatterns withExpr rhs locals lefts withs scrutinee right
      each := by
    rw [declTokens, exprsTokens_eq, exprsTokens_eq, declsTokens_eq]
    refine .append (.append (.append (.append ?_ ?_) ?_) ?_) ?_
    · exact Balanced.flatMap fun e he => (lefts e he).any
    · exact Balanced.flatMap fun e he => .plain rfl rfl (by simp) rfl (withs e he).any
    · exact balanced_option (singleton rfl rfl (by simp) rfl) fun e he => (scrutinee e he).any
    · exact balanced_option (singleton rfl rfl (by simp) rfl) fun e he => (right e he).any
    · split
      · exact .nil
      · exact .plain rfl rfl (by simp) rfl (Balanced.block hsep (List.forall_mem_map.2 each))
  fixity span fixity operators := by
    rw [declTokens]
    exact .plain rfl rfl (by simp) rfl (.plain rfl rfl (by simp) rfl
      (balanced_names (fun _ => rfl) operators))

theorem balanced_expr (hsep : sep.isSeparator = true) (e : Expr) :
    Balanced Token.inExpr (exprTokens (.marked sep) e) :=
  (balanced_cases hsep).expr e

end Concrete

end Offside
