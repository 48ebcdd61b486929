-- SUMMARY: The members of record types in writing, and the order in which they stand.
import Mathlib.Data.List.Perm.Basic
import Offside.Parser.Expr
import Offside.Proofs.Concrete.Written

/-! # Members of record types

A record type keeps its constructor, its fields and its declarations apart.
They can be written in that order, or in the order of their places, which is
the one they were read in. -/

namespace Offside

namespace Parser

open Concrete (headerTokens signatureTokens declTokens)

/-- A member of a record type in writing. -/
def Member.tokens (outer s : Style) : Member → List Token
  | .builder n => [.kwConstructor, n.token]
  | .field g => .kwField :: signatureTokens s g
  | .decl d => declTokens outer s d

/-- Where a member starts, by which its place among the others is known. -/
def Member.start : Member → Nat
  | .builder n => n.span.start
  | .field g => g.span.start
  | .decl d => d.span.start

/-- The members of a record type: constructor, fields, declarations. -/
def members (builder : Option Name) (fields : List (Signature Concrete.Expr))
    (decls : List (Decl Concrete.Expr)) : List Member :=
  builder.toList.map .builder ++ fields.map .field ++ decls.map .decl

/-- The constructor that a member is. -/
def Member.builder? : Member → Option Name
  | .builder name => some name
  | _ => none

/-- The field that a member is. -/
def Member.field? : Member → Option (Signature Concrete.Expr)
  | .field signature => some signature
  | _ => none

/-- The declaration that a member is. -/
def Member.decl? : Member → Option (Decl Concrete.Expr)
  | .decl d => some d
  | _ => none

theorem Member.field?_eq_some {m : Member} {g : Signature Concrete.Expr} :
    m.field? = some g ↔ m = .field g := by
  cases m <;> simp [field?]

theorem Member.decl?_eq_some {m : Member} {d : Decl Concrete.Expr} :
    m.decl? = some d ↔ m = .decl d := by
  cases m <;> simp [decl?]

section

variable (builder : Option Name) (fields : List (Signature Concrete.Expr))
  (decls : List (Decl Concrete.Expr))

theorem filterMap_builder?_members :
    (members builder fields decls).filterMap Member.builder? = builder.toList := by
  simp [members, List.filterMap_map, Function.comp_def, Member.builder?]

theorem filterMap_field?_members :
    (members builder fields decls).filterMap Member.field? = fields := by
  simp [members, List.filterMap_map, Function.comp_def, Member.field?]

theorem filterMap_decl?_members :
    (members builder fields decls).filterMap Member.decl? = decls := by
  simp [members, List.filterMap_map, Function.comp_def, Member.decl?]

end

theorem declTokens_recordType {outer s : Style} {span : Span} {header : Header Concrete.Expr}
    {builder : Option Name} {fields : List (Signature Concrete.Expr)}
    {decls : List (Decl Concrete.Expr)} :
    declTokens outer s (.recordType span header builder fields decls) =
      .kwRecord :: (headerTokens s header ++ .kwWhere :: outer.block (outer.arrange
        ((members builder fields decls).map fun m => (m.start, m.tokens outer s)))) := by
  have hzip : ∀ {α : Type} (xs : List α) (f : α → Nat) (g : α → List Token),
      (xs.map f).zip (xs.map g) = xs.map fun x => (f x, g x) := by
    intro α xs f g
    induction xs with
    | nil => rfl
    | cons x xs ih => rw [List.map_cons, List.map_cons, List.zip_cons_cons, ih, List.map_cons]
  rw [declTokens, Concrete.signaturesTokens_eq, Concrete.declsTokens_eq, List.map_map, hzip, hzip]
  simp only [members, List.map_append, List.map_map]
  rfl

theorem declTokens_recordType_marked {sep : Token} {s : Style} {span : Span}
    {header : Header Concrete.Expr} {builder : Option Name}
    {fields : List (Signature Concrete.Expr)} {decls : List (Decl Concrete.Expr)} :
    declTokens (.marked sep) s (.recordType span header builder fields decls) =
      .kwRecord :: (headerTokens s header ++ .kwWhere ::
        (Style.marked sep).block
          ((members builder fields decls).map (Member.tokens (.marked sep) s))) := by
  rw [declTokens_recordType]
  simp only [Style.marked, List.map_map, Function.comp_def]

/-! ## Members in their order -/

/-- Members sorted into their kinds are all there. -/
theorem members_perm {ms : List Member} (h : (ms.filterMap Member.builder?).tail = []) :
    (members (ms.filterMap Member.builder?).head? (ms.filterMap Member.field?)
      (ms.filterMap Member.decl?)).Perm ms := by
  have hbuilder : (ms.filterMap Member.builder?).head?.toList = ms.filterMap Member.builder? := by
    cases hb : ms.filterMap Member.builder? with
    | nil => rfl
    | cons n ns =>
      rw [hb] at h
      rw [show ns = [] from h]
      rfl
  rw [members, hbuilder]
  clear h hbuilder
  induction ms with
  | nil => exact .nil
  | cons m ms ih =>
    cases m with
    | builder n => exact ih.cons _
    | field g => exact (List.perm_middle.append_right _).trans (ih.cons _)
    | decl d => exact List.perm_middle.trans (ih.cons _)

/-- What starts one after another is arranged as it stands. -/
theorem plain_arrange_of_perm {keyed keyed' : List (Nat × List Token)} (hperm : keyed'.Perm keyed)
    (h : keyed.Pairwise fun a b => a.1 < b.1) : Style.plain.arrange keyed' = keyed.map (·.2) := by
  have hsorted : keyed'.mergeSort (fun a b => a.1 ≤ b.1) = keyed := by
    have hinj := List.Pairwise.forall_of_forall_of_flip (R := fun a b => a.1 = b.1 → a = b)
      (fun _ _ _ => rfl) (h.imp fun hlt heq => absurd heq (Nat.ne_of_lt hlt))
      (h.imp fun hlt heq => absurd heq (Nat.ne_of_gt hlt))
    have hperm' := (List.mergeSort_perm keyed' fun a b => a.1 ≤ b.1).trans hperm
    refine hperm'.eq_of_pairwise ?_ (List.pairwise_mergeSort ?_ ?_ keyed') ?_
    · intro a b ha hb hab hba
      exact hinj (hperm'.subset ha) hb
        (Nat.le_antisymm (of_decide_eq_true hab) (of_decide_eq_true hba))
    · intro a b c hab hbc
      simp only [decide_eq_true_eq] at hab hbc ⊢
      omega
    · intro a b
      simp only [Bool.or_eq_true, decide_eq_true_eq]
      omega
    · exact h.imp fun hlt => decide_eq_true (Nat.le_of_lt hlt)
  change (keyed'.mergeSort fun a b => a.1 ≤ b.1).map (·.2) = keyed.map (·.2)
  rw [hsorted]

/-- Members that start one after another are written as they stand. -/
theorem plain_arrange_members {s : Style} {ms ms' : List Member} (hperm : ms'.Perm ms)
    (h : ms.Pairwise fun m m' => m.start < m'.start) :
    Style.plain.arrange (ms'.map fun m => (m.start, m.tokens .plain s)) =
      ms.map (Member.tokens .plain s) := by
  rw [plain_arrange_of_perm (hperm.map _) (List.pairwise_map.2 h), List.map_map]
  rfl

end Parser

end Offside
