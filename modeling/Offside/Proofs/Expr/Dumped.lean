-- SUMMARY: The S-expressions that dumps are the texts of.
import Offside.Proofs.Expr.Printed
import Offside.Proofs.Expr.Sexp

/-! # Dumps as S-expressions

`Expr.sexp` and `declSexp` are what the dump of a tree shows, before it is
written as a text. `Expr.Named` is what the dump needs to be a legible text:
names are words, and no list of names is empty. -/

namespace Offside

open Lexeme (IsWord)

/-! ## Trees as S-expressions -/

/-- The members of a list. -/
def Sexp.items : Sexp → List Sexp
  | word _ => []
  | list _ items => items

/-- A name as a word. -/
def Name.sexp (n : Name) : Sexp := .word n.text

/-- A leaf. The unit value is an empty list. -/
def Leaf.sexp : Leaf → Sexp
  | unit _ => .list .round []
  | l => .word l.text

/-- Names before their common type. -/
def typedSexps (names : List Name) (type : Sexp) : List Sexp :=
  names.map Name.sexp ++ [.word ":", type]

/-- A list with a word in front that says what is in it. -/
def Sexp.labelled (label : String) (items : List Sexp) : Sexp := .list .round (.word label :: items)

/-- The brackets of a typed parameter. -/
def Param.bracket {ε : Type} (p : Param ε) : Bracket := if p.isImplicit then .curly else .round

/-- The words of an import before the name. -/
def ImportKind.sexps : ImportKind → List Sexp
  | importOnly => [.word "import"]
  | openOnly => [.word "open"]
  | openImport => [.word "open", .word "import"]

/-- What an applied expression begins the list of its arguments with: `s` if it is
no application, else the members of `s`. -/
def Expr.headSexps (s : Sexp) : Expr → List Sexp
  | .app .. => s.items
  | _ => [s]

mutual

/-- What the dump of an expression shows. -/
def Expr.sexp : Expr → Sexp
  | .leaf l => l.sexp
  | .paren _ e => e.sexp
  | .record _ builder fields =>
    .labelled "record" (builder.toList.map (.word ·.text) ++ assignmentSexps fields)
  | .arrow _ domain codomain => .labelled "->" [domain.sexp, codomain.sexp]
  | .pi _ params codomain => .labelled "->" [.list .square (paramSexps params), codomain.sexp]
  | .bind _ binder bindings body =>
    .labelled binder.word [.list .round (bindingSexps bindings), body.sexp]
  | .letIn _ decls body => .labelled "let" [.list .round (declSexps decls), body.sexp]
  -- All arguments are in one list with the function.
  | .app _ fn arg => .list .round (fn.headSexps fn.sexp ++ [arg.sexp])
  -- This is also what an application of a name to two arguments shows.
  | .operation _ operator left right => .list .round [operator.sexp, left.sexp, right.sexp]

def assignmentSexps : List (Assignment Expr) → List Sexp
  | [] => []
  | ⟨_, name, value⟩ :: fs => .list .round [name.sexp, value.sexp] :: assignmentSexps fs

def paramSexp : Param Expr → Sexp
  | ⟨_, isImplicit, names, type⟩ =>
    .list (if isImplicit then .curly else .round) (typedSexps names type.sexp)

def paramSexps : List (Param Expr) → List Sexp
  | [] => []
  | p :: ps => paramSexp p :: paramSexps ps

def bindingSexps : List (Binding Expr) → List Sexp
  | [] => []
  | .name n :: bs => n.sexp :: bindingSexps bs
  | .typed p :: bs => paramSexp p :: bindingSexps bs

def exprSexps : List Expr → List Sexp
  | [] => []
  | e :: es => e.sexp :: exprSexps es

/-- An expression under a label, if there is one. -/
def optionSexps (label : String) : Option Expr → List Sexp
  | none => []
  | some e => [.labelled label [e.sexp]]

/-- The parts of constructors or fields, of each one for itself. -/
def signatureSexps : List (Signature Expr) → List (List Sexp)
  | [] => []
  | ⟨_, names, type⟩ :: gs => typedSexps names type.sexp :: signatureSexps gs

def headerSexps : Header Expr → List Sexp
  | ⟨name, params, type⟩ => name.sexp :: paramSexps params ++ optionSexps ":" type

/-- What the dump of a declaration shows. -/
def declSexp : Decl Expr → Sexp
  | .dataType _ header constructors =>
    .labelled "data" (headerSexps header ++
      [.labelled "where" ((signatureSexps constructors).map (.list .round))])
  | .emptyData _ header => .labelled "data" (headerSexps header)
  | .recordType _ header builder fields decls =>
    .labelled "record" (headerSexps header ++
      [.labelled "where" (builder.toList.map (fun n => .labelled "constructor" [n.sexp]) ++
        (signatureSexps fields).map (.labelled "field") ++ declSexps decls)])
  | .moduleBlock _ name params decls =>
    .labelled "module" (.word name.text :: paramSexps params ++ [.labelled "where" (declSexps decls)])
  | .importModule _ kind name => .list .round (kind.sexps ++ [.word name.text])
  | .ascription ⟨_, names, type⟩ => .labelled "sig" (typedSexps names type.sexp)
  | .clause _ patterns isOperator withPatterns withExpr rhs locals =>
    .labelled (if isOperator then "clause-infix" else "clause")
      (.list .round (exprSexps patterns) ::
        (exprSexps withPatterns).map (fun s => .labelled "|" [s]) ++
        optionSexps "with" withExpr ++ optionSexps "=" rhs ++
        if locals.isEmpty then [] else [.labelled "where" (declSexps locals)])
  | .fixity _ fixity operators =>
    .labelled fixity.assoc.keyword (.word (toString fixity.precedence) :: operators.map Name.sexp)

def declSexps : List (Decl Expr) → List Sexp
  | [] => []
  | d :: ds => declSexp d :: declSexps ds

end

section

theorem assignmentSexps_eq (fs : List (Assignment Expr)) :
    assignmentSexps fs = fs.map fun f => .list .round [f.name.sexp, f.value.sexp] := by
  induction fs with
  | nil => rfl
  | cons f fs ih => rw [assignmentSexps, ih, List.map_cons]

theorem paramSexp_eq (p : Param Expr) :
    paramSexp p = .list p.bracket (typedSexps p.names p.type.sexp) := by
  cases p
  rw [paramSexp]
  rfl

theorem paramSexps_eq (ps : List (Param Expr)) : paramSexps ps = ps.map paramSexp := by
  induction ps with
  | nil => rfl
  | cons p ps ih => rw [paramSexps, ih, List.map_cons]

/-- A binding: a word, or a typed parameter. -/
def bindingSexp : Binding Expr → Sexp
  | .name n => n.sexp
  | .typed p => paramSexp p

theorem bindingSexps_eq (bs : List (Binding Expr)) : bindingSexps bs = bs.map bindingSexp := by
  induction bs with
  | nil => rfl
  | cons b bs ih => cases b <;> rw [bindingSexps, ih, List.map_cons, bindingSexp]

theorem exprSexps_eq (es : List Expr) : exprSexps es = es.map Expr.sexp := by
  induction es with
  | nil => rfl
  | cons e es ih => rw [exprSexps, ih, List.map_cons]

/-- The parts of a constructor, field or ascription. -/
def Signature.sexps (g : Signature Expr) : List Sexp := typedSexps g.names g.type.sexp

theorem signatureSexps_eq (gs : List (Signature Expr)) :
    signatureSexps gs = gs.map Signature.sexps := by
  induction gs with
  | nil => rfl
  | cons g gs ih => rw [signatureSexps, ih, List.map_cons, Signature.sexps]

theorem headerSexps_eq (h : Header Expr) :
    headerSexps h = h.name.sexp :: h.params.map paramSexp ++ optionSexps ":" h.type := by
  cases h
  rw [headerSexps, paramSexps_eq]

theorem declSexps_eq (ds : List (Decl Expr)) : declSexps ds = ds.map declSexp := by
  induction ds with
  | nil => rfl
  | cons d ds ih => rw [declSexps, ih, List.map_cons]

theorem declSexp_dataType (span : Span) (header : Header Expr) (constructors : List (Signature Expr)) :
    declSexp (.dataType span header constructors) = .labelled "data" (headerSexps header ++
      [.labelled "where" (constructors.map fun g => .list .round g.sexps)]) := by
  rw [declSexp, signatureSexps_eq, List.map_map]
  rfl

/-- The members of the block of a record type. -/
def memberSexps (builder : Option Name) (fields : List (Signature Expr)) (decls : List (Decl Expr)) :
    List Sexp :=
  builder.toList.map (fun n => .labelled "constructor" [n.sexp]) ++
    fields.map (fun g => .labelled "field" g.sexps) ++ decls.map declSexp

theorem declSexp_recordType (span : Span) (header : Header Expr) (builder : Option Name)
    (fields : List (Signature Expr)) (decls : List (Decl Expr)) :
    declSexp (.recordType span header builder fields decls) =
      .labelled "record" (headerSexps header ++
        [.labelled "where" (memberSexps builder fields decls)]) := by
  rw [declSexp, signatureSexps_eq, declSexps_eq, List.map_map]
  rfl

theorem declSexp_ascription (g : Signature Expr) :
    declSexp (.ascription g) = .labelled "sig" g.sexps := by
  cases g
  rw [declSexp, Signature.sexps]

end

/-! ## Names that can be read off a dump -/

/-- At least one name, and each can be read off its text as the token that `token`
gives for it. -/
structure Name.Listed (token : Name → Token) (names : List Name) : Prop where
  ne_nil : names ≠ []
  each : ∀ n ∈ names, (token n).Legible

/-- The names of a header can be read off. -/
structure Header.Named (header : Header Expr) : Prop where
  name : header.name.token.Legible
  params : ∀ p ∈ header.params, Name.Listed Name.boundToken p.names

mutual

/-- All names of an expression can be read off its dump. -/
inductive Expr.Named : Expr → Prop
  | leaf {l} (segments : ∀ q, l = .name q → Name.Listed Name.token q.segments) :
      Expr.Named (.leaf l)
  | paren {span e} (inner : Expr.Named e) : Expr.Named (.paren span e)
  | record {span builder fields} (made : ∀ q ∈ builder, Name.Listed Name.token q.segments)
      (names : ∀ f ∈ fields, f.name.token.Legible) (values : ∀ f ∈ fields, Expr.Named f.value) :
      Expr.Named (.record span builder fields)
  | arrow {span domain codomain} (origin : Expr.Named domain) (target : Expr.Named codomain) :
      Expr.Named (.arrow span domain codomain)
  | pi {span params codomain} (ne_nil : params ≠ [])
      (names : ∀ p ∈ params, Name.Listed Name.boundToken p.names)
      (types : ∀ p ∈ params, Expr.Named p.type) (target : Expr.Named codomain) :
      Expr.Named (.pi span params codomain)
  | bind {span binder bindings body} (name : ∀ n, .name n ∈ bindings → n.boundToken.Legible)
      (names : ∀ p, .typed p ∈ bindings → Name.Listed Name.boundToken p.names)
      (types : ∀ p, .typed p ∈ bindings → Expr.Named p.type) (result : Expr.Named body) :
      Expr.Named (.bind span binder bindings body)
  | letIn {span decls body} (each : ∀ d ∈ decls, Decl.Named d) (result : Expr.Named body) :
      Expr.Named (.letIn span decls body)
  | app {span fn arg} (head : Expr.Named fn) (operand : Expr.Named arg) :
      Expr.Named (.app span fn arg)
  | operation {span operator left right} (name : operator.token.Legible)
      (first : Expr.Named left) (second : Expr.Named right) :
      Expr.Named (.operation span operator left right)

/-- The same of a declaration. Precedences are integer literals. -/
inductive Decl.Named : Decl Expr → Prop
  | dataType {span header constructors} (head : header.Named)
      (params : ∀ p ∈ header.params, Expr.Named p.type) (type : ∀ e ∈ header.type, Expr.Named e)
      (names : ∀ g ∈ constructors, Name.Listed Name.token g.names)
      (types : ∀ g ∈ constructors, Expr.Named g.type) :
      Decl.Named (.dataType span header constructors)
  | emptyData {span header} (head : header.Named) (params : ∀ p ∈ header.params, Expr.Named p.type)
      (type : ∀ e ∈ header.type, Expr.Named e) : Decl.Named (.emptyData span header)
  | recordType {span header builder fields decls} (head : header.Named)
      (params : ∀ p ∈ header.params, Expr.Named p.type) (type : ∀ e ∈ header.type, Expr.Named e)
      (made : ∀ n ∈ builder, n.token.Legible)
      (names : ∀ g ∈ fields, Name.Listed Name.token g.names)
      (types : ∀ g ∈ fields, Expr.Named g.type) (each : ∀ d ∈ decls, Decl.Named d) :
      Decl.Named (.recordType span header builder fields decls)
  | moduleBlock {span name params decls} (segments : Name.Listed Name.token name.segments)
      (names : ∀ p ∈ params, Name.Listed Name.boundToken p.names)
      (types : ∀ p ∈ params, Expr.Named p.type) (each : ∀ d ∈ decls, Decl.Named d) :
      Decl.Named (.moduleBlock span name params decls)
  | importModule {span kind name} (segments : Name.Listed Name.token name.segments) :
      Decl.Named (.importModule span kind name)
  | ascription {signature} (names : Name.Listed Name.token signature.names)
      (type : Expr.Named signature.type) : Decl.Named (.ascription signature)
  | clause {span patterns isOperator withPatterns withExpr rhs locals}
      (left : ∀ e ∈ patterns, Expr.Named e) (others : ∀ e ∈ withPatterns, Expr.Named e)
      (scrutinee : ∀ e ∈ withExpr, Expr.Named e) (right : ∀ e ∈ rhs, Expr.Named e)
      (each : ∀ d ∈ locals, Decl.Named d) :
      Decl.Named (.clause span patterns isOperator withPatterns withExpr rhs locals)
  | fixity {span fixity operators} (literal : fixity.precedence < UInt64.size)
      (names : Name.Listed Name.token operators) : Decl.Named (.fixity span fixity operators)

end

/-! ## Texts of dumps -/

/-- The parts of a dump, with blanks between, are the text of the S-expressions
`items`, and can be read back as them. -/
structure Dumps (parts : List String) (items : List Sexp) : Prop where
  eq_nil : parts = [] ↔ items = []
  legible : ∀ s ∈ items, s.Legible
  text : [' '].intercalate (parts.map String.toList) = [' '].intercalate (items.map Sexp.text)

theorem intercalate_append_of_ne_nil {α : Type} {sep : List α} {xs ys : List (List α)} (hxs : xs ≠ [])
    (hys : ys ≠ []) : sep.intercalate (xs ++ ys) = sep.intercalate xs ++ sep ++ sep.intercalate ys := by
  obtain ⟨x, xs, rfl⟩ := List.exists_cons_of_ne_nil hxs
  obtain ⟨y, ys, rfl⟩ := List.exists_cons_of_ne_nil hys
  simp [intercalate_cons]

namespace Dumps

variable {parts others : List String} {items rest : List Sexp} {w : String} {s : Sexp}

theorem nil : Dumps [] [] := ⟨by simp, by simp, rfl⟩

theorem append (h : Dumps parts items) (hrest : Dumps others rest) :
    Dumps (parts ++ others) (items ++ rest) where
  eq_nil := by simp [h.eq_nil, hrest.eq_nil]
  legible := List.forall_mem_append.2 ⟨h.legible, hrest.legible⟩
  text := by
    -- A blank stands between the two only if neither is empty.
    by_cases hitems : items = []
    · rw [hitems, h.eq_nil.2 hitems, List.nil_append, List.nil_append, hrest.text]
    · by_cases hnil : rest = []
      · rw [hnil, hrest.eq_nil.2 hnil, List.append_nil, List.append_nil, h.text]
      · have hparts : parts ≠ [] := fun hnone => hitems (h.eq_nil.1 hnone)
        have hothers : others ≠ [] := fun hnone => hnil (hrest.eq_nil.1 hnone)
        rw [List.map_append, List.map_append,
          intercalate_append_of_ne_nil (by simpa using hparts) (by simpa using hothers),
          intercalate_append_of_ne_nil (by simpa using hitems) (by simpa using hnil), h.text,
          hrest.text]

theorem cons (h : Dumps [w] items) (hrest : Dumps others rest) :
    Dumps (w :: others) (items ++ rest) := h.append hrest

theorem word (h : Sexp.Legible (.word w)) : Dumps [w] [.word w] :=
  ⟨by simp, by simpa using h, rfl⟩

/-- Parts and S-expressions one by one. -/
theorem map {α : Type} {xs : List α} {f : α → String} {g : α → Sexp}
    (h : ∀ x ∈ xs, Dumps [f x] [g x]) : Dumps (xs.map f) (xs.map g) := by
  induction xs with
  | nil => exact .nil
  | cons x xs ih =>
    obtain ⟨hx, hxs⟩ := List.forall_mem_cons.1 h
    exact hx.cons (ih hxs)

/-- What is put together with blanks before may be one part. -/
theorem unwords (h : Dumps parts items) (hne : parts ≠ []) : Dumps [" ".intercalate parts] items where
  eq_nil := by
    rw [← h.eq_nil]
    simp [hne]
  legible := h.legible
  text := by
    rw [← h.text]
    simp [String.toList_intercalate]

/-- A list in brackets, the only part. -/
theorem bracketed {b : Bracket} (h : Dumps parts items)
    (groups : b = .square → items ≠ [] ∧ ∀ s ∈ items, s.isGroup = true)
    (hw : w.toList = b.opening :: [' '].intercalate (parts.map String.toList) ++ [b.closing]) :
    Dumps [w] [.list b items] where
  eq_nil := by simp
  legible := List.forall_mem_singleton.2 (.list h.legible groups)
  text := by
    rw [List.map_singleton, List.map_singleton, Sexp.text_list, hw, h.text]

theorem round (h : Dumps parts items) : Dumps [parenthesised parts] [.list .round items] :=
  h.bracketed nofun (by simp [parenthesised, String.toList_intercalate, Bracket.opening,
    Bracket.closing])

end Dumps

/-! ## Words of dumps -/

theorem isInk_of_isWordChar {c : Char} (h : Token.isWordChar c = true) : Sexp.isInk c = true := by
  rw [Sexp.isInk, Bool.not_eq_true', ← Bool.not_eq_true, List.contains_iff_mem]
  intro hmem
  simp only [List.mem_cons, List.not_mem_nil, or_false] at hmem
  rcases hmem with rfl | rfl | rfl | rfl | rfl <;> exact absurd h (by decide)

theorem legible_of_isWord {w : String} {t : Token} (h : IsWord w.toList t) :
    Sexp.Legible (.word w) :=
  .word h.ne_nil fun c hc => isInk_of_isWordChar (h.chars c hc)

/-- The labels of lists in dumps, and the other words that are not read off the tree. -/
def dumpWords : List String :=
  ["record", "->", Binder.lambda.word, Binder.forallType.word, "let", ":", "data", "where",
    "constructor", "field", "module", "import", "open", "sig", "clause", "clause-infix", "|", "with",
    "=", "infix", "infixl", "infixr"]

theorem legible_dumpWord {w : String} (h : w ∈ dumpWords) : Sexp.Legible (.word w) := by
  have hall : ∀ w ∈ dumpWords, w.toList ≠ [] ∧ w.toList.all Sexp.isInk = true := by
    decide +kernel
  obtain ⟨hne, hink⟩ := hall w h
  exact .word hne (List.all_eq_true.1 hink)

theorem Dumps.label {w : String} (hw : w ∈ dumpWords) : Dumps [w] [.word w] :=
  .word (legible_dumpWord hw)

/-- A list with a label in front. -/
theorem Dumps.labelled {w : String} {parts : List String} {items : List Sexp} (hw : w ∈ dumpWords)
    (h : Dumps parts items) : Dumps [parenthesised (w :: parts)] [.labelled w items] :=
  ((label hw).cons h).round

theorem legible_name {n : Name} (h : n.token.Legible) : n.sexp.Legible :=
  legible_of_isWord (t := n.token) h

theorem legible_boundName {n : Name} (h : n.boundToken.Legible) : n.sexp.Legible := by
  unfold Name.boundToken at h
  split at h
  · rename_i htext
    rw [Name.sexp, htext]
    exact legible_of_isWord (Lexeme.isWord_of_mem_reserved (t := .underscore) (by simp [Token.reserved]))
  · exact legible_name h

theorem legible_qualified {q : QualifiedName} (h : Name.Listed Name.token q.segments) :
    Sexp.Legible (.word q.text) := by
  have htext : q.text.toList = ['.'].intercalate (q.segments.map (·.text.toList)) := by
    simp [QualifiedName.text, String.toList_intercalate, Function.comp_def]
  obtain ⟨n, ns, hsegments⟩ := List.exists_cons_of_ne_nil h.ne_nil
  have heach := h.each
  rw [hsegments] at htext heach
  have hword : ∀ m ∈ n :: ns, IsWord m.text.toList m.token := heach
  obtain ⟨hfirst, hothers⟩ := List.forall_mem_cons.1 hword
  rw [List.map_cons, intercalate_cons, List.flatMap_map] at htext
  refine .word ?_ ?_
  · rw [htext]
    simp [hfirst.ne_nil]
  · rw [htext, List.forall_mem_append]
    refine ⟨fun c hc => isInk_of_isWordChar (hfirst.chars c hc), fun c hc => ?_⟩
    obtain ⟨m, hm, hc⟩ := List.mem_flatMap.1 hc
    rcases List.mem_cons.1 hc with rfl | hc
    · rfl
    · exact isInk_of_isWordChar ((hothers m hm).chars c hc)

theorem legible_integer {n : Nat} (h : n < UInt64.size) : Sexp.Legible (.word (toString n)) :=
  legible_of_isWord (Lexeme.isWord_toString h)

/-! ## Dumps of trees -/

theorem Dumps.leaf {l : Leaf} (h : ∀ q, l = .name q → Name.Listed Name.token q.segments) :
    Dumps [l.text] [l.sexp] := by
  cases l with
  | name q => exact .word (legible_qualified (h q rfl))
  | hole => exact .word (legible_of_isWord (Lexeme.isWord_of_mem_reserved (w := "_")
      (t := .underscore) (by simp [Token.reserved])))
  | type => exact .word (legible_of_isWord (Lexeme.isWord_of_mem_reserved (w := "Type")
      (t := .kwType) (by simp [Token.reserved])))
  | integer span value => exact .word (legible_integer value.toNat_lt)
  | unit => exact Dumps.nil.bracketed (by simp) (by simp [Leaf.text, Bracket.opening, Bracket.closing])

/-- The dump of an expression shows it, and so it does at the head of an
application. -/
def ExprDumps (e : Expr) : Prop :=
  Dumps [dumpExpr false e] [e.sexp] ∧ Dumps [dumpExpr true e] (e.headSexps e.sexp)

/-- Only an application is dumped in another way where it is applied. -/
theorem exprDumps_of_dumps {e : Expr} (h : Dumps [dumpExpr false e] [e.sexp])
    (hhead : e.headSexps e.sexp = [e.sexp]) (hsame : dumpExpr true e = dumpExpr false e) :
    ExprDumps e := by
  refine ⟨h, ?_⟩
  rw [hhead, hsame]
  exact h

/-- Names and their type, as one text. -/
theorem dumps_typed {names : List Name} {type : String} {s : Sexp} (hne : names ≠ [])
    (hnames : ∀ n ∈ names, n.sexp.Legible) (htype : Dumps [type] [s]) :
    Dumps [Name.listText names ++ " : " ++ type] (typedSexps names s) := by
  have hall : Dumps (names.map Name.text ++ [":", type]) (typedSexps names s) :=
    (Dumps.map fun n hn => .word (hnames n hn)).append
      ((Dumps.label (by decide)).cons htype)
  have htext : Name.listText names ++ " : " ++ type =
      " ".intercalate (names.map Name.text ++ [":", type]) := by
    rw [String.intercalate_append_of_ne_nil (by simpa using hne) (by simp)]
    apply String.toList_inj.1
    simp [Name.listText]
  rw [htext]
  exact hall.unwords (by simp)

theorem dumps_param {p : Param Expr} (hnames : Name.Listed Name.boundToken p.names)
    (htype : Dumps [dumpExpr false p.type] [p.type.sexp]) :
    Dumps [dumpParam p] [paramSexp p] := by
  have hall := dumps_typed hnames.ne_nil (fun n hn => legible_boundName (hnames.each n hn)) htype
  obtain ⟨span, isImplicit, names, type⟩ := p
  rw [dumpParam, paramSexp]
  cases isImplicit with
  | false => exact hall.bracketed (by simp) (by simp [Bracket.opening, Bracket.closing])
  | true => exact hall.bracketed (by simp) (by simp [Bracket.opening, Bracket.closing])

theorem dumps_params {ps : List (Param Expr)}
    (hnames : ∀ p ∈ ps, Name.Listed Name.boundToken p.names) (htypes : ∀ p ∈ ps, ExprDumps p.type) :
    Dumps (ps.map dumpParam) (ps.map paramSexp) :=
  .map fun p hp => dumps_param (hnames p hp) (htypes p hp).1

theorem dumps_option {label : String} {o : Option Expr} (hlabel : label ∈ dumpWords)
    (h : ∀ e ∈ o, ExprDumps e) : Dumps (dumpOption label o) (optionSexps label o) := by
  cases o with
  | none => exact .nil
  | some e => exact .labelled hlabel (h e rfl).1

theorem dumps_header {header : Header Expr} (hnamed : header.Named)
    (hparams : ∀ p ∈ header.params, ExprDumps p.type) (htype : ∀ e ∈ header.type, ExprDumps e) :
    Dumps (dumpHeader header) (headerSexps header) := by
  have hall := dumps_params hnamed.params hparams
  have hname := legible_name hnamed.name
  obtain ⟨name, params, type⟩ := header
  rw [dumpHeader, headerSexps, dumpParams_eq, paramSexps_eq]
  exact ((Dumps.word hname).cons hall).append (dumps_option (by decide) htype)

theorem dumps_signature {g : Signature Expr} (hnames : Name.Listed Name.token g.names)
    (htype : ExprDumps g.type) : Dumps [dumpSignature g] g.sexps :=
  dumps_typed hnames.ne_nil (fun n hn => legible_name (hnames.each n hn)) htype.1

theorem dumps_names {names : List Name} (hnames : Name.Listed Name.token names) :
    Dumps [Name.listText names] (names.map Name.sexp) :=
  (Dumps.map fun n hn => .word (legible_name (hnames.each n hn))).unwords (by simpa using hnames.ne_nil)

/-- The dump of a tree with legible names shows it. -/
theorem dumped : Expr.Cases (fun e => e.Named → ExprDumps e)
    (fun d => d.Named → Dumps [dumpDecl d] [declSexp d]) where
  leaf l := by
    intro hnamed
    cases hnamed with
    | leaf segments =>
      refine exprDumps_of_dumps ?_ rfl (by rw [dumpExpr, dumpExpr])
      rw [dumpExpr, Expr.sexp]
      exact .leaf segments
  paren span e he := by
    intro hnamed
    cases hnamed with
    | paren inner =>
      refine exprDumps_of_dumps ?_ rfl (by rw [dumpExpr, dumpExpr])
      rw [dumpExpr, Expr.sexp]
      exact (he inner).1
  record span builder fields hfields := by
    intro hnamed
    cases hnamed with
    | record made names values =>
      refine exprDumps_of_dumps ?_ rfl (by rw [dumpExpr, dumpExpr])
      rw [dumpExpr, Expr.sexp, dumpAssignments_eq, assignmentSexps_eq]
      have hbuilder : Dumps (builder.toList.map (·.text)) (builder.toList.map (.word ·.text)) :=
        .map fun q hq => .word (legible_qualified (made q (by simpa using hq)))
      refine .labelled (by decide) (hbuilder.append (.map fun f hf => ?_))
      exact ((Dumps.word (legible_name (names f hf))).cons (hfields f hf (values f hf)).1).round
  arrow span domain codomain hdomain hcodomain := by
    intro hnamed
    cases hnamed with
    | arrow origin target =>
      refine exprDumps_of_dumps ?_ rfl (by rw [dumpExpr, dumpExpr])
      rw [dumpExpr, Expr.sexp]
      exact .labelled (by decide) ((hdomain origin).1.cons (hcodomain target).1)
  pi span params codomain hparams hcodomain := by
    intro hnamed
    cases hnamed with
    | pi ne_nil names types target =>
      refine exprDumps_of_dumps ?_ rfl (by rw [dumpExpr, dumpExpr])
      rw [dumpExpr, Expr.sexp, dumpParams_eq, paramSexps_eq]
      have hall := dumps_params names fun p hp => hparams p hp (types p hp)
      -- A list in square brackets is legible only if lists in other brackets are in it.
      have hgroups : ∀ s ∈ params.map paramSexp, s.isGroup = true := by
        rw [List.forall_mem_map]
        intro p _
        rw [paramSexp_eq, Param.bracket]
        cases p.isImplicit <;> rfl
      have hsquare : Dumps ["[" ++ " ".intercalate (params.map dumpParam) ++ "]"]
          [.list .square (params.map paramSexp)] :=
        hall.bracketed (fun _ => ⟨by simpa using ne_nil, hgroups⟩)
          (by simp [String.toList_intercalate, Bracket.opening, Bracket.closing])
      exact .labelled (by decide) (hsquare.cons (hcodomain target).1)
  bind span binder bindings body hbindings hbody := by
    intro hnamed
    cases hnamed with
    | bind name names types result =>
      refine exprDumps_of_dumps ?_ rfl (by rw [dumpExpr, dumpExpr])
      rw [dumpExpr, Expr.sexp, dumpBindings_eq, bindingSexps_eq]
      have hall : Dumps (bindings.map dumpBinding) (bindings.map bindingSexp) := by
        refine .map ?_
        rintro (n | p) hb
        · exact .word (legible_boundName (name n hb))
        · exact dumps_param (names p hb) (hbindings p hb (types p hb)).1
      have hword : binder.word ∈ dumpWords := by cases binder <;> decide
      exact .labelled hword (hall.round.cons (hbody result).1)
  letIn span decls body hdecls hbody := by
    intro hnamed
    cases hnamed with
    | letIn each result =>
      refine exprDumps_of_dumps ?_ rfl (by rw [dumpExpr, dumpExpr])
      rw [dumpExpr, Expr.sexp, dumpDecls_eq, declSexps_eq]
      have hall : Dumps (decls.map dumpDecl) (decls.map declSexp) :=
        .map fun d hd => hdecls d hd (each d hd)
      exact .labelled (by decide) (hall.round.cons (hbody result).1)
  app span fn arg hfn harg := by
    intro hnamed
    cases hnamed with
    | app head operand =>
      have hlist : Dumps [dumpExpr true fn ++ " " ++ dumpExpr false arg]
          (fn.headSexps fn.sexp ++ [arg.sexp]) := by
        have hall := ((hfn head).2.cons (harg operand).1).unwords (by simp)
        simpa using hall
      -- Where it is applied itself, its members go on with more arguments.
      refine ⟨?_, ?_⟩
      · rw [dumpExpr, Expr.sexp]
        exact hlist.bracketed (by simp) (by simp [Bracket.opening, Bracket.closing])
      · rw [dumpExpr, Expr.headSexps, Expr.sexp]
        exact hlist
  operation span operator left right hleft hright := by
    intro hnamed
    cases hnamed with
    | operation name first second =>
      refine exprDumps_of_dumps ?_ rfl (by rw [dumpExpr, dumpExpr])
      rw [dumpExpr, Expr.sexp]
      exact ((Dumps.word (legible_name name)).cons ((hleft first).1.cons (hright second).1)).round
  dataType span header constructors hparams htype hconstructors := by
    intro hnamed
    cases hnamed with
    | dataType head params type names types =>
      have hheader := dumps_header head (fun p hp => hparams p hp (params p hp))
        (fun e he => htype e he (type e he))
      rw [dumpDecl, declSexp_dataType, dumpSignatures_eq, List.map_map]
      refine .labelled (by decide) (hheader.append
        (.labelled (by decide) (.map fun g hg => ?_)))
      exact (dumps_signature (names g hg) (hconstructors g hg (types g hg))).bracketed (by simp)
        (by simp [Bracket.opening, Bracket.closing])
  emptyData span header hparams htype := by
    intro hnamed
    cases hnamed with
    | emptyData head params type =>
      have hheader := dumps_header head (fun p hp => hparams p hp (params p hp))
        (fun e he => htype e he (type e he))
      rw [dumpDecl, declSexp]
      exact .labelled (by decide) hheader
  recordType span header builder fields decls hparams htype hfields hdecls := by
    intro hnamed
    cases hnamed with
    | recordType head params type made names types each =>
      have hheader := dumps_header head (fun p hp => hparams p hp (params p hp))
        (fun e he => htype e he (type e he))
      rw [dumpDecl, declSexp_recordType, dumpSignatures_eq, dumpDecls_eq, List.map_map]
      have hbuilder : Dumps
          (builder.toList.map fun name => parenthesised ["constructor", name.text])
          (builder.toList.map fun n => .labelled "constructor" [n.sexp]) :=
        .map fun n hn => .labelled (by decide)
          (.word (legible_name (made n (by simpa using hn))))
      have hmembers : Dumps (fields.map ((fun field => parenthesised ["field", field]) ∘ dumpSignature))
          (fields.map fun g => Sexp.labelled "field" g.sexps) :=
        .map fun g hg => .labelled (by decide)
          (dumps_signature (names g hg) (hfields g hg (types g hg)))
      have hall : Dumps (decls.map dumpDecl) (decls.map declSexp) :=
        .map fun d hd => hdecls d hd (each d hd)
      exact .labelled (by decide) (hheader.append
        (.labelled (by decide) ((hbuilder.append hmembers).append hall)))
  moduleBlock span name params decls hparams hdecls := by
    intro hnamed
    cases hnamed with
    | moduleBlock segments names types each =>
      rw [dumpDecl, declSexp, dumpParams_eq, paramSexps_eq, dumpDecls_eq, declSexps_eq]
      have hheader : Dumps (name.text :: params.map dumpParam)
          (.word name.text :: params.map paramSexp) :=
        (Dumps.word (legible_qualified segments)).cons
          (dumps_params names fun p hp => hparams p hp (types p hp))
      have hall : Dumps (decls.map dumpDecl) (decls.map declSexp) :=
        .map fun d hd => hdecls d hd (each d hd)
      exact .labelled (by decide) (hheader.append
        (.labelled (by decide) hall))
  importModule span kind name := by
    intro hnamed
    cases hnamed with
    | importModule segments =>
      rw [dumpDecl, declSexp]
      have hname := Dumps.word (legible_qualified segments)
      have himport : Dumps ["import"] [.word "import"] := .label (by decide)
      have hopen : Dumps ["open"] [.word "open"] := .label (by decide)
      cases kind with
      | importOnly => exact (himport.cons hname).round
      | openOnly => exact (hopen.cons hname).round
      | openImport => exact (((hopen.cons himport).unwords (by simp)).cons hname).round
  ascription signature htype := by
    intro hnamed
    cases hnamed with
    | ascription hnames hexpr =>
      obtain ⟨span, names, type⟩ := signature
      rw [dumpDecl, declSexp, typedSexps]
      have hcolon : Dumps [":"] [.word ":"] := .label (by decide)
      exact .labelled (by decide)
        ((dumps_names hnames).cons (hcolon.cons (htype hexpr).1))
  clause span patterns isOperator withPatterns withExpr rhs locals hpatterns hwith hexpr hrhs
      hlocals := by
    intro hnamed
    cases hnamed with
    | clause left others scrutinee right each =>
      rw [dumpDecl, declSexp, dumpExprs_eq, exprSexps_eq, dumpExprs_eq, exprSexps_eq, dumpDecls_eq,
        declSexps_eq, List.map_map, List.map_map]
      have hpatterns : Dumps (patterns.map (dumpExpr false)) (patterns.map Expr.sexp) :=
        .map fun e he => (hpatterns e he (left e he)).1
      have hwith : Dumps (withPatterns.map ((fun p => parenthesised ["|", p]) ∘ dumpExpr false))
          (withPatterns.map ((fun s => .labelled "|" [s]) ∘ Expr.sexp)) :=
        .map fun e he => .labelled (by decide) (hwith e he (others e he)).1
      have hblock : Dumps
          (if locals.isEmpty then [] else [parenthesised ("where" :: locals.map dumpDecl)])
          (if locals.isEmpty then [] else [.labelled "where" (locals.map declSexp)]) := by
        split
        · exact .nil
        · exact .labelled (by decide)
            (.map fun d hd => hlocals d hd (each d hd))
      have hlabel : (if isOperator then "clause-infix" else "clause") ∈ dumpWords := by
        cases isOperator <;> decide
      refine .labelled hlabel ((((hpatterns.round.cons hwith).append ?_).append
        ?_).append hblock)
      · exact dumps_option (by decide) fun e he => hexpr e he (scrutinee e he)
      · exact dumps_option (by decide) fun e he => hrhs e he (right e he)
  fixity span fixity operators := by
    intro hnamed
    cases hnamed with
    | fixity literal names =>
      rw [dumpDecl, declSexp]
      have hkeyword : fixity.assoc.keyword ∈ dumpWords := by cases fixity.assoc <;> decide
      have hfixity : Dumps [fixity.text]
          [.word fixity.assoc.keyword, .word (toString fixity.precedence)] := by
        have hall := ((Dumps.label hkeyword).cons
          (.word (legible_integer literal))).unwords (by simp)
        simpa [Fixity.text, toString] using hall
      exact (hfixity.cons (dumps_names names)).round

end Offside
