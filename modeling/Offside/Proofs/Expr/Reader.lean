-- SUMMARY: A reader for dumps, and trees without spans and parentheses.
import Offside.Proofs.Expr.Dumped

/-! # Reading dumps

A list of three members that begins with a name is the use of an operator or an
application to two arguments. The reader tells them apart by the operators in
scope, which it finds in the fixity declarations of the dump. What it gives back
is `Expr.core`: the tree without spans and parentheses. -/

namespace Offside

open Lexeme (IsWord)

/-! ## Trees without spans and parentheses -/

mutual

/-- An expression without its spans and parentheses. -/
def Expr.core : Expr → Expr
  | .leaf l => .leaf (l.respan .bare)
  | .paren _ e => e.core
  | .record _ builder fields =>
    .record default (builder.map (QualifiedName.respan .bare)) (coreAssignments fields)
  | .arrow _ domain codomain => .arrow default domain.core codomain.core
  | .pi _ params codomain => .pi default (coreParams params) codomain.core
  | .bind _ binder bindings body => .bind default binder (coreBindings bindings) body.core
  | .letIn _ decls body => .letIn default (coreDecls decls) body.core
  | .app _ fn arg => .app default fn.core arg.core
  | .operation _ operator left right =>
    .operation default (operator.respan .bare) left.core right.core

def coreAssignments : List (Assignment Expr) → List (Assignment Expr)
  | [] => []
  | ⟨_, name, value⟩ :: fs => ⟨default, name.respan .bare, value.core⟩ :: coreAssignments fs

def coreParam : Param Expr → Param Expr
  | ⟨_, isImplicit, names, type⟩ =>
    ⟨default, isImplicit, names.map (Name.respan .bare), type.core⟩

def coreParams : List (Param Expr) → List (Param Expr)
  | [] => []
  | p :: ps => coreParam p :: coreParams ps

def coreBindings : List (Binding Expr) → List (Binding Expr)
  | [] => []
  | .name n :: bs => .name (n.respan .bare) :: coreBindings bs
  | .typed p :: bs => .typed (coreParam p) :: coreBindings bs

def coreOption : Option Expr → Option Expr
  | none => none
  | some e => some e.core

def coreExprs : List Expr → List Expr
  | [] => []
  | e :: es => e.core :: coreExprs es

def coreSignature : Signature Expr → Signature Expr
  | ⟨_, names, type⟩ => ⟨default, names.map (Name.respan .bare), type.core⟩

def coreSignatures : List (Signature Expr) → List (Signature Expr)
  | [] => []
  | g :: gs => coreSignature g :: coreSignatures gs

def coreHeader : Header Expr → Header Expr
  | ⟨name, params, type⟩ => ⟨name.respan .bare, coreParams params, coreOption type⟩

/-- A declaration without its spans and parentheses. -/
def coreDecl : Decl Expr → Decl Expr
  | .dataType _ header constructors =>
    .dataType default (coreHeader header) (coreSignatures constructors)
  | .emptyData _ header => .emptyData default (coreHeader header)
  | .recordType _ header builder fields decls =>
    .recordType default (coreHeader header) (builder.map (Name.respan .bare))
      (coreSignatures fields) (coreDecls decls)
  | .moduleBlock _ name params decls =>
    .moduleBlock default (name.respan .bare) (coreParams params) (coreDecls decls)
  | .importModule _ kind name => .importModule default kind (name.respan .bare)
  | .ascription signature => .ascription (coreSignature signature)
  | .clause _ patterns isOperator withPatterns withExpr rhs locals =>
    .clause default (coreExprs patterns) isOperator (coreExprs withPatterns) (coreOption withExpr)
      (coreOption rhs) (coreDecls locals)
  | .fixity _ fixity operators => .fixity default fixity (operators.map (Name.respan .bare))

def coreDecls : List (Decl Expr) → List (Decl Expr)
  | [] => []
  | d :: ds => coreDecl d :: coreDecls ds

end

theorem coreParam_eq (p : Param Expr) :
    coreParam p = ⟨default, p.isImplicit, p.names.map (Name.respan .bare), p.type.core⟩ := by
  cases p
  rw [coreParam]

theorem coreExprs_eq (es : List Expr) : coreExprs es = es.map Expr.core := by
  induction es with
  | nil => rfl
  | cons e es ih => rw [coreExprs, ih, List.map_cons]

theorem coreSignature_eq (g : Signature Expr) :
    coreSignature g = ⟨default, g.names.map (Name.respan .bare), g.type.core⟩ := by
  cases g
  rw [coreSignature]

theorem coreSignatures_eq (gs : List (Signature Expr)) :
    coreSignatures gs = gs.map coreSignature := by
  induction gs with
  | nil => rfl
  | cons g gs ih => rw [coreSignatures, ih, List.map_cons]

theorem coreDecls_eq (ds : List (Decl Expr)) : coreDecls ds = ds.map coreDecl := by
  induction ds with
  | nil => rfl
  | cons d ds ih => rw [coreDecls, ih, List.map_cons]

/-! ## Words -/

/-- A name read off a word. -/
def Name.ofWord (w : String) : Name := ⟨w, default⟩

/-- A qualified name read off a word: dots stand between the segments. -/
def QualifiedName.ofWord (w : String) : QualifiedName :=
  ⟨default, (w.toList.splitOn '.').map fun s => .ofWord (String.ofList s)⟩

/-- A leaf read off a word without dots, which is the given token. -/
def Leaf.ofToken (w : String) : Token → Leaf
  | .underscore => .hole default
  | .kwType => .type default
  | .integer value => .integer default value
  | _ => .name (.simple (.ofWord w))

/-- A leaf read off a word. -/
def Leaf.ofWord (w : String) : Leaf :=
  match (QualifiedName.ofWord w).segments, Token.ofWord w.toList none with
  | [_], some t => .ofToken w t
  | _, _ => .name (.ofWord w)

/-- A precedence read off a word. -/
def Fixity.precedenceOf (w : String) : Nat :=
  match Token.ofWord w.toList none with
  | some (.integer value) => value.toNat
  | _ => 0

/-- The tokens that a word for an operand or a binder can be. -/
def Token.isOperand : Token → Bool
  | ident _ | integer _ | underscore | kwType => true
  | _ => false

/-- The words in dumps that are never such a word. -/
def dumpLabels : List String :=
  ["record", "->", Binder.lambda.word, Binder.forallType.word, "let", ":", "where", "|", "with", "="]

theorem not_mem_dumpLabels {w : String} {t : Token} (h : IsWord w.toList t)
    (ht : t.isOperand = true) : w ∉ dumpLabels := by
  intro hw
  have hall : ∀ w ∈ dumpLabels, w.toList.all Token.isWordChar = false ∨
      (Token.ofWord w.toList none).any Token.isOperand = false := by
    decide +kernel
  -- A label is no word at all, or one that is read as another token.
  rcases hall w hw with hchars | hmeaning
  · rw [List.all_eq_true.2 h.chars] at hchars
    cases hchars
  · rw [h.meaning, Option.any_some, ht] at hmeaning
    cases hmeaning

theorem boundText_not_mem_dumpLabels {n : Name} (h : n.boundToken.Legible) :
    n.text ∉ dumpLabels := by
  unfold Name.boundToken at h
  split at h
  · rename_i htext
    rw [htext]
    decide
  · exact not_mem_dumpLabels (t := n.token) h rfl

theorem text_not_mem_dumpLabels {n : Name} (h : n.token.Legible) : n.text ∉ dumpLabels :=
  not_mem_dumpLabels (t := n.token) h rfl

theorem dot_not_mem {w : String} {t : Token} (h : IsWord w.toList t) : '.' ∉ w.toList := by
  intro hdot
  exact absurd (h.chars '.' hdot) (by decide)

theorem QualifiedName.ofWord_text {q : QualifiedName} (h : Name.Listed Name.token q.segments) :
    ofWord q.text = q.respan .bare := by
  have htext : q.text.toList = ['.'].intercalate (q.segments.map (·.text.toList)) := by
    simp [text, String.toList_intercalate, Function.comp_def]
  have hdots : ∀ l ∈ q.segments.map (·.text.toList), '.' ∉ l := by
    rw [List.forall_mem_map]
    exact fun n hn => dot_not_mem (t := n.token) (h.each n hn)
  rw [ofWord, htext, List.splitOn_intercalate '.' hdots (by simpa using h.ne_nil), List.map_map]
  simp [respan, Name.ofWord, Name.respan, Function.comp_def]

theorem QualifiedName.ofWord_of_isWord {w : String} {t : Token} (h : IsWord w.toList t) :
    ofWord w = simple (.ofWord w) := by
  have hsplit : (['.'].intercalate [w.toList]).splitOn '.' = [w.toList] :=
    List.splitOn_intercalate '.' (by simpa using dot_not_mem h) (by simp)
  rw [List.intercalate_singleton] at hsplit
  rw [ofWord, hsplit]
  simp [simple, Name.ofWord]

theorem Leaf.ofWord_of_isWord {w : String} {t : Token} (h : IsWord w.toList t) :
    ofWord w = ofToken w t := by
  rw [ofWord, h.meaning, QualifiedName.ofWord_of_isWord h]
  rfl

/-- The text of a leaf gives it back. -/
theorem Leaf.ofWord_text {l : Leaf} (h : ∀ q, l = .name q → Name.Listed Name.token q.segments)
    (hunit : ∀ span, l ≠ .unit span) : ofWord l.text = l.respan .bare := by
  cases l with
  | name q =>
    have hq := h q rfl
    have htext := QualifiedName.ofWord_text hq
    obtain ⟨span, segments⟩ := q
    match segments with
    | [] => exact absurd rfl hq.ne_nil
    | [n] =>
      have hn : IsWord n.text.toList n.token := hq.each n List.mem_cons_self
      have hsingle : text (.name ⟨span, [n]⟩) = n.text := by simp [text, QualifiedName.text]
      rw [hsingle, ofWord_of_isWord hn]
      rfl
    | n :: m :: ns => simp [ofWord, htext, text, respan, QualifiedName.respan]
  | hole => exact ofWord_of_isWord (Lexeme.isWord_of_mem_reserved (w := "_") (t := .underscore)
      (by simp [Token.reserved]))
  | type => exact ofWord_of_isWord (Lexeme.isWord_of_mem_reserved (w := "Type") (t := .kwType)
      (by simp [Token.reserved]))
  | integer span value =>
    have hvalue := ofWord_of_isWord (Lexeme.isWord_toString value.toNat_lt)
    rw [UInt64.ofNat_toNat] at hvalue
    exact hvalue
  | unit span => exact absurd rfl (hunit span)

theorem QualifiedName.text_not_mem_dumpLabels {q : QualifiedName}
    (h : Name.Listed Name.token q.segments) : q.text ∉ dumpLabels := by
  intro hq
  have hall : ∀ w ∈ dumpLabels, ofWord w = simple (.ofWord w) := by decide +kernel
  have htext := ofWord_text h
  rw [hall _ hq] at htext
  -- There are no dots in labels, so the name has one segment.
  obtain ⟨n, hsegments⟩ : ∃ n, q.segments = [n] := by
    have hlength := congrArg (·.segments.length) htext
    exact List.length_eq_one_iff.1 (by simpa [simple, respan] using hlength.symm)
  have hsingle : q.text = n.text := by simp [text, hsegments]
  rw [hsingle] at hq
  exact Offside.text_not_mem_dumpLabels (h.each n (by simp [hsegments])) hq

theorem Leaf.text_not_mem_dumpLabels {l : Leaf}
    (h : ∀ q, l = .name q → Name.Listed Name.token q.segments) : l.text ∉ dumpLabels := by
  cases l with
  | name q => exact QualifiedName.text_not_mem_dumpLabels (h q rfl)
  | hole | unit | type =>
    rw [Leaf.text]
    decide
  | integer span value => exact not_mem_dumpLabels (Lexeme.isWord_toString value.toNat_lt) rfl

theorem Fixity.precedenceOf_toString {n : Nat} (h : n < UInt64.size) :
    precedenceOf (toString n) = n := by
  rw [precedenceOf, (Lexeme.isWord_toString h).meaning]
  exact UInt64.toNat_ofNat_of_lt h

/-! ## Forms -/

/-- What a list can be the dump of, in an expression. -/
inductive Form where
  | arrow
  | bind (binder : Binder)
  | letIn
  | record
  | operation (operator : Name)
  | application
  deriving DecidableEq

namespace Form

/-- The words that begin the dump of an expression. -/
def keywords : List (String × Form) :=
  [("->", arrow), (Binder.lambda.word, bind .lambda), (Binder.forallType.word, bind .forallType),
    ("let", letIn), ("record", record)]

/-- The form of a list by its first member. A name stands for an operator if it is
one of `ops`. -/
def ofHead (ops : List String) : Sexp → Form
  | .list .. => application
  -- Keywords come first: an operator cannot be spelled like one of these.
  | .word w => (keywords.lookup w).getD <|
    match Leaf.ofWord w with
    | .name ⟨_, [n]⟩ => if n.text ∈ ops then operation n else application
    | _ => application

theorem lookup_keywords {w : String} (h : w ∉ dumpLabels) : keywords.lookup w = none := by
  rw [List.lookup_eq_none_iff]
  intro entry hentry
  have hall : ∀ entry ∈ keywords, entry.1 ∈ dumpLabels := by decide
  rw [bne_iff_ne]
  rintro rfl
  exact h (hall entry hentry)

end Form

/-- The declarations and other members of blocks, by the word that begins them. -/
inductive MemberForm where
  | builder
  | field
  | dataType
  | recordType
  | moduleBlock
  | importModule
  | openModule
  | ascription
  | clause (isOperator : Bool)
  | fixity (assoc : Associativity)

/-- The words that begin the members of blocks. -/
def MemberForm.keywords : List (String × MemberForm) :=
  [("constructor", builder), ("field", field), ("data", dataType), ("record", recordType),
    ("module", moduleBlock), ("import", importModule), ("open", openModule), ("sig", ascription),
    ("clause", clause false), ("clause-infix", clause true), ("infix", fixity .none),
    ("infixl", fixity .left), ("infixr", fixity .right)]

/-- A member of a block: the constructor of a record type, a field or a constructor
of a data type, or a declaration. -/
inductive Member where
  | builder (name : Name)
  | typed (signature : Signature Expr)
  | decl (decl : Decl Expr)

namespace Member

def builder? : Member → Option Name
  | builder n => some n
  | _ => none

def typed? : Member → Option (Signature Expr)
  | typed g => some g
  | _ => none

def decl? : Member → Option (Decl Expr)
  | decl d => some d
  | _ => none

section

variable (n? : Option Name) (gs : List (Signature Expr)) (ds : List (Decl Expr))

/-- The members of a block in the order in which a dump has them. -/
def block : List Member := n?.toList.map builder ++ gs.map typed ++ ds.map decl

theorem findSome?_block : (block n? gs ds).findSome? builder? = n? := by
  cases n? with
  | some n => rfl
  | none => simp [block, List.findSome?_map, List.findSome?_append, Function.comp_def, builder?]

theorem filterMap_typed?_block : (block n? gs ds).filterMap typed? = gs := by
  simp [block, List.filterMap_map, Function.comp_def, typed?]

theorem filterMap_decl?_block : (block n? gs ds).filterMap decl? = ds := by
  simp [block, List.filterMap_map, Function.comp_def, decl?]

end

end Member

namespace Sexp

/-- The word that begins a list. -/
def label? : Sexp → Option String
  | list _ (word w :: _) => some w
  | _ => none

def word? : Sexp → Option String
  | word w => some w
  | _ => none

/-- The operators that a fixity declaration names. -/
def operators : Sexp → List String
  | list _ (word w :: word _ :: names) =>
    match MemberForm.keywords.lookup w with
    | some (.fixity _) => names.filterMap word?
    | _ => []
  | _ => []

/-- The S-expression under a label. -/
def labelled? (label : String) : Sexp → Option Sexp
  | list _ [word w, s] => if w = label then some s else none
  | _ => none

/-- The members of a block. -/
def members : Sexp → List Sexp
  | list _ (word w :: items) => if w = "where" then items else []
  | _ => []

/-- The operators declared in the block among some parts of a declaration. -/
def blockOperators (items : List Sexp) : List String := (items.flatMap members).flatMap operators

/-- The constructor name of a record value, if it has one. -/
def builder? : List Sexp → Option QualifiedName
  | word w :: _ => some (.ofWord w)
  | _ => none

end Sexp

mutual

/-- The expression that an S-expression shows, where `ops` are the operators in
scope. -/
def readExpr (ops : List String) : Sexp → Expr
  | .word w => .leaf (.ofWord w)
  | .list _ [] => .leaf (.unit default)
  | .list _ (head :: items) =>
    match Form.ofHead ops head, items with
    | .application, args => (readExprs ops args).foldl (.app default) (readExpr ops head)
    | .arrow, [.list .square params, codomain] =>
      .pi default (readParams ops params) (readExpr ops codomain)
    | .arrow, [domain, codomain] => .arrow default (readExpr ops domain) (readExpr ops codomain)
    | .bind binder, [.list _ bindings, body] =>
      .bind default binder (readBindings ops bindings) (readExpr ops body)
    -- The operators of the block are in scope in all of it and in the body.
    | .letIn, [.list _ decls, body] =>
      let inner := decls.flatMap Sexp.operators ++ ops
      .letIn default ((readMembers false inner decls).filterMap Member.decl?) (readExpr inner body)
    | .record, items => .record default (Sexp.builder? items) (readAssignments ops items)
    | .operation operator, [left, right] =>
      .operation default operator (readExpr ops left) (readExpr ops right)
    -- No dump has such a list in it.
    | _, _ => .leaf (.unit default)

def readExprs (ops : List String) : List Sexp → List Expr
  | [] => []
  | s :: ss => readExpr ops s :: readExprs ops ss

def readAssignments (ops : List String) : List Sexp → List (Assignment Expr)
  | .word _ :: ss => readAssignments ops ss
  | .list _ [.word w, s] :: ss => ⟨default, .ofWord w, readExpr ops s⟩ :: readAssignments ops ss
  | _ => []

/-- Names up to a colon, and their type. -/
def readTyped (ops : List String) : List Sexp → Signature Expr
  | .word w :: s :: ss =>
    if w = ":" then ⟨default, [], readExpr ops s⟩
    else { readTyped ops (s :: ss) with names := .ofWord w :: (readTyped ops (s :: ss)).names }
  | _ => ⟨default, [], .leaf (.unit default)⟩

/-- Typed parameters, up to the type or the block of a declaration. -/
def readParams (ops : List String) : List Sexp → List (Param Expr)
  | .list b items :: ss =>
    if (Sexp.list b items).label? ∈ [some ":", some "where"] then []
    else ⟨default, b = .curly, (readTyped ops items).names, (readTyped ops items).type⟩ ::
      readParams ops ss
  | _ => []

def readBindings (ops : List String) : List Sexp → List (Binding Expr)
  | [] => []
  | .word w :: ss => .name (.ofWord w) :: readBindings ops ss
  | .list b items :: ss =>
    .typed ⟨default, b = .curly, (readTyped ops items).names, (readTyped ops items).type⟩ ::
      readBindings ops ss

/-- The expressions under a label. -/
def readSections (label : String) (ops : List String) : List Sexp → List Expr
  | [] => []
  | .list _ [.word w, s] :: ss =>
    if w = label then readExpr ops s :: readSections label ops ss else readSections label ops ss
  | _ :: ss => readSections label ops ss

/-- The members of the block of a declaration. -/
def readBlock (isData : Bool) (ops : List String) : List Sexp → List Member
  | [] => []
  | .list _ (.word w :: items) :: ss =>
    if w = "where" then readMembers isData ops items ++ readBlock isData ops ss
    else readBlock isData ops ss
  | _ :: ss => readBlock isData ops ss

/-- The members of a block. A data type has constructors for members. -/
def readMembers (isData : Bool) (ops : List String) : List Sexp → List Member
  | [] => []
  | s :: ss =>
    (if isData then readConstructor ops s else readMember ops s) :: readMembers isData ops ss

def readConstructor (ops : List String) : Sexp → Member
  | .list _ items => .typed (readTyped ops items)
  | .word w => .builder (.ofWord w)

/-- The member of a block that an S-expression shows. -/
def readMember (ops : List String) : Sexp → Member
  | .list _ (.word w :: items) =>
    match MemberForm.keywords.lookup w, items with
    | some .builder, [.word w] => .builder (.ofWord w)
    | some .field, items => .typed (readTyped ops items)
    | some .dataType, .word w :: items =>
      let header := ⟨.ofWord w, readParams ops items, (readSections ":" ops items).head?⟩
      if items.any (·.label? = some "where") then
        .decl (.dataType default header ((readBlock true ops items).filterMap Member.typed?))
      else .decl (.emptyData default header)
    | some .recordType, .word w :: items =>
      let header := ⟨.ofWord w, readParams ops items, (readSections ":" ops items).head?⟩
      let members := readBlock false (Sexp.blockOperators items ++ ops) items
      .decl (.recordType default header (members.findSome? Member.builder?)
        (members.filterMap Member.typed?) (members.filterMap Member.decl?))
    | some .moduleBlock, .word w :: items =>
      let members := readBlock false (Sexp.blockOperators items ++ ops) items
      .decl (.moduleBlock default (.ofWord w) (readParams ops items) (members.filterMap Member.decl?))
    | some .importModule, [.word w] => .decl (.importModule default .importOnly (.ofWord w))
    | some .openModule, [.word w] => .decl (.importModule default .openOnly (.ofWord w))
    | some .openModule, [_, .word w] => .decl (.importModule default .openImport (.ofWord w))
    | some .ascription, items => .decl (.ascription (readTyped ops items))
    -- The patterns of a clause are outside of its block.
    | some (.clause isOperator), .list _ patterns :: items =>
      let inner := Sexp.blockOperators items ++ ops
      .decl (.clause default (readExprs ops patterns) isOperator (readSections "|" ops items)
        (readSections "with" inner items).head? (readSections "=" inner items).head?
        ((readBlock false inner items).filterMap Member.decl?))
    | some (.fixity assoc), .word w :: items =>
      .decl (.fixity default ⟨assoc, Fixity.precedenceOf w⟩
        ((items.filterMap Sexp.word?).map .ofWord))
    | _, _ => .builder (.ofWord "")
  | _ => .builder (.ofWord "")

end

section

variable (ops : List String)

theorem readExprs_eq (ss : List Sexp) : readExprs ops ss = ss.map (readExpr ops) := by
  induction ss with
  | nil => rfl
  | cons s ss ih => rw [readExprs, ih, List.map_cons]

theorem readMembers_eq (isData : Bool) (ss : List Sexp) :
    readMembers isData ops ss =
      ss.map (if isData then readConstructor ops else readMember ops) := by
  induction ss with
  | nil => rfl
  | cons s ss ih => cases isData <;> rw [readMembers, ih, List.map_cons] <;> rfl

theorem readSections_eq (label : String) (ss : List Sexp) :
    readSections label ops ss = (ss.filterMap (Sexp.labelled? label)).map (readExpr ops) := by
  induction ss with
  | nil => rfl
  | cons s ss ih =>
    match s with
    | .word _ | .list _ [] | .list _ [.word _] | .list _ (.list .. :: _)
    | .list _ (.word _ :: _ :: _ :: _) =>
      rw [readSections, ih, List.filterMap_cons]
      · rfl
      · simp
    | .list _ [.word w, _] =>
      rw [readSections, ih, List.filterMap_cons, Sexp.labelled?]
      split <;> rfl

theorem readBlock_eq (isData : Bool) (ss : List Sexp) :
    readBlock isData ops ss = readMembers isData ops (ss.flatMap Sexp.members) := by
  simp only [readMembers_eq]
  induction ss with
  | nil => rfl
  | cons s ss ih =>
    match s with
    | .word _ | .list _ [] | .list _ (.list .. :: _) => exact ih
    | .list _ (.word w :: _) =>
      rw [readBlock, ih, List.flatMap_cons, Sexp.members, readMembers_eq]
      split <;> simp

end

end Offside
