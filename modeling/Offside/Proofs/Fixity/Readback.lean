-- SUMMARY: Dumps are read back as the trees they show, up to spans and parentheses.
import Offside.Proofs.Expr.Reader
import Offside.Proofs.Fixity.Scoped

/-! # Reading dumps back

A list of three members that begins with a name is the use of an operator or an
application to two arguments. In a tree that follows its scopes the reader tells
them apart by the fixity declarations, which are part of the dump. So it gives
back what the dump was made of. -/

namespace Offside

/-! ## Forms -/

namespace Form

/-- A leaf is no operator and begins no form. -/
theorem ofHead_leaf {ops : List String} {l : Leaf}
    (segments : ∀ q, l = .name q → Name.Listed Name.token q.segments)
    (operand : ∀ q n, l = .name q → q.simple? = some n → n.text ∉ ops) :
    ofHead ops l.sexp = application := by
  have hlookup := lookup_keywords (Leaf.text_not_mem_dumpLabels segments)
  have hleaf := Leaf.ofWord_text segments
  cases l with
  | unit => rfl
  | hole | type | integer =>
    rw [Leaf.sexp, ofHead, hlookup, hleaf nofun]
    · rfl
    · nofun
  | name q =>
    rw [Leaf.sexp, ofHead, hlookup, hleaf nofun]
    · obtain ⟨span, names⟩ := q
      match names with
      | [] => rfl
      | [n] => exact if_neg (operand _ n rfl rfl)
      | _ :: _ :: _ => rfl
    · nofun

/-- A legible expression begins no form when it is applied. -/
theorem ofHead_sexp {ops : List String} {e : Expr} (hnamed : e.Named) (hscoped : e.Scoped ops) :
    ofHead ops e.sexp = application := by
  cases e with
  | leaf l =>
    rw [Expr.sexp]
    cases hnamed with
    | leaf segments =>
      cases hscoped with
      | leaf operand => exact ofHead_leaf segments operand
  | paren span e =>
    rw [Expr.sexp]
    cases hnamed with
    | paren hnamed =>
      cases hscoped with
      | paren hscoped => exact ofHead_sexp hnamed hscoped
  | _ =>
    rw [Expr.sexp]
    rfl

theorem ofHead_operator {ops : List String} {n : Name} (hname : n.token.Legible)
    (hknown : n.text ∈ ops) : ofHead ops n.sexp = operation (n.respan .bare) := by
  have hlookup := lookup_keywords (text_not_mem_dumpLabels hname)
  rw [Name.sexp, ofHead, hlookup, Leaf.ofWord_of_isWord (t := n.token) hname]
  exact if_pos hknown

end Form

section

variable {ops : List String}

/-! ## Parts -/

/-- No parameter is taken for another part of a declaration. -/
theorem label?_paramSexp {p : Param Expr} (h : Name.Listed Name.boundToken p.names) {w : String}
    (hw : w ∈ dumpLabels) : (paramSexp p).label? ≠ some w := by
  obtain ⟨n, ns, hnames⟩ := List.exists_cons_of_ne_nil h.ne_nil
  have hn := boundText_not_mem_dumpLabels (h.each n (hnames ▸ List.mem_cons_self))
  rw [paramSexp_eq, typedSexps, hnames]
  rintro ⟨⟩
  exact hn hw

theorem readTyped_typedSexps {names : List Name} {s : Sexp} (h : ∀ n ∈ names, n.text ≠ ":") :
    readTyped ops (typedSexps names s) =
      ⟨default, names.map (Name.respan .bare), readExpr ops s⟩ := by
  induction names with
  | nil => rfl
  | cons n ns ih =>
    obtain ⟨hn, hns⟩ := List.forall_mem_cons.1 h
    -- A name is followed by another one or by the colon.
    have hrest : ∃ t ts, typedSexps ns s = t :: ts := by
      cases ns with
      | nil => exact ⟨_, _, rfl⟩
      | cons m ms => exact ⟨_, _, rfl⟩
    obtain ⟨t, ts, ht⟩ := hrest
    have hcons : typedSexps (n :: ns) s = .word n.text :: t :: ts := by
      rw [← ht]
      rfl
    rw [hcons, readTyped, if_neg hn, ← ht, ih hns]
    rfl

theorem ne_colon {n : Name} (h : n.text ∉ dumpLabels) : n.text ≠ ":" := by
  intro heq
  rw [heq] at h
  exact h (by decide)

theorem readTyped_param {p : Param Expr} (hnames : Name.Listed Name.boundToken p.names)
    (htype : readExpr ops p.type.sexp = p.type.core) :
    readTyped ops (typedSexps p.names p.type.sexp) =
      ⟨default, (coreParam p).names, (coreParam p).type⟩ := by
  rw [readTyped_typedSexps fun n hn => ne_colon (boundText_not_mem_dumpLabels (hnames.each n hn)),
    htype, coreParam_eq]

theorem readTyped_signature {g : Signature Expr} (hnames : Name.Listed Name.token g.names)
    (htype : readExpr ops g.type.sexp = g.type.core) : readTyped ops g.sexps = coreSignature g := by
  rw [Signature.sexps,
    readTyped_typedSexps fun n hn => ne_colon (text_not_mem_dumpLabels (hnames.each n hn)), htype,
    coreSignature_eq]

theorem isImplicit_bracket (p : Param Expr) :
    decide (p.bracket = .curly) = (coreParam p).isImplicit := by
  rw [coreParam_eq, Param.bracket]
  cases p.isImplicit <;> rfl

theorem readParams_append {ps : List (Param Expr)} (rest : List Sexp)
    (hnames : ∀ p ∈ ps, Name.Listed Name.boundToken p.names)
    (htypes : ∀ p ∈ ps, readExpr ops p.type.sexp = p.type.core) (hrest : readParams ops rest = []) :
    readParams ops (ps.map paramSexp ++ rest) = coreParams ps := by
  induction ps with
  | nil => exact hrest
  | cons p ps ih =>
    obtain ⟨hname, hnames⟩ := List.forall_mem_cons.1 hnames
    obtain ⟨htype, htypes⟩ := List.forall_mem_cons.1 htypes
    have hlabel : (paramSexp p).label? ∉ [some ":", some "where"] := by
      simp [label?_paramSexp hname (w := ":") (by decide),
        label?_paramSexp hname (w := "where") (by decide)]
    rw [paramSexp_eq] at hlabel
    rw [List.map_cons, List.cons_append, paramSexp_eq, readParams, if_neg hlabel,
      ih hnames htypes, readTyped_param hname htype, isImplicit_bracket, coreParams, coreParam_eq]

theorem readBindings_eq {bs : List (Binding Expr)}
    (hnames : ∀ p, .typed p ∈ bs → Name.Listed Name.boundToken p.names)
    (htypes : ∀ p, .typed p ∈ bs → readExpr ops p.type.sexp = p.type.core) :
    readBindings ops (bs.map bindingSexp) = coreBindings bs := by
  induction bs with
  | nil => rfl
  | cons b bs ih =>
    have hrest := ih (fun p hp => hnames p (List.mem_cons_of_mem _ hp))
      (fun p hp => htypes p (List.mem_cons_of_mem _ hp))
    cases b with
    | name n =>
      rw [List.map_cons, bindingSexp, Name.sexp, readBindings, hrest, coreBindings]
      rfl
    | typed p =>
      have hp := readTyped_param (hnames p List.mem_cons_self) (htypes p List.mem_cons_self)
      rw [List.map_cons, bindingSexp, paramSexp_eq, readBindings, hrest, hp, isImplicit_bracket,
        coreBindings, coreParam_eq]

theorem readAssignments_eq {fs : List (Assignment Expr)}
    (h : ∀ f ∈ fs, readExpr ops f.value.sexp = f.value.core) :
    readAssignments ops (assignmentSexps fs) = coreAssignments fs := by
  induction fs with
  | nil => rfl
  | cons f fs ih =>
    obtain ⟨hf, hfs⟩ := List.forall_mem_cons.1 h
    rw [assignmentSexps, coreAssignments, Name.sexp, readAssignments, ih hfs, hf]
    rfl

/-! ## Sections -/

theorem Sexp.labelled?_of_ne {label : String} {s : Sexp} (h : s.label? ≠ some label) :
    s.labelled? label = none := by
  unfold labelled?
  split
  · rw [if_neg]
    rintro rfl
    exact h rfl
  · rfl

theorem Sexp.members_of_ne {s : Sexp} (h : s.label? ≠ some "where") : s.members = [] := by
  unfold members
  split
  · rw [if_neg]
    rintro rfl
    exact h rfl
  · rfl

/-- Parts with other labels are passed over. -/
theorem readSections_append_of_ne {label : String} {xs ss : List Sexp}
    (h : ∀ s ∈ xs, s.label? ≠ some label) :
    readSections label ops (xs ++ ss) = readSections label ops ss := by
  have hnone : xs.filterMap (Sexp.labelled? label) = [] :=
    List.filterMap_eq_nil_iff.2 fun s hs => Sexp.labelled?_of_ne (h s hs)
  rw [readSections_eq, readSections_eq, List.filterMap_append, hnone, List.nil_append]

theorem flatMap_members_append_of_ne {xs ss : List Sexp} (h : ∀ s ∈ xs, s.label? ≠ some "where") :
    (xs ++ ss).flatMap Sexp.members = ss.flatMap Sexp.members := by
  have hnone : xs.flatMap Sexp.members = [] :=
    List.flatMap_eq_nil_iff.2 fun s hs => Sexp.members_of_ne (h s hs)
  rw [List.flatMap_append, hnone, List.nil_append]

theorem label?_optionSexps {label : String} {o : Option Expr} :
    ∀ s ∈ optionSexps label o, s.label? = some label := by
  cases o with
  | none => simp [optionSexps]
  | some e => simp [optionSexps, Sexp.labelled, Sexp.label?]

theorem head?_readSections {label : String} {o : Option Expr} {ss : List Sexp}
    (h : ∀ e ∈ o, readExpr ops e.sexp = e.core) (hss : ∀ s ∈ ss, s.label? ≠ some label) :
    (readSections label ops (optionSexps label o ++ ss)).head? = coreOption o := by
  have hnone : readSections label ops ss = [] := by
    have hall : readSections label ops (ss ++ []) = readSections label ops [] :=
      readSections_append_of_ne hss
    rwa [List.append_nil] at hall
  cases o with
  | none => rw [optionSexps, List.nil_append, hnone, coreOption]; rfl
  | some e =>
    rw [readSections_eq, List.filterMap_append, optionSexps, coreOption, ← h e rfl]
    simp [Sexp.labelled?, Sexp.labelled]

/-- The type and the block of a declaration end its parameters. -/
theorem readParams_cons_of_label {s : Sexp} {ss : List Sexp}
    (h : s.label? ∈ [some ":", some "where"]) : readParams ops (s :: ss) = [] := by
  cases s with
  | word => rfl
  | list b items => rw [readParams, if_pos h]

theorem readParams_rest {o : Option Expr} {tail : List Sexp}
    (htail : ∀ s ∈ tail, s.label? = some "where") :
    readParams ops (optionSexps ":" o ++ tail) = [] := by
  cases o with
  | some e => exact readParams_cons_of_label (by simp [Sexp.labelled, Sexp.label?])
  | none =>
    cases tail with
    | nil => rfl
    | cons s ss => exact readParams_cons_of_label (by simp [htail s List.mem_cons_self])

section

variable {header : Header Expr} {tail : List Sexp}

/-- The parts of a declaration after its name, which may be followed by a block. -/
def Header.parts (header : Header Expr) (tail : List Sexp) : List Sexp :=
  header.params.map paramSexp ++ (optionSexps ":" header.type ++ tail)

theorem headerSexps_append : headerSexps header ++ tail = header.name.sexp :: header.parts tail := by
  rw [headerSexps_eq, Header.parts, List.append_assoc, List.cons_append]

theorem label?_params {ps : List (Param Expr)}
    (hnames : ∀ p ∈ ps, Name.Listed Name.boundToken p.names) {w : String} (hw : w ∈ dumpLabels) :
    ∀ s ∈ ps.map paramSexp, s.label? ≠ some w := by
  rw [List.forall_mem_map]
  exact fun p hp => label?_paramSexp (hnames p hp) hw

theorem read_header (tail : List Sexp) (hnamed : header.Named)
    (hparams : ∀ p ∈ header.params, readExpr ops p.type.sexp = p.type.core)
    (htype : ∀ e ∈ header.type, readExpr ops e.sexp = e.core)
    (htail : ∀ s ∈ tail, s.label? = some "where") :
    (⟨.ofWord header.name.text, readParams ops (header.parts tail),
      (readSections ":" ops (header.parts tail)).head?⟩ : Header Expr) = coreHeader header := by
  have hsections : (readSections ":" ops (header.parts tail)).head? = coreOption header.type := by
    rw [Header.parts, readSections_append_of_ne (label?_params hnamed.params (by decide))]
    refine head?_readSections htype fun s hs => ?_
    rw [htail s hs]
    decide
  rw [hsections, Header.parts, readParams_append _ hnamed.params hparams (readParams_rest htail)]
  cases header
  rw [coreHeader]
  rfl

theorem members_where (ms : List Sexp) : [Sexp.labelled "where" ms].flatMap Sexp.members = ms := by
  simp [Sexp.labelled, Sexp.members]

/-- The block of a declaration is found after its other parts. -/
theorem members_parts (hnamed : header.Named) :
    (header.parts tail).flatMap Sexp.members = tail.flatMap Sexp.members := by
  rw [Header.parts, flatMap_members_append_of_ne (label?_params hnamed.params (by decide)),
    flatMap_members_append_of_ne]
  intro s hs
  rw [label?_optionSexps s hs]
  decide

theorem any_parts (hnamed : header.Named) :
    (header.parts tail).any (·.label? = some "where") = tail.any (·.label? = some "where") := by
  have hparams : (header.params.map paramSexp).any (·.label? = some "where") = false := by
    rw [List.any_eq_false]
    intro s hs
    simpa using label?_params hnamed.params (by decide) s hs
  have hoption : (optionSexps ":" header.type).any (·.label? = some "where") = false := by
    rw [List.any_eq_false]
    intro s hs
    rw [label?_optionSexps s hs]
    decide
  rw [Header.parts, List.any_append, List.any_append, hparams, hoption]
  rfl

end

/-! ## Scopes -/

theorem filterMap_word?_names (names : List Name) :
    (names.map Name.sexp).filterMap Sexp.word? = names.map Name.text := by
  induction names with
  | nil => rfl
  | cons n ns ih =>
    rw [List.map_cons, List.filterMap_cons, ih]
    rfl

theorem operators_labelled {w : String} {items : List Sexp}
    (h : ∀ assoc, MemberForm.keywords.lookup w ≠ some (.fixity assoc)) :
    (Sexp.labelled w items).operators = [] := by
  unfold Sexp.labelled Sexp.operators
  split
  · rename_i heq
    obtain ⟨rfl, -⟩ : w = _ ∧ _ := by simpa using (Sexp.list.inj heq).2
    split
    · rename_i assoc hlookup
      exact absurd hlookup (h assoc)
    · rfl
  · rfl

/-- The operators that a declaration declares can be read off its dump. -/
theorem operators_declSexp (d : Decl Expr) : (declSexp d).operators = declared [d] := by
  cases d with
  | fixity span fixity operators =>
    rw [declSexp, declared_fixity, ← filterMap_word?_names]
    obtain ⟨assoc, precedence⟩ := fixity
    cases assoc <;> rfl
  | importModule span kind name => cases kind <;> exact operators_labelled fun _ h => by cases h
  | clause span patterns isOperator => cases isOperator <;> exact operators_labelled fun _ h => by cases h
  | _ => exact operators_labelled fun _ h => by cases h

theorem operators_declSexps (ds : List (Decl Expr)) :
    (ds.map declSexp).flatMap Sexp.operators = declared ds := by
  induction ds with
  | nil => rfl
  | cons d ds ih => rw [List.map_cons, List.flatMap_cons, ih, operators_declSexp, ← declared_cons]

/-! ## Trees -/

/-- Only parameters stand in square brackets. -/
theorem sexp_ne_square {items : List Sexp} (e : Expr) : e.sexp ≠ .list .square items := by
  cases e with
  | paren span e =>
    rw [Expr.sexp]
    exact sexp_ne_square e
  | leaf l =>
    rw [Expr.sexp]
    cases l <;> exact fun h => by cases h
  | _ =>
    rw [Expr.sexp]
    exact fun h => by cases h

theorem readExpr_arrow {s t : Sexp} (h : ∀ items, s ≠ .list .square items) :
    readExpr ops (.labelled "->" [s, t]) = .arrow default (readExpr ops s) (readExpr ops t) := by
  match s with
  | .word _ | .list .round _ | .list .curly _ => rfl
  | .list .square items => exact absurd rfl (h items)

theorem readExpr_application {b : Bracket} {head : Sexp} {args : List Sexp}
    (h : Form.ofHead ops head = .application) : readExpr ops (.list b (head :: args)) =
      (args.map (readExpr ops)).foldl (.app default) (readExpr ops head) := by
  rw [readExpr, readExprs_eq]
  exact h

theorem readExpr_operation {b : Bracket} {head left right : Sexp} {operator : Name}
    (h : Form.ofHead ops head = .operation operator) : readExpr ops (.list b [head, left, right]) =
      .operation default operator (readExpr ops left) (readExpr ops right) := by
  rw [readExpr.eq_def]
  simp only [h]

theorem readExpr_leaf {l : Leaf} (h : ∀ q, l = .name q → Name.Listed Name.token q.segments) :
    readExpr ops (Expr.leaf l).sexp = (Expr.leaf l).core := by
  rw [Expr.sexp, Expr.core]
  cases l with
  | unit => rfl
  | name | hole | type | integer => exact congrArg Expr.leaf (Leaf.ofWord_text h (by simp))

end

/-- The reader gives an expression back. Where it is applied, it begins with a head
that is no form, and with arguments to it. -/
def ReadsBack (e : Expr) : Prop :=
  ∀ ops, e.Named → e.Scoped ops → readExpr ops e.sexp = e.core ∧
    ∃ head args, e.headSexps e.sexp = head :: args ∧ Form.ofHead ops head = .application ∧
      (args.map (readExpr ops)).foldl (.app default) (readExpr ops head) = e.core

/-- What is not an application is itself the head where it is applied. -/
theorem readsBack_of_eq {e : Expr} (hhead : e.headSexps e.sexp = [e.sexp])
    (h : ∀ ops, e.Named → e.Scoped ops → readExpr ops e.sexp = e.core) : ReadsBack e :=
  fun ops hnamed hscoped => ⟨h ops hnamed hscoped, e.sexp, [], hhead,
    Form.ofHead_sexp hnamed hscoped, h ops hnamed hscoped⟩

/-- The reader gives the declarations of a block back. -/
theorem readMembers_decls {ops : List String} {ds : List (Decl Expr)}
    (h : ∀ d ∈ ds, readMember ops (declSexp d) = .decl (coreDecl d)) :
    readMembers false ops (ds.map declSexp) = Member.block none [] (coreDecls ds) := by
  rw [readMembers_eq, Member.block, coreDecls_eq, List.map_map, List.map_map]
  exact List.map_congr_left h

/-- The reader gives the constructors of a data type back. -/
theorem readMembers_constructors {ops : List String} {gs : List (Signature Expr)}
    (h : ∀ g ∈ gs, readTyped ops g.sexps = coreSignature g) :
    readMembers true ops (gs.map fun g => .list .round g.sexps) =
      Member.block none (coreSignatures gs) [] := by
  rw [readMembers_eq, Member.block, List.map_nil, List.append_nil, coreSignatures_eq, List.map_map,
    List.map_map]
  exact List.map_congr_left fun g hg => congrArg Member.typed (h g hg)

theorem operators_memberSexps (builder : Option Name) (fields : List (Signature Expr))
    (decls : List (Decl Expr)) :
    (memberSexps builder fields decls).flatMap Sexp.operators = declared decls := by
  have hbuilder : (builder.toList.map fun n => Sexp.labelled "constructor" [n.sexp]).flatMap
      Sexp.operators = [] := by
    rw [List.flatMap_map, List.flatMap_eq_nil_iff]
    exact fun n _ => operators_labelled nofun
  have hfields : (fields.map fun g => Sexp.labelled "field" g.sexps).flatMap Sexp.operators = [] := by
    rw [List.flatMap_map, List.flatMap_eq_nil_iff]
    exact fun g _ => operators_labelled nofun
  rw [memberSexps, List.flatMap_append, List.flatMap_append, hbuilder, hfields, operators_declSexps]
  rfl

/-- The reader gives the members of a record type back. -/
theorem readMembers_memberSexps {ops : List String} (builder : Option Name)
    {fields : List (Signature Expr)} {decls : List (Decl Expr)}
    (hfields : ∀ g ∈ fields, readTyped ops g.sexps = coreSignature g)
    (hdecls : ∀ d ∈ decls, readMember ops (declSexp d) = .decl (coreDecl d)) :
    readMembers false ops (memberSexps builder fields decls) =
      Member.block (builder.map (Name.respan .bare)) (coreSignatures fields) (coreDecls decls) := by
  have hbuilder : (builder.toList.map fun n => Sexp.labelled "constructor" [n.sexp]).map
      (readMember ops) = (builder.map (Name.respan .bare)).toList.map Member.builder := by
    cases builder <;> rfl
  have htyped : (fields.map fun g => Sexp.labelled "field" g.sexps).map (readMember ops) =
      (coreSignatures fields).map Member.typed := by
    rw [coreSignatures_eq, List.map_map, List.map_map]
    exact List.map_congr_left fun g hg => congrArg Member.typed (hfields g hg)
  have hdecls : (decls.map declSexp).map (readMember ops) = (coreDecls decls).map Member.decl := by
    rw [coreDecls_eq, List.map_map, List.map_map]
    exact List.map_congr_left hdecls
  rw [memberSexps, readMembers_eq, Member.block, ← hbuilder, ← htyped, ← hdecls, List.map_append,
    List.map_append]
  rfl

section

variable {ops : List String} {w : String} {items ms : List Sexp} {header : Header Expr}
  {n? : Option Name} {gs : List (Signature Expr)} {ds : List (Decl Expr)}

/-- The block among the parts of a declaration, under the operators it declares. -/
theorem readBlock_of_members (hms : items.flatMap Sexp.members = ms)
    (h : readMembers false (ms.flatMap Sexp.operators ++ ops) ms = Member.block n? gs ds) :
    readBlock false (Sexp.blockOperators items ++ ops) items = Member.block n? gs ds := by
  rw [readBlock_eq, Sexp.blockOperators, hms, h]

theorem readMember_data
    (hheader : ⟨.ofWord w, readParams ops items, (readSections ":" ops items).head?⟩ = header)
    (hblock : readBlock true ops items = Member.block none gs []) :
    readMember ops (.labelled "data" (.word w :: items)) =
      if items.any (·.label? = some "where") then .decl (.dataType default header gs)
      else .decl (.emptyData default header) := by
  rw [← hheader, ← Member.filterMap_typed?_block none gs [], ← hblock]
  rfl

theorem readMember_record
    (hheader : ⟨.ofWord w, readParams ops items, (readSections ":" ops items).head?⟩ = header)
    (hblock : readBlock false (Sexp.blockOperators items ++ ops) items = Member.block n? gs ds) :
    readMember ops (.labelled "record" (.word w :: items)) =
      .decl (.recordType default header n? gs ds) := by
  have hn := Member.findSome?_block n? gs ds
  have hgs := Member.filterMap_typed?_block n? gs ds
  have hds := Member.filterMap_decl?_block n? gs ds
  rw [← hblock] at hn hgs hds
  rw [← hheader, ← hn, ← hgs, ← hds]
  rfl

theorem readMember_module {params : List (Param Expr)} (hparams : readParams ops items = params)
    (hblock : readBlock false (Sexp.blockOperators items ++ ops) items = Member.block none [] ds) :
    readMember ops (.labelled "module" (.word w :: items)) =
      .decl (.moduleBlock default (.ofWord w) params ds) := by
  rw [← hparams, ← Member.filterMap_decl?_block none [] ds, ← hblock]
  rfl

theorem readMember_clause {isOperator : Bool} {patterns : List Sexp} {withExpr rhs : Option Expr}
    {left others : List Expr} (hleft : patterns.map (readExpr ops) = left)
    (hothers : readSections "|" ops items = others)
    (hwith : (readSections "with" (Sexp.blockOperators items ++ ops) items).head? = withExpr)
    (hrhs : (readSections "=" (Sexp.blockOperators items ++ ops) items).head? = rhs)
    (hblock : readBlock false (Sexp.blockOperators items ++ ops) items = Member.block none [] ds) :
    readMember ops (.labelled (if isOperator then "clause-infix" else "clause")
      (.list .round patterns :: items)) =
        .decl (.clause default left isOperator others withExpr rhs ds) := by
  rw [← readExprs_eq] at hleft
  rw [← hleft, ← hothers, ← hwith, ← hrhs, ← Member.filterMap_decl?_block none [] ds, ← hblock]
  cases isOperator <;> rfl

end

/-! ## Declarations -/

section

variable {ops : List String} {span : Span} {header : Header Expr}

section

variable (hnamed : header.Named)
  (hparams : ∀ p ∈ header.params, readExpr ops p.type.sexp = p.type.core)
  (htype : ∀ e ∈ header.type, readExpr ops e.sexp = e.core)
include hnamed hparams htype

theorem read_dataType {constructors : List (Signature Expr)}
    (hconstructors : ∀ g ∈ constructors, readTyped ops g.sexps = coreSignature g) :
    readMember ops (declSexp (.dataType span header constructors)) =
      .decl (coreDecl (.dataType span header constructors)) := by
  have hheader := read_header [.labelled "where" (constructors.map fun g => .list .round g.sexps)]
    hnamed hparams htype (List.forall_mem_singleton.2 rfl)
  have hread := readMembers_constructors hconstructors
  rw [← members_where (constructors.map _), ← members_parts hnamed, ← readBlock_eq] at hread
  rw [declSexp_dataType, coreDecl, headerSexps_append, Name.sexp, readMember_data hheader hread,
    any_parts hnamed]
  rfl

/-- Without a block the declaration is read as one of a type without constructors. -/
theorem read_emptyData :
    readMember ops (declSexp (.emptyData span header)) =
      .decl (coreDecl (.emptyData span header)) := by
  have hheader := read_header [] hnamed hparams htype (List.forall_mem_nil _)
  have hread : readBlock true ops (header.parts []) = Member.block none [] [] := by
    rw [readBlock_eq, members_parts hnamed]
    rfl
  rw [declSexp, coreDecl, ← List.append_nil (headerSexps header), headerSexps_append, Name.sexp,
    readMember_data hheader hread, any_parts hnamed]
  rfl

/-- A record type is read back if its header is, and its members are under the
operators of its block too. -/
theorem read_recordType {builder : Option Name} {fields : List (Signature Expr)}
    {decls : List (Decl Expr)}
    (hfields : ∀ g ∈ fields, readTyped (declared decls ++ ops) g.sexps = coreSignature g)
    (hdecls : ∀ d ∈ decls, readMember (declared decls ++ ops) (declSexp d) = .decl (coreDecl d)) :
    readMember ops (declSexp (.recordType span header builder fields decls)) =
      .decl (coreDecl (.recordType span header builder fields decls)) := by
  have hheader := read_header [.labelled "where" (memberSexps builder fields decls)] hnamed hparams
    htype (List.forall_mem_singleton.2 rfl)
  have hread := readMembers_memberSexps builder hfields hdecls
  rw [← operators_memberSexps builder fields decls] at hread
  have hmembers := (members_parts hnamed).trans (members_where (memberSexps builder fields decls))
  rw [declSexp_recordType, coreDecl, headerSexps_append, Name.sexp,
    readMember_record hheader (readBlock_of_members hmembers hread)]

end

theorem read_moduleBlock {name : QualifiedName} {params : List (Param Expr)}
    {decls : List (Decl Expr)} (hsegments : Name.Listed Name.token name.segments)
    (hnames : ∀ p ∈ params, Name.Listed Name.boundToken p.names)
    (hparams : ∀ p ∈ params, readExpr ops p.type.sexp = p.type.core)
    (hdecls : ∀ d ∈ decls, readMember (declared decls ++ ops) (declSexp d) = .decl (coreDecl d)) :
    readMember ops (declSexp (.moduleBlock span name params decls)) =
      .decl (coreDecl (.moduleBlock span name params decls)) := by
  have hread := readMembers_decls hdecls
  rw [← operators_declSexps] at hread
  have hmembers : (params.map paramSexp ++ [Sexp.labelled "where" (decls.map declSexp)]).flatMap
      Sexp.members = decls.map declSexp :=
    (flatMap_members_append_of_ne (label?_params hnames (by decide))).trans (members_where _)
  have hparams := readParams_append [.labelled "where" (decls.map declSexp)] hnames hparams
    (readParams_cons_of_label (by simp [Sexp.labelled, Sexp.label?]))
  rw [declSexp, coreDecl, paramSexps_eq, declSexps_eq, List.cons_append,
    readMember_module hparams (readBlock_of_members hmembers hread),
    QualifiedName.ofWord_text hsegments]

end

/-- The parts of a clause after its left-hand side. -/
def clauseParts (withPatterns : List Expr) (withExpr rhs : Option Expr) (tail : List Sexp) :
    List Sexp :=
  withPatterns.map (fun e => .labelled "|" [e.sexp]) ++
    (optionSexps "with" withExpr ++ (optionSexps "=" rhs ++ tail))

section

variable {ops : List String} {withPatterns : List Expr} {withExpr rhs : Option Expr}
  {tail : List Sexp}

theorem label?_pipes {w : String} (hw : "|" ≠ w) :
    ∀ s ∈ withPatterns.map (fun e => Sexp.labelled "|" [e.sexp]), s.label? ≠ some w := by
  rw [List.forall_mem_map]
  exact fun e _ heq => hw (Option.some.inj heq)

theorem label?_option {label w : String} {o : Option Expr} (hw : label ≠ w) :
    ∀ s ∈ optionSexps label o, s.label? ≠ some w := by
  intro s hs heq
  rw [label?_optionSexps s hs] at heq
  exact hw (Option.some.inj heq)

theorem members_clauseParts :
    (clauseParts withPatterns withExpr rhs tail).flatMap Sexp.members = tail.flatMap Sexp.members := by
  rw [clauseParts, flatMap_members_append_of_ne (label?_pipes (by decide)),
    flatMap_members_append_of_ne (label?_option (by decide)),
    flatMap_members_append_of_ne (label?_option (by decide))]

variable (htail : ∀ s ∈ tail, s.label? = some "where")
include htail

theorem label?_tail {w : String} (hw : "where" ≠ w) : ∀ s ∈ tail, s.label? ≠ some w := by
  intro s hs heq
  rw [htail s hs] at heq
  exact hw (Option.some.inj heq)

theorem readSections_pipes (h : ∀ e ∈ withPatterns, readExpr ops e.sexp = e.core) :
    readSections "|" ops (clauseParts withPatterns withExpr rhs tail) = coreExprs withPatterns := by
  have hpipes : (withPatterns.map fun e => Sexp.labelled "|" [e.sexp]).filterMap
      (Sexp.labelled? "|") = withPatterns.map Expr.sexp := by
    rw [List.filterMap_map, ← List.filterMap_eq_map]
    rfl
  have hrest : readSections "|" ops (optionSexps "with" withExpr ++ (optionSexps "=" rhs ++ tail)) =
      [] := by
    rw [readSections_append_of_ne (label?_option (by decide)),
      readSections_append_of_ne (label?_option (by decide)), ← List.append_nil tail,
      readSections_append_of_ne (label?_tail htail (by decide))]
    rfl
  rw [readSections_eq] at hrest
  rw [readSections_eq, clauseParts, List.filterMap_append, List.map_append, hrest, hpipes,
    List.append_nil, List.map_map, coreExprs_eq]
  exact List.map_congr_left h

theorem readSections_with (h : ∀ e ∈ withExpr, readExpr ops e.sexp = e.core) :
    (readSections "with" ops (clauseParts withPatterns withExpr rhs tail)).head? =
      coreOption withExpr := by
  rw [clauseParts, readSections_append_of_ne (label?_pipes (by decide))]
  exact head?_readSections h
    (List.forall_mem_append.2 ⟨label?_option (by decide), label?_tail htail (by decide)⟩)

theorem readSections_equals (h : ∀ e ∈ rhs, readExpr ops e.sexp = e.core) :
    (readSections "=" ops (clauseParts withPatterns withExpr rhs tail)).head? = coreOption rhs := by
  rw [clauseParts, readSections_append_of_ne (label?_pipes (by decide)),
    readSections_append_of_ne (label?_option (by decide))]
  exact head?_readSections h (label?_tail htail (by decide))

end

/-- A clause is read back if its parts are: the patterns under the operators around
it, and the rest under those of its block too. -/
theorem read_clause {ops : List String} {span : Span} {isOperator : Bool}
    {patterns withPatterns : List Expr} {withExpr rhs : Option Expr} {locals : List (Decl Expr)}
    (hleft : ∀ e ∈ patterns, readExpr ops e.sexp = e.core)
    (hothers : ∀ e ∈ withPatterns, readExpr ops e.sexp = e.core)
    (hwith : ∀ e ∈ withExpr, readExpr (declared locals ++ ops) e.sexp = e.core)
    (hrhs : ∀ e ∈ rhs, readExpr (declared locals ++ ops) e.sexp = e.core)
    (heach : ∀ d ∈ locals, readMember (declared locals ++ ops) (declSexp d) = .decl (coreDecl d)) :
    readMember ops (declSexp (.clause span patterns isOperator withPatterns withExpr rhs locals)) =
      .decl (coreDecl (.clause span patterns isOperator withPatterns withExpr rhs locals)) := by
  -- Without local declarations there is no block, with the same members.
  obtain ⟨tail, htail, hlabel, hmembers⟩ : ∃ tail : List Sexp,
      (if locals.isEmpty then [] else [.labelled "where" (locals.map declSexp)]) = tail ∧
      (∀ s ∈ tail, s.label? = some "where") ∧ tail.flatMap Sexp.members = locals.map declSexp := by
    cases locals with
    | nil => exact ⟨[], rfl, List.forall_mem_nil _, rfl⟩
    | cons d ds => exact ⟨_, rfl, List.forall_mem_singleton.2 rfl, members_where _⟩
  have hdecl : declSexp (.clause span patterns isOperator withPatterns withExpr rhs locals) =
      .labelled (if isOperator then "clause-infix" else "clause")
        (.list .round (patterns.map Expr.sexp) :: clauseParts withPatterns withExpr rhs tail) := by
    rw [declSexp, exprSexps_eq, exprSexps_eq, declSexps_eq, htail, List.map_map, clauseParts]
    simp [Function.comp_def]
  have hms : (clauseParts withPatterns withExpr rhs tail).flatMap Sexp.members =
      locals.map declSexp := members_clauseParts.trans hmembers
  have hinner : Sexp.blockOperators (clauseParts withPatterns withExpr rhs tail) = declared locals := by
    rw [Sexp.blockOperators, hms, operators_declSexps]
  have hread := readMembers_decls heach
  rw [← operators_declSexps] at hread
  rw [hdecl, coreDecl]
  refine readMember_clause ?_ (readSections_pipes hlabel hothers) ?_ ?_ (readBlock_of_members hms hread)
  · rw [List.map_map, coreExprs_eq]
    exact List.map_congr_left hleft
  · rw [hinner]
    exact readSections_with hlabel hwith
  · rw [hinner]
    exact readSections_equals hlabel hrhs

/-- Dumps of trees that follow their scopes are read back. -/
theorem readsBack : Expr.Cases ReadsBack (fun d => ∀ ops, d.Named → d.Scoped ops →
    readMember ops (declSexp d) = .decl (coreDecl d)) where
  leaf l := by
    refine readsBack_of_eq rfl fun ops hnamed _ => ?_
    cases hnamed with
    | leaf segments => exact readExpr_leaf segments
  paren span e he := by
    refine readsBack_of_eq rfl fun ops hnamed hscoped => ?_
    cases hnamed with
    | paren inner =>
      cases hscoped with
      | paren hinner =>
        rw [Expr.sexp, Expr.core]
        exact (he ops inner hinner).1
  record span builder fields hfields := by
    refine readsBack_of_eq rfl fun ops hnamed hscoped => ?_
    cases hnamed with
    | record made _ values =>
      cases hscoped with
      | record hvalues =>
        have hread := readAssignments_eq fun f hf =>
          (hfields f hf ops (values f hf) (hvalues f hf)).1
        rw [Expr.sexp, Expr.core, ← hread]
        cases builder with
        | none => cases fields <;> rfl
        | some q =>
          rw [Option.map_some, ← QualifiedName.ofWord_text (made q rfl)]
          rfl
  arrow span domain codomain hdomain hcodomain := by
    refine readsBack_of_eq rfl fun ops hnamed hscoped => ?_
    cases hnamed with
    | arrow origin target =>
      cases hscoped with
      | arrow horigin htarget =>
        rw [Expr.sexp, Expr.core, readExpr_arrow fun _ => sexp_ne_square domain,
          (hdomain ops origin horigin).1, (hcodomain ops target htarget).1]
  pi span params codomain hparams hcodomain := by
    refine readsBack_of_eq rfl fun ops hnamed hscoped => ?_
    cases hnamed with
    | pi _ names types target =>
      cases hscoped with
      | pi htypes htarget =>
        have hread := readParams_append [] names
          (fun p hp => (hparams p hp ops (types p hp) (htypes p hp)).1) rfl
        rw [List.append_nil] at hread
        rw [Expr.sexp, Expr.core, paramSexps_eq, ← hread, ← (hcodomain ops target htarget).1]
        rfl
  bind span binder bindings body hbindings hbody := by
    refine readsBack_of_eq rfl fun ops hnamed hscoped => ?_
    cases hnamed with
    | bind _ names types result =>
      cases hscoped with
      | bind htypes hresult =>
        have hread := readBindings_eq names
          fun p hp => (hbindings p hp ops (types p hp) (htypes p hp)).1
        rw [Expr.sexp, Expr.core, bindingSexps_eq, ← hread, ← (hbody ops result hresult).1]
        cases binder <;> rfl
  letIn span decls body hdecls hbody := by
    refine readsBack_of_eq rfl fun ops hnamed hscoped => ?_
    cases hnamed with
    | letIn each result =>
      cases hscoped with
      | letIn heach hresult =>
        have hread := readMembers_decls fun d hd =>
          hdecls d hd (declared decls ++ ops) (each d hd) (heach d hd)
        have hbody := (hbody (declared decls ++ ops) result hresult).1
        rw [Expr.sexp, Expr.core, declSexps_eq, ← Member.filterMap_decl?_block none [] (coreDecls decls),
          ← hread, ← hbody, ← operators_declSexps]
        rfl
  app span fn arg hfn harg := by
    intro ops hnamed hscoped
    cases hnamed with
    | app head operand =>
      cases hscoped with
      | app hhead hoperand =>
        -- The function is read in the list of the application, with its arguments
        -- before this one.
        obtain ⟨-, s, args, hspine, hform, hfold⟩ := hfn ops head hhead
        have harg := (harg ops operand hoperand).1
        have happ : ((args ++ [arg.sexp]).map (readExpr ops)).foldl (.app default) (readExpr ops s) =
            (Expr.app span fn arg).core := by
          rw [List.map_append, List.foldl_append, hfold, Expr.core, ← harg]
          rfl
        have hsexp : (Expr.app span fn arg).sexp = .list .round (s :: (args ++ [arg.sexp])) := by
          rw [Expr.sexp, hspine, List.cons_append]
        refine ⟨?_, s, args ++ [arg.sexp], ?_, hform, happ⟩
        · rw [hsexp, readExpr_application hform, happ]
        · rw [hsexp]
          rfl
  operation span operator left right hleft hright := by
    refine readsBack_of_eq rfl fun ops hnamed hscoped => ?_
    cases hnamed with
    | operation name first second =>
      cases hscoped with
      | operation known hfirst hsecond =>
        rw [Expr.sexp, Expr.core, readExpr_operation (Form.ofHead_operator name known),
          (hleft ops first hfirst).1, (hright ops second hsecond).1]
  dataType span header constructors hparams htype hconstructors := by
    intro ops hnamed hscoped
    cases hnamed with
    | dataType head params type names types =>
      cases hscoped with
      | dataType hparams' htype' htypes =>
        exact read_dataType head (fun p hp => (hparams p hp ops (params p hp) (hparams' p hp)).1)
          (fun e he => (htype e he ops (type e he) (htype' e he)).1)
          fun g hg => readTyped_signature (names g hg)
            (hconstructors g hg ops (types g hg) (htypes g hg)).1
  emptyData span header hparams htype := by
    intro ops hnamed hscoped
    cases hnamed with
    | emptyData head params type =>
      cases hscoped with
      | emptyData hparams' htype' =>
        exact read_emptyData head (fun p hp => (hparams p hp ops (params p hp) (hparams' p hp)).1)
          fun e he => (htype e he ops (type e he) (htype' e he)).1
  recordType span header builder fields decls hparams htype hfields hdecls := by
    intro ops hnamed hscoped
    cases hnamed with
    | recordType head params type _ names types each =>
      cases hscoped with
      | recordType hparams' htype' htypes heach =>
        exact read_recordType head (fun p hp => (hparams p hp ops (params p hp) (hparams' p hp)).1)
          (fun e he => (htype e he ops (type e he) (htype' e he)).1)
          (fun g hg => readTyped_signature (names g hg) (hfields g hg _ (types g hg) (htypes g hg)).1)
          fun d hd => hdecls d hd _ (each d hd) (heach d hd)
  moduleBlock span name params decls hparams hdecls := by
    intro ops hnamed hscoped
    cases hnamed with
    | moduleBlock segments names types each =>
      cases hscoped with
      | moduleBlock htypes heach =>
        exact read_moduleBlock segments names
          (fun p hp => (hparams p hp ops (types p hp) (htypes p hp)).1)
          fun d hd => hdecls d hd _ (each d hd) (heach d hd)
  importModule span kind name := by
    intro ops hnamed _
    cases hnamed with
    | importModule segments =>
      rw [declSexp, coreDecl, ← QualifiedName.ofWord_text segments]
      cases kind <;> rfl
  ascription signature htype := by
    intro ops hnamed hscoped
    cases hnamed with
    | ascription names type =>
      cases hscoped with
      | ascription hscoped =>
        rw [declSexp_ascription, coreDecl,
          ← readTyped_signature names (htype ops type hscoped).1]
        rfl
  clause span patterns isOperator withPatterns withExpr rhs locals hpatterns hwith hexpr hrhs
      hlocals := by
    intro ops hnamed hscoped
    cases hnamed with
    | clause left others scrutinee right each =>
      cases hscoped with
      | clause hleft hothers hscrutinee hright heach =>
        exact read_clause (fun e he => (hpatterns e he ops (left e he) (hleft e he)).1)
          (fun e he => (hwith e he ops (others e he) (hothers e he)).1)
          (fun e he => (hexpr e he _ (scrutinee e he) (hscrutinee e he)).1)
          (fun e he => (hrhs e he _ (right e he) (hright e he)).1)
          (fun d hd => hlocals d hd _ (each d hd) (heach d hd))
      | operatorClause known before after hothers hscrutinee hright heach =>
        -- The defined operator is read as a name, although it is in scope.
        simp only [List.forall_mem_cons] at left hpatterns
        obtain ⟨hoperator, hfirst, hsecond, -⟩ := left
        obtain ⟨-, hbefore, hafter, -⟩ := hpatterns
        refine read_clause ?_ (fun e he => (hwith e he ops (others e he) (hothers e he)).1)
          (fun e he => (hexpr e he _ (scrutinee e he) (hscrutinee e he)).1)
          (fun e he => (hrhs e he _ (right e he) (hright e he)).1)
          (fun d hd => hlocals d hd _ (each d hd) (heach d hd))
        simp only [List.forall_mem_cons]
        refine ⟨?_, (hbefore ops hfirst before).1, (hafter ops hsecond after).1, List.forall_mem_nil _⟩
        cases hoperator with
        | leaf segments => exact readExpr_leaf segments
  fixity span fixity operators := by
    intro ops hnamed _
    cases hnamed with
    | fixity literal names =>
      have hnames : (operators.map Name.text).map Name.ofWord = operators.map (Name.respan .bare) := by
        rw [List.map_map]
        rfl
      obtain ⟨assoc, precedence⟩ := fixity
      have hread : readMember ops (declSexp (.fixity span ⟨assoc, precedence⟩ operators)) =
          .decl (.fixity default ⟨assoc, Fixity.precedenceOf (toString precedence)⟩
            (((operators.map Name.sexp).filterMap Sexp.word?).map .ofWord)) := by
        cases assoc <;> rfl
      rw [hread, coreDecl, Fixity.precedenceOf_toString literal, filterMap_word?_names, hnames]

end Offside
