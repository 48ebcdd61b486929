-- SUMMARY: Resolution does not depend on the order of the declarations of a block.
import Mathlib.Data.List.Nodup
import Offside.Proofs.Fixity.Scoped

/-! # Declarations in another order

Resolution asks a table only for the entries of operators, so a table with the
same entries is as good: `resolveDecl_congr`. Where no operator of a block is
declared twice, the order of the block does not change the entries. It changes
the order of what the declarations resolve to, and nothing else:
`resolveFile_perm`. -/

namespace Offside

namespace Fixity

/-! ## Scopes -/

/-- The entries that the fixity declarations directly in a block ask for. -/
def entries {ε : Type} (decls : List (Decl ε)) : List Entry :=
  decls.flatMap fun
    | .fixity span fixity operators => operators.map fun operator => ⟨operator.text, fixity, span⟩
    | _ => []

theorem map_operator_entries {ε : Type} (decls : List (Decl ε)) :
    (entries decls).map Entry.operator = declared decls := by
  rw [entries, declared, List.map_flatMap]
  congr
  funext d
  cases d <;> simp

theorem declareAll_of_nodup {scope : Scope} {operators : List Name} (fixity : Fixity) (span : Span)
    (h : (scope.map Entry.operator ++ operators.map Name.text).Nodup) :
    scope.declareAll fixity span operators =
      (scope ++ operators.map fun operator => ⟨operator.text, fixity, span⟩, []) := by
  induction operators generalizing scope with
  | nil => simp [Scope.declareAll]
  | cons operator operators ih =>
    have hnew : scope.find? operator.text = none := by
      rw [Scope.find?, List.find?_eq_none]
      intro entry hentry
      have hdisjoint := (List.nodup_append.1 h).2.2
      simpa using hdisjoint _ (List.mem_map_of_mem hentry) _ List.mem_cons_self
    let entry : Entry := ⟨operator.text, fixity, span⟩
    have hrest : ((scope ++ [entry]).map Entry.operator ++ operators.map Name.text).Nodup := by
      simpa using h
    rw [Scope.declareAll, Scope.declare, hnew]
    simp only [entry, ih hrest]
    simp

/-- Without repetitions a scope holds all entries, and there is no problem. -/
theorem collect_of_nodup {ε : Type} {scope : Scope} {decls : List (Decl ε)}
    (h : (scope.map Entry.operator ++ declared decls).Nodup) :
    scope.collect decls = (scope ++ entries decls, []) := by
  induction decls generalizing scope with
  | nil => simp [Scope.collect, entries]
  | cons d decls ih =>
    rw [declared_cons, ← List.append_assoc] at h
    cases d with
    | fixity span fixity operators =>
      rw [declared_fixity] at h
      have hfirst := declareAll_of_nodup fixity span (List.nodup_append.1 h).1
      let named : List Entry := operators.map fun operator => ⟨operator.text, fixity, span⟩
      have hrest : ((scope ++ named).map Entry.operator ++ declared decls).Nodup := by
        simpa [named, Function.comp_def] using h
      rw [Scope.collect, hfirst]
      simp only [named, ih hrest]
      simp [entries]
    | _ =>
      rw [Scope.collect]
      · exact ih (by simpa [declared] using h)
      · nofun

theorem enter_of_nodup {ε : Type} (table : Table) {decls : List (Decl ε)}
    (h : (declared decls).Nodup) : table.enter decls = (⟨entries decls :: table.scopes⟩, []) := by
  have hcollect : Scope.collect [] decls = ([] ++ entries decls, []) := collect_of_nodup h
  rw [Table.enter, hcollect]
  rfl

/-- In a scope without repetitions an operator has the entry that names it. -/
theorem Scope.find?_eq_some_iff {scope : Scope} (hnodup : (scope.map Entry.operator).Nodup)
    {name : String} {entry : Entry} :
    scope.find? name = some entry ↔ entry ∈ scope ∧ entry.operator = name := by
  refine ⟨fun h => ⟨List.mem_of_find?_eq_some h, by simpa using List.find?_some h⟩, ?_⟩
  rintro ⟨hentry, rfl⟩
  cases hfind : scope.find? entry.operator with
  | none => simpa using List.find?_eq_none.1 hfind entry hentry
  | some other =>
    have hother : other.operator = entry.operator := by simpa using List.find?_some hfind
    rw [List.inj_on_of_nodup_map hnodup (List.mem_of_find?_eq_some hfind) hentry hother]

theorem Scope.find?_perm {scope scope' : Scope} (hperm : scope'.Perm scope)
    (hnodup : (scope.map Entry.operator).Nodup) (name : String) :
    scope'.find? name = scope.find? name := by
  ext entry
  rw [find?_eq_some_iff hnodup, find?_eq_some_iff ((hperm.map _).nodup_iff.2 hnodup),
    hperm.mem_iff]

/-! ## Tables with the same entries -/

/-- The tables have the same entry for every operator. -/
def Table.Agrees (table table' : Table) : Prop := ∀ name, table.lookup? name = table'.lookup? name

theorem Table.Agrees.enter {ε : Type} {table table' : Table} (h : table.Agrees table')
    (decls : List (Decl ε)) : (table.enter decls).1.Agrees (table'.enter decls).1 := by
  intro name
  have hname := h name
  simp only [Table.lookup?, Table.enter, List.findSome?_cons] at hname ⊢
  rw [hname]

/-- A block in another order. -/
theorem Table.agrees_enter_of_perm {ε : Type} (table : Table) {decls decls' : List (Decl ε)}
    (hperm : decls'.Perm decls) (hnodup : (declared decls).Nodup) :
    (table.enter decls').1.Agrees (table.enter decls).1 := by
  have hnodup' : (declared decls').Nodup := (hperm.flatMap_right _).nodup_iff.2 hnodup
  have hentries : (entries decls').Perm (entries decls) := hperm.flatMap_right _
  intro name
  have hscope := Scope.find?_perm hentries (by rwa [map_operator_entries]) name
  rw [enter_of_nodup table hnodup, enter_of_nodup table hnodup']
  simp only [Table.lookup?, List.findSome?_cons, hscope]

section

variable {limit : Nat} {table table' : Table}

theorem operator?_congr (h : table.Agrees table') (a : Concrete.Atom) :
    operator? table a = operator? table' a := by
  unfold operator?
  split
  · simp only [h _]
  · rfl

/-- What is resolved in a block depends on the entries of the table around it. -/
theorem noted_enter_congr {α : Type} {decls : List (Decl Concrete.Expr)}
    {next next' : Table → Report α}
    (h : next (table.enter decls).1 = next' (table'.enter decls).1) :
    (Report.noted (table.enter decls) >>= next) = (Report.noted (table'.enter decls) >>= next') := by
  change Report.mk ((table.enter decls).2 ++ (next (table.enter decls).1).diagnostics) _ = _
  rw [h]
  rfl

mutual

theorem resolveExpr_congr {table table' : Table} (h : table.Agrees table') : ∀ e levels,
    resolveExpr limit table levels e = resolveExpr limit table' levels e
  | .run span atoms, levels => by simp only [resolveExpr, resolveAtoms_congr h atoms]
  | .arrow span domain codomain, levels => by
    simp only [resolveExpr, resolveAtoms_congr h domain, resolveDomain_congr h domain,
      resolveExpr_congr h codomain]
  | .bind span binder bindings body, levels => by
    simp only [resolveExpr, resolveBindings_congr h bindings, resolveExpr_congr h body]
  | .letIn span decls body, levels => by
    have hinside := h.enter decls
    rw [resolveExpr, resolveExpr]
    congr
    funext n
    apply noted_enter_congr
    simp only [resolveDecls_congr hinside decls, resolveExpr_congr hinside body]

theorem resolveAtoms_congr {table table' : Table} (h : table.Agrees table') : ∀ atoms levels,
    resolveAtoms limit table levels atoms = resolveAtoms limit table' levels atoms
  | [], levels => by simp only [resolveAtoms]
  | a :: atoms, levels => by
    simp only [resolveAtoms, operator?_congr h a, resolveAtom_congr h a, resolveAtoms_congr h atoms]

theorem resolveAtom_congr {table table' : Table} (h : table.Agrees table') : ∀ a levels,
    resolveAtom limit table levels a = resolveAtom limit table' levels a
  | .leaf l, levels => by simp only [resolveAtom]
  | .paren span e, levels => by simp only [resolveAtom, resolveExpr_congr h e]
  | .param p, levels => by simp only [resolveAtom]
  | .record span builder fields, levels => by
    simp only [resolveAtom, resolveAssignments_congr h fields]
  | .tail e, levels => by simp only [resolveAtom, resolveExpr_congr h e]

theorem resolveAssignments_congr {table table' : Table} (h : table.Agrees table') : ∀ fields levels,
    resolveAssignments limit table levels fields = resolveAssignments limit table' levels fields
  | [], levels => by simp only [resolveAssignments]
  | ⟨span, name, value⟩ :: fields, levels => by
    simp only [resolveAssignments, resolveExpr_congr h value, resolveAssignments_congr h fields]

theorem resolveDomain_congr {table table' : Table} (h : table.Agrees table') : ∀ atoms levels,
    resolveDomain limit table levels atoms = resolveDomain limit table' levels atoms
  | [], levels => by simp only [resolveDomain]
  | .param p :: atoms, levels => by
    simp only [resolveDomain, resolveParam_congr h p, resolveDomain_congr h atoms]
  | .leaf _ :: atoms, levels | .paren .. :: atoms, levels | .record .. :: atoms, levels
  | .tail _ :: atoms, levels => by simp only [resolveDomain, resolveDomain_congr h atoms]

theorem resolveParam_congr {table table' : Table} (h : table.Agrees table') : ∀ p levels,
    resolveParam limit table levels p = resolveParam limit table' levels p
  | ⟨span, isImplicit, names, type⟩, levels => by
    simp only [resolveParam, resolveExpr_congr h type]

theorem resolveParams_congr {table table' : Table} (h : table.Agrees table') : ∀ ps levels,
    resolveParams limit table levels ps = resolveParams limit table' levels ps
  | [], levels => by simp only [resolveParams]
  | p :: ps, levels => by
    simp only [resolveParams, resolveParam_congr h p, resolveParams_congr h ps]

theorem resolveBindings_congr {table table' : Table} (h : table.Agrees table') : ∀ bs levels,
    resolveBindings limit table levels bs = resolveBindings limit table' levels bs
  | [], levels => by simp only [resolveBindings]
  | .name n :: bs, levels => by simp only [resolveBindings, resolveBindings_congr h bs]
  | .typed p :: bs, levels => by
    simp only [resolveBindings, resolveParam_congr h p, resolveBindings_congr h bs]

theorem resolveOption_congr {table table' : Table} (h : table.Agrees table') : ∀ o levels,
    resolveOption limit table levels o = resolveOption limit table' levels o
  | none, levels => by simp only [resolveOption]
  | some e, levels => by simp only [resolveOption, resolveExpr_congr h e]

theorem resolveSignatures_congr {table table' : Table} (h : table.Agrees table') : ∀ gs levels,
    resolveSignatures limit table levels gs = resolveSignatures limit table' levels gs
  | [], levels => by simp only [resolveSignatures]
  | ⟨span, names, type⟩ :: gs, levels => by
    simp only [resolveSignatures, resolveExpr_congr h type, resolveSignatures_congr h gs]

theorem resolveHeader_congr {table table' : Table} (h : table.Agrees table') : ∀ header levels,
    resolveHeader limit table levels header = resolveHeader limit table' levels header
  | ⟨name, params, type⟩, levels => by
    simp only [resolveHeader, resolveParams_congr h params, resolveOption_congr h type]

theorem resolvePatterns_congr {table table' : Table} (h : table.Agrees table') : ∀ es levels,
    resolvePatterns limit table levels es = resolvePatterns limit table' levels es
  | [], levels => by simp only [resolvePatterns]
  | e :: es, levels => by
    simp only [resolvePatterns, resolveExpr_congr h e, resolvePatterns_congr h es]

theorem resolveDecl_congr {table table' : Table} (h : table.Agrees table') : ∀ d levels,
    resolveDecl limit table levels d = resolveDecl limit table' levels d
  | .dataType span header constructors, levels => by
    simp only [resolveDecl, resolveHeader_congr h header, resolveSignatures_congr h constructors]
  | .emptyData span header, levels => by simp only [resolveDecl, resolveHeader_congr h header]
  | .recordType span header builder fields decls, levels => by
    have hinside := h.enter decls
    rw [resolveDecl, resolveDecl, resolveHeader_congr h header]
    congr
    funext header
    apply noted_enter_congr
    simp only [resolveDecls_congr hinside decls, resolveSignatures_congr hinside fields]
  | .moduleBlock span name params decls, levels => by
    rw [resolveDecl, resolveDecl, resolveParams_congr h params]
    congr
    funext params
    apply noted_enter_congr
    simp only [resolveDecls_congr (h.enter decls) decls]
  | .importModule span kind name, levels => by simp only [resolveDecl]
  | .ascription ⟨span, names, type⟩, levels => by simp only [resolveDecl, resolveExpr_congr h type]
  | .clause span patterns isOperator withPatterns withExpr rhs locals, levels => by
    have hinside := h.enter locals
    rw [resolveDecl, resolveDecl, resolvePatterns_congr h patterns,
      resolvePatterns_congr h withPatterns]
    congr
    funext sides
    dsimp only
    congr
    funext withPatterns
    apply noted_enter_congr
    simp only [resolveDecls_congr hinside locals, resolveOption_congr hinside withExpr,
      resolveOption_congr hinside rhs]
  | .fixity span fixity operators, levels => by simp only [resolveDecl]

theorem resolveDecls_congr {table table' : Table} (h : table.Agrees table') : ∀ ds levels,
    resolveDecls limit table levels ds = resolveDecls limit table' levels ds
  | [], levels => by simp only [resolveDecls]
  | d :: ds, levels => by simp only [resolveDecls, resolveDecl_congr h d, resolveDecls_congr h ds]

end

end

/-! ## Files -/

/-- What becomes of the declaration `d` among the declarations `decls` of a file:
what it resolves to, unless it is rejected, and its problems. -/
def outcome (limit : Nat) (decls : List (Decl Concrete.Expr)) (d : Decl Concrete.Expr) :
    Option (Decl Expr) × List Diagnostic :=
  (resolveDecl limit (Table.empty.enter decls).1 limit d).settle

theorem resolveDecls_eq (limit : Nat) (table : Table) (levels : Nat)
    (decls : List (Decl Concrete.Expr)) : resolveDecls limit table levels decls =
      (decls.filterMap fun d => (resolveDecl limit table levels d).settle.1,
        decls.flatMap fun d => (resolveDecl limit table levels d).settle.2) := by
  induction decls with
  | nil => rw [resolveDecls]; rfl
  | cons d decls ih =>
    rw [resolveDecls, ih]
    cases hd : (resolveDecl limit table levels d).settle.1 <;> simp [hd]

theorem resolveFile_of_nodup {decls : List (Decl Concrete.Expr)} (limit : Nat)
    (hnodup : (declared decls).Nodup) : resolveFile limit decls =
      (decls.filterMap fun d => (outcome limit decls d).1,
        decls.flatMap fun d => (outcome limit decls d).2) := by
  have henter := enter_of_nodup .empty hnodup
  simp only [resolveFile, outcome, henter, resolveDecls_eq, List.nil_append]

/-- The declarations of a file in another order: each of them has the outcome it
had, and the results and problems of the file are those of its declarations in
the order in which these stand. -/
theorem resolveFile_perm (limit : Nat) {decls decls' : List (Decl Concrete.Expr)}
    (hperm : decls'.Perm decls) (hnodup : (declared decls).Nodup) :
    (∀ d, outcome limit decls' d = outcome limit decls d) ∧
    resolveFile limit decls = (decls.filterMap fun d => (outcome limit decls d).1,
      decls.flatMap fun d => (outcome limit decls d).2) ∧
    resolveFile limit decls' = (decls'.filterMap fun d => (outcome limit decls d).1,
      decls'.flatMap fun d => (outcome limit decls d).2) ∧
    (resolveFile limit decls').1.Perm (resolveFile limit decls).1 ∧
    (resolveFile limit decls').2.Perm (resolveFile limit decls).2 := by
  have hnodup' : (declared decls').Nodup := (hperm.flatMap_right _).nodup_iff.2 hnodup
  have hsame : ∀ d, outcome limit decls' d = outcome limit decls d := fun d => by
    rw [outcome, outcome, resolveDecl_congr (Table.agrees_enter_of_perm .empty hperm hnodup)]
  have hfile := resolveFile_of_nodup limit hnodup
  have hfile' := resolveFile_of_nodup limit hnodup'
  simp only [hsame] at hfile'
  refine ⟨hsame, hfile, hfile', ?_, ?_⟩
  · rw [hfile, hfile']
    exact hperm.filterMap _
  · rw [hfile, hfile']
    exact hperm.flatMap_right _

/-- A file that uses an operator above its declaration, and once without
operands: `x = a <> b`, `y = <>` and `infixr 6 <>`. -/
def useBeforeFixity : List (Decl Concrete.Expr) :=
  let atom (text : String) (span : Span) : Concrete.Atom := .leaf (.name (.simple ⟨text, span⟩))
  [.clause ⟨0, 10⟩ [.run ⟨0, 1⟩ [atom "x" ⟨0, 1⟩]] false [] none
      (some (.run ⟨4, 10⟩ [atom "a" ⟨4, 5⟩, atom "<>" ⟨6, 8⟩, atom "b" ⟨9, 10⟩])) [],
    .clause ⟨11, 17⟩ [.run ⟨11, 12⟩ [atom "y" ⟨11, 12⟩]] false [] none
      (some (.run ⟨15, 17⟩ [atom "<>" ⟨15, 17⟩])) [],
    .fixity ⟨18, 29⟩ ⟨.right, 6⟩ [⟨"<>", ⟨27, 29⟩⟩]]

theorem resolveFile_perm_reverse :
    useBeforeFixity.reverse.Perm useBeforeFixity ∧ (declared useBeforeFixity).Nodup ∧
    (∀ d, outcome 128 useBeforeFixity.reverse d = outcome 128 useBeforeFixity d) ∧
    resolveFile 128 useBeforeFixity.reverse =
      (useBeforeFixity.reverse.filterMap fun d => (outcome 128 useBeforeFixity d).1,
        useBeforeFixity.reverse.flatMap fun d => (outcome 128 useBeforeFixity d).2) :=
  have hperm : useBeforeFixity.reverse.Perm useBeforeFixity := List.reverse_perm _
  have hnodup : (declared useBeforeFixity).Nodup := by decide
  have hfile := resolveFile_perm 128 hperm hnodup
  ⟨hperm, hnodup, hfile.1, hfile.2.2.1⟩

end Fixity

end Offside
