-- SUMMARY: Expressions, declarations and files in surface form.
import Offside.Expr

/-! # Printing

`File.print` writes a file in the surface form of the language. The blocks of
declarations are laid out by indentation, those inside expressions are in
braces. No parentheses are added: those of the text are part of the tree. -/

namespace Offside

/-- Items in braces, with semicolons between. -/
def braced : List String → String
  | [] => " \x7b \x7d"
  | items => " \x7b " ++ " ; ".intercalate items ++ " \x7d"

/-- The keyword of a binder, with the blank that it needs. -/
def Binder.text : Binder → String
  | lambda => "\\"
  | forallType => "forall "

/-- The left-hand side of a clause. An operator stands between its patterns. -/
def leftSide (isOperator : Bool) (patterns : List String) : String :=
  match isOperator, patterns with
  | true, [operator, left, right] => " ".intercalate [left, operator, right]
  | _, patterns => " ".intercalate patterns

/-- A declaration as its head and the items of its block, if it has one. -/
structure DeclText where
  head : String
  items : Option (List String)

/-- A declaration in one line. -/
def DeclText.inline : DeclText → String
  | ⟨head, none⟩ => head
  | ⟨head, some items⟩ => head ++ " where" ++ braced items

mutual

/-- An expression in surface form. -/
def Expr.print : Expr → String
  | .leaf l => l.text
  | .paren _ e => "(" ++ e.print ++ ")"
  | .record _ builder fields =>
    " ".intercalate ("record" :: builder.toList.map (·.text)) ++ braced (printAssignments fields)
  | .arrow _ domain codomain => domain.print ++ " -> " ++ codomain.print
  | .pi _ params codomain => " ".intercalate (printParams params) ++ " -> " ++ codomain.print
  | .bind _ binder bindings body =>
    binder.text ++ " ".intercalate (printBindings bindings) ++ " -> " ++ body.print
  | .letIn _ decls body => "let" ++ braced (printDecls decls) ++ " in " ++ body.print
  | .app _ fn arg => fn.print ++ " " ++ arg.print
  | .operation _ operator left right => left.print ++ " " ++ operator.text ++ " " ++ right.print

/-- Each of the assignments of a record value. -/
def printAssignments : List (Assignment Expr) → List String
  | [] => []
  | ⟨_, name, value⟩ :: fields => (name.text ++ " = " ++ value.print) :: printAssignments fields

/-- A typed parameter in its brackets. -/
def printParam : Param Expr → String
  | ⟨_, isImplicit, names, type⟩ =>
    let inside := Name.listText names ++ " : " ++ type.print
    if isImplicit then "\x7b" ++ inside ++ "\x7d" else "(" ++ inside ++ ")"

/-- Each of some typed parameters. -/
def printParams : List (Param Expr) → List String
  | [] => []
  | p :: ps => printParam p :: printParams ps

/-- Each of some bindings. -/
def printBindings : List (Binding Expr) → List String
  | [] => []
  | .name n :: bs => n.text :: printBindings bs
  | .typed p :: bs => printParam p :: printBindings bs

/-- Each of some expressions. -/
def printExprs : List Expr → List String
  | [] => []
  | e :: es => e.print :: printExprs es

/-- An expression after `before`, if there is one. -/
def printOption (before : String) : Option Expr → String
  | none => ""
  | some e => before ++ e.print

/-- Each of some constructors or fields. -/
def printSignatures : List (Signature Expr) → List String
  | [] => []
  | ⟨_, names, type⟩ :: ss => (Name.listText names ++ " : " ++ type.print) :: printSignatures ss

/-- The header of a data or record type. -/
def printHeader : Header Expr → String
  | ⟨name, params, type⟩ =>
    " ".intercalate (name.text :: printParams params) ++ printOption " : " type

/-- The parts of a declaration. The items of its block are in one line each. -/
def printDecl : Decl Expr → DeclText
  | .dataType _ header constructors =>
    ⟨"data " ++ printHeader header, some (printSignatures constructors)⟩
  | .emptyData _ header => ⟨"data " ++ printHeader header, none⟩
  | .recordType _ header builder fields decls =>
    ⟨"record " ++ printHeader header,
      some (builder.toList.map ("constructor " ++ ·.text) ++
        (printSignatures fields).map ("field " ++ ·) ++ printDecls decls)⟩
  | .moduleBlock _ name params decls =>
    ⟨"module " ++ " ".intercalate (name.text :: printParams params), some (printDecls decls)⟩
  | .importModule _ kind name => ⟨kind.text ++ " " ++ name.text, none⟩
  | .ascription ⟨_, names, type⟩ => ⟨Name.listText names ++ " : " ++ type.print, none⟩
  | .clause _ patterns isOperator withPatterns withExpr rhs locals =>
    ⟨leftSide isOperator (printExprs patterns) ++
        String.join ((printExprs withPatterns).map (" | " ++ ·)) ++
        printOption " with " withExpr ++ printOption " = " rhs,
      if locals.isEmpty then none else some (printDecls locals)⟩
  | .fixity _ fixity operators => ⟨fixity.text ++ " " ++ Name.listText operators, none⟩

/-- Each of some declarations in one line. -/
def printDecls : List (Decl Expr) → List String
  | [] => []
  | d :: ds => (printDecl d).inline :: printDecls ds

end

/-- A head with the lines of its block indented below it. -/
def blockLines (head : String) (items : List String) : List String :=
  (head ++ " where") :: items.map ("  " ++ ·)

mutual

/-- A declaration in lines, with blocks laid out by indentation. -/
def Decl.lines : Decl Expr → List String
  | .dataType span header constructors =>
    blockLines (printDecl (.emptyData span header)).head (printSignatures constructors)
  | .recordType span header builder fields decls =>
    blockLines (printDecl (.recordType span header none [] [])).head
      (builder.toList.map ("constructor " ++ ·.text) ++
        (printSignatures fields).map ("field " ++ ·) ++ declsLines decls)
  | .moduleBlock span name params decls =>
    blockLines (printDecl (.moduleBlock span name params [])).head (declsLines decls)
  | .clause span patterns isOperator withPatterns withExpr rhs locals =>
    let head :=
      (printDecl (.clause span patterns isOperator withPatterns withExpr rhs [])).head
    if locals.isEmpty then [head] else blockLines head (declsLines locals)
  | d => [(printDecl d).head]

/-- Some declarations in lines. -/
def declsLines : List (Decl Expr) → List String
  | [] => []
  | d :: ds => d.lines ++ declsLines ds

end

/-- A file in surface form. -/
def File.print (file : File) : String :=
  String.join ((declsLines file.decls).map (· ++ "\n"))

end Offside
