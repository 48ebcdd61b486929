-- SUMMARY: Expressions, declarations and files as S-expressions.
import Offside.Expr

/-! # S-expressions

The dump of a tree shows its structure and leaves out spans and parentheses:
operators come first, and applications are flat lists. -/

namespace Offside

/-- Parts in parentheses, with blanks between. -/
def parenthesised (parts : List String) : String :=
  "(" ++ " ".intercalate parts ++ ")"

/-- The word for a binder. -/
def Binder.word : Binder → String
  | lambda => "\\"
  | forallType => "forall"

mutual

/-- The dump of an expression. `isFunction` says that it is applied, so that
its arguments and those of the whole go into one list. -/
def dumpExpr (isFunction : Bool) : Expr → String
  | .leaf l => l.text
  | .paren _ e => dumpExpr false e
  | .record _ builder fields =>
    parenthesised ("record" :: builder.toList.map (·.text) ++ dumpAssignments fields)
  | .arrow _ domain codomain =>
    parenthesised ["->", dumpExpr false domain, dumpExpr false codomain]
  | .pi _ params codomain =>
    parenthesised ["->", "[" ++ " ".intercalate (dumpParams params) ++ "]",
      dumpExpr false codomain]
  | .bind _ binder bindings body =>
    parenthesised [binder.word, parenthesised (dumpBindings bindings), dumpExpr false body]
  | .letIn _ decls body =>
    parenthesised ["let", parenthesised (dumpDecls decls), dumpExpr false body]
  | .app _ fn arg =>
    let list := dumpExpr true fn ++ " " ++ dumpExpr false arg
    if isFunction then list else "(" ++ list ++ ")"
  | .operation _ operator left right =>
    parenthesised [operator.text, dumpExpr false left, dumpExpr false right]

/-- Each of the assignments of a record value. -/
def dumpAssignments : List (Assignment Expr) → List String
  | [] => []
  | ⟨_, name, value⟩ :: fields =>
    parenthesised [name.text, dumpExpr false value] :: dumpAssignments fields

/-- A typed parameter in its brackets. -/
def dumpParam : Param Expr → String
  | ⟨_, isImplicit, names, type⟩ =>
    let inside := Name.listText names ++ " : " ++ dumpExpr false type
    if isImplicit then "\x7b" ++ inside ++ "\x7d" else "(" ++ inside ++ ")"

/-- Each of some typed parameters. -/
def dumpParams : List (Param Expr) → List String
  | [] => []
  | p :: ps => dumpParam p :: dumpParams ps

/-- Each of some bindings. -/
def dumpBindings : List (Binding Expr) → List String
  | [] => []
  | .name n :: bs => n.text :: dumpBindings bs
  | .typed p :: bs => dumpParam p :: dumpBindings bs

/-- Each of some expressions. -/
def dumpExprs : List Expr → List String
  | [] => []
  | e :: es => dumpExpr false e :: dumpExprs es

/-- A list of `word` and an expression, if there is one. -/
def dumpOption (word : String) : Option Expr → List String
  | none => []
  | some e => [parenthesised [word, dumpExpr false e]]

/-- Each of some constructors or fields, without parentheses. -/
def dumpSignatures : List (Signature Expr) → List String
  | [] => []
  | ⟨_, names, type⟩ :: ss =>
    (Name.listText names ++ " : " ++ dumpExpr false type) :: dumpSignatures ss

/-- The parts of a header. -/
def dumpHeader : Header Expr → List String
  | ⟨name, params, type⟩ => name.text :: dumpParams params ++ dumpOption ":" type

/-- The dump of a declaration. -/
def dumpDecl : Decl Expr → String
  | .dataType _ header constructors =>
    let constructors := (dumpSignatures constructors).map ("(" ++ · ++ ")")
    parenthesised ("data" :: dumpHeader header ++ [parenthesised ("where" :: constructors)])
  | .emptyData _ header => parenthesised ("data" :: dumpHeader header)
  | .recordType _ header builder fields decls =>
    let builder := builder.toList.map fun name => parenthesised ["constructor", name.text]
    let fields := (dumpSignatures fields).map fun field => parenthesised ["field", field]
    parenthesised ("record" :: dumpHeader header ++
      [parenthesised ("where" :: builder ++ fields ++ dumpDecls decls)])
  | .moduleBlock _ name params decls =>
    parenthesised ("module" :: name.text :: dumpParams params ++
      [parenthesised ("where" :: dumpDecls decls)])
  | .importModule _ kind name => parenthesised [kind.text, name.text]
  | .ascription ⟨_, names, type⟩ =>
    parenthesised ["sig", Name.listText names, ":", dumpExpr false type]
  | .clause _ patterns isOperator withPatterns withExpr rhs locals =>
    let head := if isOperator then "clause-infix" else "clause"
    let withPatterns := (dumpExprs withPatterns).map fun p => parenthesised ["|", p]
    let locals := if locals.isEmpty then [] else [parenthesised ("where" :: dumpDecls locals)]
    parenthesised (head :: parenthesised (dumpExprs patterns) :: withPatterns ++
      dumpOption "with" withExpr ++ dumpOption "=" rhs ++ locals)
  | .fixity _ fixity operators => parenthesised [fixity.text, Name.listText operators]

/-- Each of some declarations. -/
def dumpDecls : List (Decl Expr) → List String
  | [] => []
  | d :: ds => dumpDecl d :: dumpDecls ds

end

/-- The dump of an expression. -/
def Expr.dump (e : Expr) : String := dumpExpr false e

/-- The dump of a declaration. -/
def Decl.dump (d : Decl Expr) : String := dumpDecl d

/-- The dump of a file, with one line for each declaration. -/
def File.dump (file : File) : String :=
  String.join ((dumpDecls file.decls).map (· ++ "\n"))

end Offside
