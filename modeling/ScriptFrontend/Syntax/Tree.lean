import ScriptFrontend.Token.Basic

/-!
The trees of a program: expressions, statements and declarations.

Operators are kept as the kind of the token that wrote them, and parentheses as nodes of their own,
so a tree can be written out without knowing how tightly any operator binds.  The branches of an `if`
form a chain: each `elif` carries the rest of the chain, which ends with nothing or with an `else`.
-/

namespace ScriptFrontend

inductive Literal
  /-- A number as it was written. -/
  | number (digits : String)
  | text (value : String)
  | boolean (value : Bool)
  | nil
  deriving DecidableEq, Repr

inductive Expr
  | literal (span : Span) (value : Literal)
  | symbol (span : Span) (name : String)
  | unary (span : Span) (op : Kind) (operand : Expr)
  | binary (span : Span) (op : Kind) (left right : Expr)
  | assign (span : Span) (target value : Expr)
  | call (span : Span) (callee : Expr) (arguments : List Expr)
  | member (span : Span) (object : Expr) (property : String)
  | group (span : Span) (inner : Expr)
  deriving Repr

def Expr.span : Expr → Span
  | literal span _ => span
  | symbol span _ => span
  | unary span _ _ => span
  | binary span _ _ _ => span
  | assign span _ _ => span
  | call span _ _ => span
  | member span _ _ => span
  | group span _ => span

/-! ### Statements and declarations -/

structure Parameter where
  name : String
  byReference : Bool
  /-- Collects the remaining arguments. -/
  variadic : Bool
  span : Span
  deriving DecidableEq, Repr

/-- A method that a class promises. -/
structure Signature where
  name : String
  recursive : Bool
  byReference : Bool
  parameters : List Parameter
  span : Span
  deriving DecidableEq, Repr

inductive ClassCategory
  | plain
  | model
  | final
  deriving DecidableEq, Repr

namespace ClassCategory

def ofKind? : Kind → Option ClassCategory
  | .keyword .class_ => some plain
  | .keyword .model => some model
  | .keyword .final => some final
  | _ => none

def name : ClassCategory → String
  | plain => "class"
  | model => "model"
  | final => "final"

end ClassCategory

structure ClassDecl where
  category : ClassCategory
  name : String
  base : Option String
  interfaces : List String
  signatures : List Signature
  /-- Implemented by the host. -/
  native : Bool
  deriving DecidableEq, Repr

mutual

inductive Stmt
  | block (span : Span) (body : List Stmt)
  | break_ (span : Span) (levels : Option UInt32)
  | class_ (span : Span) (decl : ClassDecl)
  | const (span : Span) (name : String) (value : Expr)
  | continue_ (span : Span) (levels : Option UInt32)
  | def_ (span : Span) (name : String) (byReference : Bool) (parameters : List Parameter)
      (body : List Stmt)
  | expr (span : Span) (expr : Expr)
  | foreach (span : Span) (name : String) (byReference : Bool) (iterable : Expr)
      (body : List Stmt)
  | global (span : Span) (names : List String)
  | goto (span : Span) (label : String)
  | if_ (span : Span) (condition : Expr) (body : List Stmt) (chain : ElseChain)
  | label (span : Span) (name : String)
  | module_ (span : Span) (segments : List String)
  | open_ (span : Span) (segments : List String) (rename : Option String)
  | print (span : Span) (value : Expr)
  | raise (span : Span) (value : Expr)
  | return_ (span : Span) (value : Option Expr)
  | while_ (span : Span) (condition : Expr) (body : List Stmt)

inductive ElseChain
  | done
  | elif (condition : Expr) (body : List Stmt) (chain : ElseChain)
  | otherwise (body : List Stmt)

end

namespace Stmt

def span : Stmt → Span
  | block span _ => span
  | break_ span _ => span
  | class_ span _ => span
  | const span _ _ => span
  | continue_ span _ => span
  | def_ span _ _ _ _ => span
  | expr span _ => span
  | foreach span _ _ _ _ => span
  | global span _ => span
  | goto span _ => span
  | if_ span _ _ _ => span
  | label span _ => span
  | module_ span _ => span
  | open_ span _ _ => span
  | print span _ => span
  | raise span _ => span
  | return_ span _ => span
  | while_ span _ _ => span

def markNative : Stmt → Stmt
  | class_ span decl => class_ span { decl with native := true }
  | s => s

def isClass : Stmt → Bool
  | class_ _ _ => true
  | _ => false

end Stmt

def qualified (segments : List String) : String :=
  ".".intercalate segments

/-- The name that an opened module goes by: the one it was given, or its last segment. -/
def localName (segments : List String) (rename : Option String) : String :=
  rename.getD (segments.getLast?.getD "")

end ScriptFrontend
