import ScriptFrontend.Syntax.Tree
import ScriptFrontend.Text.Escape

/-!
The canonical text of a program.

A layout knows how deep the text being written is nested and how wide one level is.  Every statement
has one way to be written.  Its first line is placed by whoever writes the lines before it, so
`Stmt.render` indents only the lines after the first, and it ends the last one.
-/

namespace ScriptFrontend

structure Layout where
  depth : Nat := 0
  indentWidth : Nat := 2
  deriving DecidableEq, Repr

namespace Layout

def enter (l : Layout) : Layout :=
  { l with depth := l.depth + 1 }

def leave (l : Layout) : Layout :=
  { l with depth := l.depth - 1 }

def indent (l : Layout) : String :=
  String.ofList (List.replicate (l.depth * l.indentWidth) ' ')

@[simp] theorem leave_enter (l : Layout) : l.enter.leave = l := rfl

@[simp] theorem toList_indent (l : Layout) :
    l.indent.toList = List.replicate (l.depth * l.indentWidth) ' ' := by
  simp [indent]

end Layout

/-! ### Expressions and statements -/

def Literal.render : Literal → String
  | number digits => digits
  | text value => "\"" ++ String.ofList (Text.Escape.encode value.toList) ++ "\""
  | boolean true => "true"
  | boolean false => "false"
  | nil => "nil"

mutual

def Expr.render : Expr → String
  | .literal _ value => value.render
  | .symbol _ name => name
  | .unary _ op operand =>
    if op = .keyword .not_ then "not " ++ operand.render else op.name ++ operand.render
  | .binary _ op left right => left.render ++ " " ++ op.name ++ " " ++ right.render
  | .assign _ target value => target.render ++ " :- " ++ value.render
  | .call _ callee arguments =>
    callee.render ++ "(" ++ ", ".intercalate (Expr.renderEach arguments) ++ ")"
  | .member _ object property => object.render ++ "." ++ property
  | .group _ inner => "(" ++ inner.render ++ ")"

def Expr.renderEach : List Expr → List String
  | [] => []
  | e :: es => e.render :: Expr.renderEach es

end

theorem Expr.renderEach_eq_map (es : List Expr) : Expr.renderEach es = es.map Expr.render := by
  induction es with
  | nil => rfl
  | cons e es ih => simp [renderEach, ih]

def flagged (flag : Bool) (word : String) : String :=
  if flag then word else ""

def Parameter.render (p : Parameter) : String :=
  flagged p.variadic "..." ++ flagged p.byReference "*" ++ p.name

def Signature.render (s : Signature) : String :=
  flagged s.recursive "rec " ++ flagged s.byReference "*" ++ s.name ++ "(" ++
    ", ".intercalate (s.parameters.map Parameter.render) ++ ")"

/-- The parameters of a function; the empty list has a mark of its own. -/
def renderParameters : List Parameter → String
  | [] => "!"
  | ps => "[" ++ "; ".intercalate (ps.map Parameter.render) ++ "]"

def ClassDecl.render (d : ClassDecl) (l : Layout) : String :=
  flagged d.native "native " ++ d.category.name ++ " " ++ d.name ++
    (match d.base with
      | some base => " : " ++ base
      | none => "") ++
    (match d.interfaces with
      | [] => ""
      | names => " # " ++ "; # ".intercalate names) ++ "\n" ++
    String.join (d.signatures.map fun s => l.enter.indent ++ s.render ++ "\n") ++
    l.indent ++ "end\n"

def renderJump (word : String) : Option UInt32 → String
  | none => word ++ "\n"
  | some levels => word ++ " " ++ toString levels.toNat ++ "\n"

mutual

def Stmt.render (l : Layout) : Stmt → String
  | .block _ body => "begin\n" ++ renderLines l.enter body ++ l.indent ++ "end\n"
  | .break_ _ levels => renderJump "break" levels
  | .class_ _ decl => decl.render l
  | .const _ name value => "const " ++ name ++ " :- " ++ value.render ++ "\n"
  | .continue_ _ levels => renderJump "continue" levels
  | .def_ _ name byReference parameters body =>
    "def " ++ flagged byReference "*" ++ name ++ " " ++ renderParameters parameters ++ " " ++
      renderBody l body ++ "\n"
  | .expr _ expr => expr.render ++ "\n"
  | .foreach _ name byReference iterable body =>
    "foreach " ++ flagged byReference "*" ++ name ++ " in " ++ iterable.render ++ " " ++
      renderBody l body ++ "\n"
  | .global _ names => "global " ++ ", ".intercalate names ++ "\n"
  | .goto _ label => "goto " ++ label ++ "\n"
  | .if_ _ condition body chain =>
    "if " ++ condition.render ++ " " ++ renderBody l body ++ chain.render l ++ "\n"
  | .label _ name => "label " ++ name ++ "\n"
  | .module_ _ segments => "module " ++ qualified segments ++ "\n"
  | .open_ _ segments none => "open " ++ qualified segments ++ "\n"
  | .open_ _ segments (some name) => "open " ++ qualified segments ++ " as " ++ name ++ "\n"
  | .print _ value => "print " ++ value.render ++ "\n"
  | .raise _ value => "raise " ++ value.render ++ "\n"
  | .return_ _ none => "return\n"
  | .return_ _ (some value) => "return " ++ value.render ++ "\n"
  | .while_ _ condition body =>
    "while " ++ condition.render ++ " " ++ renderBody l body ++ "\n"

def ElseChain.render (l : Layout) : ElseChain → String
  | .done => ""
  | .elif condition body chain =>
    " elif " ++ condition.render ++ " " ++ renderBody l body ++ chain.render l
  | .otherwise body => " else " ++ renderBody l body

/-- A body in brackets, its lines one level deeper than the brackets. -/
def renderBody (l : Layout) : List Stmt → String
  | [] => "[]"
  | s :: ss =>
    "[\n" ++ l.enter.indent ++ s.render l.enter ++ renderLines l.enter ss ++ l.indent ++ "]"

def renderLines (l : Layout) : List Stmt → String
  | [] => ""
  | s :: ss => l.indent ++ s.render l ++ renderLines l ss

end

theorem renderBody_cons (l : Layout) (s : Stmt) (ss : List Stmt) :
    renderBody l (s :: ss) = "[\n" ++ renderLines l.enter (s :: ss) ++ l.indent ++ "]" := by
  simp [renderBody, renderLines, String.append_assoc]

def renderProgram (program : List Stmt) : String :=
  String.join (program.map (Stmt.render {}))

end ScriptFrontend
