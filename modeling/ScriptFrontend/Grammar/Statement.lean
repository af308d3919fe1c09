import ScriptFrontend.Grammar.Declaration
import ScriptFrontend.Text.Decimal

/-!
Statements, the functions that hold them, and programs.

As with expressions, each production takes the reader of the statements nested in it as a parameter.
A nested list starts behind the token that opens it, so the number of tokens ahead bounds the
nesting.  A program is statements and declarations up to the end of input: `Grammar.program` reads
them in one go, and a `Pull` hands them out one at a time.
-/

namespace ScriptFrontend

namespace Grammar

open ScriptFrontend.Parser

variable (g : Grammar)

/-- The number of loops that a jump leaves, if it says so. -/
def levels : Parser (Option UInt32) := do
  let t ← peek
  if t.kind = .number then
    match Text.Decimal.word? t.value.toList with
    | none => fail .loopDepth
    | some n =>
      skip
      return some n
  else
    return none

def printStmt : Parser Stmt := do
  let start ← here
  skip
  let value ← g.expression .lowest
  return .print (← spanFrom start) value

def raiseStmt : Parser Stmt := do
  let start ← here
  skip
  let value ← g.expression .lowest
  return .raise (← spanFrom start) value

/-- `return [expression]`; an expression right behind `return` is always its value. -/
def returnStmt : Parser Stmt := do
  let start ← here
  skip
  let value ← optional g.startsExpression (g.expression .lowest)
  return .return_ (← spanFrom start) value

def breakStmt : Parser Stmt := do
  let start ← here
  skip
  let n ← levels
  return .break_ (← spanFrom start) n

def continueStmt : Parser Stmt := do
  let start ← here
  skip
  let n ← levels
  return .continue_ (← spanFrom start) n

def gotoStmt : Parser Stmt := do
  let start ← here
  skip
  let label ← g.identifier
  return .goto (← spanFrom start) label

def labelStmt : Parser Stmt := do
  let start ← here
  skip
  let name ← g.identifier
  return .label (← spanFrom start) name

def globalStmt : Parser Stmt := do
  let start ← here
  skip
  let names ← separated (.mark .comma) g.identifier
  return .global (← spanFrom start) names

/-- `[ statement* [end] ]` -/
def body (nested : Parser (List Stmt)) : Parser (List Stmt) := do
  require (.mark .openBracket)
  let statements ← nested
  skipIf (.keyword .end_)
  require (.mark .closeBracket)
  return statements

def blockStmt (nested : Parser (List Stmt)) : Parser Stmt := do
  let start ← here
  skip
  let statements ← nested
  require (.keyword .end_)
  return .block (← spanFrom start) statements

def elifBranch (nested : Parser (List Stmt)) : Parser (Expr × List Stmt) := do
  skip
  let condition ← g.expression .lowest
  let statements ← body nested
  return (condition, statements)

/-- `if expression body (elif expression body)* [else body]` -/
def ifStmt (nested : Parser (List Stmt)) : Parser Stmt := do
  let start ← here
  skip
  let condition ← g.expression .lowest
  let statements ← body nested
  let branches ← many (· = .keyword .elif) (g.elifBranch nested)
  let last ← after? (.keyword .else_) (body nested)
  let chain := branches.foldr (fun b => .elif b.1 b.2) ((last.map .otherwise).getD .done)
  return .if_ (← spanFrom start) condition statements chain

def whileStmt (nested : Parser (List Stmt)) : Parser Stmt := do
  let start ← here
  skip
  let condition ← g.expression .lowest
  let statements ← body nested
  return .while_ (← spanFrom start) condition statements

/-- `foreach [*] name in expression body` -/
def foreachStmt (nested : Parser (List Stmt)) : Parser Stmt := do
  let start ← here
  skip
  let byReference ← accept (.mark .star)
  let name ← g.identifier
  require (.keyword .in_)
  let iterable ← g.expression .lowest
  let statements ← body nested
  return .foreach (← spanFrom start) name byReference iterable statements

/-- `def [*] name parameters body` -/
def defDecl (nested : Parser (List Stmt)) : Parser Stmt := do
  let start ← here
  require (.keyword .def_)
  let byReference ← accept (.mark .star)
  let name ← g.identifier
  let ps ← g.parameters
  let statements ← body nested
  return .def_ (← spanFrom start) name byReference ps statements

def statementOf (nested : Parser (List Stmt)) : StatementRule → Parser Stmt
  | .print => g.printStmt
  | .raise => g.raiseStmt
  | .return_ => g.returnStmt
  | .break_ => breakStmt
  | .continue_ => continueStmt
  | .goto => g.gotoStmt
  | .label => g.labelStmt
  | .global => g.globalStmt
  | .block => blockStmt nested
  | .if_ => g.ifStmt nested
  | .while_ => g.whileStmt nested
  | .foreach => g.foreachStmt nested
  | .def_ => g.defDecl nested
  | .class_ => g.classDecl
  | .module_ => g.moduleDecl
  | .open_ => g.openDecl
  | .const => g.constDecl

def expressionStmt : Parser Stmt := do
  let e ← g.expression .lowest
  return .expr e.span e

/-- A statement that may stand anywhere: the one that the current token starts, or an expression. -/
def statementWith (nested : Parser (List Stmt)) : Parser Stmt := do
  match g.statementRule (← peek).kind with
  | some rule => g.statementOf nested rule
  | none => g.expressionStmt

def innerWith (nested : Parser (List Stmt)) : Parser Stmt := do
  let k := (← peek).kind
  if g.startsStatement k then
    g.statementWith nested
  else if k = .keyword .def_ then
    g.defDecl nested
  else if k.startsClass then
    g.classDecl
  else
    fail .statement

def topWith (nested : Parser (List Stmt)) : Parser Stmt := do
  let k := (← peek).kind
  if g.startsStatement k then
    g.statementWith nested
  else if k.startsClass then
    g.classDecl
  else
    match k with
    | .keyword .def_ => g.defDecl nested
    | .keyword .module_ => g.moduleDecl
    | .keyword .open_ => g.openDecl
    | .keyword .const => g.constDecl
    | _ => fail .statement

/-- A statement of a body is read alike as a statement of a program. -/
theorem topWith_eq_innerWith {nested : Parser (List Stmt)} {c : Cursor}
    (h : g.startsInner c.current.kind = true) : g.topWith nested c = g.innerWith nested c := by
  show (if g.startsStatement c.current.kind then _ else _ : Parser Stmt) c =
    (if g.startsStatement c.current.kind then _ else _ : Parser Stmt) c
  by_cases hs : g.startsStatement c.current.kind = true
  · rw [if_pos hs, if_pos hs]
  · rw [if_neg hs, if_neg hs]
    by_cases hdef : c.current.kind = .keyword .def_
    · simp [hdef, Kind.startsClass]
    · have hclass : c.current.kind.startsClass = true := by
        simpa [startsInner, hs, hdef] using h
      rw [if_pos hclass, if_neg hdef, if_pos hclass]

/-- The statements of a body, nested at most so many levels deep. -/
def statementsUpTo : Nat → Parser (List Stmt)
  | 0 => pure []
  | depth + 1 => many g.startsInner (g.innerWith (statementsUpTo depth))

def statements : Parser (List Stmt) := fun c =>
  g.statementsUpTo (c.rest.length + 1) c

def statement : Parser Stmt :=
  g.statementWith g.statements

def inner : Parser Stmt :=
  g.innerWith g.statements

def top : Parser Stmt :=
  g.topWith g.statements

end Grammar

/-! ### Programs -/

open ScriptFrontend.Parser

namespace Grammar

variable (g : Grammar)

/-- Everything up to the end of input, which must come where no statement starts. -/
def program : Parser (List Stmt) := do
  let statements ← many g.startsTop g.top
  if (← peek).kind = .endOfInput then
    return statements
  else
    fail .statement

def parse (tokens : List Token) : Except SyntaxError (List Stmt) :=
  match g.program (Cursor.ofTokens tokens) with
  | .ok statements _ => .ok statements
  | .error e _ => .error e

end Grammar

/-- What is left of a program that is read one statement at a time. -/
structure Pull where
  cursor : Cursor
  finished : Bool := false
  deriving DecidableEq, Repr

/-- The next statement, or the error that ends the program; nothing once it has ended. -/
def Pull.next (g : Grammar) (p : Pull) : Option (Except SyntaxError Stmt) × Pull :=
  if p.finished then
    (none, p)
  else if g.startsTop p.cursor.current.kind then
    match g.top p.cursor with
    | .ok s c => (some (.ok s), ⟨c, false⟩)
    | .error e c => (some (.error e), ⟨c, true⟩)
  else if p.cursor.current.kind = .endOfInput then
    (none, ⟨p.cursor, true⟩)
  else
    (some (.error ⟨.statement, p.cursor.current⟩), ⟨p.cursor, true⟩)

end ScriptFrontend
