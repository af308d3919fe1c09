import ScriptFrontend.Scope.Basic
import ScriptFrontend.Syntax.Tree

/-!
Frames and their analysis.

A frame is the statements that share one scope: those of a module, or the parameters and the body of a
function.  Blocks, branches and loops belong to the frame around them; functions and classes are
frames of their own.

A program is well scoped if every frame declares each of its names and labels once, every jump names
a label of its own frame, and the parameters of every function can be told apart.  The first fault
in the order of the passes is reported: all declarations of a frame come before its jumps.
-/

namespace ScriptFrontend

mutual

/-- What a statement declares in its own frame, in the order of the text. -/
def Stmt.declarations : Stmt → List Declaration
  | .block _ body => declarationsOf body
  | .const span name _ => [.symbol name .constant span.start]
  | .def_ span name _ _ _ => [.symbol name .function span.start]
  | .foreach _ _ _ _ body => declarationsOf body
  | .global span names => names.map (.symbol · .global span.start)
  | .if_ _ _ body chain => declarationsOf body ++ chain.declarations
  | .label span name => [.label name span.start]
  | .module_ span segments => [.symbol (qualified segments) .module_ span.start]
  | .open_ span segments rename =>
    [.symbol (localName segments rename) (.opened (qualified segments)) span.start]
  | .while_ _ _ body => declarationsOf body
  | .break_ _ _ => []
  | .class_ _ _ => []
  | .continue_ _ _ => []
  | .expr _ _ => []
  | .goto _ _ => []
  | .print _ _ => []
  | .raise _ _ => []
  | .return_ _ _ => []

def ElseChain.declarations : ElseChain → List Declaration
  | .done => []
  | .elif _ body chain => declarationsOf body ++ chain.declarations
  | .otherwise body => declarationsOf body

def declarationsOf : List Stmt → List Declaration
  | [] => []
  | s :: ss => s.declarations ++ declarationsOf ss

end

def Parameter.declaration (p : Parameter) : Declaration :=
  .symbol p.name .parameter p.span.start

/-! ### The checks -/

/-- Whether the parameters can be told apart and at most the last one is variadic; `seen` holds the
names before them. -/
def checkParametersAfter (seen : List String) : List Parameter → Except Diagnostic Unit
  | [] => .ok ()
  | p :: ps =>
    if p.variadic && !ps.isEmpty then
      .error ⟨.variadicNotLast p.name, p.span.start, none⟩
    else if seen.contains p.name then
      .error ⟨.duplicateParameter p.name, p.span.start, none⟩
    else
      checkParametersAfter (p.name :: seen) ps

def checkParameters (ps : List Parameter) : Except Diagnostic Unit :=
  checkParametersAfter [] ps

def frameScope (parameters : List Parameter) (body : List Stmt) : Except Diagnostic Scope :=
  let (scope, outcome) :=
    Scope.declareAll {} (parameters.map Parameter.declaration ++ declarationsOf body)
  outcome.map fun _ => scope

mutual

def Stmt.check (scope : Scope) : Stmt → Except Diagnostic Unit
  | .block _ body => checkEach scope body
  | .def_ _ _ _ parameters body => do
    checkParameters parameters
    let frame ← frameScope parameters body
    checkEach frame body
  | .foreach _ _ _ _ body => checkEach scope body
  | .goto span label =>
    if scope.hasLabel label then .ok () else .error ⟨.undefinedLabel label, span.start, none⟩
  | .if_ _ _ body chain => do
    checkEach scope body
    chain.check scope
  | .while_ _ _ body => checkEach scope body
  | .break_ _ _ => .ok ()
  | .class_ _ _ => .ok ()
  | .const _ _ _ => .ok ()
  | .continue_ _ _ => .ok ()
  | .expr _ _ => .ok ()
  | .global _ _ => .ok ()
  | .label _ _ => .ok ()
  | .module_ _ _ => .ok ()
  | .open_ _ _ _ => .ok ()
  | .print _ _ => .ok ()
  | .raise _ _ => .ok ()
  | .return_ _ _ => .ok ()

def ElseChain.check (scope : Scope) : ElseChain → Except Diagnostic Unit
  | .done => .ok ()
  | .elif _ body chain => do
    checkEach scope body
    chain.check scope
  | .otherwise body => checkEach scope body

def checkEach (scope : Scope) : List Stmt → Except Diagnostic Unit
  | [] => .ok ()
  | s :: ss => do
    s.check scope
    checkEach scope ss

end

def analyze (program : List Stmt) : Except Diagnostic Scope := do
  let scope ← frameScope [] program
  checkEach scope program
  return scope

end ScriptFrontend
