import ScriptFrontend.Grammar.Expression
import ScriptFrontend.Syntax.Tree

/-!
Declarations that hold no statements: modules, opened modules, constants and classes, and the
parameters of functions and methods.
-/

namespace ScriptFrontend

namespace Grammar

open ScriptFrontend.Parser

variable (g : Grammar)

/-- A name, as what it stands for. -/
def identifier : Parser String := do
  let t ← expect .identifier
  return g.resolve t.value

/-- `name (. name)*`; each segment stands for something of its own. -/
def qualifiedName : Parser (List String) :=
  separated (.mark .dot) g.identifier

def parameter : Parser Parameter := do
  let start ← here
  let variadic ← accept (.mark .ellipsis)
  let byReference ← accept (.mark .star)
  let name ← g.identifier
  return ⟨name, byReference, variadic, ← spanFrom start⟩

def parameterList (separator : Mark) : Parser (List Parameter) := do
  let ps ← optional Kind.startsParameter (separated (.mark separator) g.parameter)
  return ps.getD []

/-- `!`, or `[ [parameter (; parameter)*] ]` -/
def parameters : Parser (List Parameter) := do
  if ← accept (.mark .bang) then
    return []
  require (.mark .openBracket)
  let ps ← g.parameterList .semicolon
  require (.mark .closeBracket)
  return ps

/-- `[rec] [*] name ( [parameter (, parameter)*] )` -/
def signature : Parser Signature := do
  let start ← here
  let recursive ← accept (.keyword .rec_)
  let byReference ← accept (.mark .star)
  let name ← g.identifier
  require (.mark .openParen)
  let ps ← g.parameterList .comma
  require (.mark .closeParen)
  return ⟨name, recursive, byReference, ps, ← spanFrom start⟩

def classCategory : Parser ClassCategory := do
  match ClassCategory.ofKind? (← peek).kind with
  | none => fail .classCategory
  | some category =>
    skip
    return category

/-- `name (; [#] name)*` behind the first `#`. -/
def interfaces : Parser (List String) := do
  let first ← g.identifier
  let others ← many (· = .mark .semicolon) do
    skip
    skipIf (.mark .hash)
    g.identifier
  return first :: others

/-- `[native] class|model|final name [: name] [# interfaces] signature* end` -/
def classDecl : Parser Stmt := do
  let start ← here
  let native ← accept (.keyword .native)
  let category ← classCategory
  let name ← g.identifier
  let base ← after? (.mark .colon) g.identifier
  let interfaces ← after? (.mark .hash) g.interfaces
  let signatures ← many Kind.startsSignature g.signature
  require (.keyword .end_)
  let span ← spanFrom start
  return .class_ span ⟨category, name, base, interfaces.getD [], signatures, native⟩

def moduleDecl : Parser Stmt := do
  let start ← here
  require (.keyword .module_)
  let segments ← g.qualifiedName
  return .module_ (← spanFrom start) segments

def openDecl : Parser Stmt := do
  let start ← here
  require (.keyword .open_)
  let segments ← g.qualifiedName
  let rename ← after? (.keyword .as_) g.identifier
  return .open_ (← spanFrom start) segments rename

def staticScalar : Parser Expr := do
  if (← peek).kind.isStaticScalar then g.primary else fail .staticScalar

def constDecl : Parser Stmt := do
  let start ← here
  require (.keyword .const)
  let name ← g.identifier
  require (.mark .bind)
  let value ← g.staticScalar
  return .const (← spanFrom start) name value

end Grammar

end ScriptFrontend
