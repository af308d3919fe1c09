import ScriptFrontend.Text.Escape
import ScriptFrontend.Token.Basic

/-!
What can be wrong with a program, the wording of it, and the report.

Every phase of the front end reports through `Diagnostic`: a cause, the place it was found at, and
the source if the phase had it at hand.  A report gives the cause, the file, and the line at fault with
a caret under it; the line is shown without the spaces it starts with, so the caret moves left by as
many columns.
-/

namespace ScriptFrontend

inductive Cause
  /-- No token starts here. -/
  | unrecognised (lexeme : String)
  /-- The grammar needs something else here. -/
  | unexpected (expected found : String)
  /-- A scope holds each name once. -/
  | alreadyDeclared (name : String)
  /-- A jump stays within the scope that it starts in. -/
  | undefinedLabel (label : String)
  /-- Only the last parameter may collect the remaining arguments. -/
  | variadicNotLast (parameter : String)
  | duplicateParameter (parameter : String)
  deriving DecidableEq, Repr

namespace Cause

def name : Cause → String
  | unrecognised _ => "UnrecognisedToken"
  | unexpected _ _ => "UnexpectedToken"
  | alreadyDeclared _ => "SymbolAlreadyDeclared"
  | undefinedLabel _ => "UndefinedLabel"
  | variadicNotLast _ => "VariadicNotLast"
  | duplicateParameter _ => "DuplicateParameter"

/-- The cause in one line, with lexemes quoted. -/
def message : Cause → String
  | unrecognised lexeme => "unrecognised token: " ++ Text.quoted lexeme
  | unexpected expected found =>
    "syntax error: expected " ++ expected ++ ", found " ++ Text.quoted found
  | alreadyDeclared name => "symbol " ++ Text.quoted name ++ " already declared"
  | undefinedLabel label => "label " ++ Text.quoted label ++ " not declared"
  | variadicNotLast parameter =>
    "variadic parameter " ++ Text.quoted parameter ++ " is not the last parameter"
  | duplicateParameter parameter =>
    "parameter " ++ Text.quoted parameter ++ " declared more than once"

/-- What to tell the author beside the name of the cause, with lexemes as they are. -/
def tip? : Cause → Option String
  | unrecognised _ => none
  | unexpected expected found => some ("expected `" ++ expected ++ "`, found `" ++ found ++ "`")
  | alreadyDeclared name => some ("`" ++ name ++ "` is already declared in this scope")
  | undefinedLabel label => some ("no label `" ++ label ++ "` in this scope")
  | variadicNotLast parameter =>
    some ("variadic parameter `" ++ parameter ++ "` must be the last parameter")
  | duplicateParameter parameter => some ("parameter `" ++ parameter ++ "` is declared twice")

def expected? : Cause → Option String
  | unexpected expected _ => some expected
  | _ => none

def found? : Cause → Option String
  | unexpected _ found => some found
  | _ => none

def isSyntax : Cause → Bool
  | unexpected _ _ => true
  | _ => false

end Cause

structure Diagnostic where
  cause : Cause
  position : Position
  source : Option String := none
  deriving DecidableEq, Repr

namespace Diagnostic

def unexpectedToken (expected : String) (found : Token) (source : String) : Diagnostic :=
  ⟨.unexpected expected found.value, found.span.start, some source⟩

def withSource (d : Diagnostic) (source : String) : Diagnostic :=
  { d with source := some source }

def message (d : Diagnostic) : String :=
  d.cause.message ++ " at " ++ d.position.render

/-! ### Reports -/

/-- A mark at the right end of a field of the given width. -/
def flushRight (width : Nat) (fill : Char) (mark : Char) : List Char :=
  List.replicate (width - 1) fill ++ [mark]

/-- The line of a place with a caret under the place. -/
def excerpt (place : Text.LinePlace) : List Char :=
  let number := (toString place.number).toList
  let margin := number.length + 2
  let spaces := (place.text.takeWhile (· = ' ')).length
  let shown := Text.trimEnd (place.text.drop spaces)
  flushRight margin ' ' '|' ++ ['\n'] ++
    number ++ [' ', '|', ' '] ++ shown ++ ['\n'] ++
    flushRight margin ' ' '|' ++ [' '] ++
    flushRight (place.offset - spaces + 1) '-' '^' ++ ['\n']

def excerpt? (d : Diagnostic) : Option (List Char) := do
  let source ← d.source
  let place ← Text.lineAt? source.toList d.position.offset
  return excerpt place

def headline (d : Diagnostic) : String :=
  match d.cause.tip? with
  | none => "Error: " ++ d.cause.name ++ "\n"
  | some tip => "Error: " ++ d.cause.name ++ " (" ++ tip ++ ")\n"

def report (d : Diagnostic) (path : String) : String :=
  d.headline ++ "-> " ++ path ++ "\n" ++ String.ofList ((d.excerpt?).getD [])

end Diagnostic

end ScriptFrontend
