import ScriptFrontend.Grammar.Statement
import ScriptFrontend.Scope.Analysis
import ScriptFrontend.Syntax.Render
import ScriptFrontend.Token.Scanner

/-!
The whole front end: from source text to canonical text.

The phases run one after the other and the first fault ends the run, with the source attached to it.
Whoever runs them hears of each phase that succeeds.  A written name may be an alias of another one:
an alias given twice stands for what it was given last, and a name that is no alias for itself.
-/

namespace ScriptFrontend

/-- Pairs of an alias and what it stands for, in the order in which they were given. -/
abbrev Aliases := List (String × String)

namespace Aliases

def resolve (as : Aliases) (name : String) : String :=
  (as.reverse.lookup name).getD name

@[simp] theorem resolve_nil (name : String) : resolve [] name = name := rfl

end Aliases

def parseTokens (source : String) (tokens : List Token) (aliases : Aliases := []) :
    Except Diagnostic (List Stmt) :=
  ((Grammar.standard aliases.resolve).parse tokens).mapError (·.toDiagnostic source)

def analyzeSource (source : String) (program : List Stmt) : Except Diagnostic Scope :=
  (analyze program).mapError (·.withSource source)

def canonicalText (source : String) (tokens : List Token) (aliases : Aliases := []) :
    Except Diagnostic String := do
  let program ← parseTokens source tokens aliases
  discard (analyzeSource source program)
  return renderProgram program

inductive Phase
  | tokenized
  | parsed
  | analyzed
  deriving DecidableEq, Repr

/-- Runs the phases on a source and tells `done` of each that succeeds. -/
def frontEnd {m : Type → Type} [Monad m] (done : Phase → m Unit) (source file : String) :
    m (Except Diagnostic String) := do
  match tokenize source file with
  | .error d => return .error d
  | .ok tokens =>
    done .tokenized
    match parseTokens source tokens with
    | .error d => return .error d
    | .ok program =>
      done .parsed
      match analyzeSource source program with
      | .error d => return .error d
      | .ok _ =>
        done .analyzed
        return .ok (renderProgram program)

end ScriptFrontend
