import ScriptFrontend.Diagnostic

/-!
Productions as programs that move a cursor.

A cursor is a token list with a place in it.  It always rests on a token and does not leave the last
one, so no production can run past the end of its input.  A production yields a value or a syntax
error, and the cursor stays where the production left it in both cases.  There is no way back: what is
consumed stays consumed.
-/

namespace ScriptFrontend

structure Cursor where
  /-- The tokens before the current one, the nearest first. -/
  consumed : List Token
  current : Token
  rest : List Token
  deriving DecidableEq, Repr

namespace Cursor

/-- What a token list needs after it to end with the end of input. -/
def closing (last : Token) : List Token :=
  if last.kind = .endOfInput then [] else [.endOfInput last.span.stop]

/-- A cursor on the first token of a list, which is closed if it is open. -/
def ofTokens : List Token → Cursor
  | [] => ⟨[], .endOfInput .nowhere, []⟩
  | t :: ts => ⟨[], t, ts ++ closing ((t :: ts).getLast (List.cons_ne_nil t ts))⟩

def tokens (c : Cursor) : List Token :=
  c.consumed.reverse ++ c.current :: c.rest

def advance (c : Cursor) : Cursor :=
  match c.rest with
  | [] => c
  | t :: ts => ⟨c.current :: c.consumed, t, ts⟩

def start (c : Cursor) : Position :=
  c.current.span.start

def previousEnd (c : Cursor) : Position :=
  match c.consumed with
  | [] => c.start
  | t :: _ => t.span.stop

end Cursor

/-! ### Productions -/

inductive Expected
  | kind (k : Kind)
  | expression
  | operator
  | statement
  | classCategory
  | staticScalar
  | loopDepth
  deriving DecidableEq, Repr

def Expected.text : Expected → String
  | kind k => k.name
  | expression => "expression"
  | operator => "operator"
  | statement => "statement"
  | classCategory => "class"
  | staticScalar => "static scalar"
  | loopDepth => "loop depth"

structure SyntaxError where
  expected : Expected
  found : Token
  deriving DecidableEq, Repr

def SyntaxError.toDiagnostic (e : SyntaxError) (source : String) : Diagnostic :=
  .unexpectedToken e.expected.text e.found source

abbrev Parser := EStateM SyntaxError Cursor

namespace Parser

def peek : Parser Token := fun c => .ok c.current c

def advance : Parser Token := fun c => .ok c.current c.advance

def skip : Parser Unit := fun c => .ok () c.advance

def fail {α : Type} (expected : Expected) : Parser α := fun c =>
  .error ⟨expected, c.current⟩ c

/-- Consumes the current token if it is of a kind, and says whether it was. -/
def accept (k : Kind) : Parser Bool := fun c =>
  if c.current.kind = k then .ok true c.advance else .ok false c

def expect (k : Kind) : Parser Token := fun c =>
  if c.current.kind = k then .ok c.current c.advance else .error ⟨.kind k, c.current⟩ c

def require (k : Kind) : Parser Unit := fun c =>
  if c.current.kind = k then .ok () c.advance else .error ⟨.kind k, c.current⟩ c

def skipIf (k : Kind) : Parser Unit := fun c =>
  .ok () (if c.current.kind = k then c.advance else c)

def here : Parser Position := fun c => .ok c.start c

def spanFrom (start : Position) : Parser Span := fun c => .ok ⟨start, c.previousEnd⟩ c

/-- Runs a production as long as the current kind can start it.  A production that consumes nothing
runs once. -/
def many {α : Type} (starts : Kind → Bool) (p : Parser α) : Parser (List α) := fun c =>
  if starts c.current.kind then
    match p c with
    | .error e c' => .error e c'
    | .ok a c' =>
      if c'.rest.length < c.rest.length then
        match many starts p c' with
        | .error e c'' => .error e c''
        | .ok as c'' => .ok (a :: as) c''
      else
        .ok [a] c'
  else
    .ok [] c
termination_by c => c.rest.length

/-- Induction over the rounds of a loop, each of which leaves fewer tokens ahead. -/
@[elab_as_elim]
theorem induction_rounds (starts : Kind → Bool) {motive : Cursor → Prop}
    (stop : ∀ c : Cursor, starts c.current.kind = false → motive c)
    (round : ∀ c : Cursor, starts c.current.kind = true →
      (∀ d : Cursor, d.rest.length < c.rest.length → motive d) → motive c) (c : Cursor) :
    motive c := by
  induction hn : c.rest.length using Nat.strongRecOn generalizing c with
  | ind n ih =>
      cases hst : starts c.current.kind with
      | false => exact stop c hst
      | true => exact round c hst fun d hlt => ih _ (hn ▸ hlt) d rfl

theorem many_of_not {α : Type} {starts : Kind → Bool} {p : Parser α} {c : Cursor}
    (h : starts c.current.kind = false) : many starts p c = .ok [] c := by
  rw [many, h]
  rfl

theorem starts_of_many_error {α : Type} {starts : Kind → Bool} {p : Parser α} {c c' : Cursor}
    {e : SyntaxError} (h : many starts p c = .error e c') : starts c.current.kind = true := by
  rw [← Bool.not_eq_false]
  intro hnot
  rw [many_of_not hnot] at h
  cases h

theorem many_of_error {α : Type} {starts : Kind → Bool} {p : Parser α} {c c' : Cursor}
    {e : SyntaxError} (h : starts c.current.kind = true) (hp : p c = .error e c') :
    many starts p c = .error e c' := by
  rw [many, h, hp]
  rfl

theorem many_of_ok {α : Type} {starts : Kind → Bool} {p : Parser α} {c c' : Cursor} {a : α}
    (h : starts c.current.kind = true) (hp : p c = .ok a c')
    (hc : c'.rest.length < c.rest.length) :
    many starts p c = ((a :: ·) <$> many starts p) c' := by
  rw [many, h, hp]
  simp only [if_true, if_pos hc, Functor.map, EStateM.map]
  split <;> rename_i h' <;> simp [h']

def optional {α : Type} (starts : Kind → Bool) (p : Parser α) : Parser (Option α) := fun c =>
  if starts c.current.kind then (some <$> p) c else .ok none c

def separated {α : Type} (separator : Kind) (item : Parser α) : Parser (List α) := do
  let first ← item
  let others ← many (· = separator) do
    skip
    item
  return first :: others

/-- An item after a token that announces it, if that token is there. -/
def after? {α : Type} (k : Kind) (item : Parser α) : Parser (Option α) :=
  optional (· = k) do
    skip
    item

end Parser

end ScriptFrontend
