import ScriptFrontend.Text.Bytes

/-!
Places in a source text.

A position knows its byte offset, its line and its column.  Reading a character moves all three at
once, so every position that the scanner reports comes from `Position.after` on the text before it.
-/

namespace ScriptFrontend

/-- A place in a named file: byte offset from 0, line from 1, column in characters from 1. -/
structure Position where
  offset : Nat
  line : Nat
  column : Nat
  file : String
  deriving DecidableEq, Repr

namespace Position

def first (file : String) : Position :=
  ⟨0, 1, 1, file⟩

def nowhere : Position :=
  ⟨0, 0, 0, "<null>"⟩

/-- The place after one more character; only a line feed starts a line. -/
def step (p : Position) (c : Char) : Position :=
  if c = '\n' then
    { p with offset := p.offset + c.utf8Size, line := p.line + 1, column := 1 }
  else
    { p with offset := p.offset + c.utf8Size, column := p.column + 1 }

def after (p : Position) (cs : List Char) : Position :=
  cs.foldl step p

@[simp] theorem after_nil (p : Position) : p.after [] = p := rfl

@[simp] theorem after_cons (p : Position) (c : Char) (cs : List Char) :
    p.after (c :: cs) = (p.step c).after cs := rfl

theorem after_append (p : Position) (s t : List Char) :
    p.after (s ++ t) = (p.after s).after t := by
  simp [after]

theorem offset_step (p : Position) (c : Char) : (p.step c).offset = p.offset + c.utf8Size := by
  unfold step
  split <;> rfl

theorem offset_after (p : Position) (cs : List Char) :
    (p.after cs).offset = p.offset + Text.byteLength cs := by
  induction cs generalizing p with
  | nil => rfl
  | cons c cs ih => simp [ih, offset_step, Text.byteLength, Nat.add_assoc]

def render (p : Position) : String :=
  p.file ++ ":" ++ toString p.line ++ ":" ++ toString p.column

end Position

/-- A stretch of a source, from the place before it to the place after it. -/
structure Span where
  start : Position
  stop : Position
  deriving DecidableEq, Repr

end ScriptFrontend
