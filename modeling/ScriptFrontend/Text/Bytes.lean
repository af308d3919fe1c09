/-!
A text in bytes of UTF-8, and in lines.

Offsets in a source are byte offsets, while the text itself is read character by character.  The
one question that needs care is which byte counts end between two characters.

A line includes the line feed that ends it.  The end of the text counts as a place too: it is on the
last line if that one is unterminated, and otherwise on an empty line of its own.
-/

namespace ScriptFrontend.Text

def byteLength : List Char → Nat
  | [] => 0
  | c :: cs => c.utf8Size + byteLength cs

@[simp] theorem byteLength_append (s t : List Char) :
    byteLength (s ++ t) = byteLength s + byteLength t := by
  induction s with
  | nil => simp [byteLength]
  | cons c s ih => simp [byteLength, ih, Nat.add_assoc]

/-- How many leading characters take exactly `n` bytes, if some number of them does. -/
def charsInBytes? : Nat → List Char → Option Nat
  | 0, _ => some 0
  | _ + 1, [] => none
  | n + 1, c :: cs =>
    if c.utf8Size ≤ n + 1 then (charsInBytes? (n + 1 - c.utf8Size) cs).map (· + 1) else none

theorem byteLength_take_of_charsInBytes? {n k : Nat} {cs : List Char}
    (h : charsInBytes? n cs = some k) : byteLength (cs.take k) = n := by
  fun_induction charsInBytes? n cs generalizing k with
  | case1 =>
    cases h
    rfl
  | case2 => simp at h
  | case3 n c cs hc ih =>
    obtain ⟨j, hj, rfl⟩ := Option.map_eq_some_iff.1 h
    simp only [List.take_succ_cons, byteLength, ih hj]
    omega
  | case4 => simp at h

/-! ### Lines -/

def lines : List Char → List (List Char)
  | [] => []
  | c :: cs =>
    if c = '\n' then
      [c] :: lines cs
    else
      match lines cs with
      | [] => [[c]]
      | l :: ls => (c :: l) :: ls

theorem flatten_lines (cs : List Char) : (lines cs).flatten = cs := by
  induction cs with
  | nil => rfl
  | cons c cs ih =>
    unfold lines
    split
    · simp [ih]
    · split
      next h =>
        rw [h] at ih
        simp [← ih]
      next l ls h =>
        rw [h] at ih
        simpa using ih

structure LinePlace where
  /-- Counted from 1. -/
  number : Nat
  text : List Char
  /-- The bytes of the line that stand before the place. -/
  offset : Nat
  deriving DecidableEq, Repr

/-- The place `offset` bytes into the lines `ls`, the first of which has the given number. -/
def placeInLines (number offset : Nat) : List (List Char) → LinePlace
  | [] => ⟨number, [], 0⟩
  | l :: ls =>
    if offset < byteLength l ∨ (ls = [] ∧ l.getLast? ≠ some '\n') then
      ⟨number, l, offset⟩
    else
      placeInLines (number + 1) (offset - byteLength l) ls

/-- The line that holds a byte offset; none if the offset is past the end of the text. -/
def lineAt? (cs : List Char) (offset : Nat) : Option LinePlace :=
  if byteLength cs < offset then none else some (placeInLines 1 offset (lines cs))

theorem lineAt?_eq_none_iff {cs : List Char} {offset : Nat} :
    lineAt? cs offset = none ↔ byteLength cs < offset := by
  simp [lineAt?]

end ScriptFrontend.Text
