import ScriptFrontend.Text.Character
import ScriptFrontend.Text.Escape
import ScriptFrontend.Token.Basic

/-!
The lexical rules.

Each rule says how many characters it takes from the front of a text, and what token it makes of
them.  They are tried in the order of `Rule.all` and the first one that takes something wins, so the
scanner makes progress because no rule takes nothing.
-/

namespace ScriptFrontend

inductive Rule
  | word
  | number
  | blank
  | text
  | comment
  | mark (m : Mark)
  deriving DecidableEq, Repr

namespace Rule

def all : List Rule :=
  [word, number, blank, text, comment] ++ Mark.all.map mark

def isWordStart (c : Char) : Bool :=
  c.isAlpha || c == '_'

def isWordPart (c : Char) : Bool :=
  c.isAlphanum || c == '_'

def run (p : Char → Bool) (cs : List Char) : Nat :=
  (cs.takeWhile p).length

/-- A fraction needs a digit on both sides of its point. -/
def fraction : List Char → Nat
  | '.' :: c :: cs => if c.isDigit then 2 + run Char.isDigit cs else 0
  | _ => 0

/-- How many characters the rule takes from the front of a text, if it applies there. -/
def reach? : Rule → List Char → Option Nat
  | word, c :: cs => if isWordStart c then some (1 + run isWordPart cs) else none
  | number, c :: cs =>
    if c.isDigit then
      some (1 + run Char.isDigit cs + fraction (cs.drop (run Char.isDigit cs)))
    else
      none
  | blank, c :: cs => if Text.isBlank c then some (1 + run Text.isBlank cs) else none
  | text, '"' :: cs => (Text.Escape.closing? cs).map (· + 2)
  | comment, '/' :: '/' :: cs => some (2 + run (· ≠ '\n') cs)
  | mark m, cs => if m.spelling.toList.isPrefixOf cs then some m.spelling.length else none
  | _, _ => none

/-- The kind and the value of the token that a rule makes of what it took; none for what lies
between tokens. -/
def token? : Rule → List Char → Option (Kind × String)
  | word, lexeme =>
    let w := String.ofList lexeme
    match Keyword.ofWord? w with
    | some k => some (.keyword k, w)
    | none => some (.identifier, w)
  | number, lexeme => some (.number, String.ofList lexeme)
  | blank, _ => none
  | text, lexeme => some (.text, String.ofList (Text.Escape.decode lexeme.tail.dropLast))
  | comment, _ => none
  | mark m, _ => some (.mark m, m.spelling)

def first? (cs : List Char) : Option (Rule × Nat) :=
  all.findSome? fun r => (r.reach? cs).map (r, ·)

theorem reach?_pos {r : Rule} {cs : List Char} {n : Nat} (h : r.reach? cs = some n) : 0 < n := by
  unfold reach? at h
  split at h
  case h_6 m =>
    have := m.spelling_length_pos
    split at h <;> simp at h
    omega
  all_goals (try split at h) <;> simp at h <;> omega

theorem first?_pos {cs : List Char} {r : Rule} {n : Nat} (h : first? cs = some (r, n)) : 0 < n := by
  obtain ⟨r', _, h'⟩ := List.exists_of_findSome?_eq_some h
  obtain ⟨k, hk, he⟩ := Option.map_eq_some_iff.1 h'
  cases he
  exact reach?_pos hk

end Rule

end ScriptFrontend
