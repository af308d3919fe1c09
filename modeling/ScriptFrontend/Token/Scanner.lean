import ScriptFrontend.Diagnostic
import ScriptFrontend.Token.Rule

/-!
The scanner: a place in a source and the text that follows it, and what it reads.

The place and the text move together.  A byte count that does not end between two characters of
the text moves nothing.  To read a source the scanner applies the first rule that fits, again and
again, up to the end of the text or to a character where no rule fits.
-/

namespace ScriptFrontend

structure Scanner where
  position : Position
  rest : List Char
  deriving DecidableEq, Repr

namespace Scanner

def defaultFile : String :=
  "shell"

def ofSource (source : String) (file : String := defaultFile) : Scanner :=
  ⟨.first file, source.toList⟩

def skip (s : Scanner) (n : Nat) : Scanner :=
  ⟨s.position.after (s.rest.take n), s.rest.drop n⟩

/-- Moves past the next `n` bytes, if they are whole characters of the source. -/
def advance? (s : Scanner) (n : Nat) : Option Scanner :=
  (Text.charsInBytes? n s.rest).map s.skip

/-- The span of the next `n` bytes taken as part of one line, if they are whole characters. -/
def span? (s : Scanner) (n : Nat) : Option Span :=
  (Text.charsInBytes? n s.rest).map fun width =>
    ⟨s.position,
      { s.position with offset := s.position.offset + n, column := s.position.column + width }⟩

def front (s : Scanner) : Char :=
  s.rest.headD '\x00'

def atEnd (s : Scanner) : Bool :=
  s.rest.isEmpty

theorem skip_add (s : Scanner) (m n : Nat) : s.skip (m + n) = (s.skip m).skip n := by
  simp only [skip, List.take_add, Position.after_append, List.drop_drop]

theorem length_rest_skip_lt {s : Scanner} {n : Nat} (hs : s.rest ≠ []) (hn : 0 < n) :
    (s.skip n).rest.length < s.rest.length := by
  have := List.length_pos_iff.2 hs
  simp only [skip, List.length_drop]
  omega

def token? (s : Scanner) (r : Rule) (n : Nat) : Option Token :=
  (r.token? (s.rest.take n)).map fun (kind, value) =>
    ⟨kind, value, ⟨s.position, (s.skip n).position⟩⟩

def tokens (s : Scanner) : Except Diagnostic (List Token) :=
  if hs : s.rest = [] then
    .ok [.endOfInput s.position]
  else
    match hm : Rule.first? s.rest with
    | none => .error ⟨.unrecognised s.front.toString, s.position, none⟩
    | some (r, n) =>
      have := length_rest_skip_lt hs (Rule.first?_pos hm)
      (s.skip n).tokens.map ((s.token? r n).toList ++ ·)
termination_by s.rest.length

theorem tokens_nil {s : Scanner} (h : s.rest = []) : s.tokens = .ok [.endOfInput s.position] := by
  rw [tokens, dif_pos h]

theorem tokens_none {s : Scanner} (hs : s.rest ≠ []) (h : Rule.first? s.rest = none) :
    s.tokens = .error ⟨.unrecognised s.front.toString, s.position, none⟩ := by
  rw [tokens, dif_neg hs]
  split <;> simp_all

theorem tokens_some {s : Scanner} {r : Rule} {n : Nat} (hs : s.rest ≠ [])
    (h : Rule.first? s.rest = some (r, n)) :
    s.tokens = (s.skip n).tokens.map ((s.token? r n).toList ++ ·) := by
  rw [tokens, dif_neg hs]
  split <;> simp_all

end Scanner

def tokenize (source : String) (file : String := Scanner.defaultFile) :
    Except Diagnostic (List Token) :=
  (Scanner.ofSource source file).tokens.mapError (·.withSource source)

end ScriptFrontend
