import ScriptFrontend.Token.Basic

/-!
Lexemes: tokens without their places.

A lexeme keeps the value of a token only where the kind leaves the value open, so two tokens with
one lexeme are told apart by nothing that the grammar may look at.
-/

namespace ScriptFrontend

inductive Lexeme
  | endOfInput
  | number (digits : String)
  | text (value : String)
  | name (word : String)
  | mark (m : Mark)
  | keyword (k : Keyword)
  deriving DecidableEq, Repr

namespace Lexeme

def of : Kind → String → Lexeme
  | .endOfInput, _ => endOfInput
  | .number, value => number value
  | .text, value => text value
  | .identifier, value => name value
  | .mark m, _ => mark m
  | .keyword k, _ => keyword k

def kind : Lexeme → Kind
  | endOfInput => .endOfInput
  | number _ => .number
  | text _ => .text
  | name _ => .identifier
  | mark m => .mark m
  | keyword k => .keyword k

def value : Lexeme → String
  | endOfInput => "EOF"
  | number digits => digits
  | text value => value
  | name word => word
  | mark m => m.spelling
  | keyword k => k.spelling

def token (l : Lexeme) : Token :=
  ⟨l.kind, l.value, ⟨.nowhere, .nowhere⟩⟩

@[simp] theorem kind_of (k : Kind) (value : String) : (of k value).kind = k := by
  cases k <;> rfl

/-- The kind in front of some lexemes with another kind behind them. -/
def front (w : List Lexeme) (k : Kind) : Kind :=
  (w.head?.map kind).getD k

@[simp] theorem front_cons (l : Lexeme) (w : List Lexeme) (k : Kind) :
    front (l :: w) k = l.kind := rfl

theorem front_append (v w : List Lexeme) (k : Kind) :
    front (v ++ w) k = front v (front w k) := by
  cases v <;> rfl

theorem front_of_head? {w : List Lexeme} {l : Lexeme} (h : w.head? = some l) (k : Kind) :
    front w k = l.kind := by
  rw [front, h]; rfl

end Lexeme

namespace Token

def lexeme (t : Token) : Lexeme :=
  .of t.kind t.value

@[simp] theorem kind_lexeme (t : Token) : t.lexeme.kind = t.kind :=
  Lexeme.kind_of t.kind t.value

@[simp] theorem lexeme_token (l : Lexeme) : l.token.lexeme = l := by
  cases l <;> rfl

theorem lexeme_of_number {t : Token} (h : t.kind = .number) : t.lexeme = .number t.value := by
  rw [lexeme, h]; rfl

theorem lexeme_of_text {t : Token} (h : t.kind = .text) : t.lexeme = .text t.value := by
  rw [lexeme, h]; rfl

theorem lexeme_of_identifier {t : Token} (h : t.kind = .identifier) :
    t.lexeme = .name t.value := by
  rw [lexeme, h]; rfl

theorem lexeme_of_mark {t : Token} {m : Mark} (h : t.kind = .mark m) : t.lexeme = .mark m := by
  rw [lexeme, h]; rfl

theorem lexeme_of_keyword {t : Token} {k : Keyword} (h : t.kind = .keyword k) :
    t.lexeme = .keyword k := by
  rw [lexeme, h]; rfl

/-- The kind and the value of a token can be read off from its lexeme, the value as far as the kind
leaves it open. -/
theorem eq_of_lexeme_eq_number {t : Token} {digits : String} (h : t.lexeme = .number digits) :
    t.kind = .number ∧ t.value = digits := by
  cases hk : t.kind <;> simp [lexeme, Lexeme.of, hk] at h
  exact ⟨rfl, h⟩

theorem eq_of_lexeme_eq_text {t : Token} {value : String} (h : t.lexeme = .text value) :
    t.kind = .text ∧ t.value = value := by
  cases hk : t.kind <;> simp [lexeme, Lexeme.of, hk] at h
  exact ⟨rfl, h⟩

theorem eq_of_lexeme_eq_name {t : Token} {word : String} (h : t.lexeme = .name word) :
    t.kind = .identifier ∧ t.value = word := by
  cases hk : t.kind <;> simp [lexeme, Lexeme.of, hk] at h
  exact ⟨rfl, h⟩

theorem kind_of_lexeme_eq {t : Token} {l : Lexeme} (h : t.lexeme = l) : t.kind = l.kind := by
  rw [← kind_lexeme, h]

end Token

def Kind.lexeme (k : Kind) : Lexeme :=
  .of k k.name

@[simp] theorem Kind.kind_lexeme (k : Kind) : k.lexeme.kind = k :=
  Lexeme.kind_of k k.name

/-- The kinds that are always spelled in one way. -/
def Kind.Fixed : Kind → Prop
  | .mark _ | .keyword _ => True
  | _ => False

theorem Kind.Fixed.ne_endOfInput {k : Kind} (h : k.Fixed) : k ≠ .endOfInput := by
  rintro rfl
  exact h

theorem Token.lexeme_of_fixed {t : Token} {k : Kind} (hk : k.Fixed) (h : t.kind = k) :
    t.lexeme = k.lexeme := by
  subst h
  cases h : t.kind <;> rw [h] at hk
  case mark m => exact Token.lexeme_of_mark h
  case keyword k => exact Token.lexeme_of_keyword h
  all_goals exact hk.elim

end ScriptFrontend
