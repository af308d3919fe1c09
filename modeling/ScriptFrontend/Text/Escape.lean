import ScriptFrontend.Text.Character

/-!
Texts between quotation marks: the inside of a string literal, and lexemes as messages show them.

`Escape.encode` writes the characters that a literal cannot hold as a backslash and a letter, and
`Escape.decode` reads them back; `Escape.closing?` finds the quotation mark that ends a literal.  The
obligation is that what is written is read back unchanged.

A message shows a name or a lexeme on one line, with every character that a reader could not see
written out.
-/

namespace ScriptFrontend.Text.Escape

def letter? : Char → Option Char
  | '\n' => some 'n'
  | '\t' => some 't'
  | '\r' => some 'r'
  | '\x00' => some '0'
  | '\\' => some '\\'
  | '"' => some '"'
  | _ => none

def meaning? : Char → Option Char
  | 'n' => some '\n'
  | 't' => some '\t'
  | 'r' => some '\r'
  | '0' => some '\x00'
  | '\\' => some '\\'
  | '"' => some '"'
  | _ => none

def encode : List Char → List Char
  | [] => []
  | c :: cs =>
    match letter? c with
    | some e => '\\' :: e :: encode cs
    | none => c :: encode cs

/-- A backslash before any other letter stays, and so does one at the very end. -/
def decode : List Char → List Char
  | [] => []
  | '\\' :: e :: cs =>
    match meaning? e with
    | some c => c :: decode cs
    | none => '\\' :: e :: decode cs
  | c :: cs => c :: decode cs

/-- The number of characters before the quotation mark that closes a literal.  A backslash takes
the next character with it, which must be on the same line. -/
def closing? : List Char → Option Nat
  | [] => none
  | '"' :: _ => some 0
  | ['\\'] => none
  | '\\' :: e :: cs => if e = '\n' then none else (closing? cs).map (· + 2)
  | _ :: cs => (closing? cs).map (· + 1)

theorem meaning?_of_letter? {c e : Char} (h : letter? c = some e) : meaning? e = some c := by
  unfold letter? at h
  split at h <;> simp_all <;> subst h <;> rfl

theorem ne_backslash_of_letter? {c : Char} (h : letter? c = none) : c ≠ '\\' := by
  rintro rfl
  simp [letter?] at h

theorem ne_quote_of_letter? {c : Char} (h : letter? c = none) : c ≠ '"' := by
  rintro rfl
  simp [letter?] at h

theorem ne_newline_of_letter? {c e : Char} (h : letter? c = some e) : e ≠ '\n' := by
  rintro rfl
  cases meaning?_of_letter? h

theorem decode_encode (cs : List Char) : decode (encode cs) = cs := by
  induction cs with
  | nil => rfl
  | cons c cs ih =>
    unfold encode
    split
    next e h => simp [decode, meaning?_of_letter? h, ih]
    next h =>
      rw [decode.eq_3 _ _ (fun e cs' hc _ => ne_backslash_of_letter? h hc), ih]

/-- What is written is closed by the quotation mark behind it and by none before. -/
theorem closing?_encode (cs rest : List Char) :
    closing? (encode cs ++ '"' :: rest) = some (encode cs).length := by
  induction cs with
  | nil => rfl
  | cons c cs ih =>
    unfold encode
    split
    next e h =>
      rw [List.cons_append, List.cons_append, closing?, if_neg (ne_newline_of_letter? h), ih]
      rfl
    next h =>
      rw [List.cons_append, closing?.eq_5 _ _ (ne_quote_of_letter? h)
        (fun hc _ => ne_backslash_of_letter? h hc) (fun e cs' hc _ => ne_backslash_of_letter? h hc), ih]
      rfl

end ScriptFrontend.Text.Escape

namespace ScriptFrontend.Text.Quoted

def shown (c : Char) : List Char :=
  match c with
  | '\x00' => ['\\', '0']
  | '\t' => ['\\', 't']
  | '\r' => ['\\', 'r']
  | '\n' => ['\\', 'n']
  | '"' => ['\\', '"']
  | '\\' => ['\\', '\\']
  | c =>
    if isHidden c then
      ['\\', 'u', '\x7b'] ++ Nat.toDigits 16 c.toNat ++ ['\x7d']
    else
      [c]

def encode (cs : List Char) : List Char :=
  '"' :: cs.flatMap shown ++ ['"']

end ScriptFrontend.Text.Quoted

/-- A text in double quotes, with nothing invisible left in it. -/
def ScriptFrontend.Text.quoted (s : String) : String :=
  String.ofList (Quoted.encode s.toList)
