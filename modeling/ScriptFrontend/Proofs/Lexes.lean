import ScriptFrontend.Proofs.FirstRule
import ScriptFrontend.Proofs.Lexeme
import ScriptFrontend.Token.Scanner

/-!
What the scanner makes of a text.

`Lexes cs w` says that the lexical rules take the text `cs` apart into the lexemes `w`.  It is what
the scanner does, and it can be put together from the end of a text to its front: each lexeme comes
before a text that is apart from it, and blanks come before any text.
-/

namespace ScriptFrontend

/-- The first rule that applies, again and again, makes the lexemes of the text. -/
inductive Lexes : List Char → List Lexeme → Prop
  | nil : Lexes [] []
  | token (k : Kind) (value : String) {cs : List Char} {r : Rule} {n : Nat} {w : List Lexeme}
      (hr : Rule.first? cs = some (r, n)) (ht : r.token? (cs.take n) = some (k, value))
      (hw : Lexes (cs.drop n) w) : Lexes cs (.of k value :: w)
  | skip {cs : List Char} {r : Rule} {n : Nat} {w : List Lexeme}
      (hr : Rule.first? cs = some (r, n)) (ht : r.token? (cs.take n) = none)
      (hw : Lexes (cs.drop n) w) : Lexes cs w

def Lexeme.Proper : Lexeme → Prop
  | endOfInput => False
  | number digits => Rule.IsNumeral digits.toList
  | name word => Rule.IsWord word.toList ∧ Keyword.ofWord? word = none
  | text _ | mark _ | keyword _ => True

theorem Lexeme.Proper.kind_ne {l : Lexeme} (h : l.Proper) : l.kind ≠ .endOfInput := by
  cases l with
  | endOfInput => exact h.elim
  | _ => exact nofun

namespace Rule

theorem reach?_of_first? {cs : List Char} {r : Rule} {n : Nat} (h : first? cs = some (r, n)) :
    r.reach? cs = some n := by
  obtain ⟨r', -, h⟩ := List.exists_of_findSome?_eq_some h
  obtain ⟨m, hm, he⟩ := Option.map_eq_some_iff.1 h
  cases he
  exact hm

theorem ne_nil_of_first? {cs : List Char} {r : Rule} {n : Nat} (h : first? cs = some (r, n)) :
    cs ≠ [] := by
  rintro rfl
  rw [first?_nil] at h
  cases h

theorem proper_of_token? {cs : List Char} {r : Rule} {n : Nat} {k : Kind} {value : String}
    (hr : r.reach? cs = some n) (ht : r.token? (cs.take n) = some (k, value)) :
    (Lexeme.of k value).Proper := by
  cases r with
  | word =>
      simp only [token?] at ht
      split at ht
      · cases ht
        trivial
      next hk =>
        cases ht
        refine ⟨?_, hk⟩
        rw [String.toList_ofList]
        exact isWord_take hr
  | number =>
      cases ht
      change IsNumeral _
      rw [String.toList_ofList]
      exact isNumeral_take hr
  | blank => cases ht
  | text => cases ht; trivial
  | comment => cases ht
  | mark m => cases ht; trivial

end Rule

namespace Lexes

variable {cs rest : List Char} {u w : List Lexeme}

/-- Everything that a text is taken apart into is a lexeme of the language. -/
theorem proper (h : Lexes cs w) : ∀ l ∈ w, l.Proper := by
  induction h with
  | nil => exact nofun
  | token k value hr ht hw ih =>
      intro l hl
      rcases List.mem_cons.1 hl with rfl | hl
      · exact Rule.proper_of_token? (Rule.reach?_of_first? hr) ht
      · exact ih l hl
  | skip hr ht hw ih => exact ih

/-! ### The scanner -/

/-- The scanner reads what the text is taken apart into, and then the end of input. -/
theorem tokens (h : Lexes cs w) (s : Scanner) (hs : s.rest = cs) :
    ∃ ts p, s.tokens = .ok (ts ++ [.endOfInput p]) ∧ ts.map Token.lexeme = w := by
  induction h generalizing s with
  | nil => exact ⟨[], s.position, Scanner.tokens_nil hs, rfl⟩
  | @token k value cs r n w hr ht hw ih =>
      subst hs
      obtain ⟨ts, p, hts, rfl⟩ := ih (s.skip n) rfl
      refine ⟨⟨k, value, ⟨s.position, (s.skip n).position⟩⟩ :: ts, p, ?_, rfl⟩
      rw [Scanner.tokens_some (Rule.ne_nil_of_first? hr) hr, hts, Scanner.token?, ht]
      rfl
  | @skip cs r n w hr ht hw ih =>
      subst hs
      obtain ⟨ts, p, hts, rfl⟩ := ih (s.skip n) rfl
      refine ⟨ts, p, ?_, rfl⟩
      rw [Scanner.tokens_some (Rule.ne_nil_of_first? hr) hr, hts, Scanner.token?, ht]
      rfl

end Lexes

/-- What the scanner reads is what the text is taken apart into. -/
theorem Scanner.lexes_of_tokens {s : Scanner} {us : List Token} (h : s.tokens = .ok us) :
    ∃ ts p, us = ts ++ [.endOfInput p] ∧ Lexes s.rest (ts.map Token.lexeme) := by
  -- on the length of the text, since a step may drop any number of characters
  induction hn : s.rest.length using Nat.strongRecOn generalizing s us with
  | ind n ih =>
      subst hn
      by_cases hs : s.rest = []
      · rw [tokens_nil hs] at h
        cases h
        exact ⟨[], s.position, rfl, hs ▸ .nil⟩
      · cases hr : Rule.first? s.rest with
        | none =>
            rw [tokens_none hs hr] at h
            cases h
        | some rn =>
            obtain ⟨r, n⟩ := rn
            rw [tokens_some hs hr] at h
            cases hrest : (s.skip n).tokens with
            | error d =>
                rw [hrest] at h
                cases h
            | ok vs =>
                rw [hrest] at h
                cases h
                have hlt := length_rest_skip_lt hs (Rule.first?_pos hr)
                obtain ⟨ts, p, rfl, hts⟩ := ih _ hlt hrest rfl
                cases ht : r.token? (s.rest.take n) with
                | none =>
                    refine ⟨ts, p, ?_, .skip hr ht hts⟩
                    rw [Scanner.token?, ht]
                    rfl
                | some kv =>
                    obtain ⟨k, value⟩ := kv
                    refine ⟨⟨k, value, ⟨s.position, (s.skip n).position⟩⟩ :: ts, p, ?_,
                      .token k value hr ht hts⟩
                    rw [Scanner.token?, ht]
                    rfl

namespace Lexes

variable {cs rest : List Char} {u w : List Lexeme}

/-! ### Lexemes before a text -/

theorem name {word : String} (h : (Lexeme.name word).Proper) (hr : Rule.Apart rest)
    (hw : Lexes rest w) : Lexes (word.toList ++ rest) (.name word :: w) := by
  obtain ⟨hword, hk⟩ := h
  refine .token .identifier word (Rule.first?_word hword hr) ?_ ?_
  · rw [List.take_left, Rule.token?, String.ofList_toList, hk]
  · rwa [List.drop_left]

theorem isWord_spelling (k : Keyword) : Rule.IsWord k.spelling.toList := by
  cases k <;> exact ⟨_, _, rfl, rfl, List.all_eq_true.1 rfl⟩

theorem keyword (k : Keyword) (hr : Rule.Apart rest) (hw : Lexes rest w) :
    Lexes (k.spelling.toList ++ rest) (.keyword k :: w) := by
  refine .token (.keyword k) k.spelling
    (Rule.first?_word (isWord_spelling k) hr) ?_ ?_
  · rw [List.take_left, Rule.token?, String.ofList_toList, Keyword.ofWord?_spelling]
  · rwa [List.drop_left]

theorem number {digits : String} (h : (Lexeme.number digits).Proper) (hr : Rule.Apart rest)
    (hw : Lexes rest w) : Lexes (digits.toList ++ rest) (.number digits :: w) := by
  refine .token .number digits (Rule.first?_number h hr) ?_ ?_
  · rw [List.take_left, Rule.token?, String.ofList_toList]
  · rwa [List.drop_left]

theorem text (value : String) (hw : Lexes rest w) :
    Lexes ('"' :: (Text.Escape.encode value.toList ++ '"' :: rest)) (.text value :: w) := by
  let inside := Text.Escape.encode value.toList
  have hsplit : '"' :: (inside ++ '"' :: rest) = ('"' :: (inside ++ ['"'])) ++ rest := by
    rw [List.cons_append, List.append_assoc]
    rfl
  have hlength : inside.length + 2 = ('"' :: (inside ++ ['"'])).length := by
    rw [List.length_cons, List.length_append]
    rfl
  have hclosing := Rule.first?_text (Text.Escape.closing?_encode value.toList rest)
  refine .token .text value hclosing ?_ ?_
  · rw [hsplit, hlength, List.take_left, Rule.token?, List.tail_cons, List.dropLast_concat,
      Text.Escape.decode_encode, String.ofList_toList]
  · rwa [hsplit, hlength, List.drop_left]

theorem mark (m : Mark) (h : ∀ c ∈ rest.head?, c ∉ m.extensions) (hw : Lexes rest w) :
    Lexes (m.spelling.toList ++ rest) (.mark m :: w) := by
  refine .token (.mark m) m.spelling (Rule.first?_mark m h) rfl ?_
  rwa [← String.length_toList, List.drop_left]

/-- Blanks in front of a text change nothing, also where it starts with blanks of its own. -/
theorem blank {c : Char} (hc : Text.isBlank c) (hw : Lexes rest w) : Lexes (c :: rest) w := by
  have hfirst : Rule.first? (c :: rest) = some (.blank, 1 + Rule.run Text.isBlank rest) :=
    Rule.first?_blank hc
  refine .skip hfirst rfl ?_
  rw [Nat.add_comm, List.drop_succ_cons]
  cases rest with
  | nil => exact hw
  | cons d ds =>
      cases hd : Text.isBlank d with
      | false => rwa [Rule.run_cons_of_neg hd]
      | true =>
          have hrest : Rule.first? (d :: ds) = some (.blank, 1 + Rule.run Text.isBlank ds) :=
            Rule.first?_blank hd
          have hrun : Rule.run Text.isBlank (d :: ds) = 1 + Rule.run Text.isBlank ds := by
            rw [Rule.run, List.takeWhile_cons_of_pos hd, List.length_cons, Nat.add_comm]
            rfl
          cases hw with
          | token k value hr ht hw =>
              cases hrest.symm.trans hr
              cases ht
          | skip hr ht hw =>
              cases hrest.symm.trans hr
              rwa [hrun]

theorem blanks (n : Nat) (hw : Lexes rest w) : Lexes (List.replicate n ' ' ++ rest) w := by
  induction n with
  | zero => exact hw
  | succ n ih => exact blank rfl ih

end Lexes

end ScriptFrontend
