import ScriptFrontend.Proofs.Lossless
import ScriptFrontend.Syntax.Render

/-!
Tokens written down and read back.

A token is written as its value, a string as a literal of its value, and a blank keeps it from the
next one.  The obligation is that the names of the kinds, the reserved words and the lexical rules
agree on every spelling, for only then does each of them read as the token that it was written for.
-/

namespace ScriptFrontend

namespace Kind

/-- The values that a token of the kind can be written with; the end of input cannot be written. -/
def Admits : Kind → String → Prop
  | endOfInput, _ => False
  | number, value => Rule.IsNumeral value.toList
  | text, _ => True
  | identifier, value => Rule.IsWord value.toList ∧ Keyword.ofWord? value = none
  | mark m, value => value = (mark m).name
  | keyword k, value => value = (keyword k).name

def spelling (k : Kind) (value : String) : String :=
  if k = text then (Literal.text value).render else value

variable {k : Kind} {value : String}

/-- Kind and value together are no more than the lexeme. -/
theorem Admits.value_of (h : k.Admits value) : (Lexeme.of k value).value = value := by
  cases k with
  | endOfInput => exact h.elim
  | mark m => exact (h.trans (name_mark m)).symm
  | keyword k => exact h.symm
  | number | text | identifier => rfl

end Kind

/-- A blank or the end of the text keeps a word and a number from going on. -/
theorem Rule.apart_of_blank {rest : List Char} (h : ∀ c ∈ rest.head?, c = ' ') : Apart rest := by
  cases rest with
  | nil => exact ⟨rfl, rfl⟩
  | cons c rest =>
      obtain rfl := h c rfl
      exact apart_cons rfl (by decide)

namespace Lexes

variable {rest : List Char} {w : List Lexeme}

/-- What is written for a token reads as its lexeme in front of a blank and at the end of a text. -/
theorem spelling {k : Kind} {value : String} (h : k.Admits value)
    (hrest : ∀ c ∈ rest.head?, c = ' ') (hw : Lexes rest w) :
    Lexes ((k.spelling value).toList ++ rest) (.of k value :: w) := by
  have hapart := Rule.apart_of_blank hrest
  cases k with
  | endOfInput => exact h.elim
  | number => exact .number h hapart hw
  | identifier => exact .name h hapart hw
  | keyword k =>
      cases h
      exact .keyword k hapart hw
  | mark m =>
      obtain rfl : value = m.spelling := h.trans (Kind.name_mark m)
      refine .mark m (fun c hc => ?_) hw
      obtain rfl := hrest c hc
      cases m <;> decide
  | text =>
      have hliteral : (Literal.text value).render.toList ++ rest =
          '"' :: (Text.Escape.encode value.toList ++ '"' :: rest) := by
        simp [Literal.render]
      rw [Kind.spelling, if_pos rfl, hliteral]
      exact .text value hw

/-- Any tokens, written one behind the other with blanks between them, read as their lexemes. -/
theorem spellings {ps : List (Kind × String)} (h : ∀ p ∈ ps, p.1.Admits p.2) :
    Lexes (" ".intercalate (ps.map fun p => p.1.spelling p.2)).toList
      (ps.map fun p => .of p.1 p.2) := by
  induction ps with
  | nil => exact .nil
  | cons p ps ih =>
      rw [List.forall_mem_cons] at h
      cases ps with
      | nil =>
          have hlast : Lexes ((p.1.spelling p.2).toList ++ []) _ := spelling h.1 (by simp) .nil
          rwa [List.append_nil] at hlast
      | cons q qs =>
          have hnext : Lexes ((p.1.spelling p.2).toList ++ ' ' :: _) _ :=
            spelling h.1 (by simp) (blank rfl (ih h.2))
          simpa [String.intercalate_cons_cons] using hnext

end Lexes

/-- The lexeme of a token that a rule makes has the value of the token. -/
theorem Rule.value_of_token? {r : Rule} {lexeme : List Char} {k : Kind} {value : String}
    (h : r.token? lexeme = some (k, value)) : (Lexeme.of k value).value = value := by
  cases r with
  | word =>
      simp only [token?] at h
      split at h <;> cases h
      next hk => exact Keyword.spelling_of_ofWord? hk
      · rfl
  | blank | comment => cases h
  | number | text | mark =>
      cases h
      rfl

theorem Token.StandsIn.value_lexeme {source : List Char} {file : String} {t : Token}
    (h : t.StandsIn source file) : t.lexeme.value = t.value := by
  obtain ⟨_, _, _, -, -, ⟨r, -, ht⟩, -⟩ := h
  exact Rule.value_of_token? ht

/-- Every token list can be written down and read back.  Tokens of any kinds, each with a value that
its kind admits, are written with a blank between each two, and the scanner reads these kinds and
values in this order, and then the end of input. -/
theorem tokenize_spellings {ps : List (Kind × String)} (h : ∀ p ∈ ps, p.1.Admits p.2)
    (file : String) :
    ∃ ts p, tokenize (" ".intercalate (ps.map fun p => p.1.spelling p.2)) file =
        .ok (ts ++ [.endOfInput p]) ∧
      ts.map (fun t => (t.kind, t.value)) = ps := by
  obtain ⟨ts, p, hts, hlexemes⟩ := (Lexes.spellings h).tokens (.ofSource _ file) rfl
  rw [← tokenize_eq_ok_iff] at hts
  refine ⟨ts, p, hts, ?_⟩
  obtain ⟨us, hus, -, htiling⟩ := lossless_of_tokenize hts
  obtain rfl := List.append_inj_left' hus rfl
  have hread : ∀ t ∈ ts, (t.kind, t.value) = (t.lexeme.kind, t.lexeme.value) := fun t ht => by
    rw [t.kind_lexeme, (htiling.stands t ht).value_lexeme]
  have hwritten : ∀ p ∈ ps, ((Lexeme.of p.1 p.2).kind, (Lexeme.of p.1 p.2).value) = p :=
    fun p hp => by rw [Lexeme.kind_of, (h p hp).value_of]
  calc ts.map (fun t => (t.kind, t.value))
      = (ts.map Token.lexeme).map (fun l => (l.kind, l.value)) := by
        rw [List.map_map]
        exact List.map_congr_left hread
    _ = ps := by
        rw [hlexemes, List.map_map]
        exact (List.map_congr_left hwritten).trans (List.map_id ps)

/-- Marks that would be one mark, words that a letter keeps from being reserved and a string that
looks like a comment. -/
theorem tokenize_spellings_close :
    (∀ p ∈ [(.mark .less, "<"), (.mark .greater, ">"), (.keyword .rec_, "rec"),
        (.identifier, "record"), (.number, "1.5"), (.text, "// \"\n")], Kind.Admits p.1 p.2) ∧
      ∃ ts p, tokenize "< > rec record 1.5 \"// \\\"\\n\"" "a.qk" = .ok (ts ++ [.endOfInput p]) ∧
        ts.map (fun t => (t.kind, t.value)) =
          [(.mark .less, "<"), (.mark .greater, ">"), (.keyword .rec_, "rec"),
            (.identifier, "record"), (.number, "1.5"), (.text, "// \"\n")] := by
  have hadmits : ∀ p ∈ [(.mark .less, "<"), (.mark .greater, ">"), (.keyword .rec_, "rec"),
      (.identifier, "record"), (.number, "1.5"), (.text, "// \"\n")], Kind.Admits p.1 p.2 := by
    simp only [List.forall_mem_cons, List.not_mem_nil, false_imp_iff, implies_true, and_true]
    have hword : Rule.IsWord "record".toList :=
      ⟨'r', "ecord".toList, rfl, rfl, List.all_eq_true.1 rfl⟩
    have hnumeral : Rule.IsNumeral "1.5".toList :=
      ⟨'1', [], ".5".toList, rfl, rfl, List.forall_mem_nil _,
        .inr ⟨'5', [], rfl, rfl, List.forall_mem_nil _⟩⟩
    exact ⟨rfl, rfl, rfl, ⟨hword, by decide⟩, hnumeral, trivial⟩
  exact ⟨hadmits, tokenize_spellings hadmits "a.qk"⟩

end ScriptFrontend
