import ScriptFrontend.Proofs.LineBytes
import ScriptFrontend.Proofs.Lossless

/-!
Moves over bytes.

A scanner may be moved by any number of bytes.  It moves if they are whole characters of the text
ahead, and stays where it is if they run past the end or into a character.  One lemma says which
moves there are, and the rest is read off from it: the place stays the one counted from scratch,
moves add up, and on one line the place behind the next bytes is found without moving there.
-/

namespace ScriptFrontend

open Text (byteLength charsInBytes?)

namespace Text

variable {cs : List Char} {n : Nat}

/-- So many bytes of the text end inside one of its characters. -/
def EndsInside (n : Nat) (cs : List Char) : Prop :=
  ∃ before c after, cs = before ++ c :: after ∧ byteLength before < n ∧
    n < byteLength before + c.utf8Size

/-- Bytes behind a stretch of text are counted from its end. -/
theorem charsInBytes?_add (s t : List Char) (n : Nat) :
    charsInBytes? (byteLength s + n) (s ++ t) = (charsInBytes? n t).map (s.length + ·) := by
  induction s with
  | nil => simp [byteLength]
  | cons c s ih =>
      obtain ⟨m, hm⟩ : ∃ m, byteLength (c :: s) + n = m + 1 :=
        Nat.exists_eq_add_one.2 (Nat.add_pos_left (Nat.add_pos_left c.utf8Size_pos _) _)
      have hc : c.utf8Size ≤ m + 1 := by
        rw [← hm, byteLength]
        omega
      have hrest : m + 1 - c.utf8Size = byteLength s + n := by
        rw [← hm, byteLength]
        omega
      rw [hm, List.cons_append, charsInBytes?, if_pos hc, hrest, ih, Option.map_map]
      congr 1
      funext k
      simp only [Function.comp, List.length_cons, Nat.add_right_comm]

theorem charsInBytes?_eq_none_iff :
    charsInBytes? n cs = none ↔ byteLength cs < n ∨ EndsInside n cs := by
  constructor
  · intro h
    rw [or_iff_not_imp_left, Nat.not_lt]
    intro hle
    obtain ⟨before, after, k, rfl, rfl, hk⟩ := exists_withinNext hle
    rcases hk with rfl | ⟨c, rest, rfl, hlt⟩
    · cases (charsInBytes?_append before after).symm.trans h
    · refine ⟨before, c, rest, rfl, ?_, Nat.add_lt_add_left hlt _⟩
      rcases Nat.eq_zero_or_pos k with rfl | hpos
      · cases (charsInBytes?_append before (c :: rest)).symm.trans h
      · exact Nat.lt_add_of_pos_right hpos
  · rintro (hlt | ⟨before, c, after, rfl, hbefore, hinside⟩)
    · cases h : charsInBytes? n cs with
      | none => rfl
      | some k =>
          have htake := byteLength_take_of_charsInBytes? h
          have hsplit := congrArg byteLength (List.take_append_drop k cs)
          rw [byteLength_append] at hsplit
          omega
    · obtain ⟨k, rfl⟩ : ∃ k, n = byteLength before + (k + 1) :=
        ⟨n - byteLength before - 1, by omega⟩
      have hlarge : ¬ c.utf8Size ≤ k + 1 := by omega
      rw [charsInBytes?_add, charsInBytes?, if_neg hlarge]
      rfl

end Text

namespace Scanner

variable {s t : Scanner} {source : List Char} {file : String} {n a b : Nat} {cs after : List Char}

/-- Moves past the next `n` bytes, or stays if they are not whole characters of the source. -/
def advance (s : Scanner) (n : Nat) : Scanner :=
  (s.advance? n).getD s

def advances (s : Scanner) (counts : List Nat) : Scanner :=
  counts.foldl advance s

/-! ### One move -/

/-- A move passes over a stretch of the text that takes as many bytes. -/
theorem advance?_eq_some_iff :
    s.advance? n = some t ↔
      ∃ cs, s.rest = cs ++ t.rest ∧ byteLength cs = n ∧ t.position = s.position.after cs := by
  constructor
  · intro h
    obtain ⟨k, hk, rfl⟩ := Option.map_eq_some_iff.1 h
    exact ⟨s.rest.take k, (List.take_append_drop k s.rest).symm,
      Text.byteLength_take_of_charsInBytes? hk, rfl⟩
  · rintro ⟨cs, hrest, rfl, hposition⟩
    refine Option.map_eq_some_iff.2 ⟨cs.length, ?_, ?_⟩
    · rw [hrest, Text.charsInBytes?_append]
    · rw [skip, hrest, List.take_left, List.drop_left, ← hposition]

theorem advance?_eq_none_iff :
    s.advance? n = none ↔ byteLength s.rest < n ∨ Text.EndsInside n s.rest := by
  rw [advance?, Option.map_eq_none_iff, Text.charsInBytes?_eq_none_iff]

theorem advance_of_none (h : s.advance? n = none) : s.advance n = s := by
  rw [advance, h]
  rfl

theorem advance_of_some (h : s.advance? n = some t) : s.advance n = t := by
  rw [advance, h]
  rfl

theorem Within.advance (h : s.Within source file) (n : Nat) : (s.advance n).Within source file := by
  cases hmove : s.advance? n with
  | none =>
      rw [advance_of_none hmove]
      exact h
  | some t =>
      obtain ⟨k, -, rfl⟩ := Option.map_eq_some_iff.1 hmove
      rw [advance_of_some hmove]
      exact h.skip k

theorem Within.advances (h : s.Within source file) (counts : List Nat) :
    (s.advances counts).Within source file := by
  induction counts generalizing s with
  | nil => exact h
  | cons n counts ih => exact ih (h.advance n)

/-! ### Moves that add up -/

/-- A move from where another one leads is a move by the sum of their bytes. -/
theorem advance?_add (h : s.advance? a = some t) (b : Nat) : s.advance? (a + b) = t.advance? b := by
  obtain ⟨cs, hrest, rfl, hposition⟩ := advance?_eq_some_iff.1 h
  have hskip : s.skip cs.length = t := by
    rw [skip, hrest, List.take_left, List.drop_left, ← hposition]
  have hchars : charsInBytes? (byteLength cs + b) s.rest =
      (charsInBytes? b t.rest).map (cs.length + ·) := by
    rw [hrest, Text.charsInBytes?_add]
  rw [advance?, hchars, Option.map_map, advance?]
  congr 1
  funext k
  rw [Function.comp, skip_add, hskip]

/-- Two moves are one move by the sum of their bytes.  Only where the first ends inside a character,
and so cannot be made, the sum of both may lead out of that character. -/
theorem advance?_bind (h : ¬ Text.EndsInside a s.rest) (b : Nat) :
    (s.advance? a).bind (·.advance? b) = s.advance? (a + b) := by
  cases hmove : s.advance? a with
  | none =>
      have hlt : byteLength s.rest < a := (advance?_eq_none_iff.1 hmove).resolve_right h
      exact (advance?_eq_none_iff.2 (.inl (Nat.lt_add_right b hlt))).symm
  | some t => exact (advance?_add hmove b).symm

/-! ### Spans -/

/-- On one line, the span of the next bytes ends where the move over them leads. -/
theorem exists_advance?_of_newline_not_mem (hrest : s.rest = cs ++ after) (hcs : '\n' ∉ cs) :
    ∃ t, s.advance? (byteLength cs) = some t ∧
      s.span? (byteLength cs) = some ⟨s.position, t.position⟩ :=
  ⟨⟨s.position.after cs, after⟩, advance?_eq_some_iff.2 ⟨cs, hrest, rfl, rfl⟩,
    span?_of_newline_not_mem hrest hcs⟩

/-! ### Any number of moves -/

/-- What moving over bytes comes to, from where the scanner stands. -/
structure MovesByBytes (s : Scanner) : Prop where
  /-- A move passes over the characters that take as many bytes. -/
  passes : ∀ n t, s.advance? n = some t ↔
    ∃ cs, s.rest = cs ++ t.rest ∧ byteLength cs = n ∧ t.position = s.position.after cs
  /-- The moves that fail are those past the end and those into a character. -/
  fails : ∀ n, s.advance? n = none ↔ byteLength s.rest < n ∨ Text.EndsInside n s.rest
  stays : ∀ n, s.advance? n = none → s.advance n = s
  /-- Two moves are one, unless the first fails inside a character that the sum leads out of. -/
  adds : ∀ a b, ¬ Text.EndsInside a s.rest →
    (s.advance? a).bind (·.advance? b) = s.advance? (a + b)
  /-- The span of bytes without a line feed is the place and the place behind the move. -/
  spans : ∀ cs after, s.rest = cs ++ after → '\n' ∉ cs → ∃ t,
    s.advance? (byteLength cs) = some t ∧
      s.span? (byteLength cs) = some ⟨s.position, t.position⟩

theorem movesByBytes (s : Scanner) : s.MovesByBytes where
  passes _ _ := advance?_eq_some_iff
  fails _ := advance?_eq_none_iff
  stays _ := advance_of_none
  adds _ b h := advance?_bind h b
  spans _ _ := exists_advance?_of_newline_not_mem

/-- After any moves, whether they fail or not, the scanner stands between two characters of the
source, at the place counted from the text in front of it, and from there on moves add up and spans
agree with moves. -/
theorem place_of_advances (source file : String) (counts : List Nat) :
    ∃ before, source.toList = before ++ ((ofSource source file).advances counts).rest ∧
      ((ofSource source file).advances counts).position =
        ⟨byteLength before, 1 + before.count '\n', 1 + (Text.lastLine before).length, file⟩ ∧
      ((ofSource source file).advances counts).MovesByBytes := by
  obtain ⟨before, hsource, hposition⟩ := (within_ofSource source file).advances counts
  exact ⟨before, hsource, hposition, movesByBytes _⟩

/-- The first move is into a character, and the third is past the end. -/
example : ((ofSource "é\nx" "a.qk").advances [1, 3, 9, 1]).position = ⟨4, 2, 2, "a.qk"⟩ := by
  decide

end Scanner

end ScriptFrontend
