import ScriptFrontend.Proofs.Acceptance

/-!
Programs one behind the other.

Nothing separates statements, so the tokens of two programs are the tokens of one program.  It is the
two programs in a row unless the last statement of the first one takes the first token of the second
one for a part of itself.  Spelling does not see the border between the two, since statements are
spelled one after the other; all that can go wrong at the border is what being well formed asks of
two neighbours.
-/

namespace ScriptFrontend

/-- Lists of statements in a row are well formed if both are, and their border is. -/
theorem wellFormedEach_append_iff {ss ts : List Stmt} :
    WellFormedEach (ss ++ ts) ↔
      WellFormedEach ss ∧ WellFormedEach ts ∧
        ∀ s ∈ ss.getLast?, ∀ t ∈ ts.head?, s.MayPrecede t := by
  refine ⟨fun h => ?_, fun ⟨hs, ht, hborder⟩ => hs.append ht hborder⟩
  induction ss with
  | nil => exact ⟨trivial, h, by simp⟩
  | cons s ss ih =>
      obtain ⟨hwf, hnext, hrest⟩ := h
      obtain ⟨hss, hts, hborder⟩ := ih hrest
      cases ss with
      | nil => exact ⟨⟨hwf, by simp, trivial⟩, hts, by simpa using hnext⟩
      | cons s' ss => exact ⟨⟨hwf, hnext, hss⟩, hts, hborder⟩

/-- The first token of some statements is of the first kind of the first of them. -/
theorem SpelledEach.head?_kind {ss : List Stmt} {ts : List Token}
    (h : SpelledEach ss (ts.map Token.lexeme)) :
    ts.head?.map Token.kind = ss.head?.map Stmt.first := by
  cases ss with
  | nil =>
      have hnil : ts.map Token.lexeme = [] := h
      rw [List.map_eq_nil_iff.1 hnil]
      rfl
  | cons s ss =>
      have hfront := h.front .endOfInput
      obtain ⟨u, v, hu, -, heq⟩ := h
      cases ts with
      | nil => exact absurd (List.append_eq_nil_iff.1 heq.symm).1 (hu.front .endOfInput).1
      | cons t ts => exact congrArg some (t.kind_lexeme.symm.trans hfront)

/-- What may stand behind a statement shows in the first token. -/
theorem SpelledEach.mayPrecede_head?_iff {s : Stmt} {ss : List Stmt} {ts : List Token}
    (h : SpelledEach ss (ts.map Token.lexeme)) :
    (∀ t ∈ ss.head?, s.MayPrecede t) ↔ ∀ t ∈ ts.head?, ¬ s.Takes t.kind := by
  have hfirst : (∀ t ∈ ss.head?, s.MayPrecede t) ↔
      ∀ k ∈ ss.head?.map Stmt.first, ¬ s.Takes k := by
    simp [Stmt.mayPrecede_iff]
  rw [hfirst, ← h.head?_kind]
  simp

namespace Grammar

variable {ts us : List Token} {p q : List Stmt}

/-- The tokens of two programs are parsed to the two programs in a row, up to their places, if and
only if the last statement of the first program does not go on with the first token of the second. -/
theorem parse_append_iff (hts : ∀ t ∈ ts, t.kind ≠ .endOfInput)
    (hus : ∀ t ∈ us, t.kind ≠ .endOfInput) (hp : standard.parse ts = .ok p)
    (hq : standard.parse us = .ok q) :
    (∃ r, standard.parse (ts ++ us) = .ok r ∧
        r.map Stmt.unplaced = (p ++ q).map Stmt.unplaced) ↔
      ∀ s ∈ p.getLast?, ∀ t ∈ us.head?, ¬ s.Takes t.kind := by
  have hboth : ∀ t ∈ ts ++ us, t.kind ≠ .endOfInput :=
    fun t ht => (List.mem_append.1 ht).elim (hts t) (hus t)
  obtain ⟨hpwf, hpspelled⟩ := parse_sound (Cursor.holds_ofTokens hts) hp
  obtain ⟨hqwf, hqspelled⟩ := parse_sound (Cursor.holds_ofTokens hus) hq
  have hspelled : SpelledEach (p ++ q) ((ts ++ us).map Token.lexeme) := by
    rw [List.map_append]
    exact hpspelled.append hqspelled
  rw [parse_iff_spelled hboth, wellFormedEach_append_iff]
  constructor
  · rintro ⟨⟨-, -, hborder⟩, -⟩ s hs
    exact hqspelled.mayPrecede_head?_iff.1 (hborder s hs)
  · intro hborder
    exact ⟨⟨hpwf, hqwf, fun s hs => hqspelled.mayPrecede_head?_iff.2 (hborder s hs)⟩, hspelled⟩

/-- `print a` does not end in front of `( b )`, though each is a program. -/
theorem parse_print_group :
    ¬ ∃ r, standard.parse ([Lexeme.keyword .print, .name "a"].map Lexeme.token ++
        [Lexeme.mark .openParen, .name "b", .mark .closeParen].map Lexeme.token) = .ok r ∧
      r.map Stmt.unplaced =
        ([Stmt.print ⟨.nowhere, .nowhere⟩ (.symbol ⟨.nowhere, .nowhere⟩ "a")] ++
          [Stmt.expr ⟨.nowhere, .nowhere⟩ (.group ⟨.nowhere, .nowhere⟩
            (.symbol ⟨.nowhere, .nowhere⟩ "b"))]).map Stmt.unplaced := by
  intro h
  exact (parse_append_iff (by decide) (by decide) (by with_unfolding_all rfl) (by with_unfolding_all rfl)).1 h _ rfl _ rfl (.inr rfl)

end Grammar

end ScriptFrontend
