import ScriptFrontend.Proofs.Completeness.Statement
import ScriptFrontend.Proofs.Soundness.Statement
import ScriptFrontend.Proofs.Unplaced

/-!
The parser accepts exactly its language, and with exactly its tree.

Soundness says that what it returns is well formed and spelled by the tokens, and completeness that
it returns, up to its places, every well-formed program that they spell.
-/

namespace ScriptFrontend

namespace Cursor

variable {c d : Cursor} {ts : List Token} {w : List Lexeme}

/-- Ahead are these tokens, and nothing but the end of input behind them. -/
def Holds (c : Cursor) (ts : List Token) : Prop :=
  (∀ t ∈ ts, t.kind ≠ .endOfInput) ∧ ∃ p, c.ahead = ts ++ [.endOfInput p]

theorem holds_ofTokens (hts : ∀ t ∈ ts, t.kind ≠ .endOfInput) : (ofTokens ts).Holds ts :=
  ⟨hts, ahead_ofTokens hts⟩

theorem holds_ofTokens_concat (hts : ∀ t ∈ ts, t.kind ≠ .endOfInput) (p : Position) :
    (ofTokens (ts ++ [.endOfInput p])).Holds ts :=
  ⟨hts, p, ahead_ofTokens_concat ts rfl⟩

/-- What is read up to the end of input is all there is. -/
theorem Reads.eq_of_holds (h : c.Reads w d) (hc : c.Holds ts)
    (hd : d.current.kind = .endOfInput) : w = ts.map Token.lexeme := by
  obtain ⟨us, hus, rfl⟩ := h
  obtain ⟨hts, p, hp⟩ := hc
  have hsplit : us ++ d.current :: d.rest = ts ++ [.endOfInput p] := hus.ahead.symm.trans hp
  rcases List.append_eq_append_iff.1 hsplit with ⟨vs, rfl, hvs⟩ | ⟨vs, rfl, hvs⟩
  · cases vs with
    | nil => rw [List.append_nil]
    | cons v vs =>
        obtain ⟨hv, -⟩ := List.cons.inj hvs
        rw [hv] at hd
        exact absurd hd (hts v (List.mem_append_right _ (List.mem_cons_self ..)))
  · cases vs with
    | nil => rw [List.append_nil]
    | cons v vs => simp at hvs

/-- All there is can be read. -/
theorem Holds.reads (hc : c.Holds ts) :
    ∃ d, c.Reads (ts.map Token.lexeme) d ∧ d.current.kind = .endOfInput := by
  obtain ⟨-, p, hp⟩ := hc
  exact ⟨_, ⟨ts, reaches_of_ahead hp, rfl⟩, rfl⟩

end Cursor

namespace Grammar

open ScriptFrontend.Parser

variable {ts us : List Token} {p : List Stmt}

theorem parse_eq_ok_iff {g : Grammar} :
    g.parse ts = .ok p ↔ ∃ d, g.program (Cursor.ofTokens ts) = .ok p d := by
  rw [parse]
  cases g.program (Cursor.ofTokens ts) <;> simp

/-- What is parsed is well formed and spelled by the tokens. -/
theorem parse_sound (hts : (Cursor.ofTokens ts).Holds us) (h : standard.parse ts = .ok p) :
    WellFormedEach p ∧ SpelledEach p (us.map Token.lexeme) := by
  obtain ⟨d, hd⟩ := parse_eq_ok_iff.1 h
  have hmeets := meets_program (Cursor.closed_ofTokens ts)
  rw [hd] at hmeets
  obtain ⟨w, hw, hk, hwf, hspelled⟩ := hmeets
  rw [← hw.eq_of_holds hts hk]
  exact ⟨hwf, hspelled⟩

/-- A well-formed program is parsed from all tokens that spell it. -/
theorem parse_complete (hts : (Cursor.ofTokens ts).Holds us) (hwf : WellFormedEach p)
    (hspelled : SpelledEach p (us.map Token.lexeme)) :
    ∃ p', standard.parse ts = .ok p' ∧ p'.map Stmt.unplaced = p.map Stmt.unplaced := by
  obtain ⟨d, hd, hk⟩ := hts.reads
  obtain ⟨p', hp', heq⟩ := yields_program hwf hspelled _ d hd hk
  exact ⟨p', parse_eq_ok_iff.2 ⟨d, hp'⟩, heq⟩

/-- A list of tokens without an end of input is parsed to a program, up to its places, if and only if
the program is well formed and the tokens spell it. -/
theorem parse_iff_spelled (hts : ∀ t ∈ ts, t.kind ≠ .endOfInput) (p : List Stmt) :
    (∃ p', standard.parse ts = .ok p' ∧ p'.map Stmt.unplaced = p.map Stmt.unplaced) ↔
      WellFormedEach p ∧ SpelledEach p (ts.map Token.lexeme) := by
  constructor
  · rintro ⟨p', hp', heq⟩
    rw [← wellFormedEach_congr heq, ← spelledEach_congr heq]
    exact parse_sound (Cursor.holds_ofTokens hts) hp'
  · rintro ⟨hwf, hspelled⟩
    exact parse_complete (Cursor.holds_ofTokens hts) hwf hspelled

/-- A function without parameters, with a body that ends twice. -/
theorem parse_def_break :
    ∃ p', standard.parse (([.keyword .def_, .name "f", .mark .bang, .mark .openBracket,
        .keyword .break_, .number "01", .keyword .end_, .mark .closeBracket] : List Lexeme).map
          Lexeme.token) = .ok p' ∧
      p'.map Stmt.unplaced =
        [Stmt.def_ ⟨.nowhere, .nowhere⟩ "f" false []
          [.break_ ⟨.nowhere, .nowhere⟩ (some 1)]].map Stmt.unplaced := by
  refine (parse_iff_spelled (by decide) _).2 ⟨?_, ?_⟩
  · refine ⟨⟨by simp [Stmt.Nests], trivial, ?_, trivial⟩, ?_, trivial⟩
    · intro next hnext
      cases hnext
    · intro next hnext
      cases hnext
  · have hbreak : (Stmt.break_ ⟨.nowhere, .nowhere⟩ (some 1)).Spelled
        [.keyword .break_, .number "01"] := ⟨_, ⟨"01", by decide, rfl⟩, rfl⟩
    have hbody : Bracketed (SpelledEach [.break_ ⟨.nowhere, .nowhere⟩ (some 1)])
        [.mark .openBracket, .keyword .break_, .number "01", .keyword .end_,
          .mark .closeBracket] := ⟨_, true, ⟨_, _, hbreak, rfl, rfl⟩, rfl⟩
    exact ⟨_, _, ⟨_, _, .inl ⟨rfl, rfl⟩, hbody, rfl⟩, rfl, rfl⟩

end Grammar

end ScriptFrontend
