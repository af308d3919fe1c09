import ScriptFrontend.Proofs.Completeness.Statement
import ScriptFrontend.Proofs.Locality
import ScriptFrontend.Proofs.Acceptance

/-!
Syntax errors come at the earliest token, and each asks for something that could stand there.

The error at a token depends on no token behind it, so the tokens before it together with the error
token are already beyond repair.  The tokens before it alone are not: with one of the tokens that the
error asks for they go on to a whole program.
-/

namespace ScriptFrontend

/-- What the grammar may look at in a token. -/
def Token.content (t : Token) : Kind × String :=
  (t.kind, t.value)

theorem Token.relabel_unplace_eq_iff {t u : Token} :
    t.relabel .unplace = u.relabel .unplace ↔ t.content = u.content := by
  obtain ⟨_, _, _⟩ := t
  obtain ⟨_, _, _⟩ := u
  simp [Token.relabel, Span.relabel, Token.content]

theorem Token.map_relabel_unplace_eq_iff {ts us : List Token} :
    ts.map (relabel .unplace) = us.map (relabel .unplace) ↔ ts.map content = us.map content := by
  induction ts generalizing us with
  | nil => simp
  | cons t ts ih =>
      cases us with
      | nil => simp
      | cons u us => simp [relabel_unplace_eq_iff, ih]

namespace Grammar

open ScriptFrontend.Parser

variable {g : Grammar} {ts us : List Token} {i : Nat} {e : SyntaxError}

/-- The parser stops at the token with an index, in a list that is closed if it is open. -/
def FailsAt (g : Grammar) (ts : List Token) (i : Nat) (e : SyntaxError) : Prop :=
  ∃ c, g.program (Cursor.ofTokens ts) = .error e c ∧ c.consumed.length = i

theorem parse_eq_error_iff : g.parse ts = .error e ↔ ∃ i, g.FailsAt ts i e := by
  rw [parse]
  cases h : g.program (Cursor.ofTokens ts) with
  | ok p c => simp [FailsAt, h]
  | error e' c =>
      constructor
      · rintro ⟨⟩
        exact ⟨_, c, h, rfl⟩
      · rintro ⟨i, c', h', -⟩
        cases h.symm.trans h'
        rfl

/-- Where the parser stops, and what stands there. -/
theorem FailsAt.split (h : standard.FailsAt ts i e) :
    ∃ c w, standard.program (Cursor.ofTokens ts) = .error e c ∧
      (Cursor.ofTokens ts).Reaches w c ∧ w.length = i ∧ e.found = c.current ∧
        Post.Viable (fun ss v k => k = .endOfInput ∧ WellFormedEach ss ∧ SpelledEach ss v)
          e.expected (w.map Token.lexeme) := by
  obtain ⟨c, hc, hi⟩ := h
  have hmeets := meets_program (Cursor.closed_ofTokens ts)
  rw [hc] at hmeets
  obtain ⟨_, ⟨w, hw, rfl⟩, hfound, hviable⟩ := hmeets
  refine ⟨c, w, hc, hw, ?_, hfound, hviable⟩
  rw [← hi, hw.consumed, Cursor.consumed_ofTokens, List.append_nil, List.length_reverse]

/-- The error names the token at its index. -/
theorem FailsAt.found_eq (h : standard.FailsAt ts i e) :
    (Cursor.ofTokens ts).ahead[i]? = some e.found := by
  obtain ⟨c, w, -, hw, hlen, hfound, -⟩ := h.split
  rw [hw.ahead, hfound, ← hlen, List.getElem?_append_right (Nat.le_refl _), Nat.sub_self]
  rfl

/-- Lists that agree up to an item behind a stretch have the stretch and the item in common. -/
theorem exists_eq_append_cons_of_take_eq {α : Type} {xs ys zs w : List α} {x : α}
    (h : ys.take (w.length + 1) = xs.take (w.length + 1)) (hx : xs = w ++ x :: zs) :
    ∃ vs, ys = w ++ x :: vs := by
  have htake : ys.take (w.length + 1) = w ++ [x] := by
    rw [h, hx, List.take_append, List.take_of_length_le (Nat.le_succ _)]
    simp
  refine ⟨ys.drop (w.length + 1), ?_⟩
  calc ys = ys.take (w.length + 1) ++ ys.drop (w.length + 1) := (List.take_append_drop _ _).symm
    _ = w ++ x :: ys.drop (w.length + 1) := by rw [htake, List.append_assoc]; rfl

/-- Lists that agree up to the error token fail alike, whatever follows in either. -/
theorem FailsAt.of_agree (h : standard.FailsAt ts i e)
    (hagree : ((Cursor.ofTokens us).ahead.take (i + 1)).map Token.content =
      ((Cursor.ofTokens ts).ahead.take (i + 1)).map Token.content) :
    ∃ e', standard.FailsAt us i e' ∧ e'.expected = e.expected ∧
      e'.found.content = e.found.content := by
  obtain ⟨c, w, hc, hw, hlen, -, -⟩ := h.split
  -- Without their places the tokens up to the error are the same in both lists, and the parser never
  -- looks further; so its run on one is the relabelled run on the other.
  let r := Relabelling.unplace
  let d := (Cursor.ofTokens us).relabel r
  have hahead : (Cursor.ofTokens ts).ahead.map (Token.relabel r) =
      w.map (Token.relabel r) ++ c.current.relabel r :: c.rest.map (Token.relabel r) := by
    rw [hw.ahead, List.map_append]
    rfl
  obtain ⟨vs, hvs⟩ : ∃ vs, d.ahead = w.map (Token.relabel r) ++ c.current.relabel r :: vs := by
    refine exists_eq_append_cons_of_take_eq ?_ hahead
    rw [← Token.map_relabel_unplace_eq_iff, List.map_take, List.map_take] at hagree
    rw [List.length_map, hlen]
    exact hagree
  have hd := Cursor.reaches_of_ahead hvs
  have hs : (Cursor.ofTokens ts).Shadows r d := by
    refine ⟨by simp [d, Cursor.relabel], ?_⟩
    rw [hd.current_eq, hw.current_eq]
    cases w <;> rfl
  have herror := program_error (standard_refusesEnd id) rfl (Cursor.closed_ofTokens ts) hc hw hs hd rfl
  have hrelabel := program_relabel (r := r) (standard_refusesEnd id) rfl (Cursor.closed_ofTokens us)
  cases hu : standard.program (Cursor.ofTokens us) with
  | ok p c' =>
      rw [hu] at hrelabel
      cases hrelabel.symm.trans herror
  | error e' c' =>
      rw [hu] at hrelabel
      have heq := hrelabel.symm.trans herror
      simp only [Outcome.retell, Outcome.ending, EStateM.Result.error.injEq] at heq
      obtain ⟨he, hc'⟩ := heq
      have hexpected : (e'.relabel r).expected = (e.relabel r).expected := congrArg _ he
      refine ⟨e', ⟨c', hu, ?_⟩, hexpected, ?_⟩
      · have := congrArg (fun c : Cursor => c.consumed.length) hc'
        simpa [Cursor.relabel, d, hlen] using this
      · exact Token.relabel_unplace_eq_iff.1 (congrArg SyntaxError.found he)

/-- Behind the tokens before the error token, something that the error asks for could stand, and the
rest of a whole program behind it. -/
theorem FailsAt.viable (h : standard.FailsAt ts i e) :
    ∃ u us p, e.expected.Admits u.lexeme ∧ standard.parse (ts.take i ++ u :: us) = .ok p := by
  obtain ⟨c, w, -, hw, hlen, -, u, us, p, hu, -, hwf, hspelled⟩ := h.split
  have htake : ts.take i = w := by
    obtain ⟨vs, hvs, hle⟩ := Cursor.ahead_ofTokens_eq ts
    have hsplit := hvs.symm.trans hw.ahead
    have hlength := congrArg List.length hsplit
    simp only [List.length_append, Cursor.ahead, List.length_cons] at hlength
    have htake : (ts ++ vs).take i = ts.take i := List.take_append_of_le_length (by omega)
    rw [← htake, hsplit, ← hlen]
    exact List.take_left
  have hahead := Cursor.ahead_ofTokens_concat (w ++ u.token :: us.map Lexeme.token)
    (t := .endOfInput .nowhere) rfl
  have hlexemes : (w ++ u.token :: us.map Lexeme.token).map Token.lexeme =
      w.map Token.lexeme ++ u :: us := by
    rw [List.map_append, List.map_cons, List.map_map, Token.lexeme_token]
    congr 2
    exact List.map_id'' Token.lexeme_token us
  obtain ⟨p', hp', -⟩ :=
    yields_program hwf hspelled _ _ ⟨_, Cursor.reaches_of_ahead hahead, hlexemes⟩ rfl
  refine ⟨u.token, us.map Lexeme.token ++ [.endOfInput .nowhere], p', ?_, ?_⟩
  · rwa [Token.lexeme_token]
  · rw [htake, parse_eq_ok_iff]
    rw [List.append_assoc] at hp'
    exact ⟨_, hp'⟩

/-- The error token is the earliest that no program can have there, and what is asked for instead is
what some program has there. -/
theorem error_earliest (h : standard.FailsAt ts i e) :
    (Cursor.ofTokens ts).ahead[i]? = some e.found ∧
      (∀ us, ((Cursor.ofTokens us).ahead.take (i + 1)).map Token.content =
          ((Cursor.ofTokens ts).ahead.take (i + 1)).map Token.content →
        ∃ e', standard.FailsAt us i e' ∧ e'.expected = e.expected ∧
          e'.found.content = e.found.content) ∧
      ∃ u us p, e.expected.Admits u.lexeme ∧ standard.parse (ts.take i ++ u :: us) = .ok p :=
  ⟨h.found_eq, fun _ => h.of_agree, h.viable⟩

/-- A bracket where a call is to be closed. -/
theorem error_earliest_unclosed_call :
    standard.FailsAt (([.keyword .if_, .name "x", .mark .openBracket, .name "f", .mark .openParen,
      .number "1", .mark .closeBracket] : List Lexeme).map Lexeme.token) 6
        ⟨.kind (.mark .closeParen), Lexeme.token (.mark .closeBracket)⟩ ∧
      ∃ u us p, (Expected.kind (.mark .closeParen)).Admits u.lexeme ∧
        standard.parse (([.keyword .if_, .name "x", .mark .openBracket, .name "f",
          .mark .openParen, .number "1"] : List Lexeme).map Lexeme.token ++ u :: us) = .ok p := by
  have h : standard.FailsAt (([.keyword .if_, .name "x", .mark .openBracket, .name "f",
      .mark .openParen, .number "1", .mark .closeBracket] : List Lexeme).map Lexeme.token) 6
        ⟨.kind (.mark .closeParen), Lexeme.token (.mark .closeBracket)⟩ := ⟨_, by with_unfolding_all rfl, rfl⟩
  exact ⟨h, (error_earliest h).2.2⟩

end Grammar

end ScriptFrontend
