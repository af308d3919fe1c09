import ScriptFrontend.Grammar.Parser
import ScriptFrontend.Proofs.Lexeme

/-!
Moves of a cursor.

`c.Reaches w d` says that the cursor `c` becomes `d` by passing over the tokens `w`, and `c.Reads w d`
that it passes over tokens with the lexemes `w`.  A cursor is closed if the last token ahead of it is
the end of input; a closed cursor on any other token can advance, and that is the only way in which
productions move.
-/

namespace ScriptFrontend.Cursor

def ahead (c : Cursor) : List Token :=
  c.current :: c.rest

structure Reaches (c : Cursor) (w : List Token) (d : Cursor) : Prop where
  consumed : d.consumed = w.reverse ++ c.consumed
  ahead : c.ahead = w ++ d.ahead

def Closed (c : Cursor) : Prop :=
  ∃ ts t, c.ahead = ts ++ [t] ∧ t.kind = .endOfInput

variable {c d e : Cursor} {v w : List Token} {t : Token}

theorem Reaches.refl (c : Cursor) : c.Reaches [] c :=
  ⟨rfl, rfl⟩

theorem Reaches.trans (h : c.Reaches v d) (h' : d.Reaches w e) : c.Reaches (v ++ w) e where
  consumed := by rw [h'.consumed, h.consumed, List.reverse_append, List.append_assoc]
  ahead := by rw [h.ahead, h'.ahead, List.append_assoc]

theorem ext_ahead (hc : c.consumed = d.consumed) (ha : c.ahead = d.ahead) : c = d := by
  obtain ⟨_, _, _⟩ := c
  obtain ⟨_, _, _⟩ := d
  simp_all [Cursor.ahead]

theorem Reaches.unique (h : c.Reaches w d) (h' : c.Reaches w e) : d = e :=
  ext_ahead (h.consumed.trans h'.consumed.symm)
    (List.append_cancel_left (h.ahead.symm.trans h'.ahead))

@[simp] theorem reaches_nil : c.Reaches [] d ↔ d = c :=
  ⟨fun h => h.unique (.refl c), fun h => h ▸ .refl c⟩

theorem reaches_of_ahead {ts : List Token} (h : c.ahead = w ++ t :: ts) :
    c.Reaches w ⟨w.reverse ++ c.consumed, t, ts⟩ :=
  ⟨rfl, h⟩

/-- A move over two stretches of tokens stops between them. -/
theorem Reaches.split (h : c.Reaches (v ++ w) e) : ∃ d, c.Reaches v d ∧ d.Reaches w e := by
  have hne : w ++ e.ahead ≠ [] := by simp [Cursor.ahead]
  obtain ⟨t, ts, hts⟩ := List.exists_cons_of_ne_nil hne
  refine ⟨⟨v.reverse ++ c.consumed, t, ts⟩, ⟨rfl, ?_⟩, ⟨?_, hts.symm⟩⟩
  · rw [h.ahead, List.append_assoc, hts]; rfl
  · rw [h.consumed, List.reverse_append, List.append_assoc]

theorem Reaches.length (h : c.Reaches w d) : c.rest.length = w.length + d.rest.length := by
  have := congrArg List.length h.ahead
  simp only [Cursor.ahead, List.length_cons, List.length_append] at this
  omega

theorem Reaches.length_le (h : c.Reaches w d) : d.rest.length ≤ c.rest.length := by
  have := h.length
  omega

theorem Reaches.length_lt (h : c.Reaches w d) (hw : w ≠ []) : d.rest.length < c.rest.length := by
  have := h.length
  have := List.length_pos_iff.2 hw
  omega

theorem Reaches.ne_nil (h : c.Reaches w d) (hl : d.rest.length < c.rest.length) : w ≠ [] := by
  rintro rfl
  have := h.length
  simp at this
  omega

theorem Reaches.eq_nil (h : c.Reaches w d) (hl : ¬ d.rest.length < c.rest.length) : w = [] :=
  Decidable.byContradiction fun hw => hl (h.length_lt hw)

/-- The first token that a move passes over is the current one. -/
theorem Reaches.current (h : c.Reaches (t :: w) d) : c.current = t :=
  (List.cons.inj h.ahead).1

/-- The current token is the next one behind the move, or the first that it passes over. -/
theorem Reaches.current_eq (h : c.Reaches w d) : c.current = w.headD d.current := by
  cases w with
  | nil => rw [reaches_nil.1 h]; rfl
  | cons t w => exact h.current

theorem Reaches.closed (h : c.Reaches w d) (hc : c.Closed) : d.Closed := by
  obtain ⟨ts, t, hts, ht⟩ := hc
  have hd : d.ahead ≠ [] := by simp [Cursor.ahead]
  refine ⟨d.ahead.dropLast, t, ?_, ht⟩
  have hlast : d.ahead.getLast hd = t := by
    have := congrArg List.getLast? (h.ahead.symm.trans hts)
    rw [List.getLast?_append, List.getLast?_concat, List.getLast?_eq_some_getLast hd] at this
    exact Option.some.inj this
  rw [← hlast, List.dropLast_concat_getLast]

theorem Closed.rest_ne_nil (hc : c.Closed) (hk : c.current.kind ≠ .endOfInput) :
    c.rest ≠ [] := by
  obtain ⟨ts, t, hts, ht⟩ := hc
  intro hr
  rw [Cursor.ahead, hr] at hts
  cases ts with
  | nil => simp at hts; exact hk (hts ▸ ht)
  | cons _ ts => simp at hts

theorem Closed.kind_of_rest_nil (hc : c.Closed) (hr : c.rest = []) :
    c.current.kind = .endOfInput :=
  Decidable.byContradiction fun hk => hc.rest_ne_nil hk hr

theorem reaches_advance (h : c.rest ≠ []) : c.Reaches [c.current] c.advance := by
  obtain ⟨t, ts, hts⟩ := List.exists_cons_of_ne_nil h
  constructor <;> simp [advance, Cursor.ahead, hts]

theorem Closed.reaches_advance (hc : c.Closed) (hk : c.current.kind ≠ .endOfInput) :
    c.Reaches [c.current] c.advance :=
  Cursor.reaches_advance (hc.rest_ne_nil hk)

/-- A move over a first token is an advance and a move over the others. -/
theorem Reaches.advance (h : c.Reaches (t :: w) d) : c.advance.Reaches w d := by
  have hr : c.rest ≠ [] := by
    intro hr
    have := h.ahead
    simp [Cursor.ahead, hr] at this
  obtain ⟨e, h₁, h₂⟩ := Reaches.split (v := [t]) h
  rw [← h.current] at h₁
  rwa [h₁.unique (Cursor.reaches_advance hr)] at h₂

/-! ### Moves over lexemes -/

section

variable {c d e : Cursor} {v w : List Lexeme} {l : Lexeme}

/-- The cursor becomes another one by passing over tokens with these lexemes. -/
def Reads (c : Cursor) (w : List Lexeme) (d : Cursor) : Prop :=
  ∃ ts, c.Reaches ts d ∧ ts.map Token.lexeme = w

theorem Reads.refl (c : Cursor) : c.Reads [] c :=
  ⟨[], .refl c, rfl⟩

theorem Reads.trans (h : c.Reads v d) (h' : d.Reads w e) : c.Reads (v ++ w) e := by
  obtain ⟨ts, hts, rfl⟩ := h
  obtain ⟨us, hus, rfl⟩ := h'
  exact ⟨ts ++ us, hts.trans hus, List.map_append⟩

theorem reads_nil : c.Reads [] d ↔ d = c := by
  refine ⟨?_, fun h => h ▸ .refl c⟩
  rintro ⟨ts, hts, h⟩
  rw [List.map_eq_nil_iff.1 h] at hts
  exact reaches_nil.1 hts

theorem Reads.split (h : c.Reads (v ++ w) e) : ∃ d, c.Reads v d ∧ d.Reads w e := by
  obtain ⟨ts, hts, h⟩ := h
  obtain ⟨us, vs, rfl, hus, hvs⟩ := List.map_eq_append_iff.1 h
  obtain ⟨d, hd, hde⟩ := hts.split
  exact ⟨d, ⟨us, hd, hus⟩, ⟨vs, hde, hvs⟩⟩

theorem Reads.length (h : c.Reads w d) : c.rest.length = w.length + d.rest.length := by
  obtain ⟨ts, hts, rfl⟩ := h
  rw [List.length_map, hts.length]

theorem Reads.closed (h : c.Reads w d) (hc : c.Closed) : d.Closed := by
  obtain ⟨ts, hts, -⟩ := h
  exact hts.closed hc

/-- The current kind is the first that is passed over, or the one behind if none is. -/
theorem Reads.kind_eq (h : c.Reads w d) : c.current.kind = Lexeme.front w d.current.kind := by
  obtain ⟨ts, hts, rfl⟩ := h
  rw [hts.current_eq]
  cases ts with
  | nil => rfl
  | cons t ts => exact (t.kind_lexeme).symm

theorem Reads.lexeme_eq (h : c.Reads (l :: w) d) : c.current.lexeme = l := by
  obtain ⟨ts, hts, h⟩ := h
  obtain ⟨t, us, rfl, rfl, -⟩ := List.map_eq_cons_iff.1 h
  rw [hts.current]

theorem Reads.advance (h : c.Reads (l :: w) d) : c.advance.Reads w d := by
  obtain ⟨ts, hts, h⟩ := h
  obtain ⟨t, us, rfl, -, rfl⟩ := List.map_eq_cons_iff.1 h
  exact ⟨us, hts.advance, rfl⟩

theorem Closed.reads_advance (hc : c.Closed) (hk : c.current.kind ≠ .endOfInput) :
    c.Reads [c.current.lexeme] c.advance :=
  ⟨[c.current], hc.reaches_advance hk, rfl⟩

end

/-! ### The cursor before a whole token list -/

@[simp] theorem consumed_ofTokens (ts : List Token) : (ofTokens ts).consumed = [] := by
  cases ts <;> rfl

theorem closed_ofTokens (ts : List Token) : (ofTokens ts).Closed := by
  cases ts with
  | nil => exact ⟨[], .endOfInput .nowhere, rfl, rfl⟩
  | cons t ts =>
      have hne := List.cons_ne_nil t ts
      by_cases h : ((t :: ts).getLast hne).kind = .endOfInput
      · refine ⟨(t :: ts).dropLast, (t :: ts).getLast hne, ?_, h⟩
        rw [List.dropLast_concat_getLast]
        simp [ofTokens, Cursor.ahead, closing, h]
      · exact ⟨t :: ts, .endOfInput ((t :: ts).getLast hne).span.stop,
          by simp [ofTokens, Cursor.ahead, closing, h], rfl⟩

/-- The tokens ahead are those of the list, and at most one more. -/
theorem ahead_ofTokens_eq (ts : List Token) :
    ∃ us, (ofTokens ts).ahead = ts ++ us ∧ us.length ≤ 1 := by
  cases ts with
  | nil => exact ⟨_, rfl, Nat.le_refl _⟩
  | cons t ts =>
      refine ⟨_, rfl, ?_⟩
      rw [closing]
      split
      · exact Nat.zero_le _
      · exact Nat.le_refl _

theorem prefix_ahead_ofTokens (ts : List Token) : ts <+: (ofTokens ts).ahead := by
  obtain ⟨us, hus, -⟩ := ahead_ofTokens_eq ts
  exact ⟨us, hus.symm⟩

/-- An open token list is closed by the end of input. -/
theorem ahead_ofTokens {ts : List Token} (h : ∀ t ∈ ts, t.kind ≠ .endOfInput) :
    ∃ p, (ofTokens ts).ahead = ts ++ [.endOfInput p] := by
  cases ts with
  | nil => exact ⟨.nowhere, rfl⟩
  | cons t ts =>
      have hlast := h _ (List.getLast_mem (List.cons_ne_nil t ts))
      exact ⟨_, by simp [ofTokens, Cursor.ahead, closing, hlast]; rfl⟩

/-- A list that ends with the end of input stays as it is. -/
theorem ahead_ofTokens_concat (ts : List Token) {t : Token} (h : t.kind = .endOfInput) :
    (ofTokens (ts ++ [t])).ahead = ts ++ [t] := by
  cases ts with
  | nil => simp [ofTokens, Cursor.ahead, closing, h]
  | cons u ts =>
      have hlast : (u :: (ts ++ [t])).getLast (List.cons_ne_nil _ _) = t :=
        List.getLast_concat (l := u :: ts)
      rw [List.cons_append, ofTokens, closing, hlast, if_pos h, List.append_nil, Cursor.ahead]

end ScriptFrontend.Cursor
