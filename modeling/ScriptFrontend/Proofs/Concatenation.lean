import ScriptFrontend.Proofs.Analysis
import ScriptFrontend.Proofs.Lossless
import ScriptFrontend.Proofs.TextLiteral

/-!
Sources put together line by line.

No token but a string goes on over a line feed, and a string that is open at one would have stopped
the scanner.  So what the scanner reads in front of a line feed does not depend on what stands
behind it, and behind it the scanner goes on as at the start of a file, only further down.
-/

namespace ScriptFrontend

/-! ### Rules in front of a line feed -/

namespace Rule

variable {r : Rule} {cs lexeme : List Char} {n : Nat}

/-- Only blanks and strings go on over the end of a line. -/
theorem newline_not_mem (h : r.Shape lexeme) (hblank : r ≠ .blank) (htext : r ≠ .text) :
    '\n' ∉ lexeme := by
  cases r with
  | word => exact fun hmem => not_isBlank_of_isWord h hmem rfl
  | number => exact fun hmem => not_isBlank_of_isNumeral h hmem rfl
  | blank => exact (hblank rfl).elim
  | text => exact (htext rfl).elim
  | comment =>
      obtain ⟨body, rfl, hbody⟩ := h
      simpa using hbody
  | mark m =>
      cases h
      cases m <;> decide

/-- A literal is taken whole, whatever is put behind the text that it starts. -/
theorem first?_text_append (h : first? cs = some (.text, n)) (rest : List Char) :
    first? (cs ++ rest) = some (.text, n) := by
  obtain ⟨tail, m, rfl, -⟩ := reach?_text_eq_some_iff.1 (reach?_of_first? h)
  obtain ⟨ps, after, hps⟩ := first?_quote_iff.1 ⟨n, h⟩
  rw [hps, first?_literal] at h
  cases h
  rw [hps, List.append_assoc, first?_literal]

theorem eq_text_of_first? (h : first? ('"' :: cs) = some (r, n)) : r = .text := by
  cases hclosing : Text.Escape.closing? cs with
  | none =>
      rw [first?_quote_eq_none hclosing] at h
      cases h
  | some m =>
      cases (first?_text hclosing).symm.trans h
      rfl

theorem first?_blanks (hne : cs ≠ []) (h : ∀ c ∈ cs, Text.isBlank c) :
    first? cs = some (.blank, cs.length) := by
  obtain ⟨c, cs, rfl⟩ := List.exists_cons_of_ne_nil hne
  rw [List.forall_mem_cons] at h
  have hrun : run Text.isBlank cs = cs.length := by
    have := run_append h.2 []
    rwa [List.append_nil] at this
  rw [first?_blank h.1, hrun, List.length_cons, Nat.add_comm]

/-- The rule that applies in front of a line feed takes what it takes at the end of a text, unless
it takes the blanks up to the line feed. -/
theorem first?_append_newline (h : first? cs = some (r, n)) (rest : List Char) :
    first? (cs ++ '\n' :: rest) = some (r, n) ∨ r = .blank ∧ n = cs.length := by
  have hne := ne_nil_of_first? h
  cases hfirst : first? (cs ++ '\n' :: rest) with
  | none =>
      have hsplit : cs ++ '\n' :: rest = cs.take n ++ (cs.drop n ++ '\n' :: rest) := by
        rw [← List.append_assoc, List.take_append_drop]
      exact absurd (shape_take (reach?_of_first? h)) (first?_eq_none_iff.1 hfirst r _ _ hsplit)
  | some qm =>
      obtain ⟨q, m⟩ := qm
      by_cases hm : m ≤ cs.length
      · left
        rw [← first?_of_append hfirst hm, h]
      · have htake : (cs ++ '\n' :: rest).take m = cs ++ ('\n' :: rest).take (m - cs.length) := by
          rw [List.take_append, List.take_of_length_le (by omega)]
        obtain ⟨k, hk⟩ : ∃ k, m - cs.length = k + 1 := Nat.exists_eq_add_one.2 (by omega)
        rw [hk, List.take_succ_cons] at htake
        have hreach := reach?_of_first? hfirst
        have hshape := shape_take hreach
        rw [htake] at hshape
        cases q with
        | blank =>
            right
            have hblank : ∀ c ∈ cs, Text.isBlank c := fun c hc =>
              hshape.2 c (List.mem_append_left _ hc)
            cases (first?_blanks hne hblank).symm.trans h
            exact ⟨rfl, rfl⟩
        | text =>
            left
            obtain ⟨tail, _, htail, -⟩ := reach?_text_eq_some_iff.1 hreach
            obtain ⟨c, cs, rfl⟩ := List.exists_cons_of_ne_nil hne
            obtain rfl := (List.cons.inj htail).1
            obtain rfl := eq_text_of_first? h
            rw [← hfirst, first?_text_append h]
        | word | number | comment | mark =>
            exact absurd (List.mem_append_right cs (List.mem_cons_self ..))
              (newline_not_mem hshape nofun nofun)

end Rule

/-! ### The scanner in front of a line feed -/

namespace Scanner

variable {s s' : Scanner} {r : Rule} {n : Nat} {us : List Token}

/-- The scanner passes over the blanks in front of it. -/
theorem tokens_eq_skip_run (s : Scanner) :
    s.tokens = (s.skip (Rule.run Text.isBlank s.rest)).tokens := by
  obtain ⟨p, cs⟩ := s
  cases cs with
  | nil => rfl
  | cons c cs =>
      by_cases hc : Text.isBlank c
      · have hrun : Rule.run Text.isBlank (c :: cs) = 1 + Rule.run Text.isBlank cs := by
          rw [Rule.run, List.takeWhile_cons_of_pos hc, List.length_cons, Nat.add_comm]
          rfl
        rw [tokens_some (List.cons_ne_nil c cs) (Rule.first?_blank hc), ← hrun]
        cases (skip ⟨p, c :: cs⟩ (Rule.run Text.isBlank (c :: cs))).tokens <;> rfl
      · rw [Rule.run_cons_of_neg (Bool.eq_false_iff.2 hc)]
        rfl

theorem tokens_blanks {cs : List Char} (h : ∀ c ∈ cs, Text.isBlank c) (p : Position)
    (rest : List Char) : tokens ⟨p, cs ++ rest⟩ = tokens ⟨p.after cs, rest⟩ := by
  have hskip : skip ⟨p, cs ++ rest⟩ cs.length = ⟨p.after cs, rest⟩ := by
    simp only [skip, List.take_left, List.drop_left]
  rw [tokens_eq_skip_run, Rule.run_append h, skip_add, hskip]
  exact (tokens_eq_skip_run ⟨p.after cs, rest⟩).symm

/-- A step in front of a line feed is a step at the end of a text. -/
theorem tokens_append_newline (h : Rule.first? s.rest = some (r, n)) (rest : List Char) :
    tokens ⟨s.position, s.rest ++ '\n' :: rest⟩ =
      (tokens ⟨(s.skip n).position, (s.skip n).rest ++ '\n' :: rest⟩).map
        ((s.token? r n).toList ++ ·) := by
  have hreach := Rule.reach?_of_first? h
  have hle := Rule.reach?_le hreach
  rcases Rule.first?_append_newline h rest with hfirst | ⟨rfl, rfl⟩
  · have hskip : skip ⟨s.position, s.rest ++ '\n' :: rest⟩ n =
        ⟨(s.skip n).position, (s.skip n).rest ++ '\n' :: rest⟩ := by
      simp only [skip, List.take_append_of_le_length hle, List.drop_append_of_le_length hle]
    have htoken : token? ⟨s.position, s.rest ++ '\n' :: rest⟩ r n = s.token? r n := by
      simp only [token?, hskip, List.take_append_of_le_length hle]
    rw [tokens_some (by simp) hfirst, hskip, htoken]
  · have hblank := (Rule.shape_take hreach).2
    rw [List.take_length] at hblank
    rw [tokens_blanks hblank]
    simp only [skip, List.take_length, List.drop_length, List.nil_append]
    cases tokens ⟨s.position.after s.rest, '\n' :: rest⟩ <;> rfl

/-- Behind a text that the scanner reads and a line feed, it goes on with what follows. -/
theorem Run.append_newline (h : Run s us s') (hend : s'.rest = []) (rest : List Char) :
    Scanner.tokens ⟨s.position, s.rest ++ '\n' :: rest⟩ =
      (Scanner.tokens ⟨s'.position.step '\n', rest⟩).map (us ++ ·) := by
  induction h with
  | refl s =>
      have hblank : ∀ c ∈ ['\n'], Text.isBlank c := List.forall_mem_singleton.2 rfl
      have hfeed := tokens_blanks hblank s.position rest
      rw [hend]
      refine hfeed.trans ?_
      rw [Position.after_cons, Position.after_nil]
      cases Scanner.tokens ⟨s.position.step '\n', rest⟩ <;> rfl
  | @step s s' r n us hr h ih =>
      rw [tokens_append_newline hr, ih hend]
      cases Scanner.tokens ⟨s'.position.step '\n', rest⟩ <;> simp [Except.map]

end Scanner

/-! ### The scanner in another place -/

/-- A move that carries the text along: what is read behind a place before the move is read behind
the moved place after it. -/
def Relabelling.Rigid (move : Relabelling) : Prop :=
  ∀ p c, move.place (p.step c) = (move.place p).step c

section

variable {move : Relabelling}

theorem Relabelling.Rigid.place_after (hmove : move.Rigid) (p : Position) (cs : List Char) :
    move.place (p.after cs) = (move.place p).after cs := by
  induction cs generalizing p with
  | nil => rfl
  | cons c cs ih => rw [Position.after_cons, Position.after_cons, ih, hmove]

namespace Scanner

variable {s s' : Scanner} {us : List Token}

def relabel (move : Relabelling) (s : Scanner) : Scanner :=
  { s with position := move.place s.position }

theorem skip_relabel (hmove : move.Rigid) (s : Scanner) (n : Nat) :
    (s.relabel move).skip n = (s.skip n).relabel move := by
  simp only [skip, relabel, hmove.place_after]

theorem token?_relabel (hmove : move.Rigid) (s : Scanner) (r : Rule) (n : Nat) :
    (s.relabel move).token? r n = (s.token? r n).map (Token.relabel move) := by
  rw [token?, token?, skip_relabel hmove, Option.map_map]
  rfl

theorem Run.relabel (hmove : move.Rigid) (h : Run s us s') :
    Run (s.relabel move) (us.map (Token.relabel move)) (s'.relabel move) := by
  induction h with
  | refl s => exact .refl _
  | @step s s' r n us hr h ih =>
      have htokens : ((s.token? r n).toList ++ us).map (Token.relabel move) =
          ((s.relabel move).token? r n).toList ++ us.map (Token.relabel move) := by
        rw [List.map_append, token?_relabel hmove, Option.toList_map]
      rw [htokens]
      refine .step hr ?_
      rw [skip_relabel hmove]
      exact ih

end Scanner

end

/-! ### Sources -/

def Relabelling.below (above : List Char) : Relabelling where
  place p := { p with
    offset := p.offset + (Text.byteLength above + 1)
    line := p.line + (1 + above.count '\n') }

end ScriptFrontend
