import ScriptFrontend.Proofs.Place
import ScriptFrontend.Proofs.Shape
import ScriptFrontend.Proofs.Lexes

/-!
Runs of the scanner.

A run leads from one scanner to a later one and collects the tokens between them.  The scanner
succeeds exactly if a run leads to the end of the text, and fails exactly if one leads to a character
where no rule applies.  A run reads nothing but what it moves over, so it is a run of that text alone
as well.
-/

namespace ScriptFrontend.Scanner

variable {s s' : Scanner} {us : List Token}

/-- The first rule that applies, some number of times. -/
inductive Run : Scanner → List Token → Scanner → Prop
  | refl (s : Scanner) : Run s [] s
  | step {s s' : Scanner} {r : Rule} {n : Nat} {us : List Token}
      (hr : Rule.first? s.rest = some (r, n)) (h : Run (s.skip n) us s') :
      Run s ((s.token? r n).toList ++ us) s'

theorem Run.tokens (h : Run s us s') : s.tokens = s'.tokens.map (us ++ ·) := by
  induction h with
  | refl s => cases h : s.tokens <;> simp [Except.map]
  | @step s s' r n us hr h ih =>
      rw [tokens_some (Rule.ne_nil_of_first? hr) hr, ih]
      cases s'.tokens <;> simp [Except.map]

/-- The scanner runs on until the text ends or no rule applies. -/
theorem exists_run (s : Scanner) : ∃ us s', Run s us s' ∧ Rule.first? s'.rest = none := by
  induction hn : s.rest.length using Nat.strongRecOn generalizing s with
  | ind n ih =>
      cases hr : Rule.first? s.rest with
      | none => exact ⟨[], s, .refl s, hr⟩
      | some rn =>
          obtain ⟨r, m⟩ := rn
          have hlt := length_rest_skip_lt (Rule.ne_nil_of_first? hr) (Rule.first?_pos hr)
          obtain ⟨us, s', hrun, hstop⟩ := ih _ (hn ▸ hlt) (s.skip m) rfl
          exact ⟨_, s', .step hr hrun, hstop⟩

/-- The scanner succeeds with the tokens of a run to the end of the text. -/
theorem run_of_tokens_eq_ok {ts : List Token} (h : s.tokens = .ok ts) :
    ∃ us s', Run s us s' ∧ s'.rest = [] ∧ ts = us ++ [.endOfInput s'.position] := by
  obtain ⟨us, s', hrun, hstop⟩ := s.exists_run
  rw [hrun.tokens] at h
  by_cases hend : s'.rest = []
  · rw [tokens_nil hend] at h
    cases h
    exact ⟨us, s', hrun, hend, rfl⟩
  · rw [tokens_none hend hstop] at h
    cases h

/-- The scanner fails at the end of a run that stops before a character. -/
theorem run_of_tokens_eq_error {d : Diagnostic} (h : s.tokens = .error d) :
    ∃ us s' c rest, Run s us s' ∧ s'.rest = c :: rest ∧ Rule.first? s'.rest = none ∧
      d = ⟨.unrecognised c.toString, s'.position, none⟩ := by
  obtain ⟨us, s', hrun, hstop⟩ := s.exists_run
  rw [hrun.tokens] at h
  cases hrest : s'.rest with
  | nil =>
      rw [tokens_nil hrest] at h
      cases h
  | cons c rest =>
      rw [tokens_none (by simp [hrest]) hstop] at h
      cases h
      refine ⟨us, s', c, rest, hrun, hrest, hrest ▸ hstop, ?_⟩
      rw [front, hrest]
      rfl

/-- A run moves over the front of the text, and is a run of what it moves over alone. -/
theorem Run.alone (h : Run s us s') :
    ∃ cs, s.rest = cs ++ s'.rest ∧ s'.position = s.position.after cs ∧
      Run ⟨s.position, cs⟩ us ⟨s'.position, []⟩ := by
  induction h with
  | refl s => exact ⟨[], rfl, rfl, .refl _⟩
  | @step s s' r n us hr h ih =>
      obtain ⟨cs, hrest, hposition, hrun⟩ := ih
      have hn : n ≤ s.rest.length := Rule.reach?_le (Rule.reach?_of_first? hr)
      have hsplit : s.rest = (s.rest.take n ++ cs) ++ s'.rest := by
        rw [List.append_assoc, ← hrest]
        exact (List.take_append_drop n s.rest).symm
      refine ⟨s.rest.take n ++ cs, hsplit, ?_, ?_⟩
      · rw [Position.after_append]
        exact hposition
      · have hlength : (s.rest.take n).length = n := List.length_take_of_le hn
        have htake : (s.rest.take n ++ cs).take n = s.rest.take n := List.take_left' hlength
        have hdrop : (s.rest.take n ++ cs).drop n = cs := List.drop_left' hlength
        have hfirst : Rule.first? (s.rest.take n ++ cs) = some (r, n) := by
          rw [hsplit] at hr
          refine Rule.first?_of_append hr ?_
          rw [List.length_append, hlength]
          exact Nat.le_add_right n _
        have htoken : Scanner.token? ⟨s.position, s.rest.take n ++ cs⟩ r n = s.token? r n := by
          simp only [token?, skip, htake]
        rw [← htoken]
        refine .step hfirst ?_
        rw [skip, htake, hdrop]
        exact hrun

end ScriptFrontend.Scanner
