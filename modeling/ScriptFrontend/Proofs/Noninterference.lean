import ScriptFrontend.Proofs.EarliestError
import ScriptFrontend.Proofs.FixedPoint

/-!
Layout does not reach the front end.

Whatever two sources differ in, be it blanks, comments, escapes in strings or the names of their
files, if the scanner makes the same kinds and values of both, then everything behind the scanner
comes to the same ruling on both.  Places travel through all tokens and nodes, and no phase looks at
them.
-/

namespace ScriptFrontend

open Grammar (standard)

/-- What the phases behind the scanner make of a source, without the places in it. -/
inductive Ruling
  /-- The grammar needs something other than the token with the index. -/
  | rejected (index : Nat) (cause : Cause)
  /-- A name or a jump is at fault. -/
  | misscoped (cause : Cause)
  | accepted (scope : Scope) (text : String)

/-- The ruling on a source that the scanner reads. -/
inductive Judged (source file : String) : Ruling → Prop
  | rejected {ts : List Token} {i : Nat} {e : SyntaxError} (hts : tokenize source file = .ok ts)
      (hp : parseTokens source ts = .error (e.toDiagnostic source)) (hi : standard.FailsAt ts i e) :
      Judged source file (.rejected i (e.toDiagnostic source).cause)
  | misscoped {ts : List Token} {p : List Stmt} {d : Diagnostic}
      (hts : tokenize source file = .ok ts) (hp : parseTokens source ts = .ok p)
      (hd : analyzeSource source p = .error d) : Judged source file (.misscoped d.cause)
  | accepted {scope : Scope} {text : String} (h : Accepted source file scope text) :
      Judged source file (.accepted scope text)

section

variable {ts us : List Token} {p q : List Stmt} {i : Nat} {e e' : SyntaxError}

theorem Grammar.FailsAt.unique {j : Nat} (h : standard.FailsAt ts i e)
    (h' : standard.FailsAt ts j e') : i = j ∧ e = e' := by
  obtain ⟨c, hc, rfl⟩ := h
  obtain ⟨c', hc', rfl⟩ := h'
  cases hc.symm.trans hc'
  exact ⟨rfl, rfl⟩

namespace Judged

variable {source file : String} {d : Diagnostic} {v w : Ruling}

theorem eq_rejected (hts : tokenize source file = .ok ts) (hi : standard.FailsAt ts i e)
    (hp : parseTokens source ts = .error (e.toDiagnostic source)) (h : Judged source file v) :
    v = .rejected i (e.toDiagnostic source).cause := by
  cases h with
  | rejected hts' _ hi' =>
      cases hts.symm.trans hts'
      obtain ⟨rfl, rfl⟩ := hi.unique hi'
      rfl
  | misscoped hts' hp' _ =>
      cases hts.symm.trans hts'
      cases hp.symm.trans hp'
  | accepted h' =>
      obtain ⟨_, _, hts', hp', -⟩ := h'
      cases hts.symm.trans hts'
      cases hp.symm.trans hp'

theorem eq_misscoped (hts : tokenize source file = .ok ts) (hp : parseTokens source ts = .ok p)
    (hd : analyzeSource source p = .error d) (h : Judged source file v) :
    v = .misscoped d.cause := by
  cases h with
  | rejected hts' hp' _ =>
      cases hts.symm.trans hts'
      cases hp.symm.trans hp'
  | misscoped hts' hp' hd' =>
      cases hts.symm.trans hts'
      cases hp.symm.trans hp'
      cases hd.symm.trans hd'
      rfl
  | accepted h' =>
      obtain ⟨_, _, hts', hp', hscope', -⟩ := h'
      cases hts.symm.trans hts'
      cases hp.symm.trans hp'
      cases hd.symm.trans hscope'

theorem eq_accepted {scope : Scope} {text : String} (hs : Accepted source file scope text)
    (h : Judged source file v) : v = .accepted scope text := by
  obtain ⟨ts, p, hts, hp, hscope, rfl⟩ := hs
  cases h with
  | rejected hts' hp' _ =>
      cases hts.symm.trans hts'
      cases hp.symm.trans hp'
  | misscoped hts' hp' hd' =>
      cases hts.symm.trans hts'
      cases hp.symm.trans hp'
      cases hscope.symm.trans hd'
  | accepted h' =>
      obtain ⟨_, _, hts', hp', hscope', rfl⟩ := h'
      cases hts.symm.trans hts'
      cases hp.symm.trans hp'
      cases hscope.symm.trans hscope'
      rfl

/-- There is one ruling on each source. -/
theorem unique (hv : Judged source file v) (hw : Judged source file w) : v = w := by
  cases hv with
  | rejected hts hp hi => exact (hw.eq_rejected hts hi hp).symm
  | misscoped hts hp hd => exact (hw.eq_misscoped hts hp hd).symm
  | accepted h => exact (hw.eq_accepted h).symm

end Judged

/-! ### The phases on tokens of the same content -/

/-- The end of input that closes a list agrees as well. -/
theorem Token.content_ahead (h : ts.map content = us.map content) :
    (Cursor.ofTokens ts).ahead.map content = (Cursor.ofTokens us).ahead.map content := by
  have hahead (vs : List Token) : (Cursor.ofTokens (vs.map (relabel .unplace))).ahead =
      (Cursor.ofTokens vs).ahead.map (relabel .unplace) := by
    rw [Cursor.ofTokens_relabel fun _ => rfl]
    rfl
  rw [← map_relabel_unplace_eq_iff] at h ⊢
  rw [← hahead, ← hahead, h]

/-- A syntax error comes at the same index of both, for the same reason. -/
theorem failsAt_of_content (h : ts.map Token.content = us.map Token.content)
    (hi : standard.FailsAt ts i e) :
    ∃ e', standard.FailsAt us i e' ∧ e'.expected = e.expected ∧
      e'.found.content = e.found.content := by
  refine hi.of_agree ?_
  rw [List.map_take, List.map_take, Token.content_ahead h]

/-- A program that is read from one is read from the other, at other places. -/
theorem parse_of_content (h : ts.map Token.content = us.map Token.content)
    (hp : standard.parse ts = .ok p) :
    ∃ q, standard.parse us = .ok q ∧ p.map Stmt.unplaced = q.map Stmt.unplaced := by
  have hunplaced (vs : List Token) : standard.parse (vs.map (Token.relabel .unplace)) =
      ((standard.parse vs).map (List.map (Stmt.relabel .unplace))).mapError
        (SyntaxError.relabel .unplace) := by
    have hplain : standard.relabel .unplace = standard := rfl
    have hvs : (standard.relabel .unplace).parse (vs.map (Token.relabel .unplace)) = _ :=
      Grammar.parse_relabel (Grammar.standard_refusesEnd id) rfl fun _ => rfl
    rwa [hplain] at hvs
  have heq := hunplaced ts
  rw [Token.map_relabel_unplace_eq_iff.2 h, hunplaced us, hp] at heq
  cases hq : standard.parse us with
  | error e => rw [hq] at heq; cases heq
  | ok q =>
      rw [hq] at heq
      exact ⟨q, rfl, (Except.ok.inj heq).symm⟩

/-- A diagnostic of the analysis of one comes from the analysis of the other, at another place. -/
theorem analyze_error_of_unplaced {d : Diagnostic} (h : p.map Stmt.unplaced = q.map Stmt.unplaced)
    (hd : analyze p = .error d) : ∃ d', analyze q = .error d' ∧ d'.cause = d.cause := by
  have heq : (analyze q).mapError (Diagnostic.relabel .unplace) =
      .error (d.relabel .unplace) := by
    rw [← analyze_relabel rfl q]
    change analyze (q.map Stmt.unplaced) = _
    rw [← h]
    exact (analyze_relabel rfl p).trans (by rw [hd]; rfl)
  obtain ⟨d', hd', hrelabel⟩ := mapError_eq_error_iff.1 heq
  have hcause : (d'.relabel .unplace).cause = (d.relabel .unplace).cause := by rw [hrelabel]
  exact ⟨d', hd', hcause⟩

end

/-- Two sources of the same kinds and values come to the same ruling: the same scope and canonical
text, or a fault of the same phase for the same cause, and a syntax error at the same token. -/
theorem judged_alike {source₁ source₂ file₁ file₂ : String} {ts₁ ts₂ : List Token}
    (hts₁ : tokenize source₁ file₁ = .ok ts₁) (hts₂ : tokenize source₂ file₂ = .ok ts₂)
    (h : ts₁.map Token.content = ts₂.map Token.content) :
    ∃ v, Judged source₁ file₁ v ∧ Judged source₂ file₂ v := by
  cases hp₁ : standard.parse ts₁ with
  | error e₁ =>
      obtain ⟨i, hi₁⟩ := Grammar.parse_eq_error_iff.1 hp₁
      obtain ⟨e₂, hi₂, hexpected, hfound⟩ := failsAt_of_content h hi₁
      have hp₂ := Grammar.parse_eq_error_iff.2 ⟨i, hi₂⟩
      have hcause : (e₂.toDiagnostic source₂).cause = (e₁.toDiagnostic source₁).cause := by
        have hvalue : e₂.found.value = e₁.found.value := congrArg Prod.snd hfound
        simp only [SyntaxError.toDiagnostic, Diagnostic.unexpectedToken, hexpected, hvalue]
      refine ⟨_, .rejected hts₁ (parseTokens_eq_error_iff.2 ⟨e₁, hp₁, rfl⟩) hi₁, ?_⟩
      rw [← hcause]
      exact .rejected hts₂ (parseTokens_eq_error_iff.2 ⟨e₂, hp₂, rfl⟩) hi₂
  | ok p₁ =>
      obtain ⟨p₂, hp₂, hunplaced⟩ := parse_of_content h hp₁
      have hp₁ : parseTokens source₁ ts₁ = .ok p₁ := parseTokens_eq_ok_iff.2 hp₁
      have hp₂ : parseTokens source₂ ts₂ = .ok p₂ := parseTokens_eq_ok_iff.2 hp₂
      cases hscope₁ : analyze p₁ with
      | error d₁ =>
          obtain ⟨d₂, hscope₂, hcause⟩ := analyze_error_of_unplaced hunplaced hscope₁
          have hd₁ : analyzeSource source₁ p₁ = .error (d₁.withSource source₁) :=
            analyzeSource_eq_error_iff.2 ⟨d₁, hscope₁, rfl⟩
          have hd₂ : analyzeSource source₂ p₂ = .error (d₂.withSource source₂) :=
            analyzeSource_eq_error_iff.2 ⟨d₂, hscope₂, rfl⟩
          refine ⟨_, .misscoped hts₁ hp₁ hd₁, ?_⟩
          have hsame : (d₂.withSource source₂).cause = (d₁.withSource source₁).cause := hcause
          rw [← hsame]
          exact .misscoped hts₂ hp₂ hd₂
      | ok scope =>
          have hscope₂ := analyze_congr hunplaced hscope₁
          exact ⟨.accepted scope (renderProgram p₁),
            .accepted ⟨ts₁, p₁, hts₁, hp₁, analyzeSource_eq_ok_iff.2 hscope₁, rfl⟩,
            .accepted ⟨ts₂, p₂, hts₂, hp₂, analyzeSource_eq_ok_iff.2 hscope₂,
              (renderProgram_congr hunplaced).symm⟩⟩

/-- A line break in a string, escaped and as it is. -/
theorem judged_alike_print :
    ∃ v, Judged "print \"\\n\"" "a.qk" v ∧ Judged "// now\n print\n\"\n\"" "b.qk" v := by
  let ts₁ : List Token := [
    ⟨.keyword .print, "print", ⟨⟨0, 1, 1, "a.qk"⟩, ⟨5, 1, 6, "a.qk"⟩⟩⟩,
    ⟨.text, "\n", ⟨⟨6, 1, 7, "a.qk"⟩, ⟨10, 1, 11, "a.qk"⟩⟩⟩,
    .endOfInput ⟨10, 1, 11, "a.qk"⟩]
  let ts₂ : List Token := [
    ⟨.keyword .print, "print", ⟨⟨8, 2, 2, "b.qk"⟩, ⟨13, 2, 7, "b.qk"⟩⟩⟩,
    ⟨.text, "\n", ⟨⟨14, 3, 1, "b.qk"⟩, ⟨17, 4, 2, "b.qk"⟩⟩⟩,
    .endOfInput ⟨17, 4, 2, "b.qk"⟩]
  have hts₁ : tokenize "print \"\\n\"" "a.qk" = .ok ts₁ := by with_unfolding_all rfl
  have hts₂ : tokenize "// now\n print\n\"\n\"" "b.qk" = .ok ts₂ := by with_unfolding_all rfl
  exact judged_alike hts₁ hts₂ rfl

end ScriptFrontend
