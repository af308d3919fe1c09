import Mathlib.Control.Monad.Basic
import ScriptFrontend.Proofs.Analysis
import ScriptFrontend.Proofs.RoundTrip

/-!
Canonical texts are fixed points of the front end.

A canonical text is read back as the program it was written from, and neither the analysis nor the
renderer looks at the places that reading it back gives to the program.
-/

namespace ScriptFrontend

/-- Every phase succeeds on the source: the analysis with the scope, the last with the text. -/
def Accepted (source file : String) (scope : Scope) (text : String) : Prop :=
  ∃ ts p, tokenize source file = .ok ts ∧ parseTokens source ts = .ok p ∧
    analyzeSource source p = .ok scope ∧ renderProgram p = text

variable {source file text : String} {scope : Scope}

/-- The phases are told of in their order, and then comes the text. -/
theorem Accepted.frontEnd_eq (h : Accepted source file scope text) {m : Type → Type} [Monad m]
    (done : Phase → m Unit) :
    frontEnd done source file = (do
      done .tokenized
      done .parsed
      done .analyzed
      return .ok text) := by
  obtain ⟨ts, p, hts, hp, hscope, rfl⟩ := h
  simp only [frontEnd, hts, hp, hscope]

theorem exists_accepted (h : Id.run (frontEnd (fun _ => pure ()) source file) = .ok text) :
    ∃ scope, Accepted source file scope text := by
  unfold frontEnd at h
  cases hts : tokenize source file with
  | error d => rw [hts] at h; cases h
  | ok ts =>
      rw [hts] at h
      cases hp : parseTokens source ts with
      | error d => simp [hp] at h
      | ok p =>
          cases hscope : analyzeSource source p with
          | error d => simp [hp, hscope] at h
          | ok scope =>
              simp [hp, hscope] at h
              exact ⟨scope, ts, p, hts, hp, hscope, h⟩

/-- What is accepted is accepted again in its canonical form, with the same scope and text. -/
theorem Accepted.canonical (h : Accepted source file scope text) (file' : String) :
    Accepted text file' scope text := by
  obtain ⟨ts, p, hts, hp, hscope, rfl⟩ := h
  rw [parseTokens_eq_ok_iff] at hp
  rw [analyzeSource_eq_ok_iff] at hscope
  obtain ⟨hwf, hproper⟩ := wellFormed_and_proper_of_parse hts hp
  obtain ⟨ts', p', hts', hp', heq⟩ := parse_join hwf hproper {} file'
  exact ⟨ts', p', hts', parseTokens_eq_ok_iff.2 hp',
    analyzeSource_eq_ok_iff.2 (analyze_congr heq.symm hscope), renderProgram_congr heq⟩

/-- A run of the front end that succeeds gives a text on which it succeeds again, in the same phases,
with the same scope and with the text itself. -/
theorem frontEnd_canonical (h : Id.run (frontEnd (fun _ => pure ()) source file) = .ok text)
    (file' : String) :
    ∃ scope, Accepted source file scope text ∧ Accepted text file' scope text ∧
      ∀ {m : Type → Type} [Monad m] (done : Phase → m Unit),
        frontEnd done text file' = (do
          done .tokenized
          done .parsed
          done .analyzed
          return .ok text) := by
  obtain ⟨scope, hscope⟩ := exists_accepted h
  have hcanonical := hscope.canonical file'
  exact ⟨scope, hscope, hcanonical, hcanonical.frontEnd_eq⟩

/-- A constant and a jump, first with a blank where none is needed. -/
theorem frontEnd_canonical_goto :
    Id.run (frontEnd (fun _ => pure ()) "const x:-1 label a goto a" "a.qk") =
        .ok "const x :- 1\nlabel a\ngoto a\n" ∧
      Id.run (frontEnd (fun _ => pure ()) "const x :- 1\nlabel a\ngoto a\n" "b.qk") =
        .ok "const x :- 1\nlabel a\ngoto a\n" := by
  have h : Id.run (frontEnd (fun _ => pure ()) "const x:-1 label a goto a" "a.qk") =
      .ok "const x :- 1\nlabel a\ngoto a\n" := by decide +kernel
  obtain ⟨scope, -, -, hagain⟩ := frontEnd_canonical h "b.qk"
  exact ⟨h, hagain _⟩

end ScriptFrontend
