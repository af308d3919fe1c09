import ScriptFrontend.FrontEnd

/-!
The phases of the front end, one by one.

A phase attaches the source to its diagnostics and does nothing else, and the front end fails as the
first phase that fails.
-/

namespace ScriptFrontend

section

variable {ε ε' α : Type} {f : ε → ε'} {x : Except ε α}

theorem mapError_eq_ok_iff {a : α} : x.mapError f = .ok a ↔ x = .ok a := by
  cases x with
  | ok b => exact ⟨fun h => congrArg _ (Except.ok.inj h), fun h => congrArg _ (Except.ok.inj h)⟩
  | error e => exact ⟨nofun, nofun⟩

theorem mapError_eq_error_iff {e' : ε'} : x.mapError f = .error e' ↔ ∃ e, x = .error e ∧ f e = e' := by
  cases x with
  | ok a => exact ⟨nofun, fun ⟨_, h, _⟩ => nomatch h⟩
  | error e =>
      constructor
      · intro h
        exact ⟨e, rfl, Except.error.inj h⟩
      · rintro ⟨_, ⟨⟩, rfl⟩
        rfl

end

variable {source file : String} {ts : List Token} {p : List Stmt} {scope : Scope} {d : Diagnostic}

theorem tokenize_eq_ok_iff :
    tokenize source file = .ok ts ↔ (Scanner.ofSource source file).tokens = .ok ts :=
  mapError_eq_ok_iff

theorem tokenize_eq_error_iff :
    tokenize source file = .error d ↔
      ∃ e, (Scanner.ofSource source file).tokens = .error e ∧ e.withSource source = d :=
  mapError_eq_error_iff

theorem parseTokens_eq (source : String) (ts : List Token) :
    parseTokens source ts = (Grammar.standard.parse ts).mapError (·.toDiagnostic source) := by
  have hresolve : Aliases.resolve [] = id := funext Aliases.resolve_nil
  rw [parseTokens, hresolve]

theorem parseTokens_eq_ok_iff : parseTokens source ts = .ok p ↔ Grammar.standard.parse ts = .ok p := by
  rw [parseTokens_eq]
  exact mapError_eq_ok_iff

theorem parseTokens_eq_error_iff :
    parseTokens source ts = .error d ↔
      ∃ e, Grammar.standard.parse ts = .error e ∧ e.toDiagnostic source = d := by
  rw [parseTokens_eq]
  exact mapError_eq_error_iff

theorem analyzeSource_eq_ok_iff : analyzeSource source p = .ok scope ↔ analyze p = .ok scope :=
  mapError_eq_ok_iff

theorem analyzeSource_eq_error_iff :
    analyzeSource source p = .error d ↔ ∃ e, analyze p = .error e ∧ e.withSource source = d :=
  mapError_eq_error_iff

/-- A failure of the front end is one of the first phase that fails. -/
theorem phase_of_frontEnd_eq_error
    (h : Id.run (frontEnd (fun _ => pure ()) source file) = .error d) :
    tokenize source file = .error d ∨ ∃ ts, tokenize source file = .ok ts ∧
      (parseTokens source ts = .error d ∨ ∃ p, parseTokens source ts = .ok p ∧
        analyzeSource source p = .error d) := by
  unfold frontEnd at h
  cases hts : tokenize source file with
  | error e =>
      rw [hts] at h
      cases h
      exact .inl rfl
  | ok ts =>
      rw [hts] at h
      refine .inr ⟨ts, rfl, ?_⟩
      cases hp : parseTokens source ts with
      | error e =>
          simp [hp] at h
          exact .inl (congrArg Except.error h)
      | ok p =>
          refine .inr ⟨p, rfl, ?_⟩
          cases hscope : analyzeSource source p with
          | error e =>
              simp [hp, hscope] at h
              exact congrArg Except.error h
          | ok scope => simp [hp, hscope] at h

end ScriptFrontend
