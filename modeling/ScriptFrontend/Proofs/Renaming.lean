import ScriptFrontend.Proofs.EarliestError
import ScriptFrontend.Proofs.Phases

/-!
Resolving names changes names and nothing else.

The grammar resolves each written name once, where it reads it, and no production looks at what came
out.  So parsing with aliases is parsing without them and then renaming the tree: every name of a
scope is replaced once, and literals, member properties, flags and places are what they were.
-/

namespace ScriptFrontend

def Relabelling.rename (resolve : String → String) : Relabelling where
  name := resolve

section

variable {resolve : String → String}

/-- Renaming leaves tokens alone: they hold the names as they were written. -/
@[simp] theorem Token.relabel_rename (t : Token) : t.relabel (.rename resolve) = t := rfl

theorem Token.map_relabel_rename (ts : List Token) :
    ts.map (Token.relabel (.rename resolve)) = ts :=
  List.map_id'' Token.relabel_rename ts

namespace Grammar

/-- The standard grammar with a meaning for names is the plain one, renamed. -/
theorem relabel_rename_standard :
    standard.relabel (.rename resolve) = standard resolve := rfl

theorem parse_standard_rename (ts : List Token) :
    (standard resolve).parse ts =
      (standard.parse ts).map (List.map (Stmt.relabel (.rename resolve))) := by
  have h : (standard.relabel (.rename resolve)).parse (ts.map (Token.relabel (.rename resolve))) =
      ((standard.parse ts).map (List.map (Stmt.relabel (.rename resolve)))).mapError
        (SyntaxError.relabel (.rename resolve)) :=
    parse_relabel (standard_refusesEnd id) rfl fun _ => rfl
  rw [Token.map_relabel_rename, relabel_rename_standard] at h
  rw [h]
  cases standard.parse ts <;> rfl

/-- A syntax error names one of the tokens that were read, which is closed if it was open. -/
theorem found_mem_of_parse_eq_error {ts : List Token} {e : SyntaxError}
    (h : standard.parse ts = .error e) : e.found ∈ (Cursor.ofTokens ts).ahead := by
  obtain ⟨i, hi⟩ := parse_eq_error_iff.1 h
  exact List.mem_of_getElem? hi.found_eq

end Grammar

end

/-- A name stands for what it was given last as an alias, and for itself if it is no alias. -/
theorem Aliases.resolve_eq_iff {as : Aliases} {name target : String} :
    as.resolve name = target ↔
      (∃ before after, as = before ++ (name, target) :: after ∧ ∀ p ∈ after, name ≠ p.1) ∨
        (∀ p ∈ as, name ≠ p.1) ∧ name = target := by
  simp only [resolve, Option.getD_eq_iff, List.lookup_eq_some_iff, List.lookup_eq_none_iff,
    bne_iff_ne, List.mem_reverse]
  refine or_congr_left ⟨?_, ?_⟩
  · rintro ⟨after, before, hsplit, hafter⟩
    refine ⟨before.reverse, after.reverse, ?_, fun p hp => hafter p (List.mem_reverse.1 hp)⟩
    rw [← as.reverse_reverse, hsplit, List.reverse_append, List.reverse_cons, List.append_assoc]
    rfl
  · rintro ⟨before, after, rfl, hafter⟩
    refine ⟨after.reverse, before.reverse, ?_, fun p hp => hafter p (List.mem_reverse.1 hp)⟩
    rw [List.reverse_append, List.reverse_cons, List.append_assoc]
    rfl

/-- With aliases the parser fails as it does without them, at a token and with the lexeme that is
written there; and where it succeeds, the aliases are applied once to every name of the program that
it reads without them. -/
theorem parseTokens_aliases (source : String) (ts : List Token) (aliases : Aliases) :
    match parseTokens source ts with
    | .error d => parseTokens source ts aliases = .error d ∧
        ∃ t ∈ (Cursor.ofTokens ts).ahead, ∃ expected : Expected,
          d = .unexpectedToken expected.text t source
    | .ok p => parseTokens source ts aliases =
        .ok (p.map (Stmt.relabel (.rename aliases.resolve))) := by
  have haliases : parseTokens source ts aliases =
      ((Grammar.standard.parse ts).map (List.map (Stmt.relabel (.rename aliases.resolve)))).mapError
        (·.toDiagnostic source) := by
    rw [parseTokens, Grammar.parse_standard_rename]
  rw [haliases, parseTokens_eq]
  cases h : Grammar.standard.parse ts with
  | error e => exact ⟨rfl, e.found, Grammar.found_mem_of_parse_eq_error h, e.expected, rfl⟩
  | ok p => rfl

/-- An alias for a name that is a symbol and a property: the property stays. -/
example (span : Span) :
    (Stmt.expr span (.member span (.symbol span "x") "x")).relabel
        (.rename (Aliases.resolve [("x", "y")])) =
      .expr span (.member span (.symbol span "y") "x") := by rfl

end ScriptFrontend
