import ScriptFrontend.Proofs.Analysis
import ScriptFrontend.Proofs.Locality
import ScriptFrontend.Proofs.Lossless

/-!
Where errors point.

Neither the grammar nor the analysis makes a place up: they commute with moving places, so if a move
leaves the places of the tokens alone, it leaves the place of the error alone.  The move that fixes
exactly the places of some kind then shows that an error has a place of that kind if all tokens do.
-/

namespace ScriptFrontend

section

variable {P : Position → Prop}

open Classical in
/-- Moves every place that has not the property. -/
noncomputable def Relabelling.fixing (P : Position → Prop) : Relabelling where
  place p := if P p then p else { p with line := p.line + 1 }

theorem Relabelling.place_fixing_eq_iff {p : Position} : (fixing P).place p = p ↔ P p := by
  simp only [fixing]
  split
  case isTrue h => simp [h]
  case isFalse h =>
    refine ⟨fun hp => ?_, fun hp => (h hp).elim⟩
    have hline : p.line + 1 = p.line := congrArg Position.line hp
    omega

def Token.Placed (P : Position → Prop) (t : Token) : Prop :=
  P t.span.start ∧ P t.span.stop

theorem Token.Placed.relabel_eq {t : Token} (h : t.Placed P) : t.relabel (.fixing P) = t := by
  have hstart := Relabelling.place_fixing_eq_iff.2 h.1
  have hstop := Relabelling.place_fixing_eq_iff.2 h.2
  rw [relabel, Span.relabel, hstart, hstop]

/-- What is parsed from tokens has no places but theirs. -/
theorem parse_fixing {ts : List Token} (hne : ts ≠ []) (hts : ∀ t ∈ ts, t.Placed P) :
    Grammar.standard.parse ts =
      ((Grammar.standard.parse ts).map (List.map (Stmt.relabel (.fixing P)))).mapError
        (SyntaxError.relabel (.fixing P)) := by
  have hsame : ts.map (Token.relabel (.fixing P)) = ts := by
    rw [List.map_congr_left fun t ht => (hts t ht).relabel_eq, List.map_id']
  have h := Grammar.parse_relabel (r := .fixing P) (Grammar.standard_refusesEnd id) rfl
    fun hnil : ts = [] => (hne hnil).elim
  rwa [hsame] at h

theorem place_of_parse_eq_error {ts : List Token} (hne : ts ≠ []) (hts : ∀ t ∈ ts, t.Placed P)
    {e : SyntaxError} (h : Grammar.standard.parse ts = .error e) : P e.found.span.start := by
  have hfixed := parse_fixing hne hts
  rw [h] at hfixed
  have he : e = e.relabel (.fixing P) := Except.error.inj hfixed
  exact Relabelling.place_fixing_eq_iff.1 (congrArg (·.found.span.start) he).symm

theorem place_of_analyze_eq_error {ts : List Token} {p : List Stmt} (hne : ts ≠ [])
    (hts : ∀ t ∈ ts, t.Placed P) (hp : Grammar.standard.parse ts = .ok p) {d : Diagnostic}
    (h : analyze p = .error d) : P d.position := by
  have hfixed := parse_fixing hne hts
  rw [hp] at hfixed
  have hmap : p = p.map (Stmt.relabel (.fixing P)) := Except.ok.inj hfixed
  have hanalyze := analyze_relabel (r := .fixing P) rfl p
  rw [← hmap, h] at hanalyze
  have hd : d = d.relabel (.fixing P) := Except.error.inj hanalyze
  exact Relabelling.place_fixing_eq_iff.1 (congrArg Diagnostic.position hd).symm

end

/-! ### Edges -/

/-- The place is an edge of what is no space: no space stands behind it, or what stands in front of it
on its line is none. -/
def Position.EdgeIn (source : List Char) (file : String) (p : Position) : Prop :=
  ∃ before after, source = before ++ after ∧ p = behind before file ∧
    ((∀ c ∈ after.head?, c ≠ ' ') ∨ ∃ c ∈ before.getLast?, c ≠ ' ' ∧ c ≠ '\n')

/-- The places of a source that is short enough fit words. -/
theorem Position.EdgeIn.le {source : List Char} {file : String} {p : Position}
    (h : p.EdgeIn source file) :
    p.offset ≤ Text.byteLength source ∧ p.line ≤ Text.byteLength source + 1 ∧
      p.column ≤ Text.byteLength source + 1 := by
  obtain ⟨before, after, rfl, rfl, -⟩ := h
  exact behind_le before after file

theorem Token.ReadFrom.edges {t : Token} {lexeme : List Char} (h : t.ReadFrom lexeme)
    (hne : lexeme ≠ []) :
    (∃ c ∈ lexeme.head?, c ≠ ' ') ∧ ∃ c ∈ lexeme.getLast?, c ≠ ' ' ∧ c ≠ '\n' := by
  by_cases hkind : t.kind = .text
  · have hspelled := h.spelledBy
    rw [SpelledBy, if_pos hkind] at hspelled
    obtain ⟨inside, rfl, -⟩ := hspelled
    refine ⟨⟨'"', rfl, by decide⟩, '"', ?_, by decide⟩
    rw [← List.cons_append, List.getLast?_append]
    rfl
  · have hblank : ∀ c, Text.isBlank c → ∀ d ∈ lexeme, d ≠ c := by
      rintro c hc _ hd rfl
      exact h.not_isBlank hkind hd hc
    refine ⟨⟨lexeme.head hne, List.head?_eq_some_head hne, ?_⟩,
      lexeme.getLast hne, List.getLast?_eq_some_getLast hne, ?_, ?_⟩
    · exact hblank ' ' rfl _ (List.head_mem hne)
    · exact hblank ' ' rfl _ (List.getLast_mem hne)
    · exact hblank '\n' rfl _ (List.getLast_mem hne)

theorem Token.StandsIn.placed {source : List Char} {file : String} {t : Token}
    (h : t.StandsIn source file) : t.Placed (Position.EdgeIn source file) := by
  obtain ⟨before, lexeme, after, hsource, hne, hread, -, hspan, -⟩ := h
  obtain ⟨⟨c, hc, hspace⟩, d, hd, hlast⟩ := hread.edges hne
  rw [Placed, hspan]
  constructor
  · refine ⟨before, lexeme ++ after, by rw [hsource, List.append_assoc], rfl, .inl ?_⟩
    intro e he
    rw [List.head?_append, hc] at he
    cases he
    exact hspace
  · refine ⟨before ++ lexeme, after, hsource, rfl, .inr ⟨d, ?_, hlast⟩⟩
    rw [List.getLast?_append, hd]
    rfl

theorem Lossless.placed {source : List Char} {file : String} {ts : List Token}
    (h : Lossless source file ts) :
    ts ≠ [] ∧ ∀ t ∈ ts, t.Placed (Position.EdgeIn source file) := by
  obtain ⟨us, rfl, -, htiling⟩ := h
  refine ⟨by simp, fun t ht => ?_⟩
  rcases List.mem_append.1 ht with ht | ht
  · exact (htiling.stands t ht).placed
  · obtain rfl := List.mem_singleton.1 ht
    have hend : Position.EdgeIn source file (.behind source file) :=
      ⟨source, [], (List.append_nil source).symm, rfl, .inl nofun⟩
    exact ⟨hend, hend⟩

/-! ### The front end -/

section

variable {source file : String} {d : Diagnostic}

theorem edge_of_tokenize_eq_error (h : tokenize source file = .error d) :
    d.source = some source ∧ d.position.EdgeIn source.toList file := by
  obtain ⟨before, c, rest, us, hsource, rfl, -, -, hnone⟩ := stops_of_tokenize h
  refine ⟨rfl, before, c :: rest, hsource, rfl, .inl ?_⟩
  rintro _ ⟨⟩ rfl
  exact hnone .blank [' '] rest rfl ⟨List.cons_ne_nil _ _, List.forall_mem_singleton.2 rfl⟩

/-- Whatever phase fails, its diagnostic has the source and points at an edge in it. -/
theorem edge_of_frontEnd_eq_error
    (h : Id.run (frontEnd (fun _ => pure ()) source file) = .error d) :
    d.source = some source ∧ d.position.EdgeIn source.toList file := by
  rcases phase_of_frontEnd_eq_error h with h | ⟨ts, hts, h⟩
  · exact edge_of_tokenize_eq_error h
  · obtain ⟨hne, hplaced⟩ := (lossless_of_tokenize hts).placed
    rcases h with h | ⟨p, hp, h⟩
    · obtain ⟨e, he, rfl⟩ := parseTokens_eq_error_iff.1 h
      exact ⟨rfl, place_of_parse_eq_error hne hplaced he⟩
    · rw [parseTokens_eq_ok_iff] at hp
      obtain ⟨e, he, rfl⟩ := analyzeSource_eq_error_iff.1 h
      have hplace := place_of_analyze_eq_error hne hplaced hp he
      exact ⟨rfl, hplace⟩

end

end ScriptFrontend
