import ScriptFrontend.CommandLine
import ScriptFrontend.Proofs.Reports
import ScriptFrontend.Proofs.FixedPoint
import ScriptFrontend.Proofs.WellScoped

/-!
What the command shows of a run.

Each phase fails for causes of its own, so the cause of a diagnostic tells which phases came before it,
and with them everything that a run shows.  The obligation is that no phase raises a cause of another
one, whatever it is given, and that each diagnostic has its source by the time it is reported.
-/

namespace ScriptFrontend

def Cause.phase : Cause → Phase
  | unrecognised _ => .tokenized
  | unexpected _ _ => .parsed
  | alreadyDeclared _ => .analyzed
  | undefinedLabel _ => .analyzed
  | variadicNotLast _ => .analyzed
  | duplicateParameter _ => .analyzed

def Phase.before : Phase → List Phase
  | .tokenized => []
  | .parsed => [.tokenized]
  | .analyzed => [.tokenized, .parsed]

/-! ### Causes of the phases -/

section

variable {source file : String} {ts : List Token} {p : List Stmt} {d : Diagnostic}

theorem phase_of_tokenize_eq_error (h : tokenize source file = .error d) :
    d.cause.phase = .tokenized ∧ d.source = some source := by
  obtain ⟨e, he, rfl⟩ := tokenize_eq_error_iff.1 h
  obtain ⟨us, s, c, rest, -, -, -, rfl⟩ := Scanner.run_of_tokens_eq_error he
  exact ⟨rfl, rfl⟩

theorem phase_of_parseTokens_eq_error {aliases : Aliases}
    (h : parseTokens source ts aliases = .error d) :
    d.cause.phase = .parsed ∧ d.source = some source := by
  obtain ⟨e, -, rfl⟩ := mapError_eq_error_iff.1 h
  exact ⟨rfl, rfl⟩

theorem phase_of_mem_repeatFaults {ds : List Declaration} (h : d ∈ repeatFaults ds) :
    d.cause.phase = .analyzed ∧ d.source = none := by
  simp only [repeatFaults, List.mem_filterMap, Option.ite_none_right_eq_some] at h
  obtain ⟨_, -, -, ⟨⟩⟩ := h
  exact ⟨rfl, rfl⟩

theorem phase_of_mem_parameterFaults {ps : List Parameter} (h : d ∈ parameterFaults ps) :
    d.cause.phase = .analyzed ∧ d.source = none := by
  simp only [parameterFaults, List.mem_filterMap, Parameter.fault?] at h
  obtain ⟨_, -, hd⟩ := h
  split at hd
  · cases hd
    exact ⟨rfl, rfl⟩
  · split at hd
    · cases hd
      exact ⟨rfl, rfl⟩
    · cases hd

/-- Nothing is wrong with a frame, or with a function at any depth in it, but its names, its jumps and
its parameters. -/
theorem phase_of_mem_faults {f : Frame} (h : d ∈ f.faults) :
    d.cause.phase = .analyzed ∧ d.source = none := by
  rw [f.faults_eq, List.mem_append, List.mem_flatMap] at h
  rcases h with h | ⟨s, hs, h⟩
  · exact phase_of_mem_repeatFaults h
  · cases s
    case goto span label =>
      rw [Stmt.faults] at h
      split at h
      · cases h
      · obtain rfl := List.mem_singleton.1 h
        exact ⟨rfl, rfl⟩
    case def_ span name byReference parameters body =>
      rw [Stmt.faults, List.mem_append] at h
      rcases h with h | h
      · exact phase_of_mem_parameterFaults h
      · exact phase_of_mem_faults h
    all_goals
      rw [Stmt.faults] at h
      · cases h
      all_goals exact nofun
termination_by sizeOf f.body
decreasing_by
  have := Stmt.sizeOf_lt_of_mem_flatEach f.body hs
  simp at this
  omega

theorem phase_of_analyze_eq_error (h : analyze p = .error d) :
    d.cause.phase = .analyzed ∧ d.source = none := by
  rw [analyze_eq_verdict] at h
  cases hfaults : (Frame.ofModule p).faults with
  | nil =>
      rw [hfaults] at h
      cases h
  | cons e es =>
      rw [hfaults] at h
      cases h
      exact phase_of_mem_faults (hfaults ▸ List.mem_cons_self ..)

/-- Each phase fails only for causes of its own, whatever it is given.  The analysis has no source at
hand, and gets it attached. -/
structure PhasesApart : Prop where
  tokenize : ∀ {source file : String} {d : Diagnostic}, tokenize source file = .error d →
    d.cause.phase = .tokenized ∧ d.source = some source
  parse : ∀ {source : String} {ts : List Token} {aliases : Aliases} {d : Diagnostic},
    parseTokens source ts aliases = .error d → d.cause.phase = .parsed ∧ d.source = some source
  analyze : ∀ {p : List Stmt} {d : Diagnostic}, analyze p = .error d →
    d.cause.phase = .analyzed ∧ d.source = none
  analyzeSource : ∀ {source : String} {p : List Stmt} {d : Diagnostic},
    analyzeSource source p = .error d → d.cause.phase = .analyzed ∧ d.source = some source

theorem phasesApart : PhasesApart where
  tokenize := phase_of_tokenize_eq_error
  parse := phase_of_parseTokens_eq_error
  analyze := phase_of_analyze_eq_error
  analyzeSource h := by
    obtain ⟨e, he, rfl⟩ := analyzeSource_eq_error_iff.1 h
    exact ⟨(phase_of_analyze_eq_error he).1, rfl⟩

end

/-! ### Runs of the phases -/

/-- What a run of the phases on a source comes to: the phases that succeed, in their order, and what
the run leaves. -/
inductive Runs (source file : String) : List Phase → Except Diagnostic String → Prop
  | untokenized {d : Diagnostic} (h : tokenize source file = .error d) :
      Runs source file [] (.error d)
  | unparsed {ts : List Token} {d : Diagnostic} (hts : tokenize source file = .ok ts)
      (h : parseTokens source ts = .error d) : Runs source file [.tokenized] (.error d)
  | misscoped {ts : List Token} {p : List Stmt} {d : Diagnostic}
      (hts : tokenize source file = .ok ts) (hp : parseTokens source ts = .ok p)
      (h : analyzeSource source p = .error d) : Runs source file [.tokenized, .parsed] (.error d)
  | accepted {scope : Scope} {text : String} (h : Accepted source file scope text) :
      Runs source file [.tokenized, .parsed, .analyzed] (.ok text)

/-- The phases that succeed in a run, by what the run leaves. -/
def passed : Except Diagnostic String → List Phase
  | .error d => d.cause.phase.before
  | .ok _ => [.tokenized, .parsed, .analyzed]

/-- What a run of the phases leaves. -/
def outcome (source file : String) : Except Diagnostic String :=
  Id.run (frontEnd (fun _ => pure ()) source file)

section

variable {source file : String} {phases : List Phase} {result : Except Diagnostic String}

theorem exists_runs (source file : String) : ∃ phases result, Runs source file phases result := by
  cases hts : tokenize source file with
  | error d => exact ⟨_, _, .untokenized hts⟩
  | ok ts =>
      cases hp : parseTokens source ts with
      | error d => exact ⟨_, _, .unparsed hts hp⟩
      | ok p =>
          cases hscope : analyzeSource source p with
          | error d => exact ⟨_, _, .misscoped hts hp hscope⟩
          | ok scope => exact ⟨_, _, .accepted ⟨ts, p, hts, hp, hscope, rfl⟩⟩

namespace Runs

/-- The cause of a failure tells which phases succeeded before it. -/
theorem phases_eq (h : Runs source file phases result) : phases = passed result := by
  cases h with
  | untokenized h => rw [passed, (phasesApart.tokenize h).1]; rfl
  | unparsed _ h => rw [passed, (phasesApart.parse h).1]; rfl
  | misscoped _ _ h => rw [passed, (phasesApart.analyzeSource h).1]; rfl
  | accepted _ => rfl

/-- Whoever hears of the phases hears of those that succeed, in their order and before the run ends. -/
theorem frontEnd_eq (h : Runs source file phases result) {m : Type → Type} [Monad m]
    [LawfulMonad m] (done : Phase → m Unit) :
    frontEnd done source file = (do
      phases.forM done
      return result) := by
  cases h with
  | untokenized h => simp [frontEnd, h]
  | unparsed hts h => simp [frontEnd, hts, h]
  | misscoped hts hp h => simp [frontEnd, hts, hp, h]
  | accepted h => simp [h.frontEnd_eq]

theorem outcome_eq (h : Runs source file phases result) : outcome source file = result := by
  rw [outcome, h.frontEnd_eq]
  simp

end Runs

theorem runs_outcome (source file : String) :
    Runs source file (passed (outcome source file)) (outcome source file) := by
  obtain ⟨phases, result, h⟩ := exists_runs source file
  rw [h.outcome_eq, ← h.phases_eq]
  exact h

theorem outcome_eq_ok_iff :
    (∃ text, outcome source file = .ok text) ↔ ∃ scope text, Accepted source file scope text := by
  constructor
  · rintro ⟨text, h⟩
    obtain ⟨scope, hscope⟩ := exists_accepted h
    exact ⟨scope, text, hscope⟩
  · rintro ⟨scope, text, hscope⟩
    exact ⟨text, (Runs.accepted hscope).outcome_eq⟩

end

/-! ### The command -/

/-- The report shows the line of the source that the diagnostic points at, between two margins and
without the spaces that it starts with and the blanks that it ends with. -/
def Diagnostic.ShowsLine (d : Diagnostic) (source path : String) : Prop :=
  ∃ place, Text.lineAt? source.toList d.position.offset = some place ∧
    (d.report path).toList =
      (d.headline ++ "-> " ++ path ++ "\n").toList ++ gutter place.number ++ '\n' ::
        ((toString place.number).toList ++ " | ".toList ++
          Text.trimEnd (place.text.dropWhile (· = ' '))) ++ '\n' ::
        (caretLine place.number (place.offset - (place.text.takeWhile (· = ' ')).length) ++ ['\n'])

namespace CommandLine

/-- What the command answers, by what the run of the phases leaves. -/
def response (path : String) : Except Diagnostic String → Response
  | .error d => ⟨1, d.report path, ""⟩
  | .ok text => ⟨0, text, ""⟩

/-- The labels of the lines printed for the phases, by what the run of them leaves. -/
def labels : Except Diagnostic String → List String
  | .error ⟨.unrecognised _, _, _⟩ => []
  | .error ⟨.unexpected _ _, _, _⟩ => ["Tokenized in"]
  | .error _ => ["Tokenized in", "Parsed in"]
  | .ok _ => ["Tokenized in", "Parsed in", "Analyzed in", "Total time:"]

theorem flatMap_timingLabels (result : Except Diagnostic String) :
    (passed result).flatMap timingLabels = labels result := by
  cases result with
  | error d =>
      obtain ⟨cause, position, source⟩ := d
      cases cause <;> rfl
  | ok text => rfl

structure Shows (source path : String) (result : Except Diagnostic String) : Prop where
  /-- For a failure the phases that succeed are those before the phase of its cause. -/
  runs : Runs source (fileName path) (passed result) result
  printed : (passed result).flatMap timingLabels = labels result
  line : ∀ d, result = .error d → d.ShowsLine source path
  status : (response path result).status = 0 ↔
    ∃ scope text, Accepted source (fileName path) scope text

theorem shows_outcome (source path : String) :
    Shows source path (outcome source (fileName path)) where
  runs := runs_outcome source (fileName path)
  printed := flatMap_timingLabels _
  line d hd := by
    obtain ⟨hs, before, after, hsource, hp, -⟩ := edge_of_frontEnd_eq_error hd
    exact ⟨_, Diagnostic.lineAt?_eq hsource hp, Diagnostic.report_eq hs hsource hp path⟩
  status := by
    rw [← outcome_eq_ok_iff]
    cases outcome source (fileName path) with
    | error d => simp [response]
    | ok text => simp [response]

/-- Any host that reads a source hears of the phases that succeed, and gets the response. -/
theorem run_eq {m : Type → Type} [Monad m] [LawfulMonad m] (host : Host m) (path : String) :
    run host [path] = host.read path >>= fun
      | .error failure =>
        pure ⟨1, "", "Failed to read " ++ path ++ ": " ++ failure.message ++ "\n"⟩
      | .ok source => do
        (passed (outcome source (fileName path))).forM host.done
        return response path (outcome source (fileName path)) := by
  rw [run]
  apply bind_congr
  intro read
  cases read with
  | error failure => rfl
  | ok source =>
      simp only [(runs_outcome source (fileName path)).frontEnd_eq, bind_assoc, pure_bind]
      cases outcome source (fileName path) <;> rfl

/-- A run shows nothing that the outcome of its phases does not tell.  Any host that reads a source
hears of the phases that succeed, and gets the response: for a failure its report, with the line of the
source, and otherwise the canonical text. -/
theorem run_shows (path : String) :
    PhasesApart ∧ (∀ source, Shows source path (outcome source (fileName path))) ∧
      ∀ {m : Type → Type} [Monad m] [LawfulMonad m] (host : Host m),
        run host [path] = host.read path >>= fun
          | .error failure =>
            pure ⟨1, "", "Failed to read " ++ path ++ ": " ++ failure.message ++ "\n"⟩
          | .ok source => do
            (passed (outcome source (fileName path))).forM host.done
            return response path (outcome source (fileName path)) :=
  ⟨phasesApart, fun source => shows_outcome source path, fun host => run_eq host path⟩

/-! ### A host that writes the labels down -/

section

variable {m : Type → Type} [Monad m]

/-- The host that reads as it is told and writes down the labels of each phase. -/
def writing (read : String → m (Except ReadFailure String)) : Host (StateT (List String) m) where
  read path := StateT.lift (read path)
  done phase := modify (· ++ timingLabels phase)

variable [LawfulMonad m]

theorem run_forM_done (read : String → m (Except ReadFailure String)) (phases : List Phase)
    (written : List String) :
    (phases.forM (writing read).done).run written =
      pure ((), written ++ phases.flatMap timingLabels) := by
  induction phases generalizing written with
  | nil => simp
  | cons phase phases ih =>
      have hdone : ((writing read).done phase).run written =
          pure ((), written ++ timingLabels phase) := rfl
      simp only [List.forM, StateT.run_bind, hdone, pure_bind, ih, List.flatMap_cons,
        List.append_assoc]

/-- Behind what is written already, the labels are those of the outcome. -/
theorem run_writing (read : String → m (Except ReadFailure String)) (path : String)
    (written : List String) :
    (run (writing read) [path]).run written = read path >>= fun
      | .error failure =>
        pure (⟨1, "", "Failed to read " ++ path ++ ": " ++ failure.message ++ "\n"⟩, written)
      | .ok source =>
        pure (response path (outcome source (fileName path)),
          written ++ labels (outcome source (fileName path))) := by
  have hread : ((writing read).read path).run written = (·, written) <$> read path := by
    simp [writing]
  rw [run_eq, StateT.run_bind, hread, bind_map_left]
  apply bind_congr
  intro result
  cases result with
  | error failure => rfl
  | ok source =>
      dsimp only
      rw [StateT.run_bind, run_forM_done, pure_bind, flatMap_timingLabels]
      rfl

/-- A call that is never closed. -/
example :
    (run (writing (m := Id) fun _ => pure (.ok "x(")) ["a.qk"]).run [] =
    (⟨1, "Error: UnexpectedToken (expected `)`, found `EOF`)\n-> a.qk\n  |\n1 | x(\n  | --^\n", ""⟩,
      ["Tokenized in"]) := by
  with_unfolding_all rfl

end

end CommandLine

end ScriptFrontend
