import ScriptFrontend.Proofs.Frames

/-!
The analysis against the rules of scoping.

Every pass of the analysis stops at the first thing that is wrong, so each of them is the verdict on
a list of faults, and passes one after the other are the verdict on the lists one after the other.
-/

namespace ScriptFrontend

/-- What a pass makes of all that is wrong: it stops at the first. -/
def verdict : List Diagnostic → Except Diagnostic Unit
  | [] => .ok ()
  | d :: _ => .error d

@[simp] theorem verdict_nil : verdict [] = .ok () := rfl

theorem verdict_append (ds es : List Diagnostic) :
    verdict (ds ++ es) = (do verdict ds; verdict es) := by
  cases ds <;> rfl

theorem verdict_eq_ok_iff {ds : List Diagnostic} : verdict ds = .ok () ↔ ds = [] := by
  cases ds <;> simp [verdict]

/-! ### What a frame declares -/

mutual

theorem Stmt.declarations_eq_flat : ∀ s : Stmt, s.declarations = s.flat.flatMap Stmt.entries
  | .block _ body | .foreach _ _ _ _ body | .while_ _ _ body =>
    declarationsOf_eq_flat body
  | .if_ span condition body chain => by
      show declarationsOf body ++ chain.declarations =
        [] ++ (Stmt.flatEach body ++ chain.flat).flatMap Stmt.entries
      rw [declarationsOf_eq_flat body, chain.declarations_eq_flat, List.flatMap_append,
        List.nil_append]
  | .global span names => by
      show names.map (Declaration.symbol · .global span.start) = _
      simp [Stmt.flat, Stmt.entries, Stmt.names, Stmt.label?, Stmt.span, Function.comp_def]
  | .break_ _ _ | .class_ _ _ | .const _ _ _ | .continue_ _ _ | .def_ _ _ _ _ _ | .expr _ _
  | .goto _ _ | .label _ _ | .module_ _ _ | .open_ _ _ _ | .print _ _ | .raise _ _
  | .return_ _ _ => rfl

theorem ElseChain.declarations_eq_flat :
    ∀ chain : ElseChain, chain.declarations = chain.flat.flatMap Stmt.entries
  | .done => rfl
  | .elif _ body chain => by
      show declarationsOf body ++ chain.declarations = _
      rw [declarationsOf_eq_flat body, chain.declarations_eq_flat, ← List.flatMap_append]
      rfl
  | .otherwise body => declarationsOf_eq_flat body

theorem declarationsOf_eq_flat :
    ∀ ss : List Stmt, declarationsOf ss = (Stmt.flatEach ss).flatMap Stmt.entries
  | [] => rfl
  | s :: ss => by
      rw [declarationsOf, s.declarations_eq_flat, declarationsOf_eq_flat ss,
        ← List.flatMap_append]
      rfl

end

theorem Declaration.clashes_add (d e : Declaration) (s : Scope) :
    d.clashes (s.add e) = (d.clashes s || d.repeats e) := by
  cases d <;> cases e <;> simp only [clashes, repeats, Scope.symbol?_add_symbol,
    Scope.symbol?_add_label, Scope.hasLabel_add_symbol, Scope.hasLabel_add_label, Bool.or_false]
  case symbol.symbol name _ _ other _ _ =>
    by_cases h : name = other <;> simp [h]

theorem Declaration.clashes_addAll (d : Declaration) (s : Scope) (es : List Declaration) :
    d.clashes (s.addAll es) = (d.clashes s || es.any d.repeats) := by
  induction es generalizing s with
  | nil => simp [Scope.addAll]
  | cons e es ih =>
      rw [List.any_cons, ← Bool.or_assoc, ← d.clashes_add e s]
      exact ih (s.add e)

/-- Declaring stops at the first declaration that clashes with those before it. -/
theorem Scope.declareAll_eq_verdict (s : Scope) (ds : List Declaration) :
    (s.declareAll ds).2 = verdict ((picks ds).filterMap fun (before, d, _) =>
      if d.clashes (s.addAll before) then some ⟨.alreadyDeclared d.name, d.position, none⟩
      else none) := by
  induction ds generalizing s with
  | nil => rfl
  | cons d ds ih =>
      rw [declareAll, picks, List.filterMap_cons, List.filterMap_map]
      by_cases hd : d.clashes s
      · simp [hd, addAll, verdict]
      · have hfirst : d.clashes (s.addAll []) = false := by simpa [addAll] using hd
        simp only [hd, hfirst]
        exact ih (s.add d)

theorem Declaration.clashes_empty (d : Declaration) : d.clashes {} = false := by
  cases d <;> rfl

def Frame.scope (f : Frame) : Scope :=
  ⟨f.names, f.labels⟩

theorem Scope.addAll_symbols {α : Type} (s : Scope) (as : List α) (entry : α → String × Symbol)
    (place : α → Position) :
    s.addAll (as.map fun a => .symbol (entry a).1 (entry a).2 (place a)) =
      { s with symbols := s.symbols ++ as.map entry } := by
  induction as generalizing s with
  | nil => simp [addAll]
  | cons a as ih =>
      refine (ih (s.add (.symbol (entry a).1 (entry a).2 (place a)))).trans ?_
      simp [add]

theorem Scope.addAll_entries (s : Scope) (ts : List Stmt) :
    s.addAll (ts.flatMap Stmt.entries) =
      ⟨s.symbols ++ ts.flatMap Stmt.names, s.labels ++ ts.filterMap Stmt.label?⟩ := by
  induction ts generalizing s with
  | nil => simp [addAll]
  | cons t ts ih =>
      have hnames := addAll_symbols s t.names id fun _ => t.span.start
      simp only [id] at hnames
      rw [List.flatMap_cons, addAll_append, Stmt.entries, addAll_append, hnames, ih]
      cases h : t.label? with
      | none => simp [addAll, h]
      | some label => simp [addAll, add, h]

theorem Frame.addAll_entries (f : Frame) : Scope.addAll {} f.entries = f.scope := by
  have hparameters : Scope.addAll {} (f.parameters.map Parameter.declaration) =
      ⟨f.parameters.map fun p => (p.name, .parameter), []⟩ :=
    Scope.addAll_symbols {} f.parameters (fun p => (p.name, .parameter)) (·.span.start)
  rw [entries, Scope.addAll_append, Scope.addAll_entries, hparameters]
  rfl

theorem frameScope_eq_verdict (f : Frame) :
    frameScope f.parameters f.body = (verdict (repeatFaults f.entries)).map fun _ => f.scope := by
  have hentries : f.parameters.map Parameter.declaration ++ declarationsOf f.body = f.entries := by
    rw [declarationsOf_eq_flat]
    rfl
  have hverdict : (Scope.declareAll {} f.entries).2 = verdict (repeatFaults f.entries) := by
    simp only [Scope.declareAll_eq_verdict, Declaration.clashes_addAll, Declaration.clashes_empty,
      Bool.false_or]
    rfl
  have hscope : (Scope.declareAll {} f.entries).2 = .ok () →
      (Scope.declareAll {} f.entries).1 = f.scope := fun h =>
    (Scope.declareAll_fst_of_ok h).trans f.addAll_entries
  show (Scope.declareAll {} (f.parameters.map Parameter.declaration ++ declarationsOf f.body)).2.map
    (fun _ => (Scope.declareAll {} _).1) = _
  rw [hentries, ← hverdict]
  cases h : (Scope.declareAll {} f.entries).2 with
  | ok u => rw [hscope h]
  | error d => rfl

/-! ### Checks -/

theorem checkParametersAfter_cons {seen before : List String} (p : Parameter) (ps : List Parameter)
    (hseen : ∀ name, name ∈ seen ↔ name ∈ before) :
    checkParametersAfter seen (p :: ps) =
      match p.fault? before ps with
      | some d => .error d
      | none => checkParametersAfter (p.name :: seen) ps := by
  rw [checkParametersAfter, Parameter.fault?]
  by_cases hlast : p.variadic ∧ ps ≠ []
  · simp [hlast]
  · have hlast' : (p.variadic && !ps.isEmpty) = false := by simpa using hlast
    by_cases hrepeat : p.name ∈ before
    · simp [hlast, hlast', hrepeat, hseen]
    · simp [hlast, hlast', hrepeat, hseen]

theorem checkParametersAfter_eq_verdict {seen before : List String} (ps : List Parameter)
    (hseen : ∀ name, name ∈ seen ↔ name ∈ before) :
    checkParametersAfter seen ps = verdict ((picks ps).filterMap fun (front, p, behind) =>
      p.fault? (before ++ front.map Parameter.name) behind) := by
  induction ps generalizing seen before with
  | nil => rfl
  | cons p ps ih =>
      -- the checker keeps the names in reverse, and only asks which they are
      have hseen' : ∀ name, name ∈ p.name :: seen ↔ name ∈ before ++ [p.name] := by
        simp [hseen, or_comm]
      have hrest := ih hseen'
      rw [checkParametersAfter_cons p ps hseen, picks, List.filterMap_cons, List.filterMap_map]
      simp only [List.map_nil, List.append_nil]
      cases p.fault? before ps with
      | some d => rfl
      | none =>
          show checkParametersAfter (p.name :: seen) ps = _
          rw [hrest]
          simp only [Function.comp_def, List.map_cons, List.append_assoc, List.singleton_append]

theorem checkParameters_eq_verdict (ps : List Parameter) :
    checkParameters ps = verdict (parameterFaults ps) :=
  checkParametersAfter_eq_verdict ps fun _ => Iff.rfl

/-- A frame is checked for its faults, if its statements are. -/
theorem Frame.check_eq_verdict {f : Frame}
    (h : checkEach f.scope f.body = verdict (f.statements.flatMap (Stmt.faults f.labels))) :
    (do
      let scope ← frameScope f.parameters f.body
      checkEach scope f.body) = verdict f.faults := by
  rw [frameScope_eq_verdict, f.faults_eq, verdict_append, ← h]
  cases verdict (repeatFaults f.entries) <;> rfl

mutual

/-- Checking a statement is the verdict on the faults of what is nested in it. -/
theorem Stmt.check_eq_verdict : ∀ (s : Stmt) (scope : Scope),
    s.check scope = verdict (s.flat.flatMap (Stmt.faults scope.labels))
  | .block _ body, scope | .foreach _ _ _ _ body, scope | .while_ _ _ body, scope => by
      simp only [Stmt.check, Stmt.flat, List.flatMap_cons, Stmt.faults, List.nil_append]
      exact checkEach_eq_verdict body scope
  | .def_ _ _ _ parameters body, scope => by
      have hbody := Frame.check_eq_verdict (f := ⟨parameters, body⟩)
        (checkEach_eq_verdict body (Frame.scope ⟨parameters, body⟩))
      simp only [Stmt.check, Stmt.flat, List.flatMap_singleton, Stmt.faults, verdict_append,
        ← checkParameters_eq_verdict, ← hbody]
  | .if_ _ _ body chain, scope => by
      simp only [Stmt.check, Stmt.flat, List.flatMap_cons, Stmt.faults, List.nil_append,
        List.flatMap_append, verdict_append, checkEach_eq_verdict body scope,
        chain.check_eq_verdict scope]
  | .goto span label, scope => by
      simp only [Stmt.check, Stmt.flat, List.flatMap_singleton, Stmt.faults, Scope.hasLabel]
      by_cases h : label ∈ scope.labels <;> simp [h, verdict]
  | .break_ _ _, _ | .class_ _ _, _ | .const _ _ _, _ | .continue_ _ _, _ | .expr _ _, _
  | .global _ _, _ | .label _ _, _ | .module_ _ _, _ | .open_ _ _ _, _ | .print _ _, _
  | .raise _ _, _ | .return_ _ _, _ => by
      simp only [Stmt.check, Stmt.flat, List.flatMap_singleton, Stmt.faults, verdict_nil]

theorem ElseChain.check_eq_verdict : ∀ (chain : ElseChain) (scope : Scope),
    chain.check scope = verdict (chain.flat.flatMap (Stmt.faults scope.labels))
  | .done, _ => rfl
  | .elif _ body chain, scope => by
      rw [ElseChain.check, ElseChain.flat, List.flatMap_append, verdict_append,
        checkEach_eq_verdict body scope, chain.check_eq_verdict scope]
  | .otherwise body, scope => by
      rw [ElseChain.check, ElseChain.flat, checkEach_eq_verdict body scope]

theorem checkEach_eq_verdict : ∀ (ss : List Stmt) (scope : Scope),
    checkEach scope ss = verdict ((Stmt.flatEach ss).flatMap (Stmt.faults scope.labels))
  | [], _ => rfl
  | s :: ss, scope => by
      rw [checkEach, Stmt.flatEach, List.flatMap_append, verdict_append, s.check_eq_verdict scope,
        checkEach_eq_verdict ss scope]

end

theorem analyze_eq_verdict (program : List Stmt) :
    analyze program =
      (verdict (Frame.ofModule program).faults).map fun _ => (Frame.ofModule program).scope := by
  have hframe : frameScope [] program = _ := frameScope_eq_verdict (Frame.ofModule program)
  rw [← Frame.check_eq_verdict (checkEach_eq_verdict program (Frame.ofModule program).scope),
    analyze, frameScope_eq_verdict, hframe]
  cases verdict (repeatFaults (Frame.ofModule program).entries) with
  | ok u =>
      show (do checkEach (Frame.ofModule program).scope program; return _) =
        (checkEach (Frame.ofModule program).scope program).map _
      cases checkEach (Frame.ofModule program).scope program <;> rfl
  | error d => rfl

/-! ### Frames without faults -/

structure Scope.Nodup (s : Scope) : Prop where
  names : (s.symbols.map Prod.fst).Nodup
  labels : s.labels.Nodup

theorem Scope.nodup_iff (s : Scope) :
    s.Nodup ↔ (s.symbols.map Prod.fst).Nodup ∧ s.labels.Nodup :=
  ⟨fun ⟨hnames, hlabels⟩ => ⟨hnames, hlabels⟩, fun ⟨hnames, hlabels⟩ => ⟨hnames, hlabels⟩⟩

theorem Scope.symbol?_isSome_iff (s : Scope) (name : String) :
    (s.symbol? name).isSome ↔ name ∈ s.symbols.map Prod.fst := by
  rw [symbol?, List.lookup_isSome_iff]
  simp

theorem Scope.nodup_add_iff (s : Scope) (d : Declaration) :
    (s.add d).Nodup ↔ d.clashes s = false ∧ s.Nodup := by
  rw [nodup_iff, nodup_iff]
  cases d with
  | symbol name symbol position =>
      have hclash : (Declaration.symbol name symbol position).clashes s = false ↔
          name ∉ s.symbols.map Prod.fst := by
        rw [← symbol?_isSome_iff, Bool.not_eq_true]
        rfl
      rw [hclash, add, List.map_append, List.perm_append_comm.nodup_iff]
      show (name :: s.symbols.map Prod.fst).Nodup ∧ _ ↔ _
      rw [List.nodup_cons, and_assoc]
  | label name position =>
      have hclash : (Declaration.label name position).clashes s = false ↔ name ∉ s.labels := by
        rw [← Bool.not_eq_true, Declaration.clashes, hasLabel, List.contains_iff_mem]
      rw [hclash, add, List.perm_append_comm.nodup_iff]
      show _ ∧ (name :: s.labels).Nodup ↔ _
      rw [List.nodup_cons, and_left_comm]

theorem Scope.nodup_addAll_iff (s : Scope) (ds : List Declaration) :
    (s.addAll ds).Nodup ↔ (s.declareAll ds).2 = .ok () ∧ s.Nodup := by
  induction ds generalizing s with
  | nil => simp [addAll, declareAll]
  | cons d ds ih =>
      show ((s.add d).addAll ds).Nodup ↔ _
      rw [ih, nodup_add_iff, declareAll]
      by_cases hd : d.clashes s <;> simp [hd]

theorem repeatFaults_eq_nil_iff (f : Frame) : repeatFaults f.entries = [] ↔ f.scope.Nodup := by
  have hempty : Scope.Nodup {} := ⟨List.nodup_nil, List.nodup_nil⟩
  rw [← f.addAll_entries, Scope.nodup_addAll_iff, and_iff_left hempty, ← verdict_eq_ok_iff,
    Scope.declareAll_eq_verdict]
  simp only [Declaration.clashes_addAll, Declaration.clashes_empty, Bool.false_or]
  rfl

theorem Parameter.fault?_eq_none_iff {before : List String} {p : Parameter}
    {behind : List Parameter} :
    p.fault? before behind = none ↔ p.name ∉ before ∧ (behind ≠ [] → p.variadic = false) := by
  rw [fault?]
  by_cases hlast : behind ≠ [] → p.variadic = false
  · have hnot : ¬(p.variadic = true ∧ behind ≠ []) := fun h => by simp [hlast h.2] at h
    rw [if_neg hnot]
    by_cases hrepeat : p.name ∈ before
    · simp [hrepeat]
    · simpa [hrepeat] using hlast
  · have hvariadic : p.variadic = true ∧ behind ≠ [] := by simpa [and_comm] using hlast
    simp [hvariadic]

theorem parameterFaults_after_eq_nil_iff (before : List String) (ps : List Parameter) :
    (∀ x ∈ picks ps, x.2.1.fault? (before ++ x.1.map Parameter.name) x.2.2 = none) ↔
      (ps.map Parameter.name).Nodup ∧ (∀ p ∈ ps, p.name ∉ before) ∧
        ∀ p ∈ ps.dropLast, p.variadic = false := by
  induction ps generalizing before with
  | nil => simp [picks]
  | cons p ps ih =>
      have hlast : (∀ q ∈ (p :: ps).dropLast, q.variadic = false) ↔
          (ps ≠ [] → p.variadic = false) ∧ ∀ q ∈ ps.dropLast, q.variadic = false := by
        cases ps <;> simp
      have hnew : (∀ q ∈ ps, q.name ∉ before ++ [p.name]) ↔
          p.name ∉ ps.map Parameter.name ∧ ∀ q ∈ ps, q.name ∉ before := by
        grind
      have hrest := ih (before ++ [p.name])
      rw [hnew] at hrest
      rw [picks, List.forall_mem_cons, List.forall_mem_map]
      simp only [List.map_cons, List.map_nil, List.append_nil, List.append_assoc,
        List.singleton_append] at hrest ⊢
      rw [hrest, hlast, Parameter.fault?_eq_none_iff, List.nodup_cons, List.forall_mem_cons]
      grind

theorem parameterFaults_eq_nil_iff (ps : List Parameter) :
    parameterFaults ps = [] ↔
      (ps.map Parameter.name).Nodup ∧ ∀ p ∈ ps.dropLast, p.variadic = false := by
  rw [parameterFaults, List.filterMap_eq_nil_iff]
  refine (parameterFaults_after_eq_nil_iff [] ps).trans (and_congr_right fun _ => ?_)
  exact and_iff_right fun p _ => List.not_mem_nil

theorem Frame.sound_iff (f : Frame) :
    f.Sound ↔ parameterFaults f.parameters = [] ∧ repeatFaults f.entries = [] ∧
      ∀ label ∈ f.targets, label ∈ f.labels := by
  rw [parameterFaults_eq_nil_iff, repeatFaults_eq_nil_iff]
  constructor
  · rintro ⟨hnames, hlabels, htargets, hparameters, hvariadic⟩
    exact ⟨⟨hparameters, hvariadic⟩, ⟨hnames, hlabels⟩, htargets⟩
  · rintro ⟨⟨hparameters, hvariadic⟩, ⟨hnames, hlabels⟩, htargets⟩
    exact ⟨hnames, hlabels, htargets, hparameters, hvariadic⟩

/-- What a frame encloses is itself, or enclosed by a function of its statements. -/
theorem Frame.encloses_iff {f g : Frame} :
    f.Encloses g ↔ g = f ∨ ∃ span name byReference parameters body,
      .def_ span name byReference parameters body ∈ f.statements ∧
        Encloses ⟨parameters, body⟩ g := by
  -- enclosure is built at its inner end, so either direction is an induction that moves the outer one
  constructor
  · intro h
    induction h with
    | refl => exact .inl rfl
    | @function g span name byReference parameters body h hs ih =>
        rcases ih with rfl | ⟨span', name', byReference', parameters', body', hs', h'⟩
        · exact .inr ⟨span, name, byReference, parameters, body, hs, .refl _⟩
        · exact .inr ⟨span', name', byReference', parameters', body', hs', .function h' hs⟩
  · rintro (rfl | ⟨span, name, byReference, parameters, body, hs, h⟩)
    · exact .refl g
    · induction h with
      | refl => exact .function (.refl f) hs
      | function _ hs' ih => exact .function ih hs'

/-- A statement is faultless if it jumps to a label and, being a function, has a faultless frame. -/
theorem Stmt.faults_eq_nil_iff {labels : List String} {s : Stmt} :
    s.faults labels = [] ↔ (∀ name, s.target? = some name → name ∈ labels) ∧
      ∀ span name byReference parameters body, s = .def_ span name byReference parameters body →
        parameterFaults parameters = [] ∧ Frame.faults ⟨parameters, body⟩ = [] := by
  cases s
  case def_ span name byReference parameters body =>
    rw [Stmt.faults, List.append_eq_nil_iff]
    constructor
    · intro h
      refine ⟨fun _ htarget => (nomatch htarget), ?_⟩
      rintro _ _ _ _ _ ⟨⟩
      exact h
    · intro h
      exact h.2 span name byReference parameters body rfl
  all_goals simp [Stmt.faults, Stmt.target?]

/-- Nothing is found in a frame and its parameters exactly if it and all that it encloses is sound. -/
theorem Frame.faults_eq_nil_iff (f : Frame) :
    parameterFaults f.parameters = [] ∧ f.faults = [] ↔ ∀ g, f.Encloses g → g.Sound := by
  rw [f.faults_eq, List.append_eq_nil_iff, List.flatMap_eq_nil_iff]
  -- a function of the frame has a smaller body, so the claim holds of its frame already
  constructor
  · rintro ⟨hparameters, hrepeats, hstatements⟩ g hg
    rcases encloses_iff.1 hg with rfl | ⟨_, _, _, parameters, body, hs, hg⟩
    · refine g.sound_iff.2 ⟨hparameters, hrepeats, fun label hlabel => ?_⟩
      obtain ⟨s, hs, htarget⟩ := List.mem_filterMap.1 hlabel
      exact (Stmt.faults_eq_nil_iff.1 (hstatements s hs)).1 label htarget
    · have hfunction := (Stmt.faults_eq_nil_iff.1 (hstatements _ hs)).2 _ _ _ _ _ rfl
      exact (faults_eq_nil_iff ⟨parameters, body⟩).1 hfunction g hg
  · intro h
    obtain ⟨hparameters, hrepeats, htargets⟩ := f.sound_iff.1 (h f (.refl f))
    refine ⟨hparameters, hrepeats, fun s hs => Stmt.faults_eq_nil_iff.2 ⟨?_, ?_⟩⟩
    · intro name htarget
      exact htargets name (List.mem_filterMap.2 ⟨s, hs, htarget⟩)
    · rintro span name byReference parameters body rfl
      refine (faults_eq_nil_iff ⟨parameters, body⟩).2 fun g hg => h g ?_
      exact encloses_iff.2 (.inr ⟨span, name, byReference, parameters, body, hs, hg⟩)
termination_by sizeOf f.body
decreasing_by
  all_goals
    have := Stmt.sizeOf_lt_of_mem_flatEach f.body ‹_›
    simp at this
    omega

/-! ### Analysis -/

theorem lookup_eq_some_iff_mem {name : String} {symbol : Symbol} {entries : List (String × Symbol)}
    (h : (entries.map Prod.fst).Nodup) :
    entries.lookup name = some symbol ↔ (name, symbol) ∈ entries := by
  induction entries with
  | nil => simp
  | cons e es ih =>
      rw [List.map_cons, List.nodup_cons] at h
      obtain ⟨other, entry⟩ := e
      by_cases hname : name = other
      · subst hname
        have hnot : (name, symbol) ∉ es := fun hmem => h.1 (List.mem_map.2 ⟨_, hmem, rfl⟩)
        simp [hnot, eq_comm]
      · rw [List.lookup_cons, beq_false_of_ne hname]
        simp [ih h.2, hname]

/-- Analysis finds the first fault of the program in the order of the passes; and if there is none,
which is to say that the program is well scoped, it yields what the module declares. -/
theorem analyze_first_fault (program : List Stmt) :
    match analyze program with
    | .ok scope => WellScoped program ∧
        (∀ name symbol, scope.symbol? name = some symbol ↔
          (name, symbol) ∈ (Frame.ofModule program).names) ∧
        ∀ label, scope.hasLabel label ↔ label ∈ (Frame.ofModule program).labels
    | .error d => ¬ WellScoped program ∧ (Frame.ofModule program).faults.head? = some d := by
  have hsound : (Frame.ofModule program).faults = [] ↔ WellScoped program := by
    rw [WellScoped, ← Frame.faults_eq_nil_iff]
    exact (and_iff_right rfl).symm
  rw [analyze_eq_verdict]
  cases hfaults : (Frame.ofModule program).faults with
  | nil =>
      have hscoped := hsound.1 hfaults
      refine ⟨hscoped, fun name symbol => ?_, fun label => List.contains_iff_mem⟩
      have hnodup := hscoped _ (.refl _)
      exact lookup_eq_some_iff_mem hnodup.names
  | cons d ds =>
      refine ⟨fun h => ?_, rfl⟩
      rw [← hsound, hfaults] at h
      cases h

end ScriptFrontend
