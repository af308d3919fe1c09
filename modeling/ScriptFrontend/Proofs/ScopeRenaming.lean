import Mathlib.Data.List.Basic
import ScriptFrontend.Proofs.Renaming
import ScriptFrontend.Proofs.RoundTrip
import ScriptFrontend.Proofs.Segments
import ScriptFrontend.Proofs.WellScoped

/-!
Scopes under a renaming.

The analysis only asks whether two names are the same.  A renaming that keeps the words of a program
apart keeps its names apart too, also the qualified ones, whose segments are renamed one by one.  So
the faults of the renamed program are those of the program, renamed, in the same order, and with
them the verdict and the scope.
-/

namespace ScriptFrontend

section

variable (ρ : String → String)

def renameSegments (name : String) : String :=
  qualified ((segments name).map ρ)

def Symbol.rename : Symbol → Symbol
  | .opened target => .opened (renameSegments ρ target)
  | .module_ => .module_
  | .function => .function
  | .constant => .constant
  | .global => .global
  | .parameter => .parameter

def renameEntry (entry : String × Symbol) : String × Symbol :=
  (renameSegments ρ entry.1, entry.2.rename ρ)

def Scope.rename (s : Scope) : Scope where
  symbols := s.symbols.map (renameEntry ρ)
  labels := s.labels.map (renameSegments ρ)

def Cause.rename : Cause → Cause
  | .alreadyDeclared name => .alreadyDeclared (renameSegments ρ name)
  | .undefinedLabel label => .undefinedLabel (renameSegments ρ label)
  | .variadicNotLast parameter => .variadicNotLast (renameSegments ρ parameter)
  | .duplicateParameter parameter => .duplicateParameter (renameSegments ρ parameter)
  | .unrecognised lexeme => .unrecognised lexeme
  | .unexpected expected found => .unexpected expected found

def Diagnostic.rename (d : Diagnostic) : Diagnostic :=
  { d with cause := d.cause.rename ρ }

def Declaration.rename : Declaration → Declaration
  | .symbol name entry position => .symbol (renameSegments ρ name) (entry.rename ρ) position
  | .label name position => .label (renameSegments ρ name) position

def Frame.rename (f : Frame) : Frame where
  parameters := f.parameters.map (Parameter.relabel (.rename ρ))
  body := f.body.map (Stmt.relabel (.rename ρ))

end

/-- The renaming keeps the words apart, and gives none of them a dot. -/
structure KeepsApart (ρ : String → String) (words : List String) : Prop where
  plain : ∀ w ∈ words, Plain (ρ w)
  injective : ∀ v ∈ words, ∀ w ∈ words, ρ v = ρ w → v = w

def MadeOf (words : List String) (name : String) : Prop :=
  ∀ w ∈ segments name, w ∈ words

/-! ### Names -/

section

variable {ρ : String → String} {words : List String} {a b : String}

theorem renameSegments_qualified {names : List String} (hne : names ≠ [])
    (h : ∀ name ∈ names, Plain name) :
    renameSegments ρ (qualified names) = qualified (names.map ρ) := by
  rw [renameSegments, segments_qualified hne h]

theorem renameSegments_of_plain (ρ : String → String) (h : Plain a) : renameSegments ρ a = ρ a := by
  rw [renameSegments, segments_of_plain h]
  exact String.intercalate_singleton

theorem madeOf_qualified {names : List String} (hne : names ≠ []) (h : ∀ name ∈ names, Plain name)
    (hw : ∀ name ∈ names, name ∈ words) : MadeOf words (qualified names) := by
  rwa [MadeOf, segments_qualified hne h]

theorem madeOf_of_plain (h : Plain a) (hw : a ∈ words) : MadeOf words a := by
  rw [MadeOf, segments_of_plain h]
  exact List.forall_mem_singleton.2 hw

namespace KeepsApart

variable (hρ : KeepsApart ρ words)

include hρ

theorem segments_renameSegments (ha : MadeOf words a) :
    segments (renameSegments ρ a) = (segments a).map ρ := by
  refine segments_qualified ?_ (List.forall_mem_map.2 fun w hw => hρ.plain w (ha w hw))
  exact mt List.map_eq_nil_iff.1 (segments_ne_nil a)

theorem map_inj {vs ws : List String} (hvs : ∀ v ∈ vs, v ∈ words) (hws : ∀ w ∈ ws, w ∈ words)
    (h : vs.map ρ = ws.map ρ) : vs = ws := by
  induction vs generalizing ws with
  | nil => exact (List.map_eq_nil_iff.1 h.symm).symm
  | cons v vs ih =>
      cases ws with
      | nil => cases h
      | cons w ws =>
          rw [List.forall_mem_cons] at hvs hws
          obtain ⟨hhead, htail⟩ := List.cons.inj h
          rw [hρ.injective v hvs.1 w hws.1 hhead, ih hvs.2 hws.2 htail]

/-- Names that are made of words that are kept apart are kept apart. -/
theorem renameSegments_inj (ha : MadeOf words a) (hb : MadeOf words b) :
    renameSegments ρ a = renameSegments ρ b ↔ a = b := by
  constructor
  · intro h
    have hmap : (segments a).map ρ = (segments b).map ρ := by
      rw [← hρ.segments_renameSegments ha, ← hρ.segments_renameSegments hb, h]
    rw [← qualified_segments a, hρ.map_inj ha hb hmap, qualified_segments]
  · exact congrArg _

theorem renameSegments_mem_map (ha : MadeOf words a) {names : List String}
    (hnames : ∀ b ∈ names, MadeOf words b) :
    renameSegments ρ a ∈ names.map (renameSegments ρ) ↔ a ∈ names := by
  rw [List.mem_map]
  constructor
  · rintro ⟨b, hb, h⟩
    rwa [← (hρ.renameSegments_inj (hnames b hb) ha).1 h]
  · intro h
    exact ⟨a, h, rfl⟩

end KeepsApart

end

/-! ### Declarations and parameters -/

theorem picks_map {α β : Type} (f : α → β) (as : List α) :
    picks (as.map f) =
      (picks as).map fun x : List α × α × List α => (x.1.map f, f x.2.1, x.2.2.map f) := by
  induction as with
  | nil => rfl
  | cons a as ih =>
      rw [List.map_cons, picks, ih, picks, List.map_cons, List.map_map, List.map_map]
      rfl

theorem eq_of_mem_picks {α : Type} {as : List α} {x : List α × α × List α} (h : x ∈ picks as) :
    x.1 ++ x.2.1 :: x.2.2 = as := by
  induction as generalizing x with
  | nil => cases h
  | cons a as ih =>
      rcases List.mem_cons.1 h with rfl | h
      · rfl
      · obtain ⟨y, hy, rfl⟩ := List.mem_map.1 h
        exact congrArg (a :: ·) (ih hy)

section

variable {ρ : String → String} {words : List String}

theorem Declaration.name_rename (d : Declaration) :
    (d.rename ρ).name = renameSegments ρ d.name := by
  cases d <;> rfl

theorem Declaration.position_rename (d : Declaration) : (d.rename ρ).position = d.position := by
  cases d <;> rfl

theorem Declaration.repeats_rename (hρ : KeepsApart ρ words) {d e : Declaration}
    (hd : MadeOf words d.name) (he : MadeOf words e.name) :
    (d.rename ρ).repeats (e.rename ρ) = d.repeats e := by
  have hname : (renameSegments ρ d.name == renameSegments ρ e.name) = (d.name == e.name) :=
    Bool.eq_iff_iff.2 (by simpa using hρ.renameSegments_inj hd he)
  cases d <;> cases e <;> first | rfl | exact hname

theorem repeatFaults_rename (hρ : KeepsApart ρ words) {ds : List Declaration}
    (hds : ∀ d ∈ ds, MadeOf words d.name) :
    repeatFaults (ds.map (Declaration.rename ρ)) = (repeatFaults ds).map (Diagnostic.rename ρ) := by
  rw [repeatFaults, picks_map, List.filterMap_map, repeatFaults, List.map_filterMap]
  refine List.filterMap_congr fun x hx => ?_
  obtain ⟨before, d, behind⟩ := x
  obtain rfl := eq_of_mem_picks hx
  simp only [List.forall_mem_append, List.forall_mem_cons] at hds
  have hany : (before.map (Declaration.rename ρ)).any (d.rename ρ).repeats =
      before.any d.repeats := by
    rw [List.any_map, Bool.eq_iff_iff, List.any_eq_true, List.any_eq_true]
    refine exists_congr fun e => and_congr_right fun he => ?_
    rw [Function.comp_apply, Declaration.repeats_rename hρ hds.2.1 (hds.1 e he)]
  simp only [Function.comp_apply, hany, Declaration.name_rename, Declaration.position_rename]
  split <;> rfl

def ParametersOver (words : List String) (ps : List Parameter) : Prop :=
  ∀ p ∈ ps, Plain p.name ∧ p.name ∈ words

theorem Parameter.name_relabel {p : Parameter} (h : Plain p.name) :
    (p.relabel (.rename ρ)).name = renameSegments ρ p.name :=
  (renameSegments_of_plain ρ h).symm

theorem ParametersOver.madeOf {ps : List Parameter} (h : ParametersOver words ps) :
    ∀ p ∈ ps, MadeOf words p.name := fun p hp =>
  madeOf_of_plain (h p hp).1 (h p hp).2

theorem ParametersOver.map_name_relabel {ps : List Parameter} (h : ParametersOver words ps) :
    (ps.map (Parameter.relabel (.rename ρ))).map Parameter.name =
      (ps.map Parameter.name).map (renameSegments ρ) := by
  rw [List.map_map, List.map_map]
  exact List.map_congr_left fun p hp => Parameter.name_relabel (h p hp).1

theorem Parameter.fault?_relabel (hρ : KeepsApart ρ words) {before behind : List Parameter}
    {p : Parameter} (hbefore : ParametersOver words before) (hp : Plain p.name ∧ p.name ∈ words) :
    (p.relabel (.rename ρ)).fault?
        ((before.map (Parameter.relabel (.rename ρ))).map Parameter.name)
        (behind.map (Parameter.relabel (.rename ρ))) =
      (p.fault? (before.map Parameter.name) behind).map (Diagnostic.rename ρ) := by
  have hnames : ∀ name ∈ before.map Parameter.name, MadeOf words name :=
    List.forall_mem_map.2 hbefore.madeOf
  have hmem := hρ.renameSegments_mem_map (madeOf_of_plain hp.1 hp.2) hnames
  have hlast : behind.map (Parameter.relabel (.rename ρ)) ≠ [] ↔ behind ≠ [] :=
    not_congr List.map_eq_nil_iff
  rw [fault?, fault?, hbefore.map_name_relabel, name_relabel hp.1]
  simp only [hmem, hlast]
  show (if p.variadic = true ∧ behind ≠ [] then _ else _) = _
  split
  · rfl
  · split <;> rfl

theorem parameterFaults_relabel (hρ : KeepsApart ρ words) {ps : List Parameter}
    (h : ParametersOver words ps) :
    parameterFaults (ps.map (Parameter.relabel (.rename ρ))) =
      (parameterFaults ps).map (Diagnostic.rename ρ) := by
  rw [parameterFaults, picks_map, List.filterMap_map, parameterFaults, List.map_filterMap]
  refine List.filterMap_congr fun x hx => ?_
  obtain ⟨before, p, behind⟩ := x
  obtain rfl := eq_of_mem_picks hx
  simp only [ParametersOver, List.forall_mem_append, List.forall_mem_cons] at h
  exact Parameter.fault?_relabel hρ h.1 h.2.1

end

/-! ### Statements of a frame -/

mutual

/-- The words that scoping compares in a statement and in all that is nested in it: those that are
declared and those that are jumped to. -/
def Stmt.words : Stmt → List String
  | .block _ body => wordsOf body
  | .const _ name _ => [name]
  | .def_ _ name _ parameters body => name :: (parameters.map Parameter.name ++ wordsOf body)
  | .foreach _ _ _ _ body => wordsOf body
  | .global _ names => names
  | .goto _ label => [label]
  | .if_ _ _ body chain => wordsOf body ++ chain.words
  | .label _ name => [name]
  | .module_ _ segments => segments
  | .open_ _ segments rename => segments ++ rename.toList
  | .while_ _ _ body => wordsOf body
  | _ => []

def ElseChain.words : ElseChain → List String
  | .done => []
  | .elif _ body chain => wordsOf body ++ chain.words
  | .otherwise body => wordsOf body

def wordsOf : List Stmt → List String
  | [] => []
  | s :: ss => s.words ++ wordsOf ss

end

/-- The statement can be written down, and scoping compares only these words in it. -/
structure Stmt.Over (words : List String) (s : Stmt) : Prop where
  wellFormed : s.WellFormed
  proper : s.Proper
  words : ∀ w ∈ s.words, w ∈ words

structure ElseChain.Over (words : List String) (chain : ElseChain) : Prop where
  wellFormed : chain.WellFormed
  proper : chain.Proper
  words : ∀ w ∈ chain.words, w ∈ words

structure OverEach (words : List String) (ss : List Stmt) : Prop where
  wellFormed : WellFormedEach ss
  proper : ProperEach ss
  words : ∀ w ∈ wordsOf ss, w ∈ words

section

variable {words : List String} {t : Stmt}

mutual

theorem Stmt.Over.of_mem_flat : ∀ s : Stmt, s.Over words → t ∈ s.flat → t.Over words
  | .block span body, h, ht => by
      rcases List.mem_cons.1 ht with rfl | ht
      · exact h
      · exact OverEach.of_mem_flatEach body ⟨h.wellFormed.2, h.proper, h.words⟩ ht
  | .foreach span name byReference iterable body, h, ht => by
      rcases List.mem_cons.1 ht with rfl | ht
      · exact h
      · exact OverEach.of_mem_flatEach body ⟨h.wellFormed.2.2, h.proper.2.2, h.words⟩ ht
  | .if_ span condition body chain, h, ht => by
      have hwords := List.forall_mem_append.1 h.words
      rcases List.mem_cons.1 ht with rfl | ht
      · exact h
      · rcases List.mem_append.1 ht with ht | ht
        · exact OverEach.of_mem_flatEach body ⟨h.wellFormed.2.1.2, h.proper.2.1, hwords.1⟩ ht
        · exact ElseChain.Over.of_mem_flat chain ⟨h.wellFormed.2.2, h.proper.2.2, hwords.2⟩ ht
  | .while_ span condition body, h, ht => by
      rcases List.mem_cons.1 ht with rfl | ht
      · exact h
      · exact OverEach.of_mem_flatEach body ⟨h.wellFormed.2.2, h.proper.2, h.words⟩ ht
  | .break_ _ _, h, ht | .class_ _ _, h, ht | .const _ _ _, h, ht | .continue_ _ _, h, ht
  | .def_ _ _ _ _ _, h, ht | .expr _ _, h, ht | .global _ _, h, ht | .goto _ _, h, ht
  | .label _ _, h, ht | .module_ _ _, h, ht | .open_ _ _ _, h, ht | .print _ _, h, ht
  | .raise _ _, h, ht | .return_ _ _, h, ht => List.mem_singleton.1 ht ▸ h

theorem ElseChain.Over.of_mem_flat :
    ∀ chain : ElseChain, chain.Over words → t ∈ chain.flat → t.Over words
  | .done, _, ht => by cases ht
  | .elif condition body chain, h, ht => by
      have hwords := List.forall_mem_append.1 h.words
      rcases List.mem_append.1 ht with ht | ht
      · exact OverEach.of_mem_flatEach body ⟨h.wellFormed.2.1.2, h.proper.2.1, hwords.1⟩ ht
      · exact ElseChain.Over.of_mem_flat chain ⟨h.wellFormed.2.2, h.proper.2.2, hwords.2⟩ ht
  | .otherwise body, h, ht =>
    OverEach.of_mem_flatEach body ⟨h.wellFormed.2, h.proper, h.words⟩ ht

theorem OverEach.of_mem_flatEach :
    ∀ ss : List Stmt, OverEach words ss → t ∈ Stmt.flatEach ss → t.Over words
  | [], _, ht => by cases ht
  | s :: ss, h, ht => by
      have hwords := List.forall_mem_append.1 h.words
      rcases List.mem_append.1 ht with ht | ht
      · exact Stmt.Over.of_mem_flat s ⟨h.wellFormed.1, h.proper.1, hwords.1⟩ ht
      · exact OverEach.of_mem_flatEach ss ⟨h.wellFormed.2.2, h.proper.2, hwords.2⟩ ht

end

end

section

variable {r : Relabelling}

mutual

theorem Stmt.flat_relabel : ∀ s : Stmt, (s.relabel r).flat = s.flat.map (Stmt.relabel r)
  | .block span body => congrArg (_ :: ·) (Stmt.flatEach_relabel body)
  | .foreach span name byReference iterable body => congrArg (_ :: ·) (Stmt.flatEach_relabel body)
  | .if_ span condition body chain => by
      rw [Stmt.relabel, Stmt.flat, Stmt.flatEach_relabel body, chain.flat_relabel,
        ← List.map_append]
      rfl
  | .while_ span condition body => congrArg (_ :: ·) (Stmt.flatEach_relabel body)
  | .break_ _ _ | .class_ _ _ | .const _ _ _ | .continue_ _ _ | .def_ _ _ _ _ _ | .expr _ _
  | .global _ _ | .goto _ _ | .label _ _ | .module_ _ _ | .open_ _ _ _ | .print _ _ | .raise _ _
  | .return_ _ _ => rfl

theorem ElseChain.flat_relabel :
    ∀ chain : ElseChain, (chain.relabel r).flat = chain.flat.map (Stmt.relabel r)
  | .done => rfl
  | .elif condition body chain => by
      rw [ElseChain.relabel, ElseChain.flat, Stmt.flatEach_relabel body, chain.flat_relabel,
        ← List.map_append]
      rfl
  | .otherwise body => Stmt.flatEach_relabel body

theorem Stmt.flatEach_relabel :
    ∀ ss : List Stmt,
      Stmt.flatEach (Stmt.relabelEach r ss) = (Stmt.flatEach ss).map (Stmt.relabel r)
  | [] => rfl
  | s :: ss => by
      rw [Stmt.relabelEach, Stmt.flatEach, s.flat_relabel, Stmt.flatEach_relabel ss,
        ← List.map_append]
      rfl

end

end

section

variable {ρ : String → String} {words : List String}

theorem localName_map {names : List String} {rename : Option String} (hne : names ≠ []) :
    localName (names.map ρ) (rename.map ρ) = ρ (localName names rename) := by
  cases rename with
  | some word => rfl
  | none =>
      obtain ⟨last, hlast⟩ := Option.ne_none_iff_exists'.1 (mt List.getLast?_eq_none_iff.1 hne)
      simp [localName, hlast]

theorem localName_mem {names : List String} {rename : Option String} (hne : names ≠ []) :
    localName names rename ∈ names ++ rename.toList := by
  cases rename with
  | some word => simp [localName]
  | none =>
      obtain ⟨last, hlast⟩ := Option.ne_none_iff_exists'.1 (mt List.getLast?_eq_none_iff.1 hne)
      simpa [localName, hlast] using List.mem_of_getLast? hlast

/-- What a statement declares is made of its words, and renaming the statement renames it. -/
theorem Stmt.Over.names {s : Stmt} (h : s.Over words) (ρ : String → String) :
    (∀ entry ∈ s.names, MadeOf words entry.1) ∧
      (s.relabel (.rename ρ)).names = s.names.map (renameEntry ρ) := by
  obtain ⟨hwf, hproper, hwords⟩ := h
  cases s
  case const span name value =>
    have hplain := hproper.1.plain
    refine ⟨List.forall_mem_singleton.2 (madeOf_of_plain hplain (hwords name (.head _))), ?_⟩
    exact congrArg (fun a => [(a, Symbol.constant)]) (renameSegments_of_plain ρ hplain).symm
  case def_ span name byReference parameters body =>
    have hplain := hproper.1.plain
    refine ⟨List.forall_mem_singleton.2 (madeOf_of_plain hplain (hwords name (.head _))), ?_⟩
    exact congrArg (fun a => [(a, Symbol.function)]) (renameSegments_of_plain ρ hplain).symm
  case global span names =>
    have hplain := fun name hname => (hproper name hname).plain
    refine ⟨List.forall_mem_map.2 fun name hname =>
      madeOf_of_plain (hplain name hname) (hwords name hname), ?_⟩
    show (names.map ρ).map (·, Symbol.global) = (names.map (·, Symbol.global)).map _
    rw [List.map_map, List.map_map]
    refine List.map_congr_left fun name hname => ?_
    exact congrArg (·, Symbol.global) (renameSegments_of_plain ρ (hplain name hname)).symm
  case module_ span names =>
    have hplain := fun name hname => (hproper name hname).plain
    refine ⟨List.forall_mem_singleton.2 (madeOf_qualified hwf hplain hwords), ?_⟩
    exact congrArg (fun a => [(a, Symbol.module_)]) (renameSegments_qualified hwf hplain).symm
  case open_ span names rename =>
    have hplain := fun name hname => (hproper.1 name hname).plain
    have hmem : localName names rename ∈ names ++ rename.toList := localName_mem hwf
    have hlocal : Plain (localName names rename) := by
      rcases List.mem_append.1 hmem with hmem | hmem
      · exact hplain _ hmem
      · exact (hproper.2 _ (Option.mem_toList.1 hmem)).plain
    refine ⟨List.forall_mem_singleton.2 (madeOf_of_plain hlocal (hwords _ hmem)), ?_⟩
    show [(localName (names.map ρ) (rename.map ρ), Symbol.opened (qualified (names.map ρ)))] = _
    rw [localName_map hwf, ← renameSegments_of_plain ρ hlocal,
      ← renameSegments_qualified hwf hplain]
    rfl
  all_goals exact ⟨nofun, rfl⟩

/-- And so for its label. -/
theorem Stmt.Over.label? {s : Stmt} (h : s.Over words) (ρ : String → String) :
    (∀ label ∈ s.label?, MadeOf words label) ∧
      (s.relabel (.rename ρ)).label? = s.label?.map (renameSegments ρ) := by
  obtain ⟨-, hproper, hwords⟩ := h
  cases s
  case label span name =>
    have hplain := Lexeme.Proper.plain hproper
    refine ⟨?_, congrArg some (renameSegments_of_plain ρ hplain).symm⟩
    rintro _ ⟨⟩
    exact madeOf_of_plain hplain (hwords name (.head _))
  all_goals exact ⟨nofun, rfl⟩

theorem Stmt.span_rename (s : Stmt) : (s.relabel (.rename ρ)).span = s.span := by
  cases s <;> rfl

theorem Stmt.Over.entries_rename {s : Stmt} (h : s.Over words) :
    (s.relabel (.rename ρ)).entries = s.entries.map (Declaration.rename ρ) := by
  have hlabels : (s.relabel (.rename ρ)).label?.toList =
      s.label?.toList.map (renameSegments ρ) := by
    rw [(h.label? ρ).2]
    cases s.label? <;> rfl
  rw [Stmt.entries, (h.names ρ).2, hlabels, Stmt.span_rename, Stmt.entries, List.map_append]
  simp only [List.map_map]
  rfl

theorem Stmt.Over.madeOf_entries {s : Stmt} (h : s.Over words) :
    ∀ d ∈ s.entries, MadeOf words d.name := by
  rw [Stmt.entries, List.forall_mem_append, List.forall_mem_map, List.forall_mem_map]
  refine ⟨(h.names id).1, fun label hlabel => ?_⟩
  exact (h.label? id).1 label (Option.mem_toList.1 hlabel)

end

/-! ### Frames -/

structure Frame.Over (words : List String) (f : Frame) : Prop where
  parameters : ParametersOver words f.parameters
  body : OverEach words f.body

section

variable {ρ : String → String} {words : List String} {f : Frame}

namespace Frame

theorem Over.statements (h : f.Over words) : ∀ s ∈ f.statements, s.Over words := fun _ hs =>
  OverEach.of_mem_flatEach f.body h.body hs

theorem statements_rename (f : Frame) :
    (f.rename ρ).statements = f.statements.map (Stmt.relabel (.rename ρ)) := by
  rw [statements, rename, ← Stmt.relabelEach_eq_map, Stmt.flatEach_relabel]
  rfl

theorem Over.names_rename (h : f.Over words) :
    (f.rename ρ).names = f.names.map (renameEntry ρ) := by
  have hparameters :
      (f.rename ρ).parameters.map (fun p => (p.name, Symbol.parameter)) =
        (f.parameters.map fun p => (p.name, Symbol.parameter)).map (renameEntry ρ) := by
    rw [rename, List.map_map, List.map_map]
    refine List.map_congr_left fun p hp => ?_
    exact congrArg (·, Symbol.parameter) (Parameter.name_relabel (h.parameters p hp).1)
  rw [names, hparameters, statements_rename, List.flatMap_map, names, List.map_append,
    List.map_flatMap]
  exact congrArg (_ ++ ·) (List.flatMap_congr fun s hs => ((h.statements s hs).names ρ).2)

theorem Over.labels_rename (h : f.Over words) :
    (f.rename ρ).labels = f.labels.map (renameSegments ρ) := by
  rw [labels, statements_rename, List.filterMap_map, labels, List.map_filterMap]
  exact List.filterMap_congr fun s hs => ((h.statements s hs).label? ρ).2

theorem Over.scope_rename (h : f.Over words) : (f.rename ρ).scope = f.scope.rename ρ := by
  rw [scope, h.names_rename, h.labels_rename]
  rfl

theorem Over.entries_rename (h : f.Over words) :
    (f.rename ρ).entries = f.entries.map (Declaration.rename ρ) := by
  have hparameters : (f.rename ρ).parameters.map Parameter.declaration =
      (f.parameters.map Parameter.declaration).map (Declaration.rename ρ) := by
    rw [rename, List.map_map, List.map_map]
    refine List.map_congr_left fun p hp => ?_
    exact congrArg (Declaration.symbol · .parameter p.span.start)
      (Parameter.name_relabel (h.parameters p hp).1)
  rw [entries, hparameters, statements_rename, List.flatMap_map, entries, List.map_append,
    List.map_flatMap]
  exact congrArg (_ ++ ·) (List.flatMap_congr fun s hs => (h.statements s hs).entries_rename)

theorem Over.madeOf_entries (h : f.Over words) : ∀ d ∈ f.entries, MadeOf words d.name := by
  rw [entries, List.forall_mem_append, List.forall_mem_map]
  refine ⟨h.parameters.madeOf, fun d hd => ?_⟩
  obtain ⟨s, hs, hd⟩ := List.mem_flatMap.1 hd
  exact (h.statements s hs).madeOf_entries d hd

theorem Over.madeOf_labels (h : f.Over words) : ∀ label ∈ f.labels, MadeOf words label := by
  intro label hlabel
  obtain ⟨s, hs, hlabel⟩ := List.mem_filterMap.1 hlabel
  exact ((h.statements s hs).label? id).1 label hlabel

/-- The faults of the renamed frame are those of the frame, renamed.  A function of the frame is a
frame over the same words with a smaller body. -/
theorem Over.faults_rename (hρ : KeepsApart ρ words) {f : Frame} (h : f.Over words) :
    (f.rename ρ).faults = f.faults.map (Diagnostic.rename ρ) := by
  rw [faults_eq, h.entries_rename, repeatFaults_rename hρ h.madeOf_entries, statements_rename,
    List.flatMap_map, f.faults_eq, List.map_append, List.map_flatMap, h.labels_rename]
  refine congrArg (_ ++ ·) (List.flatMap_congr fun s hs => ?_)
  obtain ⟨hwf, hproper, hwords⟩ := h.statements s hs
  cases s
  case goto span label =>
    have hplain := Lexeme.Proper.plain hproper
    have hmem := hρ.renameSegments_mem_map (madeOf_of_plain hplain (hwords label (.head _)))
      h.madeOf_labels
    simp only [Stmt.relabel, Stmt.faults]
    show (if ρ label ∈ f.labels.map (renameSegments ρ) then []
      else [Diagnostic.mk (.undefinedLabel (ρ label)) span.start none]) = _
    rw [← renameSegments_of_plain ρ hplain]
    by_cases hlabel : label ∈ f.labels
    · rw [if_pos (hmem.2 hlabel), if_pos hlabel]
      rfl
    · rw [if_neg (mt hmem.1 hlabel), if_neg hlabel]
      rfl
  case def_ span name byReference parameters body =>
    -- the function is a frame with a smaller body, over some of the words
    have hwords' := List.forall_mem_append.1 (List.forall_mem_cons.1 hwords).2
    have hparameters : ParametersOver words parameters := fun p hp =>
      ⟨(hproper.2.1 p hp).plain, hwords'.1 _ (List.mem_map_of_mem hp)⟩
    have hframe : Frame.Over words ⟨parameters, body⟩ :=
      ⟨hparameters, hwf.2, hproper.2.2, hwords'.2⟩
    have hbody := Over.faults_rename hρ hframe
    simp only [Stmt.relabel, Stmt.faults, parameterFaults_relabel hρ hparameters,
      Stmt.relabelEach_eq_map, List.map_append]
    exact congrArg (_ ++ ·) hbody
  all_goals simp only [Stmt.relabel, Stmt.faults, List.map_nil]
termination_by sizeOf f.body
decreasing_by
  have := Stmt.sizeOf_lt_of_mem_flatEach f.body hs
  simp at this
  omega

end Frame

theorem verdict_map (ds : List Diagnostic) :
    verdict (ds.map (Diagnostic.rename ρ)) = (verdict ds).mapError (Diagnostic.rename ρ) := by
  cases ds <;> rfl

end

/-! ### Programs -/

section

variable {ρ : String → String} {source file : String} {ts : List Token} {p : List Stmt}

theorem Frame.over_ofModule (hwf : WellFormedEach p) (hproper : ProperEach p) :
    (Frame.ofModule p).Over (wordsOf p) where
  parameters := nofun
  body := ⟨hwf, hproper, fun _ hw => hw⟩

theorem analyze_map_relabel (hwf : WellFormedEach p) (hproper : ProperEach p)
    (hρ : KeepsApart ρ (wordsOf p)) :
    analyze (p.map (Stmt.relabel (.rename ρ))) =
      ((analyze p).map (Scope.rename ρ)).mapError (Diagnostic.rename ρ) := by
  have hframe := Frame.over_ofModule hwf hproper
  have hmodule : Frame.ofModule (p.map (Stmt.relabel (.rename ρ))) =
      (Frame.ofModule p).rename ρ := rfl
  rw [analyze_eq_verdict, hmodule, hframe.faults_rename hρ, hframe.scope_rename, verdict_map,
    analyze_eq_verdict]
  cases verdict (Frame.ofModule p).faults <;> rfl

/-- Analysis commutes with renaming.  If the aliases keep the words of a program that is parsed from
a source apart, the program that is parsed with them declares what the program declares, with every
segment of every name and every label renamed; and if the program fails, it fails for the same cause
at the same place, with the name renamed. -/
theorem analyze_renamed {aliases : Aliases} (hts : tokenize source file = .ok ts)
    (hp : parseTokens source ts = .ok p) (hρ : KeepsApart aliases.resolve (wordsOf p)) :
    ∃ p', parseTokens source ts aliases = .ok p' ∧
      match analyze p with
      | .ok scope => analyze p' = .ok (scope.rename aliases.resolve)
      | .error d => analyze p' = .error (d.rename aliases.resolve) := by
  have hparse := parseTokens_eq_ok_iff.1 hp
  obtain ⟨hwf, hproper⟩ := wellFormed_and_proper_of_parse hts hparse
  refine ⟨p.map (Stmt.relabel (.rename aliases.resolve)), ?_, ?_⟩
  · rw [parseTokens, Grammar.parse_standard_rename, hparse]
    rfl
  · rw [analyze_map_relabel hwf hproper hρ]
    cases analyze p <;> rfl

/-- A module that is declared and opened: the alias for its first segment shows in the name and in
the target, and that for the label in the label. -/
theorem analyze_renamed_module :
    ∃ ts p, tokenize "module a.b open a.b as c label d" = .ok ts ∧
      parseTokens "module a.b open a.b as c label d" ts = .ok p ∧
      KeepsApart (Aliases.resolve [("a", "x"), ("d", "y")]) (wordsOf p) ∧
      ∃ p', parseTokens "module a.b open a.b as c label d" ts [("a", "x"), ("d", "y")] = .ok p' ∧
        analyze p' = .ok ⟨[("x.b", .module_), ("c", .opened "x.b")], ["y"]⟩ := by
  let position (column : Nat) : Position := ⟨column - 1, 1, column, "shell"⟩
  let ts : List Token := [⟨.keyword .module_, "module", ⟨position 1, position 7⟩⟩,
    ⟨.identifier, "a", ⟨position 8, position 9⟩⟩, ⟨.mark .dot, ".", ⟨position 9, position 10⟩⟩,
    ⟨.identifier, "b", ⟨position 10, position 11⟩⟩,
    ⟨.keyword .open_, "open", ⟨position 12, position 16⟩⟩,
    ⟨.identifier, "a", ⟨position 17, position 18⟩⟩, ⟨.mark .dot, ".", ⟨position 18, position 19⟩⟩,
    ⟨.identifier, "b", ⟨position 19, position 20⟩⟩,
    ⟨.keyword .as_, "as", ⟨position 21, position 23⟩⟩,
    ⟨.identifier, "c", ⟨position 24, position 25⟩⟩,
    ⟨.keyword .label, "label", ⟨position 26, position 31⟩⟩,
    ⟨.identifier, "d", ⟨position 32, position 33⟩⟩, .endOfInput (position 33)]
  let p : List Stmt := [.module_ ⟨position 1, position 11⟩ ["a", "b"],
    .open_ ⟨position 12, position 25⟩ ["a", "b"] (some "c"),
    .label ⟨position 26, position 33⟩ "d"]
  have hts : tokenize "module a.b open a.b as c label d" = .ok ts := by with_unfolding_all rfl
  have hp : parseTokens "module a.b open a.b as c label d" ts = .ok p := by with_unfolding_all rfl
  have hρ : KeepsApart (Aliases.resolve [("a", "x"), ("d", "y")]) (wordsOf p) :=
    ⟨by decide, by decide⟩
  exact ⟨ts, p, hts, hp, hρ, analyze_renamed hts hp hρ⟩

end

end ScriptFrontend
