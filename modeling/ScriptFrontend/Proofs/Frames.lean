import ScriptFrontend.Scope.Analysis

/-!
Frames and their faults.

This is what scoping means, said without a checker.  The statements of a frame are laid flat in the
order of the text, and everything else is read off from that one list: the names, the labels and the
jumps of the frame, and what is wrong with them.
-/

namespace ScriptFrontend

/-- Every way to pick one element, with those before it and those behind it. -/
def picks {α : Type} : List α → List (List α × α × List α)
  | [] => []
  | a :: as => ([], a, as) :: (picks as).map fun (before, b, behind) => (a :: before, b, behind)

/-- What share one scope: the parameters and the body of a function, or the statements of a module. -/
structure Frame where
  parameters : List Parameter
  body : List Stmt

/-! ### The statements of a frame -/

mutual

/-- A statement and those nested in it, in the order of the text.  A function or a class is one
statement of the frame around it, whatever it holds. -/
def Stmt.flat : Stmt → List Stmt
  | .block span body => .block span body :: Stmt.flatEach body
  | .foreach span name byReference iterable body =>
    .foreach span name byReference iterable body :: Stmt.flatEach body
  | .if_ span condition body chain =>
    .if_ span condition body chain :: (Stmt.flatEach body ++ chain.flat)
  | .while_ span condition body => .while_ span condition body :: Stmt.flatEach body
  | s => [s]

def ElseChain.flat : ElseChain → List Stmt
  | .done => []
  | .elif _ body chain => Stmt.flatEach body ++ chain.flat
  | .otherwise body => Stmt.flatEach body

def Stmt.flatEach : List Stmt → List Stmt
  | [] => []
  | s :: ss => s.flat ++ Stmt.flatEach ss

end

mutual

theorem Stmt.sizeOf_le_of_mem_flat {t : Stmt} : ∀ s : Stmt, t ∈ s.flat → sizeOf t ≤ sizeOf s
  | .block span body, h => by
      simp only [Stmt.flat, List.mem_cons] at h
      rcases h with rfl | h
      · exact Nat.le_refl _
      · have := Stmt.sizeOf_lt_of_mem_flatEach body h
        simp
        omega
  | .foreach span name byReference iterable body, h => by
      simp only [Stmt.flat, List.mem_cons] at h
      rcases h with rfl | h
      · exact Nat.le_refl _
      · have := Stmt.sizeOf_lt_of_mem_flatEach body h
        simp
        omega
  | .if_ span condition body chain, h => by
      simp only [Stmt.flat, List.mem_cons, List.mem_append] at h
      rcases h with rfl | h | h
      · exact Nat.le_refl _
      · have := Stmt.sizeOf_lt_of_mem_flatEach body h
        simp
        omega
      · have := ElseChain.sizeOf_lt_of_mem_flat chain h
        simp
        omega
  | .while_ span condition body, h => by
      simp only [Stmt.flat, List.mem_cons] at h
      rcases h with rfl | h
      · exact Nat.le_refl _
      · have := Stmt.sizeOf_lt_of_mem_flatEach body h
        simp
        omega
  | .break_ _ _, h | .class_ _ _, h | .const _ _ _, h | .continue_ _ _, h | .def_ _ _ _ _ _, h
  | .expr _ _, h | .global _ _, h | .goto _ _, h | .label _ _, h | .module_ _ _, h
  | .open_ _ _ _, h | .print _ _, h | .raise _ _, h | .return_ _ _, h =>
    Nat.le_of_eq (congrArg sizeOf (List.mem_singleton.1 h))

theorem ElseChain.sizeOf_lt_of_mem_flat {t : Stmt} :
    ∀ chain : ElseChain, t ∈ chain.flat → sizeOf t < sizeOf chain
  | .done, h => by cases h
  | .elif condition body chain, h => by
      simp only [ElseChain.flat, List.mem_append] at h
      rcases h with h | h
      · have := Stmt.sizeOf_lt_of_mem_flatEach body h
        simp
        omega
      · have := ElseChain.sizeOf_lt_of_mem_flat chain h
        simp
        omega
  | .otherwise body, h => by
      have := Stmt.sizeOf_lt_of_mem_flatEach body h
      simp
      omega

theorem Stmt.sizeOf_lt_of_mem_flatEach {t : Stmt} :
    ∀ ss : List Stmt, t ∈ Stmt.flatEach ss → sizeOf t < sizeOf ss
  | [], h => by cases h
  | s :: ss, h => by
      rcases List.mem_append.1 h with h | h
      · have := Stmt.sizeOf_le_of_mem_flat s h
        simp
        omega
      · have := Stmt.sizeOf_lt_of_mem_flatEach ss h
        simp
        omega

end

def Stmt.names : Stmt → List (String × Symbol)
  | .const _ name _ => [(name, .constant)]
  | .def_ _ name _ _ _ => [(name, .function)]
  | .global _ names => names.map (·, .global)
  | .module_ _ segments => [(qualified segments, .module_)]
  | .open_ _ segments rename => [(localName segments rename, .opened (qualified segments))]
  | _ => []

def Stmt.label? : Stmt → Option String
  | .label _ name => some name
  | _ => none

def Stmt.target? : Stmt → Option String
  | .goto _ name => some name
  | _ => none

namespace Frame

variable (f : Frame)

def ofModule (program : List Stmt) : Frame :=
  ⟨[], program⟩

def statements : List Stmt :=
  Stmt.flatEach f.body

def names : List (String × Symbol) :=
  f.parameters.map (fun p => (p.name, .parameter)) ++ f.statements.flatMap Stmt.names

def labels : List String :=
  f.statements.filterMap Stmt.label?

def targets : List String :=
  f.statements.filterMap Stmt.target?

/-- Nothing is wrong with the frame itself. -/
structure Sound : Prop where
  names : (f.names.map Prod.fst).Nodup
  labels : f.labels.Nodup
  targets : ∀ label ∈ f.targets, label ∈ f.labels
  parameters : (f.parameters.map Parameter.name).Nodup
  variadic : ∀ p ∈ f.parameters.dropLast, p.variadic = false

/-- The second frame is the first one, or the frame of a function at any depth in it. -/
inductive Encloses : Frame → Frame → Prop
  | refl (f : Frame) : Encloses f f
  | function {f g : Frame} {span : Span} {name : String} {byReference : Bool}
      {parameters : List Parameter} {body : List Stmt} (h : Encloses f g)
      (hs : .def_ span name byReference parameters body ∈ g.statements) :
      Encloses f ⟨parameters, body⟩

end Frame

def WellScoped (program : List Stmt) : Prop :=
  ∀ f, (Frame.ofModule program).Encloses f → f.Sound

/-! ### Faults -/

def Stmt.entries (s : Stmt) : List Declaration :=
  s.names.map (fun entry => .symbol entry.1 entry.2 s.span.start) ++
    s.label?.toList.map (.label · s.span.start)

def Declaration.repeats : Declaration → Declaration → Bool
  | .symbol name _ _, .symbol other _ _ => name == other
  | .label name _, .label other _ => name == other
  | _, _ => false

/-- The declarations that repeat one before them. -/
def repeatFaults (ds : List Declaration) : List Diagnostic :=
  (picks ds).filterMap fun (before, d, _) =>
    if before.any d.repeats then some ⟨.alreadyDeclared d.name, d.position, none⟩ else none

/-- What is wrong with a parameter behind those with the names before it: it is variadic in front of
others, or else named like one before it. -/
def Parameter.fault? (before : List String) (p : Parameter) (behind : List Parameter) :
    Option Diagnostic :=
  if p.variadic ∧ behind ≠ [] then some ⟨.variadicNotLast p.name, p.span.start, none⟩
  else if p.name ∈ before then some ⟨.duplicateParameter p.name, p.span.start, none⟩
  else none

def parameterFaults (ps : List Parameter) : List Diagnostic :=
  (picks ps).filterMap fun (before, p, behind) => p.fault? (before.map Parameter.name) behind

def Frame.entries (f : Frame) : List Declaration :=
  f.parameters.map Parameter.declaration ++ f.statements.flatMap Stmt.entries

mutual

/-- All that is wrong with a frame and with the functions in it, in the order in which it is found:
first what is declared again, and then what is wrong with one statement after the other. -/
def Frame.faults (f : Frame) : List Diagnostic :=
  repeatFaults f.entries ++ f.statements.attach.flatMap fun ⟨s, _⟩ => s.faults f.labels
termination_by sizeOf f.body
decreasing_by
  have := Stmt.sizeOf_lt_of_mem_flatEach f.body ‹_›
  omega

/-- What is wrong with a statement of a frame with these labels: the jump that leads nowhere, or the
parameters of a function and then its frame. -/
def Stmt.faults (labels : List String) : Stmt → List Diagnostic
  | .goto span name =>
    if name ∈ labels then [] else [⟨.undefinedLabel name, span.start, none⟩]
  | .def_ _ _ _ parameters body => parameterFaults parameters ++ Frame.faults ⟨parameters, body⟩
  | _ => []
termination_by s => sizeOf s

end

theorem Frame.faults_eq (f : Frame) :
    f.faults = repeatFaults f.entries ++ f.statements.flatMap (Stmt.faults f.labels) := by
  rw [Frame.faults]
  simp

end ScriptFrontend
