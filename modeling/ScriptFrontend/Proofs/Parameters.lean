import Mathlib.Data.Fin.Tuple.Basic
import ScriptFrontend.Proofs.WellScoped

/-!
The check of parameters, place by place.

A parameter is judged by its place: whether others follow it, and which names stand in front of it.
The check stops at the leftmost parameter that is at fault.  Where none is, no name comes twice, so
declaring the parameters one by one in an empty scope has nothing left to find, and whatever is wrong
with the function is wrong with its body.
-/

namespace ScriptFrontend

/-- The element at each index, with those before it and those behind it. -/
theorem picks_eq_map_finRange {α : Type} (as : List α) :
    picks as = (List.finRange as.length).map fun i : Fin as.length =>
      (as.take i, as[i], as.drop (i + 1)) := by
  induction as with
  | nil => rfl
  | cons a as ih =>
      have hindices : List.finRange (a :: as).length =
          0 :: (List.finRange as.length).map Fin.succ :=
        List.finRange_succ
      rw [picks, ih, hindices, List.map_cons, List.map_map, List.map_map]
      rfl

namespace Parameters

section

variable (ps : List Parameter) (i : Fin ps.length)

/-- The parameter at the index is variadic, and it is not the last one. -/
def VariadicEarly : Prop :=
  ps[i].variadic = true ∧ i.val + 1 ≠ ps.length

instance : Decidable (VariadicEarly ps i) :=
  inferInstanceAs (Decidable (_ ∧ _))

/-- The parameter at the index is named like one in front of it. -/
def Repeated : Prop :=
  ∃ j < i, ps[j].name = ps[i].name

def Faulty : Prop :=
  VariadicEarly ps i ∨ Repeated ps i

def Leftmost : Prop :=
  Faulty ps i ∧ ∀ j < i, ¬ Faulty ps j

/-- The diagnostic of a parameter at fault; that it is variadic too early counts before its name. -/
def blame : Diagnostic :=
  if VariadicEarly ps i then ⟨.variadicNotLast ps[i].name, ps[i].span.start, none⟩
  else ⟨.duplicateParameter ps[i].name, ps[i].span.start, none⟩

def fault? : Option Diagnostic :=
  ps[i].fault? ((ps.take i).map Parameter.name) (ps.drop (i + 1))

def scope : Scope :=
  ⟨ps.map fun p => (p.name, .parameter), []⟩

end

variable {ps : List Parameter} {i : Fin ps.length} {d : Diagnostic}

theorem drop_ne_nil_iff : ps.drop (i + 1) ≠ [] ↔ i.val + 1 ≠ ps.length := by
  have := i.isLt
  rw [Ne, List.drop_eq_nil_iff]
  omega

theorem mem_names_take_iff : ps[i].name ∈ (ps.take i).map Parameter.name ↔ Repeated ps i := by
  constructor
  · intro h
    obtain ⟨p, hp, hname⟩ := List.mem_map.1 h
    obtain ⟨j, hj, rfl⟩ := List.mem_take_iff_getElem.1 hp
    have hlt : j < i.val := by omega
    exact ⟨⟨j, by omega⟩, hlt, hname⟩
  · rintro ⟨j, hj, hname⟩
    refine List.mem_map.2 ⟨ps[j], ?_, hname⟩
    exact List.mem_take_iff_getElem.2 ⟨j, by omega, rfl⟩

theorem fault?_eq_some_iff : fault? ps i = some d ↔ Faulty ps i ∧ d = blame ps i := by
  have hplace : ps[i].variadic = true ∧ ps.drop (i + 1) ≠ [] ↔ VariadicEarly ps i :=
    and_congr_right fun _ => drop_ne_nil_iff
  rw [fault?, Parameter.fault?, Faulty, blame]
  by_cases hearly : VariadicEarly ps i
  · rw [if_pos (hplace.2 hearly), if_pos hearly]
    simp [hearly, eq_comm]
  · rw [if_neg (mt hplace.1 hearly), if_neg hearly]
    by_cases hrepeated : Repeated ps i
    · rw [if_pos (mem_names_take_iff.2 hrepeated)]
      simp [hrepeated, eq_comm]
    · rw [if_neg (mt mem_names_take_iff.1 hrepeated)]
      simp [hearly, hrepeated]

theorem fault?_eq_none_iff : fault? ps i = none ↔ ¬ Faulty ps i := by
  rw [Option.eq_none_iff_forall_ne_some]
  simp [fault?_eq_some_iff]

/-- The faults of the parameters, in the order of their places. -/
theorem parameterFaults_eq_filterMap (ps : List Parameter) :
    parameterFaults ps = (List.finRange ps.length).filterMap (fault? ps) := by
  rw [parameterFaults, picks_eq_map_finRange, List.filterMap_map]
  rfl

theorem head?_parameterFaults_eq_some_iff :
    (parameterFaults ps).head? = some d ↔ ∃ i, Leftmost ps i ∧ d = blame ps i := by
  rw [parameterFaults_eq_filterMap, List.head?_filterMap, ← Fin.findSome?_eq_findSome?_finRange,
    Fin.findSome?_eq_some_iff]
  refine exists_congr fun i => ?_
  simp only [fault?_eq_some_iff, fault?_eq_none_iff, Leftmost]
  exact and_right_comm

end Parameters

theorem verdict_eq_error_iff {ds : List Diagnostic} {d : Diagnostic} :
    verdict ds = .error d ↔ ds.head? = some d := by
  cases ds <;> simp [verdict]

theorem checkParameters_eq_ok_iff {ps : List Parameter} :
    checkParameters ps = .ok () ↔
      (ps.map Parameter.name).Nodup ∧ ∀ p ∈ ps.dropLast, p.variadic = false := by
  rw [checkParameters_eq_verdict, verdict_eq_ok_iff, parameterFaults_eq_nil_iff]

/-! ### Functions whose parameters pass -/

/-- Parameters with different names are declared one by one without a clash. -/
theorem declareAll_parameters {ps : List Parameter} (h : (ps.map Parameter.name).Nodup) :
    Scope.declareAll {} (ps.map Parameter.declaration) = (Parameters.scope ps, .ok ()) := by
  have hadd : Scope.addAll {} (ps.map Parameter.declaration) = Parameters.scope ps :=
    Scope.addAll_symbols {} ps (fun p => (p.name, .parameter)) (·.span.start)
  have hnodup : (Parameters.scope ps).Nodup := by
    refine ⟨?_, List.nodup_nil⟩
    rw [Parameters.scope, List.map_map]
    exact h
  have hok : (Scope.declareAll {} (ps.map Parameter.declaration)).2 = .ok () := by
    rw [← hadd, Scope.nodup_addAll_iff] at hnodup
    exact hnodup.1
  exact Prod.ext ((Scope.declareAll_fst_of_ok hok).trans hadd) hok

/-- Behind its parameters, a function is checked by declaring its body in the scope that holds them. -/
theorem check_def_of_parameters {ps : List Parameter} (h : checkParameters ps = .ok ())
    (outer : Scope) (span : Span) (name : String) (byReference : Bool) (body : List Stmt) :
    (Stmt.def_ span name byReference ps body).check outer =
      ((Parameters.scope ps).declareAll (declarationsOf body)).2.bind fun _ =>
        checkEach ((Parameters.scope ps).declareAll (declarationsOf body)).1 body := by
  have hdeclare := declareAll_parameters (checkParameters_eq_ok_iff.1 h).1
  rw [Stmt.check, h, frameScope, Scope.declareAll_append, hdeclare]
  show ((Scope.declareAll _ _).2.map fun _ => _).bind _ = _
  cases ((Parameters.scope ps).declareAll (declarationsOf body)).2 <;> rfl

/-- The check of parameters passes if their names differ and none but the last is variadic, and else
it reports the leftmost parameter at fault.  Behind a check that passes, declaring the parameters in
the fresh scope of a function never fails, so what is left to check is the body. -/
theorem checkParameters_leftmost (ps : List Parameter) :
    (checkParameters ps = .ok () ↔
      (ps.map Parameter.name).Nodup ∧ ∀ p ∈ ps.dropLast, p.variadic = false) ∧
    (∀ d, checkParameters ps = .error d ↔
      ∃ i, Parameters.Leftmost ps i ∧ d = Parameters.blame ps i) ∧
    (checkParameters ps = .ok () →
      Scope.declareAll {} (ps.map Parameter.declaration) = (Parameters.scope ps, .ok ()) ∧
      ∀ outer span name byReference body,
        (Stmt.def_ span name byReference ps body).check outer =
          ((Parameters.scope ps).declareAll (declarationsOf body)).2.bind fun _ =>
            checkEach ((Parameters.scope ps).declareAll (declarationsOf body)).1 body) := by
  refine ⟨checkParameters_eq_ok_iff, fun d => ?_, fun h => ⟨?_, check_def_of_parameters h⟩⟩
  · rw [checkParameters_eq_verdict, verdict_eq_error_iff,
      Parameters.head?_parameterFaults_eq_some_iff]
  · exact declareAll_parameters (checkParameters_eq_ok_iff.1 h).1

/-- The second parameter is variadic too early and repeats a name: the first of the two is reported. -/
example (span : Span) :
    checkParameters [⟨"a", false, false, span⟩, ⟨"a", false, true, span⟩, ⟨"a", true, false, span⟩] =
      .error ⟨.variadicNotLast "a", span.start, none⟩ := rfl

end ScriptFrontend
