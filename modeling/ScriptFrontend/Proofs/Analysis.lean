import ScriptFrontend.Proofs.Relabel
import ScriptFrontend.Scope.Analysis

/-!
Scope analysis of relabelled programs.

The analysis takes places only into its diagnostics, and it never asks which classes are native.  So a
program whose places move has the scope that it had before, or the diagnostic that it had before, at
the place that the old one moved to.
-/

namespace ScriptFrontend

variable {r : Relabelling}

def Declaration.relabel (r : Relabelling) : Declaration → Declaration
  | .symbol name entry position => .symbol name entry (r.place position)
  | .label name position => .label name (r.place position)

def Diagnostic.relabel (r : Relabelling) (d : Diagnostic) : Diagnostic :=
  { d with position := r.place d.position }

theorem mapError_bind {ε ε' α β : Type} (f : ε → ε') (x : Except ε α) (g : α → Except ε β) :
    (x >>= g).mapError f = x.mapError f >>= fun a => (g a).mapError f := by
  cases x <;> rfl

/-! ### Declarations -/

mutual

theorem Stmt.declarations_relabel (hn : r.name = id) :
    ∀ s : Stmt, (s.relabel r).declarations = s.declarations.map (Declaration.relabel r)
  | .block _ body => declarationsOf_relabel hn body
  | .const _ _ _ => by
      simp only [Stmt.relabel, Stmt.declarations, hn]
      rfl
  | .def_ _ _ _ _ _ => by
      simp only [Stmt.relabel, Stmt.declarations, hn]
      rfl
  | .foreach _ _ _ _ body => declarationsOf_relabel hn body
  | .global _ names => by
      simp only [Stmt.relabel, Stmt.declarations, hn, List.map_id, List.map_map]
      rfl
  | .if_ _ _ body chain => by
      simp only [Stmt.relabel, Stmt.declarations, declarationsOf_relabel hn body,
        ElseChain.declarations_relabel hn chain, List.map_append]
  | .label _ _ => by
      simp only [Stmt.relabel, Stmt.declarations, hn]
      rfl
  | .module_ _ _ => by
      simp only [Stmt.relabel, Stmt.declarations, hn, List.map_id]
      rfl
  | .open_ _ _ _ => by
      simp only [Stmt.relabel, Stmt.declarations, hn, List.map_id, Option.map_id_apply]
      rfl
  | .while_ _ _ body => declarationsOf_relabel hn body
  | .break_ _ _ => rfl
  | .class_ _ _ => rfl
  | .continue_ _ _ => rfl
  | .expr _ _ => rfl
  | .goto _ _ => rfl
  | .print _ _ => rfl
  | .raise _ _ => rfl
  | .return_ _ _ => rfl

theorem ElseChain.declarations_relabel (hn : r.name = id) :
    ∀ chain : ElseChain,
      (chain.relabel r).declarations = chain.declarations.map (Declaration.relabel r)
  | .done => rfl
  | .elif _ body chain => by
      simp only [ElseChain.relabel, ElseChain.declarations, declarationsOf_relabel hn body,
        ElseChain.declarations_relabel hn chain, List.map_append]
  | .otherwise body => declarationsOf_relabel hn body

theorem declarationsOf_relabel (hn : r.name = id) :
    ∀ ss : List Stmt,
      declarationsOf (Stmt.relabelEach r ss) = (declarationsOf ss).map (Declaration.relabel r)
  | [] => rfl
  | s :: ss => by
      simp only [Stmt.relabelEach, declarationsOf, Stmt.declarations_relabel hn s,
        declarationsOf_relabel hn ss, List.map_append]

end

theorem Declaration.clashes_relabel (s : Scope) (d : Declaration) :
    (d.relabel r).clashes s = d.clashes s := by
  cases d <;> rfl

theorem Scope.add_relabel (s : Scope) (d : Declaration) : s.add (d.relabel r) = s.add d := by
  cases d <;> rfl

theorem Scope.declareAll_relabel (s : Scope) (ds : List Declaration) :
    s.declareAll (ds.map (Declaration.relabel r)) =
      ((s.declareAll ds).1, (s.declareAll ds).2.mapError (Diagnostic.relabel r)) := by
  induction ds generalizing s with
  | nil => rfl
  | cons d ds ih =>
      rw [List.map_cons, declareAll, declareAll, d.clashes_relabel, s.add_relabel]
      split
      · cases d <;> rfl
      · exact ih (s.add d)

theorem Parameter.declaration_relabel (hn : r.name = id) (p : Parameter) :
    (p.relabel r).declaration = p.declaration.relabel r := by
  rw [relabel, hn]
  rfl

theorem frameScope_relabel (hn : r.name = id) (ps : List Parameter) (body : List Stmt) :
    frameScope (ps.map (Parameter.relabel r)) (Stmt.relabelEach r body) =
      (frameScope ps body).mapError (Diagnostic.relabel r) := by
  have hps : (ps.map (Parameter.relabel r)).map Parameter.declaration =
      (ps.map Parameter.declaration).map (Declaration.relabel r) := by
    rw [List.map_map, List.map_map]
    exact List.map_congr_left fun p _ => p.declaration_relabel hn
  rw [frameScope, frameScope, hps, declarationsOf_relabel hn, ← List.map_append,
    Scope.declareAll_relabel]
  cases h : Scope.declareAll {} (ps.map Parameter.declaration ++ declarationsOf body) with
  | mk scope outcome => cases outcome <;> rfl

/-! ### Checks -/

theorem checkParametersAfter_relabel (hn : r.name = id) (seen : List String) (ps : List Parameter) :
    checkParametersAfter seen (ps.map (Parameter.relabel r)) =
      (checkParametersAfter seen ps).mapError (Diagnostic.relabel r) := by
  induction ps generalizing seen with
  | nil => rfl
  | cons p ps ih =>
      have hname : (p.relabel r).name = p.name := by rw [Parameter.relabel, hn]; rfl
      have hvariadic : (p.relabel r).variadic = p.variadic := rfl
      rw [List.map_cons, checkParametersAfter, checkParametersAfter, hname, hvariadic,
        List.isEmpty_map]
      split
      · rfl
      · split
        · rfl
        · exact ih (p.name :: seen)

mutual

theorem Stmt.check_relabel (hn : r.name = id) :
    ∀ (s : Stmt) (scope : Scope),
      (s.relabel r).check scope = (s.check scope).mapError (Diagnostic.relabel r)
  | .block _ body, scope => checkEach_relabel hn body scope
  | .def_ _ _ _ ps body, scope => by
      simp only [Stmt.relabel, Stmt.check, checkParameters, checkParametersAfter_relabel hn,
        frameScope_relabel hn, checkEach_relabel hn body, mapError_bind]
  | .foreach _ _ _ _ body, scope => checkEach_relabel hn body scope
  | .goto _ _, scope => by
      simp only [Stmt.relabel, Stmt.check, hn, id]
      split <;> rfl
  | .if_ _ _ body chain, scope => by
      simp only [Stmt.relabel, Stmt.check, checkEach_relabel hn body,
        ElseChain.check_relabel hn chain, mapError_bind]
  | .while_ _ _ body, scope => checkEach_relabel hn body scope
  | .break_ _ _, _ => rfl
  | .class_ _ _, _ => rfl
  | .const _ _ _, _ => rfl
  | .continue_ _ _, _ => rfl
  | .expr _ _, _ => rfl
  | .global _ _, _ => rfl
  | .label _ _, _ => rfl
  | .module_ _ _, _ => rfl
  | .open_ _ _ _, _ => rfl
  | .print _ _, _ => rfl
  | .raise _ _, _ => rfl
  | .return_ _ _, _ => rfl

theorem ElseChain.check_relabel (hn : r.name = id) :
    ∀ (chain : ElseChain) (scope : Scope),
      (chain.relabel r).check scope = (chain.check scope).mapError (Diagnostic.relabel r)
  | .done, _ => rfl
  | .elif _ body chain, scope => by
      simp only [ElseChain.relabel, ElseChain.check, checkEach_relabel hn body,
        ElseChain.check_relabel hn chain, mapError_bind]
  | .otherwise body, scope => checkEach_relabel hn body scope

theorem checkEach_relabel (hn : r.name = id) :
    ∀ (ss : List Stmt) (scope : Scope),
      checkEach scope (Stmt.relabelEach r ss) =
        (checkEach scope ss).mapError (Diagnostic.relabel r)
  | [], _ => rfl
  | s :: ss, scope => by
      simp only [Stmt.relabelEach, checkEach, Stmt.check_relabel hn s, checkEach_relabel hn ss,
        mapError_bind]

end

/-- Analysis commutes with moving places and marking classes. -/
theorem analyze_relabel (hn : r.name = id) (p : List Stmt) :
    analyze (p.map (Stmt.relabel r)) = (analyze p).mapError (Diagnostic.relabel r) := by
  have hframe := frameScope_relabel hn [] p
  rw [List.map_nil] at hframe
  rw [← Stmt.relabelEach_eq_map, analyze, analyze, hframe]
  simp only [checkEach_relabel hn p, mapError_bind]
  rfl

/-- Programs that agree without their places have the same scope. -/
theorem analyze_congr {p q : List Stmt} {scope : Scope}
    (h : p.map Stmt.unplaced = q.map Stmt.unplaced) (hp : analyze p = .ok scope) :
    analyze q = .ok scope := by
  have hunplaced : analyze (q.map (Stmt.relabel .unplace)) = .ok scope := by
    change analyze (q.map Stmt.unplaced) = .ok scope
    rw [← h]
    exact (analyze_relabel rfl p).trans (by rw [hp]; rfl)
  rw [analyze_relabel rfl] at hunplaced
  cases hq : analyze q with
  | ok scope' => rw [hq] at hunplaced; exact hunplaced
  | error d => rw [hq] at hunplaced; cases hunplaced

end ScriptFrontend
