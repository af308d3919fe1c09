import ScriptFrontend.Proofs.Relabel
import ScriptFrontend.Proofs.Spelling

/-!
Places do not matter to the language.

A relabelled tree is well formed if the tree is, whatever becomes of its places, its names and its
native classes.  If only the places move, the two are also spelled by the same lexemes.
-/

namespace ScriptFrontend

variable {r : Relabelling}

namespace Expr

theorem level_relabel (e : Expr) : (e.relabel r).level = e.level := by
  cases e <;> rfl

theorem first_relabel (e : Expr) : (e.relabel r).first = e.first := by
  induction e using Expr.rec (motive_2 := fun _ => True) with
  | literal | symbol | unary | group => rfl
  | binary span op left right ihl _ => exact ihl
  | assign span target value iht _ => exact iht
  | call span callee arguments ihc _ => exact ihc
  | member span object property iho => exact iho
  | nil => trivial
  | cons => trivial

theorem lexemes_relabel (hn : r.name = id) (e : Expr) : (e.relabel r).lexemes = e.lexemes := by
  induction e using Expr.rec
    (motive_2 := fun es => lexemesEach (relabelEach r es) = lexemesEach es) with
  | literal => rfl
  | symbol span name => rw [relabel, hn]; rfl
  | unary span op operand ih => exact congrArg (op.lexeme :: ·) ih
  | binary span op left right ihl ihr =>
      change (left.relabel r).lexemes ++ op.lexeme :: (right.relabel r).lexemes = _
      rw [ihl, ihr]
      rfl
  | assign span target value iht ihv =>
      change (target.relabel r).lexemes ++ .mark .bind :: (value.relabel r).lexemes = _
      rw [iht, ihv]
      rfl
  | call span callee arguments ihc iha =>
      change (callee.relabel r).lexemes ++ .mark .openParen ::
        ([Lexeme.mark .comma].intercalate (lexemesEach (relabelEach r arguments)) ++
          [.mark .closeParen]) = _
      rw [ihc, iha]
      rfl
  | member span object property iho => exact congrArg (· ++ [.mark .dot, .name property]) iho
  | group span inner ih => exact congrArg (.mark .openParen :: · ++ [.mark .closeParen]) ih
  | nil => rfl
  | cons e es ih ihs =>
      change (e.relabel r).lexemes :: lexemesEach (relabelEach r es) = _
      rw [ih, ihs]
      rfl

theorem wellFormed_relabel (e : Expr) : (e.relabel r).WellFormed ↔ e.WellFormed := by
  induction e using Expr.rec
    (motive_2 := fun es => WellFormedEach (relabelEach r es) ↔ WellFormedEach es) with
  | literal | symbol => exact Iff.rfl
  | unary span op operand ih =>
      change _ ∧ _ ≤ (operand.relabel r).level.rank ∧ (operand.relabel r).WellFormed ↔ _
      rw [level_relabel, ih]
      rfl
  | binary span op left right ihl ihr =>
      change (∃ power : Power, _ ∧ power.rank ≤ (left.relabel r).level.rank ∧
        power.rank < (right.relabel r).level.rank ∧ (left.relabel r).WellFormed ∧
          (right.relabel r).WellFormed) ↔ _
      rw [level_relabel, level_relabel, ihl, ihr]
      rfl
  | assign span target value iht ihv =>
      change _ < (target.relabel r).level.rank ∧ (target.relabel r).WellFormed ∧
        (value.relabel r).WellFormed ↔ _
      rw [level_relabel, iht, ihv]
      rfl
  | call span callee arguments ihc iha =>
      change _ < (callee.relabel r).level.rank ∧ (callee.relabel r).WellFormed ∧
        WellFormedEach (relabelEach r arguments) ↔ _
      rw [level_relabel, ihc, iha]
      rfl
  | member span object property iho =>
      change _ < (object.relabel r).level.rank ∧ (object.relabel r).WellFormed ↔ _
      rw [level_relabel, iho]
      rfl
  | group span inner ih => exact ih
  | nil => exact Iff.rfl
  | cons e es ih ihs => exact and_congr ih ihs

/-- Expressions that agree without their places are well formed alike. -/
theorem wellFormed_congr {e e' : Expr} (h : e.unplaced = e'.unplaced) :
    e.WellFormed ↔ e'.WellFormed := by
  rw [← wellFormed_relabel (r := .unplace) e, ← wellFormed_relabel (r := .unplace) e']
  exact iff_of_eq (congrArg WellFormed h)

/-- Expressions that agree without their places are spelled by the same lexemes. -/
theorem lexemes_congr {e e' : Expr} (h : e.unplaced = e'.unplaced) : e.lexemes = e'.lexemes := by
  rw [← lexemes_relabel (r := .unplace) rfl e, ← lexemes_relabel (r := .unplace) rfl e']
  exact congrArg lexemes h

theorem isScalar_relabel (e : Expr) : (e.relabel r).IsScalar ↔ e.IsScalar := by
  cases e <;> exact Iff.rfl

end Expr

/-! ### Declarations -/

theorem Parameter.lexemes_relabel (hn : r.name = id) (p : Parameter) :
    (p.relabel r).lexemes = p.lexemes := by
  rw [relabel, hn]
  rfl

theorem Lexeme.parameters_relabel (hn : r.name = id) (separator : Mark) (ps : List Parameter) :
    parameters separator (ps.map (Parameter.relabel r)) = parameters separator ps := by
  rw [parameters, parameters, List.map_map]
  congr 1
  exact List.map_congr_left fun p _ => p.lexemes_relabel hn

theorem parametersSpelled_relabel (hn : r.name = id) (ps : List Parameter) (w : List Lexeme) :
    ParametersSpelled (ps.map (Parameter.relabel r)) w ↔ ParametersSpelled ps w := by
  rw [ParametersSpelled, ParametersSpelled, Lexeme.parameters_relabel hn, List.map_eq_nil_iff]

theorem Signature.lexemes_relabel (hn : r.name = id) (s : Signature) :
    (s.relabel r).lexemes = s.lexemes := by
  rw [lexemes, relabel, Lexeme.parameters_relabel hn, hn]
  rfl

theorem ClassDecl.spelled_relabel (hn : r.name = id) (hc : r.native = id) (d : ClassDecl)
    (w : List Lexeme) :
    (d.relabel r).Spelled w ↔ d.Spelled w := by
  have hs : (d.relabel r).signatures.map Signature.lexemes =
      d.signatures.map Signature.lexemes := by
    change (d.signatures.map (Signature.relabel r)).map Signature.lexemes = _
    rw [List.map_map]
    exact List.map_congr_left fun s _ => s.lexemes_relabel hn
  rw [Spelled, hs, relabel, hn, hc, List.map_id, Option.map_id_apply]
  rfl

/-! ### Statements -/

mutual

theorem Stmt.spelled_relabel (hn : r.name = id) (hc : r.native = id) :
    ∀ (s : Stmt) (w : List Lexeme), (s.relabel r).Spelled w ↔ s.Spelled w
  | .block _ body, w => by
      simp only [Stmt.relabel, Stmt.Spelled, spelledEach_relabel hn hc body]
  | .break_ _ _, _ => Iff.rfl
  | .class_ _ decl, w => decl.spelled_relabel hn hc w
  | .const _ name value, w => by
      simp only [Stmt.relabel, Stmt.Spelled, hn, id, value.lexemes_relabel hn]
  | .continue_ _ _, _ => Iff.rfl
  | .def_ _ name byReference ps body, w => by
      simp only [Stmt.relabel, Stmt.Spelled, hn, id, parametersSpelled_relabel hn,
        spelledEach_relabel hn hc body]
  | .expr _ e, w => by
      simp only [Stmt.relabel, Stmt.Spelled, e.lexemes_relabel hn]
  | .foreach _ name byReference iterable body, w => by
      simp only [Stmt.relabel, Stmt.Spelled, hn, id, iterable.lexemes_relabel hn,
        spelledEach_relabel hn hc body]
  | .global _ names, w => by
      simp only [Stmt.relabel, Stmt.Spelled, hn, List.map_id]
  | .goto _ label, w => by
      simp only [Stmt.relabel, Stmt.Spelled, hn, id]
  | .if_ _ condition body chain, w => by
      simp only [Stmt.relabel, Stmt.Spelled, condition.lexemes_relabel hn,
        spelledEach_relabel hn hc body, ElseChain.spelled_relabel hn hc chain]
  | .label _ name, w => by
      simp only [Stmt.relabel, Stmt.Spelled, hn, id]
  | .module_ _ segments, w => by
      simp only [Stmt.relabel, Stmt.Spelled, hn, List.map_id]
  | .open_ _ segments rename, w => by
      simp only [Stmt.relabel, Stmt.Spelled, hn, List.map_id, Option.map_id_apply]
  | .print _ value, w => by
      simp only [Stmt.relabel, Stmt.Spelled, value.lexemes_relabel hn]
  | .raise _ value, w => by
      simp only [Stmt.relabel, Stmt.Spelled, value.lexemes_relabel hn]
  | .return_ _ none, _ => Iff.rfl
  | .return_ _ (some value), w => by
      simp only [Stmt.relabel, Option.map_some, Stmt.Spelled, value.lexemes_relabel hn]
  | .while_ _ condition body, w => by
      simp only [Stmt.relabel, Stmt.Spelled, condition.lexemes_relabel hn,
        spelledEach_relabel hn hc body]

theorem ElseChain.spelled_relabel (hn : r.name = id) (hc : r.native = id) :
    ∀ (chain : ElseChain) (w : List Lexeme), (chain.relabel r).Spelled w ↔ chain.Spelled w
  | .done, _ => Iff.rfl
  | .elif condition body chain, w => by
      simp only [ElseChain.relabel, ElseChain.Spelled, condition.lexemes_relabel hn,
        spelledEach_relabel hn hc body, ElseChain.spelled_relabel hn hc chain]
  | .otherwise body, w => by
      simp only [ElseChain.relabel, ElseChain.Spelled, spelledEach_relabel hn hc body]

theorem spelledEach_relabel (hn : r.name = id) (hc : r.native = id) :
    ∀ (ss : List Stmt) (w : List Lexeme),
      SpelledEach (Stmt.relabelEach r ss) w ↔ SpelledEach ss w
  | [], _ => Iff.rfl
  | s :: ss, w => by
      simp only [Stmt.relabelEach, SpelledEach, Stmt.spelled_relabel hn hc s, spelledEach_relabel hn hc ss]

end

namespace Stmt

theorem takes_relabel (s : Stmt) (k : Kind) : (s.relabel r).Takes k ↔ s.Takes k := by
  cases s with
  | return_ span value => cases value <;> exact Iff.rfl
  | break_ span levels => cases levels <;> exact Iff.rfl
  | continue_ span levels => cases levels <;> exact Iff.rfl
  | _ => exact Iff.rfl

theorem nests_relabel (s : Stmt) : (s.relabel r).Nests ↔ s.Nests := by
  cases s <;> exact Iff.rfl

theorem mayPrecede_relabel (s t : Stmt) :
    (s.relabel r).MayPrecede (t.relabel r) ↔ s.MayPrecede t := by
  cases t with
  | expr span e =>
      change ¬ (s.relabel r).Takes (e.relabel r).first ↔ _
      rw [takes_relabel, e.first_relabel]
      rfl
  | _ => exact Iff.rfl

theorem nests_relabelEach (ss : List Stmt) :
    (∀ s ∈ Stmt.relabelEach r ss, s.Nests) ↔ ∀ s ∈ ss, s.Nests := by
  rw [Stmt.relabelEach_eq_map, List.forall_mem_map]
  exact forall₂_congr fun s _ => s.nests_relabel

end Stmt

mutual

theorem Stmt.wellFormed_relabel : ∀ s : Stmt, (s.relabel r).WellFormed ↔ s.WellFormed
  | .block _ body => and_congr (Stmt.nests_relabelEach body) (wellFormedEach_relabel body)
  | .break_ _ _ => Iff.rfl
  | .class_ _ _ => Iff.rfl
  | .const _ _ value => value.isScalar_relabel
  | .continue_ _ _ => Iff.rfl
  | .def_ _ _ _ _ body => and_congr (Stmt.nests_relabelEach body) (wellFormedEach_relabel body)
  | .expr _ e => e.wellFormed_relabel
  | .foreach _ _ _ iterable body =>
      and_congr iterable.wellFormed_relabel
        (and_congr (Stmt.nests_relabelEach body) (wellFormedEach_relabel body))
  | .global _ _ => not_congr List.map_eq_nil_iff
  | .goto _ _ => Iff.rfl
  | .if_ _ condition body chain =>
      and_congr condition.wellFormed_relabel (and_congr
        (and_congr (Stmt.nests_relabelEach body) (wellFormedEach_relabel body))
          (ElseChain.wellFormed_relabel chain))
  | .label _ _ => Iff.rfl
  | .module_ _ _ => not_congr List.map_eq_nil_iff
  | .open_ _ _ _ => not_congr List.map_eq_nil_iff
  | .print _ value => value.wellFormed_relabel
  | .raise _ value => value.wellFormed_relabel
  | .return_ _ none => Iff.rfl
  | .return_ _ (some value) => value.wellFormed_relabel
  | .while_ _ condition body =>
      and_congr condition.wellFormed_relabel
        (and_congr (Stmt.nests_relabelEach body) (wellFormedEach_relabel body))

theorem ElseChain.wellFormed_relabel :
    ∀ chain : ElseChain, (chain.relabel r).WellFormed ↔ chain.WellFormed
  | .done => Iff.rfl
  | .elif condition body chain =>
      and_congr condition.wellFormed_relabel (and_congr
        (and_congr (Stmt.nests_relabelEach body) (wellFormedEach_relabel body))
          (ElseChain.wellFormed_relabel chain))
  | .otherwise body => and_congr (Stmt.nests_relabelEach body) (wellFormedEach_relabel body)

theorem wellFormedEach_relabel :
    ∀ ss : List Stmt, WellFormedEach (Stmt.relabelEach r ss) ↔ WellFormedEach ss
  | [] => Iff.rfl
  | s :: ss => by
      refine and_congr (Stmt.wellFormed_relabel s) (and_congr ?_ (wellFormedEach_relabel ss))
      cases ss with
      | nil => exact ⟨fun _ => nofun, fun _ => nofun⟩
      | cons t ss =>
          refine ⟨fun h x hx => ?_, fun h x hx => ?_⟩
          · cases hx
            exact (s.mayPrecede_relabel t).1 (h _ rfl)
          · cases hx
            exact (s.mayPrecede_relabel t).2 (h _ rfl)

end

/-- Programs that agree once they are relabelled are well formed alike. -/
theorem wellFormedEach_congr {ss ts : List Stmt}
    (h : ss.map (Stmt.relabel r) = ts.map (Stmt.relabel r)) :
    WellFormedEach ss ↔ WellFormedEach ts := by
  rw [← wellFormedEach_relabel ss, ← wellFormedEach_relabel ts, Stmt.relabelEach_eq_map,
    Stmt.relabelEach_eq_map, h]

/-- Programs that agree without their places are spelled alike. -/
theorem spelledEach_congr {ss ts : List Stmt} (h : ss.map Stmt.unplaced = ts.map Stmt.unplaced)
    (w : List Lexeme) : SpelledEach ss w ↔ SpelledEach ts w := by
  rw [← spelledEach_relabel (r := .unplace) rfl rfl ss,
    ← spelledEach_relabel (r := .unplace) rfl rfl ts, Stmt.relabelEach_eq_map,
    Stmt.relabelEach_eq_map]
  exact iff_of_eq (congrArg (SpelledEach · w) h)

end ScriptFrontend
