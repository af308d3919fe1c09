import ScriptFrontend.Grammar.Statement
import ScriptFrontend.Proofs.Completeness.Expression

/-!
Completeness of statements and programs.

A statement is read whole wherever a token lies behind it that ends statements and that the statement
does not go on with.  In a well-formed list each statement leaves the next one such a token.
-/

namespace ScriptFrontend

/-- The kinds that may lie behind a statement: those that start another one and those that end a
list of statements. -/
def Kind.endsStatement (k : Kind) : Bool :=
  Grammar.standard.startsTop k || k = .endOfInput || k = .mark .closeBracket || k = .keyword .end_

theorem Kind.stops_of_endsStatement {k : Kind} (h : k.endsStatement = true)
    (hopens : ¬ (k = .mark .dash ∨ k = .mark .openParen)) : k.Stops .lowest := by
  refine .of_none ?_
  unfold Grammar.operatorEntry
  split
  all_goals
    first | rfl | exact absurd (.inl rfl) hopens | exact absurd (.inr rfl) hopens | cases h

theorem Kind.ne_of_endsStatement {k x : Kind} (h : k.endsStatement = true)
    (hx : x.endsStatement = false) : k ≠ x := by
  rintro rfl
  rw [h] at hx
  cases hx

theorem Grammar.statementEntry_of_operandEntry {k : Kind} (h : (operandEntry k).isSome) :
    statementEntry k = none := by
  unfold statementEntry
  split <;> first | rfl | cases h

/-- A well-formed statement starts with a kind that starts a statement of a program. -/
theorem Stmt.WellFormed.startsTop_first {s : Stmt} (hs : s.WellFormed) :
    Grammar.standard.startsTop s.first = true := by
  cases s with
  | expr span e =>
      have h : Grammar.standard.startsExpression e.first = true :=
        Expr.WellFormed.operandEntry_first hs
      simp [Grammar.startsTop, Grammar.startsStatement, first, h]
  | class_ span decl =>
      obtain ⟨category, _, _, _, _, native⟩ := decl
      cases native <;> cases category <;> rfl
  | _ => rfl

theorem Stmt.WellFormed.startsInner_first {s : Stmt} (hs : s.WellFormed) (hn : s.Nests) :
    Grammar.standard.startsInner s.first = true := by
  cases s with
  | expr span e =>
      have h : Grammar.standard.startsExpression e.first = true :=
        Expr.WellFormed.operandEntry_first hs
      simp [Grammar.startsInner, Grammar.startsStatement, first, h]
  | class_ span decl =>
      obtain ⟨category, _, _, _, _, native⟩ := decl
      cases native <;> cases category <;> rfl
  | module_ | open_ | const => exact hn.elim
  | _ => rfl

theorem Stmt.WellFormed.endsStatement_first {s : Stmt} (hs : s.WellFormed) :
    s.first.endsStatement = true := by
  rw [Kind.endsStatement, hs.startsTop_first]
  rfl

theorem Bracketed.stops {S : List Lexeme → Prop} {w : List Lexeme} (hw : Bracketed S w)
    (k : Kind) : (Lexeme.front w k).Stops .lowest := by
  obtain ⟨v, ended, -, rfl⟩ := hw
  exact .of_none rfl

namespace Grammar

open ScriptFrontend.Parser

variable {v w : List Lexeme} {k : Kind}

theorem yields_levels {levels : Option UInt32} (hw : LevelsSpelled levels w)
    (hk : levels = none → k ≠ .number) : Yields Grammar.levels w k (· = levels) := by
  cases levels with
  | none =>
      cases hw
      refine .peek_bind fun t ht _ => ?_
      rw [if_neg (by rw [ht]; exact hk rfl)]
      exact .pure rfl
  | some n =>
      obtain ⟨digits, hn, rfl⟩ := hw
      refine .peek_bind fun t _ ht => ?_
      obtain ⟨hk, hv⟩ := Token.eq_of_lexeme_eq_number (ht _ rfl)
      rw [if_pos hk, hv, hn]
      exact .skip_bind (.pure rfl)

section

variable {span : Span}

theorem yields_printStmt {value : Expr} (hv : value.WellFormed) (hk : k.Stops .lowest) :
    Yields standard.printStmt (.keyword .print :: value.lexemes) k
      (·.unplaced = (Stmt.print span value).unplaced) := by
  rw [← List.append_nil value.lexemes]
  exact .here_bind fun _ => .skip_bind <| .bind (yields_expression hv hk) fun _ h =>
    .spanFrom_bind fun _ => .pure (congrArg (Stmt.print ⟨.nowhere, .nowhere⟩) h)

theorem yields_raiseStmt {value : Expr} (hv : value.WellFormed) (hk : k.Stops .lowest) :
    Yields standard.raiseStmt (.keyword .raise :: value.lexemes) k
      (·.unplaced = (Stmt.raise span value).unplaced) := by
  rw [← List.append_nil value.lexemes]
  exact .here_bind fun _ => .skip_bind <| .bind (yields_expression hv hk) fun _ h =>
    .spanFrom_bind fun _ => .pure (congrArg (Stmt.raise ⟨.nowhere, .nowhere⟩) h)

theorem yields_returnStmt_none (hk : operandEntry k = none) :
    Yields standard.returnStmt [.keyword .return_] k
      (·.unplaced = (Stmt.return_ span none).unplaced) := by
  refine .here_bind fun _ => .skip_bind <|
    Yields.bind (v := []) (w := []) (P := (· = none)) (.optional_none ?_ rfl) ?_
  · exact Option.isSome_eq_false_iff.2 (Option.isNone_iff_eq_none.2 hk)
  · rintro _ rfl
    exact .spanFrom_bind fun _ => .pure rfl

theorem yields_returnStmt_some {value : Expr} (hv : value.WellFormed) (hk : k.Stops .lowest) :
    Yields standard.returnStmt (.keyword .return_ :: value.lexemes) k
      (·.unplaced = (Stmt.return_ span (some value)).unplaced) := by
  rw [← List.append_nil value.lexemes]
  refine .here_bind fun _ => .skip_bind <|
    Yields.bind (P := fun value' => value'.map Expr.unplaced = some value.unplaced) ?_ fun _ h =>
      .spanFrom_bind fun _ => .pure (congrArg (Stmt.return_ ⟨.nowhere, .nowhere⟩) h)
  refine .optional_some ?_ ((yields_expression hv hk).mono fun _ h => congrArg some h)
  rw [value.front_lexemes]
  exact hv.operandEntry_first

theorem yields_breakStmt {levels : Option UInt32} (hw : LevelsSpelled levels w)
    (hk : levels = none → k ≠ .number) :
    Yields breakStmt (.keyword .break_ :: w) k (·.unplaced = (Stmt.break_ span levels).unplaced) := by
  rw [← List.append_nil w]
  refine .here_bind fun _ => .skip_bind <| .bind (yields_levels hw hk) ?_
  rintro levels rfl
  exact .spanFrom_bind fun _ => .pure rfl

theorem yields_continueStmt {levels : Option UInt32} (hw : LevelsSpelled levels w)
    (hk : levels = none → k ≠ .number) :
    Yields continueStmt (.keyword .continue_ :: w) k
      (·.unplaced = (Stmt.continue_ span levels).unplaced) := by
  rw [← List.append_nil w]
  refine .here_bind fun _ => .skip_bind <| .bind (yields_levels hw hk) ?_
  rintro levels rfl
  exact .spanFrom_bind fun _ => .pure rfl

theorem yields_gotoStmt (label : String) :
    Yields standard.gotoStmt [.keyword .goto, .name label] k
      (·.unplaced = (Stmt.goto span label).unplaced) :=
  .here_bind fun _ => .skip_bind <| yields_identifier_bind <| .spanFrom_bind fun _ => .pure rfl

theorem yields_labelStmt (name : String) :
    Yields standard.labelStmt [.keyword .label, .name name] k
      (·.unplaced = (Stmt.label span name).unplaced) :=
  .here_bind fun _ => .skip_bind <| yields_identifier_bind <| .spanFrom_bind fun _ => .pure rfl

theorem yields_globalStmt {names : List String} (hne : names ≠ []) (hk : k ≠ .mark .comma) :
    Yields standard.globalStmt (.keyword .global :: Lexeme.names .comma names) k
      (·.unplaced = (Stmt.global span names).unplaced) := by
  rw [← List.append_nil (Lexeme.names _ _)]
  refine .here_bind fun _ => .skip_bind <| .bind (yields_names hne hk) ?_
  rintro names rfl
  exact .spanFrom_bind fun _ => .pure rfl

/-! ### Statements that hold statements -/

variable {nested : Parser (List Stmt)} {n : Nat} {ss : List Stmt}

abbrev BodyYields (nested : Parser (List Stmt)) (n : Nat) : Prop :=
  ∀ (ss : List Stmt) (v : List Lexeme) (k : Kind), v.length ≤ n → BodyWellFormed ss →
    SpelledEach ss v → k = .mark .closeBracket ∨ k = .keyword .end_ →
      Yields nested v k fun ts => ts.map Stmt.unplaced = ss.map Stmt.unplaced

theorem yields_body (hw : Bracketed (SpelledEach ss) w) (hlen : w.length ≤ n)
    (hwf : BodyWellFormed ss) (hn : BodyYields nested n) :
    Yields (body nested) w k fun ts => ts.map Stmt.unplaced = ss.map Stmt.unplaced := by
  obtain ⟨v, ended, hv, rfl⟩ := hw
  simp only [List.length_cons, List.length_append] at hlen
  refine .require_bind (l := .mark .openBracket) <|
    .bind (hn ss v _ (by omega) hwf hv ?_) fun ts h =>
      .skipIf_bind (l := .keyword .end_) (fun _ => nofun) <|
        .require_bind (l := .mark .closeBracket) <| .pure h
  cases ended with
  | true => exact .inr rfl
  | false => exact .inl rfl

theorem unplaced_block {ts : List Stmt} (h : ts.map Stmt.unplaced = ss.map Stmt.unplaced) :
    Stmt.relabelEach .unplace ts = Stmt.relabelEach .unplace ss := by
  rw [Stmt.relabelEach_eq_map, Stmt.relabelEach_eq_map]
  exact h

theorem yields_blockStmt (hv : SpelledEach ss v) (hlen : v.length ≤ n) (hwf : BodyWellFormed ss)
    (hn : BodyYields nested n) :
    Yields (blockStmt nested) (.keyword .begin_ :: (v ++ [.keyword .end_])) k
      (·.unplaced = (Stmt.block span ss).unplaced) :=
  .here_bind fun _ => .skip_bind <| .bind (hn ss v _ hlen hwf hv (.inr rfl)) fun _ h =>
    .require_bind (l := .keyword .end_) <| .spanFrom_bind fun _ =>
      .pure (congrArg (Stmt.block ⟨.nowhere, .nowhere⟩) (unplaced_block h))

theorem yields_whileStmt {condition : Expr} (hc : condition.WellFormed)
    (hv : Bracketed (SpelledEach ss) v) (hlen : v.length ≤ n) (hwf : BodyWellFormed ss)
    (hn : BodyYields nested n) :
    Yields (standard.whileStmt nested) (.keyword .while_ :: (condition.lexemes ++ v)) k
      (·.unplaced = (Stmt.while_ span condition ss).unplaced) := by
  have hstop := hv.stops k
  rw [← List.append_nil v] at hstop ⊢
  refine .here_bind fun _ => .skip_bind <| .bind (yields_expression hc hstop) fun condition' h =>
    .bind (yields_body hv hlen hwf hn) fun ts hts => .spanFrom_bind fun _ => .pure ?_
  change Stmt.while_ _ condition'.unplaced _ = Stmt.while_ _ condition.unplaced _
  rw [h, unplaced_block hts]
  rfl

theorem yields_foreachStmt {name : String} {byReference : Bool} {iterable : Expr}
    (hi : iterable.WellFormed) (hv : Bracketed (SpelledEach ss) v) (hlen : v.length ≤ n)
    (hwf : BodyWellFormed ss) (hn : BodyYields nested n) :
    Yields (standard.foreachStmt nested)
      (.keyword .foreach :: (Lexeme.flag byReference (.mark .star) ++
        .name name :: .keyword .in_ :: (iterable.lexemes ++ v))) k
      (·.unplaced = (Stmt.foreach span name byReference iterable ss).unplaced) := by
  have hstop := hv.stops k
  rw [← List.append_nil v] at hstop ⊢
  refine .here_bind fun _ => .skip_bind <| .accept_bind (l := .mark .star) (fun _ => nofun) <|
    yields_identifier_bind <| .require_bind (l := .keyword .in_) <|
      .bind (yields_expression hi hstop) fun iterable' h =>
        .bind (yields_body hv hlen hwf hn) fun ts hts => .spanFrom_bind fun _ => .pure ?_
  change Stmt.foreach _ name byReference iterable'.unplaced _ =
    Stmt.foreach _ name byReference iterable.unplaced _
  rw [h, unplaced_block hts]
  rfl

theorem yields_defDecl {name : String} {byReference : Bool} {ps : List Parameter}
    {u : List Lexeme} (hu : ParametersSpelled ps u) (hv : Bracketed (SpelledEach ss) v)
    (hlen : v.length ≤ n) (hwf : BodyWellFormed ss) (hn : BodyYields nested n) :
    Yields (standard.defDecl nested)
      (.keyword .def_ :: (Lexeme.flag byReference (.mark .star) ++ .name name :: (u ++ v))) k
      (·.unplaced = (Stmt.def_ span name byReference ps ss).unplaced) := by
  rw [← List.append_nil v]
  refine .here_bind fun _ => .require_bind (l := .keyword .def_) <|
    .accept_bind (l := .mark .star) (fun _ => nofun) <| yields_identifier_bind <|
      .bind (yields_parameters hu) fun ps' h =>
        .bind (yields_body hv hlen hwf hn) fun ts hts => .spanFrom_bind fun _ => .pure ?_
  change Stmt.def_ _ name byReference (ps'.map Parameter.unplaced) _ =
    Stmt.def_ _ name byReference (ps.map Parameter.unplaced) _
  rw [h, unplaced_block hts]
  rfl

theorem yields_elifBranch {condition : Expr} (hc : condition.WellFormed)
    (hv : Bracketed (SpelledEach ss) v) (hlen : v.length ≤ n) (hwf : BodyWellFormed ss)
    (hn : BodyYields nested n) :
    Yields (standard.elifBranch nested) (.keyword .elif :: (condition.lexemes ++ v)) k
      fun b => b.1.unplaced = condition.unplaced ∧
        b.2.map Stmt.unplaced = ss.map Stmt.unplaced := by
  have hstop := hv.stops k
  rw [← List.append_nil v] at hstop ⊢
  exact .skip_bind <| .bind (yields_expression hc hstop) fun _ h =>
    .bind (yields_body hv hlen hwf hn) fun _ hts => .pure ⟨h, hts⟩

/-- The lexemes of a chain are those of its branches and those of its last body. -/
theorem yields_chain (hn : BodyYields nested n) (helif : k ≠ .keyword .elif)
    (helse : k ≠ .keyword .else_) :
    ∀ (chain : ElseChain) (w : List Lexeme), chain.WellFormed → chain.Spelled w → w.length ≤ n →
      ∃ u v, ∃ R : List (Expr × List Stmt) → Prop, w = u ++ v ∧
        Yields (many (· = .keyword .elif) (standard.elifBranch nested)) u (Lexeme.front v k) R ∧
          ∀ bs, R bs → Yields (after? (.keyword .else_) (body nested)) v k fun last =>
            (bs.foldr (fun b => ElseChain.elif b.1 b.2)
              ((last.map ElseChain.otherwise).getD .done)).unplaced = chain.unplaced
  | .done, w, _, hw, _ => by
      cases hw
      refine ⟨[], [], (· = []), rfl, .many_nil (decide_eq_false helif) rfl, ?_⟩
      rintro _ rfl
      exact .optional_none (decide_eq_false helse) rfl
  | .otherwise ss, w, hwf, hw, hlen => by
      obtain ⟨v, hv, rfl⟩ := hw
      refine ⟨[], _, (· = []), rfl, .many_nil rfl rfl, ?_⟩
      rintro _ rfl
      refine .after?_some (l := .keyword .else_) ?_
      exact (yields_body hv (Nat.le_of_succ_le hlen) hwf hn).mono fun ts hts =>
        congrArg ElseChain.otherwise (unplaced_block hts)
  | .elif condition ss chain, w, hwf, hw, hlen => by
      obtain ⟨hc, hss, hchain⟩ := hwf
      obtain ⟨u, v, hu, hv, rfl⟩ := hw
      simp only [List.length_cons, List.length_append] at hlen
      obtain ⟨u', v', R, rfl, hmany, hlast⟩ :=
        yields_chain hn helif helse chain v hchain hv (by omega)
      refine ⟨(.keyword .elif :: (condition.lexemes ++ u)) ++ u', v', fun bs =>
        ∃ b bs', bs = b :: bs' ∧ (b.1.unplaced = condition.unplaced ∧
          b.2.map Stmt.unplaced = ss.map Stmt.unplaced) ∧ R bs', by simp, ?_, ?_⟩
      · exact .many_cons (List.cons_ne_nil _ _) rfl
          (yields_elifBranch hc hu (by omega) hss hn) hmany
          fun b bs hb hbs => ⟨b, bs, rfl, hb, hbs⟩
      · rintro _ ⟨b, bs, rfl, ⟨hcond, hbody⟩, hbs⟩
        refine (hlast bs hbs).mono fun last h => ?_
        change ElseChain.elif b.1.unplaced (Stmt.relabelEach .unplace b.2) (ElseChain.unplaced _) =
          ElseChain.elif condition.unplaced (Stmt.relabelEach .unplace ss) chain.unplaced
        rw [hcond, unplaced_block hbody]
        exact congrArg _ h

theorem yields_ifStmt {condition : Expr} {chain : ElseChain} {u : List Lexeme}
    (hc : condition.WellFormed) (hwf : BodyWellFormed ss) (hchain : chain.WellFormed)
    (hu : Bracketed (SpelledEach ss) u) (hv : chain.Spelled v) (hlen : (u ++ v).length ≤ n)
    (helif : k ≠ .keyword .elif) (helse : k ≠ .keyword .else_) (hn : BodyYields nested n) :
    Yields (standard.ifStmt nested) (.keyword .if_ :: (condition.lexemes ++ (u ++ v))) k
      (·.unplaced = (Stmt.if_ span condition ss chain).unplaced) := by
  rw [List.length_append] at hlen
  have hstop : Kind.Stops .lowest (Lexeme.front (u ++ v) k) := by
    rw [Lexeme.front_append]
    exact hu.stops _
  obtain ⟨v, v', R, rfl, hmany, hlast⟩ := yields_chain hn helif helse chain v hchain hv (by omega)
  rw [← List.append_nil v'] at hstop ⊢
  refine .here_bind fun _ => .skip_bind <| .bind (yields_expression hc hstop) fun condition' h =>
    .bind (yields_body hu (by omega) hwf hn) fun ts hts =>
      .bind (by rwa [List.append_nil]) fun bs hbs => .bind (hlast bs hbs) fun last hl =>
        .spanFrom_bind fun _ => .pure ?_
  change Stmt.if_ _ condition'.unplaced _ (ElseChain.unplaced _) =
    Stmt.if_ _ condition.unplaced _ chain.unplaced
  rw [h, unplaced_block hts]
  exact congrArg _ hl

/-! ### Any statement -/

theorem yields_expressionStmt {e : Expr} (he : e.WellFormed) (hk : k.Stops .lowest) :
    Yields standard.expressionStmt e.lexemes k (·.unplaced = (Stmt.expr span e).unplaced) := by
  rw [← List.append_nil e.lexemes]
  exact .bind (yields_expression he hk) fun _ h =>
    .pure (congrArg (Stmt.expr ⟨.nowhere, .nowhere⟩) h)

theorem yields_statementWith {s : Stmt} (hs : standard.startsStatement s.first = true)
    (hwf : s.WellFormed) (hw : s.Spelled w) (hlen : w.length ≤ n + 1)
    (hk : k.endsStatement = true) (htakes : ¬ s.Takes k) (hn : BodyYields nested n) :
    Yields (standard.statementWith nested) w k (·.unplaced = s.unplaced) := by
  refine .peek_bind fun t ht _ => ?_
  rw [(hw.front k).2] at ht
  dsimp only [standard]
  rw [ht]
  cases s with
  | block span body =>
      obtain ⟨v, hv, rfl⟩ := hw
      simp only [List.length_cons, List.length_append] at hlen
      exact yields_blockStmt hv (by omega) hwf hn
  | break_ span levels =>
      obtain ⟨v, hv, rfl⟩ := hw
      exact yields_breakStmt hv (by rintro rfl; exact htakes)
  | continue_ span levels =>
      obtain ⟨v, hv, rfl⟩ := hw
      exact yields_continueStmt hv (by rintro rfl; exact htakes)
  | expr span e =>
      cases hw
      have hentry : statementEntry (Stmt.expr span e).first = none :=
        statementEntry_of_operandEntry (Expr.WellFormed.operandEntry_first hwf)
      rw [hentry]
      exact yields_expressionStmt hwf (Kind.stops_of_endsStatement hk htakes)
  | foreach span name byReference iterable body =>
      obtain ⟨v, hv, rfl⟩ := hw
      simp only [List.length_cons, List.length_append] at hlen
      exact yields_foreachStmt hwf.1 hv (by omega) hwf.2 hn
  | global span names =>
      cases hw
      exact yields_globalStmt hwf (Kind.ne_of_endsStatement hk rfl)
  | goto span label =>
      cases hw
      exact yields_gotoStmt label
  | if_ span condition body chain =>
      obtain ⟨u, v, hu, hv, rfl⟩ := hw
      simp only [List.length_cons, List.length_append] at hlen
      exact yields_ifStmt hwf.1 hwf.2.1 hwf.2.2 hu hv (by rw [List.length_append]; omega)
        (Kind.ne_of_endsStatement hk rfl) (Kind.ne_of_endsStatement hk rfl) hn
  | label span name =>
      cases hw
      exact yields_labelStmt name
  | print span value =>
      cases hw
      exact yields_printStmt hwf (Kind.stops_of_endsStatement hk htakes)
  | raise span value =>
      cases hw
      exact yields_raiseStmt hwf (Kind.stops_of_endsStatement hk htakes)
  | return_ span value =>
      cases value with
      | none =>
          cases hw
          exact yields_returnStmt_none (by simpa [Stmt.Takes] using htakes)
      | some value =>
          cases hw
          exact yields_returnStmt_some hwf (Kind.stops_of_endsStatement hk htakes)
  | while_ span condition body =>
      obtain ⟨v, hv, rfl⟩ := hw
      simp only [List.length_cons, List.length_append] at hlen
      exact yields_whileStmt hwf.1 hv (by omega) hwf.2 hn
  | class_ span decl =>
      obtain ⟨category, _, _, _, _, native⟩ := decl
      cases native <;> cases category <;> cases hs
  | const | def_ | module_ | open_ => cases hs

/-- The declarations that are no statements of their own, by the kind that starts them. -/
theorem startsStatement_or_declares (s : Stmt) (hwf : s.WellFormed) :
    standard.startsStatement s.first = true ∨
      (∃ span name byReference ps body, s = .def_ span name byReference ps body) ∨
      (∃ span decl, s = .class_ span decl) ∨ ¬ s.Nests := by
  cases s with
  | class_ span decl => exact .inr (.inr (.inl ⟨span, decl, rfl⟩))
  | def_ span name byReference ps body => exact .inr (.inl ⟨span, name, byReference, ps, body, rfl⟩)
  | const | module_ | open_ => exact .inr (.inr (.inr id))
  | expr span e =>
      have h : standard.startsExpression e.first = true := Expr.WellFormed.operandEntry_first hwf
      exact .inl (by simp [startsStatement, Stmt.first, h])
  | _ => exact .inl rfl

theorem yields_innerWith {s : Stmt} (hnests : s.Nests) (hwf : s.WellFormed) (hw : s.Spelled w)
    (hlen : w.length ≤ n + 1) (hk : k.endsStatement = true) (htakes : ¬ s.Takes k)
    (hn : BodyYields nested n) :
    Yields (standard.innerWith nested) w k (·.unplaced = s.unplaced) := by
  refine .peek_bind fun t ht _ => ?_
  rw [(hw.front k).2] at ht
  rw [ht]
  rcases startsStatement_or_declares s hwf with
    hs | ⟨span, name, byReference, ps, body, rfl⟩ | ⟨span, decl, rfl⟩ | h
  · change Yields (if standard.startsStatement s.first then _ else _) w k _
    rw [if_pos hs]
    exact yields_statementWith hs hwf hw hlen hk htakes hn
  · obtain ⟨u, v, hu, hv, rfl⟩ := hw
    simp only [List.length_cons, List.length_append] at hlen
    exact yields_defDecl hu hv (by omega) hwf hn
  · have h := yields_classDecl (k := k) span hw
    obtain ⟨category, _, _, _, _, native⟩ := decl
    cases native <;> cases category <;> exact h
  · exact absurd hnests h

theorem yields_topWith {s : Stmt} (hwf : s.WellFormed) (hw : s.Spelled w)
    (hlen : w.length ≤ n + 1) (hk : k.endsStatement = true) (htakes : ¬ s.Takes k)
    (hn : BodyYields nested n) :
    Yields (standard.topWith nested) w k (·.unplaced = s.unplaced) := by
  by_cases hnests : s.Nests
  · intro c d hr hd
    have hstarts : standard.startsInner c.current.kind = true := by
      rw [hr.kind_eq, (hw.front _).2]
      exact hwf.startsInner_first hnests
    rw [topWith_eq_innerWith standard hstarts]
    exact yields_innerWith hnests hwf hw hlen hk htakes hn c d hr hd
  · refine .peek_bind fun t ht _ => ?_
    rw [(hw.front k).2] at ht
    rw [ht]
    cases s with
    | module_ span segments =>
        cases hw
        exact yields_moduleDecl hwf (Kind.ne_of_endsStatement hk rfl)
    | open_ span segments rename =>
        cases hw
        exact yields_openDecl hwf (Kind.ne_of_endsStatement hk rfl)
          (Kind.ne_of_endsStatement hk rfl)
    | const span name value =>
        cases hw
        exact yields_constDecl hwf
    | _ => exact absurd trivial hnests

end

/-! ### Lists of statements -/

section

variable {n : Nat} {ss : List Stmt}

/-- Each statement of a well-formed list leaves the next one a token that ends it. -/
theorem yields_each {starts : Kind → Bool} {p : Parser Stmt} (hk : starts k = false)
    (hend : k.endsStatement = true) (hopen : operandEntry k = none)
    (hst : ∀ s ∈ ss, starts s.first = true)
    (hp : ∀ s ∈ ss, ∀ v k', v.length ≤ n → s.WellFormed → s.Spelled v →
      k'.endsStatement = true → ¬ s.Takes k' → Yields p v k' (·.unplaced = s.unplaced))
    (hwf : WellFormedEach ss) (hw : SpelledEach ss w) (hlen : w.length ≤ n) :
    Yields (many starts p) w k fun ts => ts.map Stmt.unplaced = ss.map Stmt.unplaced := by
  induction ss generalizing w with
  | nil =>
      cases hw
      exact .many_nil hk rfl
  | cons s ss ih =>
      obtain ⟨hs, hnext, hss⟩ := hwf
      obtain ⟨u, v, hu, hv, rfl⟩ := hw
      obtain ⟨hps, hpss⟩ := List.forall_mem_cons.1 hp
      obtain ⟨hsts, hstss⟩ := List.forall_mem_cons.1 hst
      rw [List.length_append] at hlen
      have hfront := hu.front (Lexeme.front v k)
      refine .many_cons hfront.1 (by rw [hfront.2]; exact hsts) (hps u _ (by omega) hs hu ?_ ?_)
        (ih hstss hpss hss hv (by omega)) fun t ts ht hts => by rw [List.map_cons, List.map_cons, ht, hts]
      · rw [hv.front]
        cases ss with
        | nil => exact hend
        | cons t ss => exact hss.1.endsStatement_first
      · rw [hv.front]
        cases ss with
        | nil =>
            intro h
            have := h.operandEntry_isSome
            rw [List.head?_nil, Option.map_none, Option.getD_none, hopen] at this
            cases this
        | cons t ss => exact Stmt.mayPrecede_iff.1 (hnext t rfl)

theorem yields_statementsUpTo (n : Nat) : BodyYields (standard.statementsUpTo n) n := by
  induction n with
  | zero =>
      intro ss v k hlen hwf hw _
      cases List.length_eq_zero_iff.1 (Nat.le_zero.1 hlen)
      cases ss with
      | nil => exact .pure rfl
      | cons s ss =>
          obtain ⟨u, v, hu, -, h⟩ := hw
          exact absurd (List.append_eq_nil_iff.1 h.symm).1 (hu.front .endOfInput).1
  | succ n ih =>
      intro ss v k hlen hwf hw hk
      refine yields_each ?_ ?_ ?_ (fun s hs => ?_) (fun s hs u k' hu hwf' hspelled hend htakes => ?_)
        hwf.2 hw hlen
      · rcases hk with rfl | rfl <;> rfl
      · rcases hk with rfl | rfl <;> rfl
      · rcases hk with rfl | rfl <;> rfl
      · exact (hwf.2.mem hs).startsInner_first (hwf.1 s hs)
      · exact yields_innerWith (hwf.1 s hs) hwf' hspelled hu hend htakes ih

theorem yields_statements (n : Nat) : BodyYields standard.statements n := by
  intro ss v k _ hwf hw hk c d hr hd
  have := hr.length
  exact yields_statementsUpTo (c.rest.length + 1) ss v k (by omega) hwf hw hk c d hr hd

/-- A well-formed program is read to the end of input from the lexemes that spell it. -/
theorem yields_program (hwf : WellFormedEach ss) (hw : SpelledEach ss w) :
    Yields standard.program w .endOfInput
      fun ts => ts.map Stmt.unplaced = ss.map Stmt.unplaced := by
  rw [← List.append_nil w]
  refine .bind (yields_each rfl rfl rfl (fun s hs => (hwf.mem hs).startsTop_first)
    (fun s _ v k' hlen hs hspelled hend htakes => ?_) hwf hw (Nat.le_succ _)) fun ts hts => ?_
  · exact yields_topWith hs hspelled hlen hend htakes (yields_statements _)
  · refine .peek_bind fun t ht _ => ?_
    rw [ht]
    exact .pure hts

end

end Grammar

end ScriptFrontend
