import ScriptFrontend.Proofs.Extents.Expression
import ScriptFrontend.Proofs.Soundness.Statement

/-!
Where statements stand.

A production yields a statement whose span covers the tokens that it gathered, with the parts of the
statement among them.  That the tokens spell the statement is known from soundness, so it is added
where a statement is complete.
-/

namespace ScriptFrontend

structure Stmt.Framed (s : Stmt) (w : List Token) : Prop where
  covers : s.span.Covers w
  parts : Spread Node.Occupies s.parts w

namespace Grammar

open ScriptFrontend.Parser

variable {c : Cursor}

/-! ### Declarations -/

theorem gathers_interfaces : Gathers standard.interfaces c [] c fun _ _ => True := by
  refine gathers_identifier_bind fun first t c₁ => ?_
  refine .bind (P := fun _ _ => True) (fun _ => ?_) fun others w c₂ _ => .pure trivial
  refine .mono (.many (P := fun _ _ => True) fun c₂ _ hst => ?_) fun _ _ _ => trivial
  have hk : c₂.current.kind ≠ .endOfInput := by
    rw [of_decide_eq_true hst]
    exact nofun
  refine .skip_bind hk fun c₃ => ?_
  refine .skipIf_bind (by decide) fun v c₄ => ?_
  exact .last (fun _ => gathers_identifier) fun _ _ _ => trivial

theorem gathers_classCategory : Gathers classCategory c [] c fun _ _ => True := by
  apply Gathers.peek_bind
  cases h : ClassCategory.ofKind? c.current.kind with
  | none => exact .fail _
  | some category =>
      refine .skip_bind ?_ fun _ => .pure trivial
      rw [ClassCategory.eq_of_ofKind? h]
      exact nofun

theorem gathers_classDecl : Gathers standard.classDecl c [] c Stmt.Framed := by
  apply Gathers.here_bind
  refine .accept_bind (by decide) fun native _ c₁ => ?_
  refine .bind (fun _ => gathers_classCategory) fun category _ c₂ _ => ?_
  refine gathers_identifier_bind fun name _ c₃ => ?_
  refine .bind (fun _ => .after? (by decide) fun _ _ => gathers_identifier) fun base _ c₄ _ => ?_
  refine .bind (fun _ => .after? (by decide) fun _ _ => gathers_interfaces) fun names _ c₅ _ => ?_
  refine .bind (fun _ => .many fun _ _ _ => gathers_signature) fun signatures w c₆ hsignatures => ?_
  refine .require_bind (by decide) fun _ c₇ _ => ?_
  refine .spanFrom_bind (by simp) fun stop hcovers => .pure ⟨hcovers, ?_⟩
  have hparts : Spread Node.Occupies (signatures.map .signature) w := hsignatures.spread.map
  exact (hparts.pad_left _).pad _

theorem gathers_moduleDecl : Gathers standard.moduleDecl c [] c Stmt.Framed := by
  apply Gathers.here_bind
  refine .require_bind (by decide) fun _ c₁ _ => ?_
  refine .bind (fun _ => gathers_names _) fun segments w c₂ _ => ?_
  exact .spanFrom_bind (by simp) fun stop hcovers => .pure ⟨hcovers, .nil _⟩

theorem gathers_openDecl : Gathers standard.openDecl c [] c Stmt.Framed := by
  apply Gathers.here_bind
  refine .require_bind (by decide) fun _ c₁ _ => ?_
  refine .bind (fun _ => gathers_names _) fun segments w c₂ _ => ?_
  refine .bind (fun _ => .after? (by decide) fun _ _ => gathers_identifier) fun rename v c₃ _ => ?_
  exact .spanFrom_bind (by simp) fun stop hcovers => .pure ⟨hcovers, .nil _⟩

theorem gathers_constDecl : Gathers standard.constDecl c [] c Stmt.Framed := by
  apply Gathers.here_bind
  refine .require_bind (by decide) fun _ c₁ _ => ?_
  refine gathers_identifier_bind fun name _ c₂ => ?_
  refine .require_bind (by decide) fun _ c₃ _ => ?_
  refine .bind (fun _ => gathers_staticScalar) fun value w c₄ hvalue => ?_
  refine .spanFrom_bind (by simp) fun stop hcovers => .pure ⟨hcovers, ?_⟩
  exact (Spread.single hvalue).pad_left _

/-! ### Statements without statements in them -/

theorem gathers_levels : Gathers levels c [] c fun _ _ => True := by
  apply Gathers.peek_bind
  split
  next hk =>
    split
    · exact .fail _
    · exact .skip_bind (by rw [hk]; exact nofun) fun _ => .pure trivial
  · exact .pure trivial

section

variable (hk : c.current.kind ≠ .endOfInput)

include hk

/-- A keyword, and behind it all that the statement is made of. -/
theorem gathers_behind_keyword {α : Type} {p : Parser α} {P : α → List Token → Prop}
    {make : Span → α → Stmt} (hp : ∀ c₁, Gathers p c₁ [] c₁ P)
    (hspan : ∀ span a, (make span a).span = span)
    (hparts : ∀ span a w, P a w → Spread Node.Occupies (make span a).parts w) :
    Gathers (do
      let start ← here
      skip
      let a ← p
      return make (← spanFrom start) a) c [] c Stmt.Framed := by
  apply Gathers.here_bind
  refine .skip_bind hk fun c₁ => ?_
  refine .bind (fun _ => hp c₁) fun a w c₂ ha => ?_
  refine .spanFrom_bind (by simp) fun stop hcovers => .pure ⟨?_, ?_⟩
  · rw [hspan]
    exact hcovers
  · exact (hparts _ a w ha).pad_left _

theorem gathers_printStmt : Gathers standard.printStmt c [] c Stmt.Framed :=
  gathers_behind_keyword hk (fun _ => gathers_expression _) (fun _ _ => rfl) fun _ _ _ => .single

theorem gathers_raiseStmt : Gathers standard.raiseStmt c [] c Stmt.Framed :=
  gathers_behind_keyword hk (fun _ => gathers_expression _) (fun _ _ => rfl) fun _ _ _ => .single

theorem gathers_returnStmt : Gathers standard.returnStmt c [] c Stmt.Framed := by
  refine gathers_behind_keyword hk (fun _ => .optional fun _ => gathers_expression _)
    (fun _ _ => rfl) fun span value w h => ?_
  obtain ⟨rfl, -⟩ | ⟨value, rfl, hvalue⟩ := h
  · exact .nil w
  · exact .single hvalue

theorem gathers_breakStmt : Gathers breakStmt c [] c Stmt.Framed :=
  gathers_behind_keyword hk (fun _ => gathers_levels) (fun _ _ => rfl) fun _ _ w _ => .nil w

theorem gathers_continueStmt : Gathers continueStmt c [] c Stmt.Framed :=
  gathers_behind_keyword hk (fun _ => gathers_levels) (fun _ _ => rfl) fun _ _ w _ => .nil w

theorem gathers_gotoStmt : Gathers standard.gotoStmt c [] c Stmt.Framed :=
  gathers_behind_keyword hk (fun _ => gathers_identifier) (fun _ _ => rfl) fun _ _ w _ => .nil w

theorem gathers_labelStmt : Gathers standard.labelStmt c [] c Stmt.Framed :=
  gathers_behind_keyword hk (fun _ => gathers_identifier) (fun _ _ => rfl) fun _ _ w _ => .nil w

theorem gathers_globalStmt : Gathers standard.globalStmt c [] c Stmt.Framed :=
  gathers_behind_keyword hk (fun _ => gathers_names _) (fun _ _ => rfl) fun _ _ w _ => .nil w

end

theorem gathers_expressionStmt : Gathers standard.expressionStmt c [] c Stmt.Framed :=
  .bind (fun _ => gathers_expression _) fun _ _ _ h => .pure ⟨h.covers, .single h⟩

/-! ### Statements that hold statements -/

section

variable {nested : Parser (List Stmt)}

abbrev BodyGathers (nested : Parser (List Stmt)) (c : Cursor) : Prop :=
  ∀ c₁ : Cursor, c₁.rest.length < c.rest.length →
    Gathers nested c₁ [] c₁ fun ss w => Spread Node.Occupies (ss.map .stmt) w

theorem BodyGathers.of_le {c₁ : Cursor} (hn : BodyGathers nested c)
    (h : c₁.rest.length ≤ c.rest.length) : BodyGathers nested c₁ :=
  fun c₂ h₂ => hn c₂ (Nat.lt_of_lt_of_le h₂ h)

theorem gathers_body (hn : BodyGathers nested c) :
    Gathers (body nested) c [] c fun ss w => Spread Node.Occupies (ss.map .stmt) w := by
  refine .require_bind (by decide) fun _ c₁ _ => ?_
  refine .bind (fun hlength => hn c₁ ?_) fun ss w c₂ hss => ?_
  · rw [List.nil_append, List.length_singleton] at hlength
    omega
  · refine .skipIf_bind (by decide) fun _ c₃ => ?_
    exact .require_bind (by decide) fun _ c₄ _ => .pure (((hss.pad_left _).pad _).pad _)

theorem gathers_blockStmt (hk : c.current.kind ≠ .endOfInput) (hn : BodyGathers nested c) :
    Gathers (blockStmt nested) c [] c Stmt.Framed := by
  apply Gathers.here_bind
  refine .skip_bind hk fun c₁ => ?_
  refine .bind (fun hlength => hn c₁ ?_) fun ss w c₂ hss => ?_
  · rw [List.nil_append, List.length_singleton] at hlength
    omega
  · refine .require_bind (by decide) fun _ c₃ _ => ?_
    refine .spanFrom_bind (by simp) fun stop hcovers => .pure ⟨hcovers, ?_⟩
    exact (hss.pad_left _).pad _

theorem gathers_whileStmt (hk : c.current.kind ≠ .endOfInput) (hn : BodyGathers nested c) :
    Gathers (standard.whileStmt nested) c [] c Stmt.Framed := by
  apply Gathers.here_bind
  refine .skip_bind hk fun c₁ => ?_
  refine .bind (fun _ => gathers_expression _) fun condition v c₂ hcondition => ?_
  refine .bind (fun hlength => gathers_body (hn.of_le (by omega))) fun ss w c₃ hbody => ?_
  refine .spanFrom_bind (by simp) fun stop hcovers => .pure ⟨hcovers, ?_⟩
  exact ((Spread.single hcondition).pad_left _).append hbody

theorem gathers_foreachStmt (hk : c.current.kind ≠ .endOfInput) (hn : BodyGathers nested c) :
    Gathers (standard.foreachStmt nested) c [] c Stmt.Framed := by
  apply Gathers.here_bind
  refine .skip_bind hk fun c₁ => ?_
  refine .accept_bind (by decide) fun byReference _ c₂ => ?_
  refine gathers_identifier_bind fun name _ c₃ => ?_
  refine .require_bind (by decide) fun _ c₄ _ => ?_
  refine .bind (fun _ => gathers_expression _) fun iterable v c₅ hiterable => ?_
  refine .bind (fun hlength => gathers_body (hn.of_le (by omega))) fun ss w c₆ hbody => ?_
  refine .spanFrom_bind (by simp) fun stop hcovers => .pure ⟨hcovers, ?_⟩
  exact ((Spread.single hiterable).pad_left _).append hbody

theorem gathers_defDecl (hn : BodyGathers nested c) :
    Gathers (standard.defDecl nested) c [] c Stmt.Framed := by
  apply Gathers.here_bind
  refine .require_bind (by decide) fun _ c₁ _ => ?_
  refine .accept_bind (by decide) fun byReference _ c₂ => ?_
  refine gathers_identifier_bind fun name _ c₃ => ?_
  refine .bind (fun _ => gathers_parameters) fun ps v c₄ hps => ?_
  refine .bind (fun hlength => gathers_body (hn.of_le (by omega))) fun ss w c₅ hbody => ?_
  refine .spanFrom_bind (by simp) fun stop hcovers => .pure ⟨hcovers, ?_⟩
  exact (hps.pad_left _).append hbody

abbrev SpreadBranch (b : Expr × List Stmt) (w : List Token) : Prop :=
  Spread Node.Occupies (.expr b.1 :: b.2.map .stmt) w

theorem gathers_elifBranch (hk : c.current.kind ≠ .endOfInput) (hn : BodyGathers nested c) :
    Gathers (standard.elifBranch nested) c [] c SpreadBranch := by
  refine .skip_bind hk fun c₁ => ?_
  refine .bind (fun _ => gathers_expression _) fun condition v c₂ hcondition => ?_
  refine .bind (fun hlength => gathers_body (hn.of_le (by omega))) fun ss w c₃ hbody => .pure ?_
  exact ((Spread.single hcondition).pad_left _).append hbody

theorem gathers_elifBranches (hn : BodyGathers nested c) :
    Gathers (many (· = .keyword .elif) (standard.elifBranch nested)) c [] c
      (Filled SpreadBranch) := by
  refine .many fun c₁ hle hst => gathers_elifBranch ?_ (hn.of_le hle)
  rw [of_decide_eq_true hst]
  exact nofun

theorem gathers_else (hn : BodyGathers nested c) :
    Gathers (after? (.keyword .else_) (body nested)) c [] c fun last w =>
      Spread Node.Occupies ((last.map ElseChain.otherwise).getD .done).parts w := by
  refine (Gathers.after? (k := .keyword .else_) nofun fun c₁ hle => gathers_body (hn.of_le hle)).mono
    ?_
  rintro last w (⟨rfl, -⟩ | ⟨ss, rfl, t, v, rfl, hss⟩)
  · exact .nil w
  · exact hss.pad_left [t]

/-- The parts of a chain are those of its branches, one branch after the other. -/
theorem spread_chain {branches : List (Expr × List Stmt)} {last : ElseChain} {v w : List Token}
    (hb : Filled SpreadBranch branches v) (hl : Spread Node.Occupies last.parts w) :
    Spread Node.Occupies (branches.foldr (fun b => .elif b.1 b.2) last).parts (v ++ w) := by
  induction hb with
  | nil => exact hl
  | cons hb _ ih =>
      rw [List.append_assoc]
      exact hb.append ih

theorem gathers_ifStmt (hk : c.current.kind ≠ .endOfInput) (hn : BodyGathers nested c) :
    Gathers (standard.ifStmt nested) c [] c Stmt.Framed := by
  apply Gathers.here_bind
  refine .skip_bind hk fun c₁ => ?_
  refine .bind (fun _ => gathers_expression _) fun condition u c₂ hcondition => ?_
  refine .bind (fun hlength => gathers_body (hn.of_le (by omega))) fun ss u' c₃ hbody => ?_
  refine .bind (fun hlength => gathers_elifBranches (hn.of_le (by omega)))
    fun branches v c₄ hbranches => ?_
  refine .bind (fun hlength => gathers_else (hn.of_le (by omega))) fun last w c₅ hlast => ?_
  refine .spanFrom_bind (by simp) fun stop hcovers => .pure ⟨hcovers, ?_⟩
  have hthen : SpreadBranch (condition, ss) ([] ++ [c.current] ++ u ++ u') :=
    ((Spread.single hcondition).pad_left _).append hbody
  rw [List.append_assoc _ v w]
  exact hthen.append (spread_chain hbranches hlast)

/-! ### Any statement -/

theorem gathers_statementOf (rule : StatementRule) (hk : c.current.kind ≠ .endOfInput)
    (hn : BodyGathers nested c) : Gathers (standard.statementOf nested rule) c [] c Stmt.Framed := by
  cases rule with
  | print => exact gathers_printStmt hk
  | raise => exact gathers_raiseStmt hk
  | return_ => exact gathers_returnStmt hk
  | break_ => exact gathers_breakStmt hk
  | continue_ => exact gathers_continueStmt hk
  | goto => exact gathers_gotoStmt hk
  | label => exact gathers_labelStmt hk
  | global => exact gathers_globalStmt hk
  | block => exact gathers_blockStmt hk hn
  | if_ => exact gathers_ifStmt hk hn
  | while_ => exact gathers_whileStmt hk hn
  | foreach => exact gathers_foreachStmt hk hn
  | def_ => exact gathers_defDecl hn
  | class_ => exact gathers_classDecl
  | module_ => exact gathers_moduleDecl
  | open_ => exact gathers_openDecl
  | const => exact gathers_constDecl

theorem gathers_statementWith (hn : BodyGathers nested c) :
    Gathers (standard.statementWith nested) c [] c Stmt.Framed := by
  apply Gathers.peek_bind
  cases h : standard.statementRule c.current.kind with
  | none => exact gathers_expressionStmt
  | some rule =>
      exact gathers_statementOf rule ((standard_refusesEnd id).ne_of_statementRule h) hn

theorem gathers_innerWith (hn : BodyGathers nested c) :
    Gathers (standard.innerWith nested) c [] c Stmt.Framed := by
  apply Gathers.peek_bind
  show Gathers (if standard.startsStatement c.current.kind then _ else _) c [] c _
  split
  · exact gathers_statementWith hn
  · split
    · exact gathers_defDecl hn
    · split
      · exact gathers_classDecl
      · exact .fail _

theorem gathers_topWith (hn : BodyGathers nested c) :
    Gathers (standard.topWith nested) c [] c Stmt.Framed := by
  apply Gathers.peek_bind
  show Gathers (if standard.startsStatement c.current.kind then _ else _) c [] c _
  split
  · exact gathers_statementWith hn
  · split
    · exact gathers_classDecl
    · split
      · exact gathers_defDecl hn
      · exact gathers_moduleDecl
      · exact gathers_openDecl
      · exact gathers_constDecl
      · exact .fail _

end

/-! ### Lists of statements -/

/-- A statement that is framed by the tokens that spell it stands on them. -/
theorem occupies_of_framed {s : Stmt} {w : List Token} (h : s.Framed w)
    (hspelled : s.Spelled (w.map Token.lexeme)) : (Node.stmt s).Occupies w :=
  .mk h.covers hspelled h.parts

theorem gathers_statementsUpTo (n : Nat) :
    ∀ c : Cursor, c.rest.length ≤ n →
      Gathers (standard.statementsUpTo n) c [] c fun ss w =>
        Spread Node.Occupies (ss.map .stmt) w := by
  induction n with
  | zero => exact fun _ _ => .pure (.nil [])
  | succ n ih =>
      intro c hl
      refine (Gathers.many (P := fun s w => (Node.stmt s).Occupies w) fun c₁ h₁ hst => ?_).mono
        fun _ _ h => h.spread.map
      have hframed := gathers_innerWith (c := c₁) fun c₂ h₂ => ih c₂ (by omega)
      refine (hframed.and_meets (meets_innerWith hst fun c₂ h₂ =>
        meets_statementsUpTo n c₂ (by omega))).mono ?_
      rintro s w ⟨hframed, _, -, hread⟩
      exact occupies_of_framed hframed hread.spelled

theorem gathers_statements :
    Gathers standard.statements c [] c fun ss w => Spread Node.Occupies (ss.map .stmt) w :=
  .congr (q := standard.statementsUpTo (c.rest.length + 1)) rfl
    (gathers_statementsUpTo _ c (Nat.le_succ _))

theorem gathers_top (hs : standard.startsTop c.current.kind = true) :
    Gathers standard.top c [] c fun s w => (Node.stmt s).Occupies w := by
  refine ((gathers_topWith fun _ _ => gathers_statements).and_meets (meets_top hs)).mono ?_
  rintro s w ⟨hframed, _, hread⟩
  exact occupies_of_framed hframed hread.spelled

/-- The statements of a program stand on tokens that make up all that is read. -/
theorem gathers_program :
    Gathers standard.program c [] c (Filled fun s w => (Node.stmt s).Occupies w) := by
  refine .bind (fun _ => .many fun c₁ _ hst => gathers_top hst) fun ss w c₁ h => ?_
  apply Gathers.peek_bind
  split
  · exact .pure h
  · exact .fail _

end Grammar

end ScriptFrontend
