import ScriptFrontend.Grammar.Statement
import ScriptFrontend.Proofs.Locality
import ScriptFrontend.Proofs.Moves

/-!
Every production of the grammar moves forward, and most of them consume.

The statements follow the productions one by one.  A production that starts with a name, or with a
token that it requires, consumes wherever it yields a value.  A production that a table names is
entered on the token that the table was asked for, and passes over it whatever it is: it consumes as
long as that token is not the end of input, which no table of a grammar that refuses the end names.
-/

namespace ScriptFrontend

namespace Grammar

open ScriptFrontend.Parser

variable {g : Grammar} {c : Cursor}

/-! ### Names, parameters and classes -/

theorem moves_identifier : Moves True g.identifier c :=
  .first (.expect (by decide)) fun _ _ => .pure

theorem moves_qualifiedName : Moves True g.qualifiedName c :=
  .separated fun _ => moves_identifier

theorem moves_parameter : Moves True g.parameter c :=
  .here_bind <| .later (.accept _) fun _ _ => .later (.accept _) fun _ _ =>
    .first moves_identifier fun _ _ => .first .spanFrom fun _ _ => .pure

theorem moves_parameterList (separator : Mark) : Moves False (g.parameterList separator) c :=
  .first (.optional fun _ => (Moves.separated fun _ => moves_parameter).forward) fun _ _ => .pure

theorem moves_parameters : Moves False g.parameters c := by
  refine .first (.accept _) fun empty _ => ?_
  cases empty with
  | true => exact .pure
  | false =>
      exact .later (.forward (.require (by decide))) fun _ _ =>
        .later (moves_parameterList _) fun _ _ =>
          .first (.forward (.require (by decide))) fun _ _ => .pure

theorem moves_signature : Moves True g.signature c :=
  .here_bind <| .later (.accept _) fun _ _ => .later (.accept _) fun _ _ =>
    .first moves_identifier fun _ _ => .later (.forward (.require (by decide))) fun _ _ =>
      .later (moves_parameterList _) fun _ _ =>
        .later (.forward (.require (by decide))) fun _ _ => .first .spanFrom fun _ _ => .pure

theorem moves_classCategory : Moves False classCategory c := by
  refine .peek_bind ?_
  split
  · exact .fail
  · exact .later (.forward .skip) fun _ _ => .pure

theorem moves_interfaces : Moves True g.interfaces c :=
  .first moves_identifier fun _ _ => .first (.many fun _ => .later (.forward .skip) fun _ _ =>
    .later (.skipIf _) fun _ _ => .forward moves_identifier) fun _ _ => .pure

theorem moves_classDecl : Moves True g.classDecl c :=
  .here_bind <| .later (.accept _) fun _ _ => .later moves_classCategory fun _ _ =>
    .first moves_identifier fun _ _ => .later (.after? fun _ => .forward moves_identifier)
      fun _ _ => .later (.after? fun _ => .forward moves_interfaces) fun _ _ =>
        .later (.many fun _ => .forward moves_signature) fun _ _ =>
          .later (.forward (.require (by decide))) fun _ _ => .first .spanFrom fun _ _ => .pure

theorem moves_moduleDecl : Moves True g.moduleDecl c :=
  .here_bind <| .first (.require (by decide)) fun _ _ =>
    .later (.forward moves_qualifiedName) fun _ _ => .first .spanFrom fun _ _ => .pure

theorem moves_openDecl : Moves True g.openDecl c :=
  .here_bind <| .first (.require (by decide)) fun _ _ =>
    .later (.forward moves_qualifiedName) fun _ _ =>
      .later (.after? fun _ => .forward moves_identifier) fun _ _ =>
        .first .spanFrom fun _ _ => .pure

/-! ### Expressions -/

theorem moves_primary : Moves (c.current.kind ≠ .endOfInput) g.primary c := by
  refine .first .advance fun t d => ?_
  split <;> first | exact .pure | exact .throw

theorem moves_staticScalar : Moves False g.staticScalar c := by
  refine .peek_bind ?_
  split
  · exact moves_primary.forward
  · exact .fail

theorem moves_constDecl : Moves True g.constDecl c :=
  .here_bind <| .first (.require (by decide)) fun _ _ =>
    .later (.forward moves_identifier) fun _ _ =>
      .later (.forward (.require (by decide))) fun _ _ =>
        .later moves_staticScalar fun _ _ => .first .spanFrom fun _ _ => .pure

section

variable {nested : Power → Parser Expr} {left : Expr} {floor power : Power}

theorem moves_operandOf (hn : ∀ floor d, Moves False (nested floor) d) (rule : OperandRule) :
    Moves (c.current.kind ≠ .endOfInput) (g.operandOf nested rule) c := by
  cases rule with
  | primary => exact moves_primary
  | unary => exact .first .advance fun _ _ => .first (hn _ _) fun _ _ => .pure
  | group =>
      exact .here_bind <| .first .skip fun _ _ => .later (hn _ _) fun _ _ =>
        .later (.forward (.require (by decide))) fun _ _ => .first .spanFrom fun _ _ => .pure

theorem moves_operatorOf (hn : ∀ floor d, Moves False (nested floor) d) (rule : OperatorRule) :
    Moves (c.current.kind ≠ .endOfInput) (g.operatorOf nested left power rule) c := by
  cases rule with
  | binary => exact .first .advance fun _ _ => .first (hn _ _) fun _ _ => .pure
  | assign => exact .first .skip fun _ _ => .first (hn _ _) fun _ _ => .pure
  | call =>
      exact .first .skip fun _ _ => .later (.optional fun _ => .separated fun _ => hn _ _)
        fun _ _ => .later (.forward (.require (by decide))) fun _ _ =>
          .first .spanFrom fun _ _ => .pure
  | member =>
      exact .first .skip fun _ _ => .first (.forward (.expect (by decide))) fun _ _ => .pure

theorem moves_operand (hg : g.RefusesEnd) (hn : ∀ floor d, Moves False (nested floor) d) :
    Moves True (g.operand nested) c := by
  refine .peek_bind ?_
  split
  · exact .fail
  next rule h => exact (moves_operandOf hn rule).mono fun _ => hg.ne_of_operandRule h

theorem moves_extend (hn : ∀ floor d, Moves False (nested floor) d) :
    Moves False (g.extend nested floor left) c := by
  induction left, c using induction_extend g floor with
  | stop left c hstop => exact .still (by rw [extend_of_stop hstop]; rfl) id
  | unnamed left c power hp hr ho => exact .error (extend_of_no_rule hp hr ho)
  | operator left c power rule hp hr ho ih =>
      exact .congr (.onward (moves_operatorOf hn rule).forward ih) (extend_eq_onward hp hr ho)

theorem moves_expressionWith (hg : g.RefusesEnd) (hn : ∀ floor d, Moves False (nested floor) d) :
    Moves True (g.expressionWith nested floor) c :=
  .first (moves_operand hg hn) fun _ _ => moves_extend hn

end

theorem moves_expressionUpTo (hg : g.RefusesEnd) (n : Nat) :
    ∀ floor c, Moves True (g.expressionUpTo n floor) c := by
  induction n with
  | zero => exact fun _ _ => .fail
  | succ n ih => exact fun _ _ => moves_expressionWith hg fun floor d => (ih floor d).forward

theorem moves_expression (hg : g.RefusesEnd) (floor : Power) :
    Moves True (g.expression floor) c :=
  moves_expressionUpTo hg (c.rest.length + 1) floor c

theorem expression_forward (hg : g.RefusesEnd) (floor : Power) (d : Cursor) :
    Moves False (g.expression floor) d :=
  (moves_expression hg floor).forward

/-! ### Statements -/

theorem moves_levels : Moves False levels c := by
  refine .peek_bind ?_
  split
  · split
    · exact .fail
    · exact .later (.forward .skip) fun _ _ => .pure
  · exact .pure

section

variable {nested : Parser (List Stmt)}

theorem moves_body (hn : ∀ d, Moves False nested d) : Moves True (body nested) c :=
  .first (.require (by decide)) fun _ _ => .later (hn _) fun _ _ => .later (.skipIf _) fun _ _ =>
    .first (.forward (.require (by decide))) fun _ _ => .pure

theorem moves_elifBranch (hg : g.RefusesEnd) (hn : ∀ d, Moves False nested d) :
    Moves (c.current.kind ≠ .endOfInput) (g.elifBranch nested) c :=
  .first .skip fun _ _ => .later (expression_forward hg _ _) fun _ _ =>
    .first (moves_body hn).forward fun _ _ => .pure

theorem moves_defDecl (hn : ∀ d, Moves False nested d) : Moves True (g.defDecl nested) c :=
  .here_bind <| .first (.require (by decide)) fun _ _ => .later (.accept _) fun _ _ =>
    .later moves_identifier.forward fun _ _ => .later moves_parameters fun _ _ =>
      .later (moves_body hn).forward fun _ _ => .first .spanFrom fun _ _ => .pure

theorem moves_ifStmt (hg : g.RefusesEnd) (hn : ∀ d, Moves False nested d) :
    Moves (c.current.kind ≠ .endOfInput) (g.ifStmt nested) c :=
  .here_bind <| .first .skip fun _ _ => .later (expression_forward hg _ _) fun _ _ =>
    .later (moves_body hn).forward fun _ _ =>
      .later (.many fun _ => (moves_elifBranch hg hn).forward) fun _ _ =>
        .later (.after? fun _ => (moves_body hn).forward) fun _ _ =>
          .first .spanFrom fun _ _ => .pure

/-- What a table names passes over the token that it is entered on. -/
theorem moves_statementOf (hg : g.RefusesEnd) (hn : ∀ d, Moves False nested d)
    (rule : StatementRule) :
    Moves (c.current.kind ≠ .endOfInput) (g.statementOf nested rule) c := by
  have hexpression := expression_forward hg .lowest
  have hidentifier (d : Cursor) : Moves False g.identifier d := moves_identifier.forward
  cases rule with
  | print | raise =>
      exact .here_bind <| .first .skip fun _ _ => .later (hexpression _) fun _ _ =>
        .first .spanFrom fun _ _ => .pure
  | return_ =>
      exact .here_bind <| .first .skip fun _ _ => .later (.optional hexpression) fun _ _ =>
        .first .spanFrom fun _ _ => .pure
  | break_ | continue_ =>
      exact .here_bind <| .first .skip fun _ _ => .later moves_levels fun _ _ =>
        .first .spanFrom fun _ _ => .pure
  | goto | label =>
      exact .here_bind <| .first .skip fun _ _ => .later (hidentifier _) fun _ _ =>
        .first .spanFrom fun _ _ => .pure
  | global =>
      exact .here_bind <| .first .skip fun _ _ => .later (.separated hidentifier) fun _ _ =>
        .first .spanFrom fun _ _ => .pure
  | block =>
      exact .here_bind <| .first .skip fun _ _ => .later (hn _) fun _ _ =>
        .later (.forward (.require (by decide))) fun _ _ => .first .spanFrom fun _ _ => .pure
  | if_ => exact moves_ifStmt hg hn
  | while_ =>
      exact .here_bind <| .first .skip fun _ _ => .later (hexpression _) fun _ _ =>
        .later (moves_body hn).forward fun _ _ => .first .spanFrom fun _ _ => .pure
  | foreach =>
      exact .here_bind <| .first .skip fun _ _ => .later (.accept _) fun _ _ =>
        .later (hidentifier _) fun _ _ => .later (.forward (.require (by decide))) fun _ _ =>
          .later (hexpression _) fun _ _ => .later (moves_body hn).forward fun _ _ =>
            .first .spanFrom fun _ _ => .pure
  | def_ => exact (moves_defDecl hn).mono fun _ => trivial
  | class_ => exact moves_classDecl.mono fun _ => trivial
  | module_ => exact moves_moduleDecl.mono fun _ => trivial
  | open_ => exact moves_openDecl.mono fun _ => trivial
  | const => exact moves_constDecl.mono fun _ => trivial

theorem moves_expressionStmt (hg : g.RefusesEnd) : Moves True g.expressionStmt c :=
  .first (moves_expression hg _) fun _ _ => .pure

theorem moves_statementWith (hg : g.RefusesEnd) (hn : ∀ d, Moves False nested d) :
    Moves True (g.statementWith nested) c := by
  refine .peek_bind ?_
  split
  next rule h => exact (moves_statementOf hg hn rule).mono fun _ => hg.ne_of_statementRule h
  · exact moves_expressionStmt hg

theorem moves_innerWith (hg : g.RefusesEnd) (hn : ∀ d, Moves False nested d) :
    Moves True (g.innerWith nested) c := by
  refine .peek_bind ?_
  show Moves _ (if g.startsStatement c.current.kind then _ else _) c
  split
  · exact moves_statementWith hg hn
  · split
    · exact moves_defDecl hn
    · split
      · exact moves_classDecl
      · exact .fail

theorem moves_topWith (hg : g.RefusesEnd) (hn : ∀ d, Moves False nested d) :
    Moves True (g.topWith nested) c := by
  refine .peek_bind ?_
  show Moves _ (if g.startsStatement c.current.kind then _ else _) c
  split
  · exact moves_statementWith hg hn
  · split
    · exact moves_classDecl
    · split
      · exact moves_defDecl hn
      · exact moves_moduleDecl
      · exact moves_openDecl
      · exact moves_constDecl
      · exact .fail

end

theorem moves_statementsUpTo (hg : g.RefusesEnd) (n : Nat) :
    ∀ c, Moves False (g.statementsUpTo n) c := by
  induction n with
  | zero => exact fun _ => .pure
  | succ n ih => exact fun _ => .many fun _ => (moves_innerWith hg ih).forward

theorem moves_statements (hg : g.RefusesEnd) : Moves False g.statements c :=
  moves_statementsUpTo hg (c.rest.length + 1) c

theorem moves_statement (hg : g.RefusesEnd) : Moves True g.statement c :=
  moves_statementWith hg fun _ => moves_statements hg

theorem moves_inner (hg : g.RefusesEnd) : Moves True g.inner c :=
  moves_innerWith hg fun _ => moves_statements hg

theorem moves_top (hg : g.RefusesEnd) : Moves True g.top c :=
  moves_topWith hg fun _ => moves_statements hg

theorem moves_program (hg : g.RefusesEnd) : Moves False g.program c := by
  refine .first (.many fun _ => (moves_top hg).forward) fun _ _ => .peek_bind ?_
  split
  · exact .pure
  · exact .fail

end Grammar

end ScriptFrontend
