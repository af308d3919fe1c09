import ScriptFrontend.Proofs.Blames
import ScriptFrontend.Proofs.Termination
import ScriptFrontend.Proofs.Phases
import ScriptFrontend.Proofs.EarliestError

/-!
Dispatch: the tables and the predicates of the grammar are in step.

Two errors of the grammar are there for states that cannot be: an operator that binds but has no
production, and a statement that is entered on a token that starts none.  The tables that registering
fills never lead to the first, and the predicates in front of each entry exclude the second.  So what
is left of the errors are those of tokens that the grammar has no use for, and with the tables of the
language each of them is the token that the parser stops at.
-/

namespace ScriptFrontend

theorem Expected.text_eq_operator_iff {x : Expected} : x.text = "operator" ↔ x = operator := by
  cases x with
  | kind k =>
      refine ⟨fun h => ?_, nofun⟩
      cases k with
      | mark m => cases m <;> exact absurd h (by decide)
      | keyword k => cases k <;> exact absurd h (by decide)
      | _ => exact absurd h (by decide)
  | _ => decide

theorem Expected.text_eq_statement_iff {x : Expected} : x.text = "statement" ↔ x = statement := by
  cases x with
  | kind k =>
      refine ⟨fun h => ?_, nofun⟩
      cases k with
      | mark m => cases m <;> exact absurd h (by decide)
      | keyword k => cases k <;> exact absurd h (by decide)
      | _ => exact absurd h (by decide)
  | _ => decide

namespace Grammar

open ScriptFrontend.Parser

/-! ### Tables -/

/-- A kind that binds has a production, and the other way round. -/
def Paired (g : Grammar) : Prop :=
  ∀ k, (g.power k).isSome = (g.operatorRule k).isSome

def ReadsScalars (g : Grammar) : Prop :=
  ∀ k, g.operandRule k = some .primary → k.isStaticScalar = true

theorem paired_standard (resolve : String → String) : (standard resolve).Paired := by
  intro k
  simp [standard]

theorem readsScalars_standard (resolve : String → String) : (standard resolve).ReadsScalars :=
  fun _ => isStaticScalar_of_primary

theorem Registered.paired {g : Grammar} (h : g.Registered) : g.Paired := by
  induction h with
  | standard resolve => exact paired_standard resolve
  | withStatement rule hk _ ih => exact ih
  | withOperand rule hk _ ih => exact ih
  | @withOperator g k power rule hk _ ih =>
      intro k'
      show (update g.power k power k').isSome = (update g.operatorRule k rule k').isSome
      by_cases hk' : k' = k
      · simp [update, hk']
      · simpa [update, hk'] using ih k'

variable {g : Grammar} {s : Prop} {c : Cursor}

/-! ### Names, parameters and classes -/

theorem blames_identifier : Blames s g.identifier c :=
  .bind (.expect _) fun _ _ => .pure

theorem blames_qualifiedName : Blames s g.qualifiedName c :=
  .separated fun _ => blames_identifier

theorem blames_parameter : Blames s g.parameter c :=
  .here_bind <| .bind (.accept _) fun _ _ => .bind (.accept _) fun _ _ =>
    .bind blames_identifier fun _ _ => .bind .spanFrom fun _ _ => .pure

theorem blames_parameterList (separator : Mark) : Blames s (g.parameterList separator) c :=
  .bind (.optional fun _ => .separated fun _ => blames_parameter) fun _ _ => .pure

theorem blames_parameters : Blames s g.parameters c := by
  refine .bind (.accept _) fun empty _ => ?_
  cases empty with
  | true => exact .pure
  | false =>
      exact .bind (.require _) fun _ _ => .bind (blames_parameterList _) fun _ _ =>
        .bind (.require _) fun _ _ => .pure

theorem blames_signature : Blames s g.signature c :=
  .here_bind <| .bind (.accept _) fun _ _ => .bind (.accept _) fun _ _ =>
    .bind blames_identifier fun _ _ => .bind (.require _) fun _ _ =>
      .bind (blames_parameterList _) fun _ _ => .bind (.require _) fun _ _ =>
        .bind .spanFrom fun _ _ => .pure

theorem blames_classCategory : Blames s classCategory c := by
  refine .peek_bind ?_
  split
  · exact .fail trivial
  · exact .bind .skip fun _ _ => .pure

theorem blames_interfaces : Blames s g.interfaces c :=
  .bind blames_identifier fun _ _ => .bind (.many fun _ _ => .bind .skip fun _ _ =>
    .bind (.skipIf _) fun _ _ => blames_identifier) fun _ _ => .pure

theorem blames_classDecl : Blames s g.classDecl c :=
  .here_bind <| .bind (.accept _) fun _ _ => .bind blames_classCategory fun _ _ =>
    .bind blames_identifier fun _ _ => .bind (.after? fun _ => blames_identifier) fun _ _ =>
      .bind (.after? fun _ => blames_interfaces) fun _ _ =>
        .bind (.many fun _ _ => blames_signature) fun _ _ => .bind (.require _) fun _ _ =>
          .bind .spanFrom fun _ _ => .pure

theorem blames_moduleDecl : Blames s g.moduleDecl c :=
  .here_bind <| .bind (.require _) fun _ _ => .bind blames_qualifiedName fun _ _ =>
    .bind .spanFrom fun _ _ => .pure

theorem blames_openDecl : Blames s g.openDecl c :=
  .here_bind <| .bind (.require _) fun _ _ => .bind blames_qualifiedName fun _ _ =>
    .bind (.after? fun _ => blames_identifier) fun _ _ => .bind .spanFrom fun _ _ => .pure

/-! ### Expressions -/

/-- Literals and names are read whatever they are. -/
theorem primary_of_scalar (h : c.current.kind.isStaticScalar = true) :
    ∃ e, g.primary c = .ok e c.advance := by
  rcases kind_of_isStaticScalar h with hk | hk | hk | hk | hk | hk <;>
    exact ⟨_, by simp [primary, bind, EStateM.bind, Parser.advance, hk, pure, EStateM.pure]; rfl⟩

/-- A token that is no literal and no name is passed over before it is reported. -/
theorem blames_primary (h : s → c.current.kind.isStaticScalar = true) : Blames s g.primary c := by
  by_cases hk : c.current.kind.isStaticScalar = true
  · obtain ⟨e, he⟩ := primary_of_scalar (g := g) hk
    exact .ok he
  · have hs : ¬ s := fun hs => hk (h hs)
    refine .mono (s := False) (.bind .advance fun t d => ?_) hs
    split
    all_goals first | exact .pure | exact fun _ _ he => by cases he; exact ⟨trivial, False.elim⟩

theorem blames_staticScalar : Blames s g.staticScalar c := by
  refine .peek_bind ?_
  split
  next h => exact blames_primary fun _ => h
  · exact .fail trivial

theorem blames_constDecl : Blames s g.constDecl c :=
  .here_bind <| .bind (.require _) fun _ _ => .bind blames_identifier fun _ _ =>
    .bind (.require _) fun _ _ => .bind blames_staticScalar fun _ _ =>
      .bind .spanFrom fun _ _ => .pure

section

variable {nested : Power → Parser Expr} {left : Expr} {floor power : Power}

theorem blames_operandOf (hn : ∀ floor d, Blames s (nested floor) d) (rule : OperandRule)
    (h : s → rule = .primary → c.current.kind.isStaticScalar = true) :
    Blames s (g.operandOf nested rule) c := by
  cases rule with
  | primary => exact blames_primary fun hs => h hs rfl
  | unary => exact .bind .advance fun _ _ => .bind (hn _ _) fun _ _ => .pure
  | group =>
      exact .here_bind <| .bind .skip fun _ _ => .bind (hn _ _) fun _ _ =>
        .bind (.require _) fun _ _ => .bind .spanFrom fun _ _ => .pure

theorem blames_operatorOf (hn : ∀ floor d, Blames s (nested floor) d) (rule : OperatorRule) :
    Blames s (g.operatorOf nested left power rule) c := by
  cases rule with
  | binary => exact .bind .advance fun _ _ => .bind (hn _ _) fun _ _ => .pure
  | assign => exact .bind .skip fun _ _ => .bind (hn _ _) fun _ _ => .pure
  | call =>
      exact .bind .skip fun _ _ => .bind (.optional fun _ => .separated fun _ => hn _ _)
        fun _ _ => .bind (.require _) fun _ _ => .bind .spanFrom fun _ _ => .pure
  | member => exact .bind .skip fun _ _ => .bind (.expect _) fun _ _ => .pure

theorem blames_operand (hs : s → g.ReadsScalars) (hn : ∀ floor d, Blames s (nested floor) d) :
    Blames s (g.operand nested) c := by
  refine .peek_bind ?_
  split
  · exact .fail trivial
  next rule h =>
    refine blames_operandOf hn rule fun hsome hprimary => ?_
    exact hs hsome _ (hprimary ▸ h)

/-- Where a kind binds the tables name its production, so the operator is never missing. -/
theorem blames_extend (hg : g.Paired) (hn : ∀ floor d, Blames s (nested floor) d) :
    Blames s (g.extend nested floor left) c := by
  induction left, c using induction_extend g floor with
  | stop left c hstop => exact .ok (extend_of_stop hstop)
  | unnamed left c power hp hr ho =>
      have hsome := hg c.current.kind
      rw [hp, ho] at hsome
      cases hsome
  | operator left c power rule hp hr ho ih =>
      exact .congr (.onward (blames_operatorOf hn rule) ih) (extend_eq_onward hp hr ho)

end

theorem blames_expressionUpTo (hg : g.Paired) (hs : s → g.ReadsScalars) (n : Nat) :
    ∀ floor c, Blames s (g.expressionUpTo n floor) c := by
  induction n with
  | zero => exact fun _ _ => .fail trivial
  | succ n ih =>
      exact fun _ _ => .bind (blames_operand hs ih) fun _ _ => blames_extend hg ih

theorem blames_expression (hg : g.Paired) (hs : s → g.ReadsScalars) (floor : Power) (c : Cursor) :
    Blames s (g.expression floor) c :=
  blames_expressionUpTo hg hs (c.rest.length + 1) floor c

/-! ### Statements -/

theorem blames_levels : Blames s levels c := by
  refine .peek_bind ?_
  split
  · split
    · exact .fail trivial
    · exact .bind .skip fun _ _ => .pure
  · exact .pure

section

variable {nested : Parser (List Stmt)}

theorem blames_body (hn : ∀ d, Blames s nested d) : Blames s (body nested) c :=
  .bind (.require _) fun _ _ => .bind (hn _) fun _ _ => .bind (.skipIf _) fun _ _ =>
    .bind (.require _) fun _ _ => .pure

theorem blames_defDecl (hn : ∀ d, Blames s nested d) : Blames s (g.defDecl nested) c :=
  .here_bind <| .bind (.require _) fun _ _ => .bind (.accept _) fun _ _ =>
    .bind blames_identifier fun _ _ => .bind blames_parameters fun _ _ =>
      .bind (blames_body hn) fun _ _ => .bind .spanFrom fun _ _ => .pure

theorem blames_ifStmt (hg : g.Paired) (hs : s → g.ReadsScalars) (hn : ∀ d, Blames s nested d) :
    Blames s (g.ifStmt nested) c :=
  have hexpression := blames_expression hg hs .lowest
  .here_bind <| .bind .skip fun _ _ => .bind (hexpression _) fun _ _ =>
    .bind (blames_body hn) fun _ _ =>
      .bind (.many fun _ _ => .bind .skip fun _ _ => .bind (hexpression _) fun _ _ =>
        .bind (blames_body hn) fun _ _ => .pure) fun _ _ =>
          .bind (.after? fun _ => blames_body hn) fun _ _ => .bind .spanFrom fun _ _ => .pure

theorem blames_statementOf (hg : g.Paired) (hs : s → g.ReadsScalars)
    (hn : ∀ d, Blames s nested d) (rule : StatementRule) :
    Blames s (g.statementOf nested rule) c := by
  have hexpression := blames_expression hg hs .lowest
  cases rule with
  | print | raise =>
      exact .here_bind <| .bind .skip fun _ _ => .bind (hexpression _) fun _ _ =>
        .bind .spanFrom fun _ _ => .pure
  | return_ =>
      exact .here_bind <| .bind .skip fun _ _ => .bind (.optional hexpression) fun _ _ =>
        .bind .spanFrom fun _ _ => .pure
  | break_ | continue_ =>
      exact .here_bind <| .bind .skip fun _ _ => .bind blames_levels fun _ _ =>
        .bind .spanFrom fun _ _ => .pure
  | goto | label =>
      exact .here_bind <| .bind .skip fun _ _ => .bind blames_identifier fun _ _ =>
        .bind .spanFrom fun _ _ => .pure
  | global =>
      exact .here_bind <| .bind .skip fun _ _ => .bind (.separated fun _ => blames_identifier)
        fun _ _ => .bind .spanFrom fun _ _ => .pure
  | block =>
      exact .here_bind <| .bind .skip fun _ _ => .bind (hn _) fun _ _ =>
        .bind (.require _) fun _ _ => .bind .spanFrom fun _ _ => .pure
  | if_ => exact blames_ifStmt hg hs hn
  | while_ =>
      exact .here_bind <| .bind .skip fun _ _ => .bind (hexpression _) fun _ _ =>
        .bind (blames_body hn) fun _ _ => .bind .spanFrom fun _ _ => .pure
  | foreach =>
      exact .here_bind <| .bind .skip fun _ _ => .bind (.accept _) fun _ _ =>
        .bind blames_identifier fun _ _ => .bind (.require _) fun _ _ =>
          .bind (hexpression _) fun _ _ => .bind (blames_body hn) fun _ _ =>
            .bind .spanFrom fun _ _ => .pure
  | def_ => exact blames_defDecl hn
  | class_ => exact blames_classDecl
  | module_ => exact blames_moduleDecl
  | open_ => exact blames_openDecl
  | const => exact blames_constDecl

theorem blames_statementWith (hg : g.Paired) (hs : s → g.ReadsScalars)
    (hn : ∀ d, Blames s nested d) : Blames s (g.statementWith nested) c := by
  refine .peek_bind ?_
  split
  next rule _ => exact blames_statementOf hg hs hn rule
  · exact .bind (blames_expression hg hs _ _) fun _ _ => .pure

/-- On a token that starts a statement of a body, one of the productions is entered. -/
theorem blames_innerWith (hg : g.Paired) (hs : s → g.ReadsScalars) (hn : ∀ d, Blames s nested d)
    (hst : g.startsInner c.current.kind = true) : Blames s (g.innerWith nested) c := by
  refine .peek_bind ?_
  show Blames s (if g.startsStatement c.current.kind then _ else _) c
  split
  · exact blames_statementWith hg hs hn
  · split
    · exact blames_defDecl hn
    · split
      · exact blames_classDecl
      · simp_all [startsInner]

/-- On a token that starts a statement of a program, one of the productions is entered. -/
theorem blames_topWith (hg : g.Paired) (hs : s → g.ReadsScalars) (hn : ∀ d, Blames s nested d)
    (hst : g.startsTop c.current.kind = true) : Blames s (g.topWith nested) c := by
  refine .peek_bind ?_
  show Blames s (if g.startsStatement c.current.kind then _ else _) c
  split
  · exact blames_statementWith hg hs hn
  · split
    · exact blames_classDecl
    · split
      · exact blames_defDecl hn
      · exact blames_moduleDecl
      · exact blames_openDecl
      · exact blames_constDecl
      · simp_all [startsTop]

end

theorem blames_statementsUpTo (hg : g.Paired) (hs : s → g.ReadsScalars) (n : Nat) :
    ∀ c, Blames s (g.statementsUpTo n) c := by
  induction n with
  | zero => exact fun _ => .pure
  | succ n ih => exact fun _ => .many fun _ hst => blames_innerWith hg hs ih hst

theorem blames_statements (hg : g.Paired) (hs : s → g.ReadsScalars) (c : Cursor) :
    Blames s g.statements c :=
  blames_statementsUpTo hg hs (c.rest.length + 1) c

/-! ### Whole parses -/

/-- A loop whose items consume goes on to a token that starts none. -/
theorem starts_of_many_eq_ok {α : Type} {starts : Kind → Bool} {p : Parser α} {as : List α}
    {d : Cursor} (hp : ∀ d, starts d.current.kind = true → Moves True p d) (hc : c.Closed)
    (h : many starts p c = .ok as d) : starts d.current.kind = false := by
  induction c using induction_rounds starts generalizing as with
  | stop c hst =>
      rw [many_of_not hst] at h
      cases h
      exact hst
  | round c hst ih =>
      cases hpc : p c with
      | error e d' =>
          rw [many_of_error hst hpc] at h
          cases h
      | ok a d' =>
          obtain ⟨hclosed, hlt⟩ := (hp c hst).shorter trivial hc hpc
          rw [many_of_ok hst hpc hlt] at h
          cases hmore : many starts p d' with
          | error e d'' =>
              simp [Functor.map, EStateM.map, hmore] at h
          | ok bs d'' =>
              have hd : d'' = d := by
                simp [Functor.map, EStateM.map, hmore] at h
                exact h.2
              subst hd
              exact ih d' hlt hclosed hmore

/-- A program fails in a statement, or behind whole ones at a token that ends no program. -/
theorem program_eq_error {e : SyntaxError} {d : Cursor} (h : g.program c = .error e d) :
    many g.startsTop g.top c = .error e d ∨
      e = ⟨.statement, d.current⟩ ∧ d.current.kind ≠ .endOfInput ∧
        ∃ ss, many g.startsTop g.top c = .ok ss d := by
  cases hmany : many g.startsTop g.top c with
  | error e' d' =>
      rw [program, bind_of_error hmany] at h
      exact .inl h
  | ok ss d' =>
      rw [program, bind_of_ok hmany] at h
      change (if d'.current.kind = .endOfInput then _ else _ : Parser (List Stmt)) d' = _ at h
      split at h
      · cases h
      next hk =>
        cases h
        exact .inr ⟨rfl, hk, ss, rfl⟩

/-- A parse that fails stops at the token that its error names. -/
structure StopsAt (g : Grammar) (c : Cursor) (e : SyntaxError) (d : Cursor) : Prop where
  found : e.found = d.current
  /-- A statement is missing only behind whole ones, at a token that starts none and ends nothing. -/
  statement : e.expected.text = "statement" → ∃ ss, many g.startsTop g.top c = .ok ss d ∧
    d.current.kind ≠ .endOfInput ∧ g.startsTop d.current.kind = false

theorem stopsAt_program {e : SyntaxError} {d : Cursor} (hg : g.Paired) (hs : g.ReadsScalars)
    (hend : g.RefusesEnd) (hc : c.Closed) (h : g.program c = .error e d) : g.StopsAt c e d := by
  rcases program_eq_error h with hmany | ⟨rfl, hk, ss, hmany⟩
  · have hblames : Blames True (many g.startsTop g.top) c := .many fun _ hst =>
      blames_topWith hg (fun _ => hs) (blames_statements hg fun _ => hs) hst
    obtain ⟨hspecific, hfound⟩ := hblames e d hmany
    refine ⟨hfound trivial, fun htext => ?_⟩
    rw [Expected.text_eq_statement_iff.1 htext] at hspecific
    exact hspecific.elim
  · have hstop := starts_of_many_eq_ok (fun _ _ => moves_top hend) hc hmany
    exact ⟨rfl, fun _ => ⟨ss, hmany, hk, hstop⟩⟩

/-! ### Entries on tokens that start nothing -/

theorem inner_of_not_starts (h : g.startsInner c.current.kind = false) :
    g.inner c = fail .statement c := by
  simp only [startsInner, Bool.or_eq_false_iff, decide_eq_false_iff_not] at h
  obtain ⟨⟨hs, hdef⟩, hclass⟩ := h
  show (if g.startsStatement c.current.kind then _ else _ : Parser Stmt) c = _
  simp [hs, hdef, hclass]

theorem top_of_not_starts (h : g.startsTop c.current.kind = false) :
    g.top c = fail .statement c := by
  simp only [startsTop, Bool.or_eq_false_iff] at h
  obtain ⟨⟨hs, hclass⟩, hdecl⟩ := h
  show (if g.startsStatement c.current.kind then _ else _ : Parser Stmt) c = _
  simp only [hs, hclass, Bool.false_eq_true, if_false]
  generalize c.current.kind = k at hdecl
  cases k with
  | keyword word => cases word <;> first | rfl | cases hdecl
  | _ => rfl

/-- No production asks for an operator as such, wherever it is entered. -/
theorem Production.expected_ne_operator {α : Type} {p : Parser α} {e : SyntaxError} {d : Cursor}
    (hg : g.Paired) (h : g.Production p) (hp : p c = .error e d) : e.expected ≠ .operator := by
  have hexpression := blames_expression (s := False) hg False.elim
  have hstatements := blames_statements (s := False) hg False.elim
  have hinner {c : Cursor} := blames_innerWith (c := c) hg False.elim hstatements
  have htop {c : Cursor} := blames_topWith (c := c) hg False.elim hstatements
  cases h with
  | identifier => exact (Blames.expected_ne blames_identifier hp).1
  | qualifiedName => exact (Blames.expected_ne blames_qualifiedName hp).1
  | parameter => exact (Blames.expected_ne blames_parameter hp).1
  | parameters => exact (Blames.expected_ne blames_parameters hp).1
  | signature => exact (Blames.expected_ne blames_signature hp).1
  | levels => exact (Blames.expected_ne blames_levels hp).1
  | body => exact (Blames.expected_ne (blames_body hstatements) hp).1
  | operandOf rule => exact (Blames.expected_ne (blames_operandOf hexpression rule False.elim) hp).1
  | operatorOf left power rule =>
      exact (Blames.expected_ne (blames_operatorOf hexpression rule) hp).1
  | expression floor => exact (Blames.expected_ne (hexpression floor c) hp).1
  | statementOf rule =>
      exact (Blames.expected_ne (blames_statementOf hg False.elim hstatements rule) hp).1
  | statement => exact (Blames.expected_ne (blames_statementWith hg False.elim hstatements) hp).1
  | statements => exact (Blames.expected_ne (hstatements c) hp).1
  | inner =>
      cases hst : g.startsInner c.current.kind with
      | true => exact (Blames.expected_ne (hinner hst) hp).1
      | false =>
          rw [inner_of_not_starts hst] at hp
          cases hp
          exact nofun
  | top =>
      cases hst : g.startsTop c.current.kind with
      | true => exact (Blames.expected_ne (htop hst) hp).1
      | false =>
          rw [top_of_not_starts hst] at hp
          cases hp
          exact nofun
  | program =>
      rcases program_eq_error hp with hmany | ⟨rfl, -⟩
      · exact (Blames.expected_ne (Blames.many fun _ hst => htop hst) hmany).1
      · exact nofun

/-! ### Dispatch -/

/-- The tables and the predicates of the grammar are in step. -/
structure InStep (g : Grammar) : Prop where
  /-- A kind binds exactly if it has a production between operands. -/
  paired : ∀ k, (g.power k).isSome = (g.operatorRule k).isSome
  /-- No production, wherever it is entered, asks for the operator that the tables lack. -/
  operator : ∀ {α : Type} {p : Parser α} {c : Cursor} {e : SyntaxError} {d : Cursor},
    g.Production p → p c = .error e d → e.expected.text ≠ "operator"
  /-- The statements that a body and a program share are read alike, up to the cursor. -/
  inner : ∀ {c : Cursor}, g.startsInner c.current.kind = true → g.top c = g.inner c

theorem Registered.inStep {g : Grammar} (h : g.Registered) : g.InStep where
  paired := h.paired
  operator hp he htext :=
    hp.expected_ne_operator h.paired he (Expected.text_eq_operator_iff.1 htext)
  inner := topWith_eq_innerWith g

/-- What is entered where its predicate holds is entered rightly. -/
structure Committed (g : Grammar) : Prop where
  top : ∀ {c : Cursor} {e : SyntaxError} {d : Cursor}, g.startsTop c.current.kind = true →
    g.top c = .error e d → e.expected.text ≠ "statement"
  inner : ∀ {c : Cursor} {e : SyntaxError} {d : Cursor}, g.startsInner c.current.kind = true →
    g.inner c = .error e d → e.expected.text ≠ "statement"
  /-- Literals and names are read only where the tables or the predicate say that one is ahead. -/
  primary : ∀ {c : Cursor},
    g.operandRule c.current.kind = some .primary ∨ c.current.kind.isStaticScalar = true →
      ∃ e, g.primary c = .ok e c.advance

theorem committed_standard (resolve : String → String) : (standard resolve).Committed where
  top hst he htext := by
    have hg := paired_standard resolve
    have hblames := blames_topWith hg False.elim (blames_statements hg False.elim) hst
    exact (Blames.expected_ne hblames he).2 (Expected.text_eq_statement_iff.1 htext)
  inner hst he htext := by
    have hg := paired_standard resolve
    have hblames := blames_innerWith hg False.elim (blames_statements hg False.elim) hst
    exact (Blames.expected_ne hblames he).2 (Expected.text_eq_statement_iff.1 htext)
  primary h := primary_of_scalar (h.elim (readsScalars_standard resolve _) id)

/-- Registering productions keeps the tables in step, no fallback of the grammar of the language is
ever reached where its predicate holds, and each error of a parse is the token that the parser stops
at, with the source; a statement is missing only behind whole ones. -/
theorem dispatch_in_step :
    (∀ g : Grammar, g.Registered → g.InStep) ∧ (∀ resolve, (standard resolve).Committed) ∧
      ∀ (source : String) (ts : List Token) (aliases : Aliases) (d : Diagnostic),
        parseTokens source ts aliases = .error d →
          ∃ e c, (standard aliases.resolve).program (Cursor.ofTokens ts) = .error e c ∧
            (standard aliases.resolve).StopsAt (Cursor.ofTokens ts) e c ∧
            d = .unexpectedToken e.expected.text c.current source := by
  refine ⟨fun g h => h.inStep, committed_standard, fun source ts aliases d h => ?_⟩
  obtain ⟨e, he, rfl⟩ := mapError_eq_error_iff.1 h
  obtain ⟨i, c, hc, -⟩ := parse_eq_error_iff.1 he
  have hstops := stopsAt_program (paired_standard _) (readsScalars_standard _)
    (standard_refusesEnd _) (Cursor.closed_ofTokens ts) hc
  refine ⟨e, c, hc, hstops, ?_⟩
  rw [← hstops.found]
  rfl

end Grammar

end ScriptFrontend
