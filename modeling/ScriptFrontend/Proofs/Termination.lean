import ScriptFrontend.Proofs.Unrolling

/-!
The parser ends, and its cursor is sound.

The tables of a grammar may be changed by registering productions for more kinds of token.  As long
as none is registered for the end of input, every loop and every recursion of the grammar ends on
every token list, no production goes back or leaves the list, and what yields a statement or an
expression has consumed something.
-/

namespace ScriptFrontend

/-- The cursor stands on a token of the list, at the same place as another cursor or further on. -/
structure Cursor.Follows (ts : List Token) (c d : Cursor) : Prop where
  tokens : d.tokens = (ofTokens ts).tokens
  place : c.consumed.length ≤ d.consumed.length
  current : (ofTokens ts).tokens[d.consumed.length]? = some d.current

namespace Cursor.Reaches

variable {c d : Cursor} {w : List Token}

theorem tokens (h : c.Reaches w d) : d.tokens = c.tokens := by
  change d.consumed.reverse ++ d.ahead = c.consumed.reverse ++ c.ahead
  rw [h.consumed, h.ahead, List.reverse_append, List.reverse_reverse, List.append_assoc]

theorem length_consumed (h : c.Reaches w d) :
    d.consumed.length = w.length + c.consumed.length := by
  rw [h.consumed, List.length_append, List.length_reverse]

theorem follows {ts v : List Token} (hc : (ofTokens ts).Reaches v c) (h : c.Reaches w d) :
    Follows ts c d where
  tokens := h.tokens.trans hc.tokens
  place := by
    rw [h.length_consumed]
    exact Nat.le_add_left _ _
  current := by
    rw [← h.tokens.trans hc.tokens, Cursor.tokens, ← List.length_reverse,
      List.getElem?_append_right (Nat.le_refl _), Nat.sub_self]
    rfl

end Cursor.Reaches

namespace Grammar

open ScriptFrontend.Parser

/-- The grammars that come from the standard one by registering productions for kinds of token other
than the end of input. -/
inductive Registered : Grammar → Prop
  | standard (resolve : String → String) : Registered (standard resolve)
  | withStatement {g : Grammar} {k : Kind} (rule : StatementRule) (hk : k ≠ .endOfInput) :
      Registered g → Registered (g.withStatement k rule)
  | withOperand {g : Grammar} {k : Kind} (rule : OperandRule) (hk : k ≠ .endOfInput) :
      Registered g → Registered (g.withOperand k rule)
  | withOperator {g : Grammar} {k : Kind} (power : Power) (rule : OperatorRule)
      (hk : k ≠ .endOfInput) : Registered g → Registered (g.withOperator k power rule)

theorem update_endOfInput {α : Type} {table : Kind → Option α} {k : Kind} {a : α}
    (hk : k ≠ .endOfInput) (h : table .endOfInput = none) :
    update table k a .endOfInput = none := by
  rw [update, if_neg hk.symm, h]

theorem Registered.refusesEnd {g : Grammar} (h : g.Registered) : g.RefusesEnd := by
  induction h with
  | standard resolve => exact standard_refusesEnd resolve
  | withStatement rule hk _ ih => exact ⟨update_endOfInput hk ih.statement, ih.operand, ih.power⟩
  | withOperand rule hk _ ih => exact ⟨ih.statement, update_endOfInput hk ih.operand, ih.power⟩
  | withOperator power rule hk _ ih =>
      exact ⟨ih.statement, ih.operand, update_endOfInput hk ih.power⟩

variable {g : Grammar} {α : Type} {p : Parser α} {c : Cursor}

/-! ### Productions -/

inductive Production (g : Grammar) : {α : Type} → Parser α → Prop
  | identifier : Production g g.identifier
  | qualifiedName : Production g g.qualifiedName
  | parameter : Production g g.parameter
  | parameters : Production g g.parameters
  | signature : Production g g.signature
  | levels : Production g levels
  | body : Production g (body g.statements)
  | operandOf (rule : OperandRule) : Production g (g.operandOf g.expression rule)
  | operatorOf (left : Expr) (power : Power) (rule : OperatorRule) :
      Production g (g.operatorOf g.expression left power rule)
  | expression (floor : Power) : Production g (g.expression floor)
  | statementOf (rule : StatementRule) : Production g (g.statementOf g.statements rule)
  | statement : Production g g.statement
  | inner : Production g g.inner
  | top : Production g g.top
  | statements : Production g g.statements
  | program : Production g g.program

theorem Production.moves (hg : g.RefusesEnd) (h : g.Production p) : Moves False p c := by
  have hexpression := expression_forward hg
  have hstatements (d : Cursor) : Moves False g.statements d := moves_statements hg
  cases h with
  | identifier => exact moves_identifier.forward
  | qualifiedName => exact moves_qualifiedName.forward
  | parameter => exact moves_parameter.forward
  | parameters => exact moves_parameters
  | signature => exact moves_signature.forward
  | levels => exact moves_levels
  | body => exact (moves_body hstatements).forward
  | operandOf rule => exact (moves_operandOf hexpression rule).forward
  | operatorOf left power rule => exact (moves_operatorOf hexpression rule).forward
  | expression floor => exact hexpression floor c
  | statementOf rule => exact (moves_statementOf hg hstatements rule).forward
  | statement => exact (moves_statement hg).forward
  | inner => exact (moves_inner hg).forward
  | top => exact (moves_top hg).forward
  | statements => exact hstatements c
  | program => exact moves_program hg

/-- The productions of a statement or an expression. -/
inductive Substantial (g : Grammar) : {α : Type} → Parser α → Prop
  | expression (floor : Power) : Substantial g (g.expression floor)
  | statement : Substantial g g.statement
  | inner : Substantial g g.inner
  | top : Substantial g g.top

theorem Substantial.moves (hg : g.RefusesEnd) (h : g.Substantial p) : Moves True p c := by
  cases h with
  | expression floor => exact moves_expression hg floor
  | statement => exact moves_statement hg
  | inner => exact moves_inner hg
  | top => exact moves_top hg

/-- The loops of the grammar: the kinds that start an item, and the item. -/
inductive Loop (g : Grammar) : {α : Type} → (Kind → Bool) → Parser α → Prop
  | segments : Loop g (· = .mark .dot) (do skip; g.identifier)
  | names : Loop g (· = .mark .comma) (do skip; g.identifier)
  | parameters (separator : Mark) : Loop g (· = .mark separator) (do skip; g.parameter)
  | interfaces : Loop g (· = .mark .semicolon) (do skip; skipIf (.mark .hash); g.identifier)
  | signatures : Loop g Kind.startsSignature g.signature
  | arguments : Loop g (· = .mark .comma) (do skip; g.expression .lowest)
  | branches : Loop g (· = .keyword .elif) (g.elifBranch g.statements)
  | inner : Loop g g.startsInner g.inner
  | top : Loop g g.startsTop g.top

theorem moves_behind_mark {m : Mark} (hp : ∀ d, Moves False p d)
    (h : (c.current.kind = .mark m : Bool) = true) : Moves True (do skip; p) c := by
  refine Moves.mono (.first .skip fun _ d => hp d) fun _ => ?_
  rw [of_decide_eq_true h]
  exact nofun

/-- Every item of a loop consumes. -/
theorem Loop.moves {starts : Kind → Bool} (hg : g.RefusesEnd) (h : g.Loop starts p)
    (hst : starts c.current.kind = true) : Moves True p c := by
  cases h with
  | segments | names => exact moves_behind_mark (fun _ => moves_identifier.forward) hst
  | parameters separator => exact moves_behind_mark (fun _ => moves_parameter.forward) hst
  | interfaces =>
      exact moves_behind_mark (fun _ => .later (.skipIf _) fun _ _ => moves_identifier.forward) hst
  | signatures => exact moves_signature
  | arguments => exact moves_behind_mark (expression_forward hg _) hst
  | branches =>
      refine (moves_elifBranch hg fun _ => moves_statements hg).mono fun _ => ?_
      rw [of_decide_eq_true hst]
      decide
  | inner => exact moves_inner hg
  | top => exact moves_top hg

end Grammar

/-! ### Pulling a program -/

namespace Pull

variable {g : Grammar} {p : Pull} {n : Nat}

def after (g : Grammar) : Nat → Pull → Pull
  | 0, p => p
  | n + 1, p => after g n (p.next g).2

theorem next_finished (h : p.finished = true) : p.next g = (none, p) := by
  rw [next, h]
  rfl

theorem after_finished (h : p.finished = true) (n : Nat) : after g n p = p := by
  induction n with
  | zero => rfl
  | succ n ih => rw [after, next_finished h, ih]

/-- A pull goes forward, and it ends the program or consumes. -/
theorem next_moves (hg : g.RefusesEnd) (p : Pull) :
    ∃ w, p.cursor.Reaches w (p.next g).2.cursor ∧
      (p.cursor.Closed → (p.next g).2.finished = false → w ≠ []) := by
  obtain ⟨c, finished⟩ := p
  cases finished with
  | true => exact ⟨[], .refl c, fun _ h => nomatch h⟩
  | false =>
      have hstay : ∃ w, c.Reaches w c ∧ (c.Closed → true = false → w ≠ []) :=
        ⟨[], .refl c, fun _ h => nomatch h⟩
      obtain ⟨w, hw, heats⟩ := Grammar.moves_top hg (c := c)
      simp only [next, Bool.false_eq_true, if_false]
      split
      · cases htop : g.top c with
        | ok s d =>
            rw [htop] at hw
            exact ⟨w, hw, fun hc _ => heats trivial hc s d htop⟩
        | error e d =>
            rw [htop] at hw
            exact ⟨w, hw, fun _ h => nomatch h⟩
      · split
        · exact hstay
        · exact hstay

theorem after_forward (hg : g.RefusesEnd) (n : Nat) (p : Pull) :
    ∃ w, p.cursor.Reaches w (after g n p).cursor := by
  induction n generalizing p with
  | zero => exact ⟨[], .refl _⟩
  | succ n ih =>
      obtain ⟨v, hv, -⟩ := next_moves hg p
      obtain ⟨w, hw⟩ := ih (p.next g).2
      exact ⟨v ++ w, hv.trans hw⟩

/-- A program ends within one pull more than there are tokens ahead. -/
theorem finished_after (hg : g.RefusesEnd) (hc : p.cursor.Closed)
    (hn : p.cursor.rest.length < n) : (after g n p).finished = true := by
  induction n generalizing p with
  | zero => exact absurd hn (Nat.not_lt_zero _)
  | succ n ih =>
      obtain ⟨w, hw, heats⟩ := next_moves hg p
      rw [after]
      cases hf : (p.next g).2.finished with
      | true => rw [after_finished hf, hf]
      | false =>
          have hlt := hw.length_lt (heats hc hf)
          exact ih (hw.closed hc) (by omega)

end Pull

/-! ### The parser at a place of a token list -/

namespace Grammar

open ScriptFrontend.Parser

/-- At this place of the token list everything that the grammar does ends, and ends soundly. -/
structure SafeAt (g : Grammar) (ts : List Token) (c : Cursor) : Prop where
  /-- The loops end by themselves, and the recursions end with the loops in them. -/
  loops_end : ∀ {α : Type} {starts : Kind → Bool} {item : Parser α}, g.Loop starts item →
    Ends (loop starts item) (fun _ => many starts item) c
  expressions_end : Ends g.expressionRound g.reading c
  statements_end : Ends g.statementsRound (fun _ => g.statements) c
  pulls_end : ∀ n, c.rest.length < n → (Pull.after g n ⟨c, false⟩).finished = true
  /-- Whatever the outcome is. -/
  follows : ∀ {α : Type} {p : Parser α}, g.Production p →
    Cursor.Follows ts c (Outcome.ending (p c))
  pulls_follow : ∀ n, Cursor.Follows ts c (Pull.after g n ⟨c, false⟩).cursor
  consumes : ∀ {α : Type} {p : Parser α} {a : α} {d : Cursor}, g.Substantial p → p c = .ok a d →
    c.consumed.length < d.consumed.length

/-- Registering productions for kinds other than the end of input keeps the parser safe, at every
place of every token list. -/
theorem Registered.safeAt {g : Grammar} (h : g.Registered) {ts v : List Token} {c : Cursor}
    (hc : (Cursor.ofTokens ts).Reaches v c) : g.SafeAt ts c := by
  have hg := h.refusesEnd
  have hclosed : c.Closed := hc.closed (Cursor.closed_ofTokens ts)
  exact
    { loops_end := fun hloop => ends_many (fun _ => hloop.moves hg) hclosed
      expressions_end := ends_expression hg hclosed
      statements_end := ends_statements hg hclosed
      pulls_end := fun n hn => Pull.finished_after hg hclosed hn
      follows := fun hp => by
        obtain ⟨w, hw, -⟩ := hp.moves hg
        exact hc.follows hw
      pulls_follow := fun n => by
        obtain ⟨w, hw⟩ := Pull.after_forward hg n ⟨c, false⟩
        exact hc.follows hw
      consumes := fun {α p a d} hp hok => by
        obtain ⟨w, hw, heats⟩ := hp.moves (c := c) hg
        have hne := List.length_pos_iff.2 (heats trivial hclosed a d hok)
        have hlen := hw.length_consumed
        rw [hok] at hlen
        change d.consumed.length = w.length + c.consumed.length at hlen
        omega }

/-- With `!` for an operator in front of an operand and `end` for one between two, behind the first
of two `!` that stand in front of an end of input with something behind it. -/
theorem safeAt_bang_end :
    (((standard id).withOperand (.mark .bang) .unary).withOperator (.keyword .end_) .lowest
      .binary).SafeAt
      ([.mark .bang, .mark .bang].map Lexeme.token ++
        .endOfInput .nowhere :: [Lexeme.name "a"].map Lexeme.token)
      (Cursor.ofTokens ([.mark .bang, .mark .bang].map Lexeme.token ++
        .endOfInput .nowhere :: [Lexeme.name "a"].map Lexeme.token)).advance :=
  Registered.safeAt
    (.withOperator _ _ (by decide) (.withOperand _ (by decide) (.standard id)))
    (Cursor.reaches_advance (by decide))

/-- No production may be registered for the end of input: an operator in front of an operand is read
there again and again, so the recursion has no outcome of its own. -/
theorem not_ends_of_unary_end {g : Grammar} {p : Reading → Parser Expr} {c : Cursor}
    (hr : c.rest = []) (hk : c.current.kind = .endOfInput) :
    ¬ Ends (g.withOperand .endOfInput .unary).expressionRound p c := by
  intro h
  have hrule : (g.withOperand .endOfInput .unary).operandRule c.current.kind = some .unary := by
    rw [hk]
    rfl
  have hstay : c.advance = c := by rw [Cursor.advance, hr]
  have hout (e : SyntaxError) : p (.whole .lowest) c = .error e c := by
    rw [← h (fun _ => throw e) 1 (.whole .lowest) (by rw [hr]; exact Nat.one_pos)]
    refine bind_of_error ?_
    have hpeek : peek c = .ok c.current c := rfl
    rw [operand, bind_of_ok hpeek, hrule]
    change EStateM.Result.error e c.advance = _
    rw [hstay]
  cases (hout ⟨.expression, c.current⟩).symm.trans (hout ⟨.operator, c.current⟩)

end Grammar

end ScriptFrontend
