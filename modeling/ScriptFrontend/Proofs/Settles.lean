import ScriptFrontend.Grammar.Statement
import ScriptFrontend.Proofs.Jumps
import ScriptFrontend.Proofs.Locality

/-!
The judgment of settled cursors: who may look at the depth of a jump.

A cursor is settled unless it stands on a number right behind the keyword of a jump.  Only the
production of a jump passes over such a keyword, and it goes on to the number at once: it passes
over the number too, or it refuses it as a depth.  So every production that starts on a settled
cursor ends on one, unless it stops with that refusal.  No other error is reported at the depth of
a jump.
-/

namespace ScriptFrontend

namespace Cursor

variable {c : Cursor}

structure Settled (c : Cursor) : Prop where
  closed : c.Closed
  free : c.current.kind = .number → ∀ t ∈ c.consumed.head?, Jump.ofKind? t.kind = none

theorem Closed.advance (h : c.Closed) : c.advance.Closed := by
  by_cases hr : c.rest = []
  · rwa [Cursor.advance, hr]
  · exact (Cursor.reaches_advance hr).closed h

theorem Closed.settled (h : c.Closed) (hk : c.current.kind ≠ .number) : c.Settled :=
  ⟨h, fun hnumber => absurd hnumber hk⟩

/-- Behind a token that is no jump the cursor is settled. -/
theorem Closed.settled_advance (h : c.Closed) (hk : c.current.kind ≠ .endOfInput)
    (hj : Jump.ofKind? c.current.kind = none) : c.advance.Settled := by
  refine ⟨h.advance, fun _ t ht => ?_⟩
  rw [(h.reaches_advance hk).consumed] at ht
  cases ht
  exact hj

theorem Settled.advance (h : c.Settled) (hj : Jump.ofKind? c.current.kind = none) :
    c.advance.Settled := by
  by_cases hr : c.rest = []
  · rwa [Cursor.advance, hr]
  · refine ⟨h.closed.advance, fun _ t ht => ?_⟩
    rw [(Cursor.reaches_advance hr).consumed] at ht
    cases ht
    exact hj

theorem settled_ofTokens (ts : List Token) : (ofTokens ts).Settled :=
  ⟨closed_ofTokens ts, fun _ t ht => by simp at ht⟩

end Cursor

namespace Parser

variable {α β : Type}

structure RefusesDepth (e : SyntaxError) (c : Cursor) : Prop where
  eq : e = ⟨.loopDepth, c.current⟩
  word : Text.Decimal.word? c.current.value.toList = none

/-- From a settled cursor the production leads to a settled one, or refuses the depth of a jump. -/
def Settles (p : Parser α) (c : Cursor) : Prop :=
  c.Settled → (∀ a d, p c = .ok a d → d.Settled) ∧
    ∀ e d, p c = .error e d → d.Settled ∨ RefusesDepth e d

section

variable {p : Parser α} {f : α → Parser β} {c d : Cursor} {a : α}

theorem Settles.congr {q : Parser α} (h : Settles q c) (hp : p c = q c) : Settles p c := by
  rw [Settles, hp]
  exact h

theorem Settles.ok (h : p c = .ok a d) (hd : c.Settled → d.Settled) : Settles p c := by
  refine fun hc => ⟨fun a d' hp => ?_, fun e d' hp => ?_⟩
  · cases h.symm.trans hp
    exact hd hc
  · cases h.symm.trans hp

/-- A production that stops where it starts. -/
theorem Settles.error {e : SyntaxError} (h : p c = .error e c) : Settles p c := by
  refine fun hc => ⟨fun a d' hp => ?_, fun e d' hp => ?_⟩
  · cases h.symm.trans hp
  · cases h.symm.trans hp
    exact .inl hc

/-- A production that refuses the depth of a jump where it stands. -/
theorem Settles.refusal (h : p c = .error ⟨.loopDepth, d.current⟩ d)
    (hword : Text.Decimal.word? d.current.value.toList = none) : Settles p c := by
  refine fun hc => ⟨fun a d' hp => ?_, fun e d' hp => ?_⟩
  · cases h.symm.trans hp
  · cases h.symm.trans hp
    exact .inr ⟨rfl, hword⟩

theorem Settles.pure : Settles (pure a) c :=
  .ok rfl id

theorem Settles.fail {x : Expected} : Settles (fail x : Parser α) c :=
  .error rfl

theorem Settles.throw {e : SyntaxError} : Settles (throw e : Parser α) c :=
  .error (e := e) rfl

theorem Settles.bind (hp : Settles p c) (hf : ∀ a d, Settles (f a) d) : Settles (p >>= f) c := by
  intro hc
  obtain ⟨hok, herror⟩ := hp hc
  cases hpc : p c with
  | error e d =>
      rw [bind_of_error hpc]
      refine ⟨fun b d' h => (nomatch h), fun e' d' h => ?_⟩
      cases h
      exact herror e d hpc
  | ok a d =>
      rw [bind_of_ok hpc]
      exact hf a d (hok a d hpc)

theorem Settles.onward {last : α → β} (hp : Settles p c)
    (hf : ∀ a (d : Cursor), d.rest.length < c.rest.length → Settles (f a) d) :
    Settles (onward p f last) c := by
  intro hc
  obtain ⟨hok, herror⟩ := hp hc
  cases hpc : p c with
  | error e d =>
      rw [onward_of_error hpc]
      refine ⟨fun b d' h => (nomatch h), fun e' d' h => ?_⟩
      cases h
      exact herror e d hpc
  | ok a d =>
      have hd := hok a d hpc
      by_cases hlt : d.rest.length < c.rest.length
      · rw [onward_of_ok hpc hlt]
        exact hf a d hlt hd
      · rw [onward_of_stuck hpc hlt]
        refine ⟨fun b d' h => ?_, fun e d' h => nomatch h⟩
        cases h
        exact hd

theorem Settles.here_bind {f : Position → Parser β} (hf : Settles (f c.start) c) :
    Settles (here >>= f) c :=
  hf

theorem Settles.peek_bind {f : Token → Parser β} (hf : Settles (f c.current) c) :
    Settles (peek >>= f) c :=
  hf

theorem Settles.spanFrom {start : Position} : Settles (spanFrom start) c :=
  .ok rfl id

/-! ### Single tokens -/

/-- A production that passes over the current token, which is no jump. -/
theorem Settles.over (h : p c = .ok a c.advance) (hj : Jump.ofKind? c.current.kind = none) :
    Settles p c :=
  .ok h fun hc => hc.advance hj

theorem Settles.advance (hj : Jump.ofKind? c.current.kind = none) : Settles advance c :=
  .over rfl hj

theorem Settles.skip (hj : Jump.ofKind? c.current.kind = none) : Settles skip c :=
  .over rfl hj

variable {k : Kind}

theorem Settles.accept (hk : Jump.ofKind? k = none) : Settles (accept k) c := by
  by_cases h : c.current.kind = k
  · exact .over (if_pos h) (h ▸ hk)
  · exact .ok (if_neg h) id

theorem Settles.skipIf (hk : Jump.ofKind? k = none) : Settles (skipIf k) c := by
  by_cases h : c.current.kind = k
  · exact .over (a := ()) (by rw [Parser.skipIf, if_pos h]) (h ▸ hk)
  · exact .ok (a := ()) (by rw [Parser.skipIf, if_neg h]) id

theorem Settles.expect (hk : Jump.ofKind? k = none) : Settles (expect k) c := by
  by_cases h : c.current.kind = k
  · exact .over (if_pos h) (h ▸ hk)
  · exact .error (if_neg h)

theorem Settles.require (hk : Jump.ofKind? k = none) : Settles (require k) c := by
  by_cases h : c.current.kind = k
  · exact .over (if_pos h) (h ▸ hk)
  · exact .error (if_neg h)

end

/-! ### Repetitions and options -/

section

variable {starts : Kind → Bool} {p : Parser α} {c : Cursor} {k : Kind}

theorem Settles.optional (hp : ∀ d, starts d.current.kind = true → Settles p d) :
    Settles (optional starts p) c := by
  cases h : starts c.current.kind with
  | false => exact .ok (by rw [Parser.optional, h]; rfl) id
  | true =>
      refine Settles.congr (q := some <$> p) (.bind (hp c h) fun _ _ => .pure) ?_
      rw [Parser.optional, h]
      rfl

theorem Settles.many (hp : ∀ d, starts d.current.kind = true → Settles p d) :
    Settles (many starts p) c := by
  induction c using induction_rounds starts with
  | stop c hst => exact .ok (many_of_not hst) id
  | round c hst ih =>
      refine .congr (.onward (hp c hst) fun a d hlt => ?_) (many_eq_onward hst)
      exact .bind (ih d hlt) fun _ _ => .pure

/-- An item behind the token that announces it. -/
theorem Settles.behind (hk : Jump.ofKind? k = none) (hp : ∀ d, Settles p d)
    (h : (c.current.kind = k : Bool) = true) : Settles (do Parser.skip; p) c :=
  .bind (.skip (of_decide_eq_true h ▸ hk)) fun _ d => hp d

theorem Settles.separated (hk : Jump.ofKind? k = none) (hp : ∀ d, Settles p d) :
    Settles (separated k p) c :=
  .bind (hp c) fun _ _ => .bind (.many fun _ h => .behind hk hp h) fun _ _ => .pure

theorem Settles.after? (hk : Jump.ofKind? k = none) (hp : ∀ d, Settles p d) :
    Settles (after? k p) c :=
  .optional fun _ h => .behind hk hp h

end

end Parser

/-! ### The production of a jump -/

def Jump.rule : Jump → StatementRule
  | break_ => .break_
  | continue_ => .continue_

namespace Grammar

open ScriptFrontend.Parser

def jumpStmt (j : Jump) : Parser Stmt := do
  let start ← here
  skip
  let n ← levels
  return j.stmt (← spanFrom start) n

/-- In the tables the keyword of a jump starts the jump, and nothing else. -/
structure ReadsJumps (g : Grammar) : Prop where
  statement : ∀ j : Jump, g.statementRule (.keyword j.keyword) = some j.rule
  operand : ∀ j : Jump, g.operandRule (.keyword j.keyword) = none
  power : ∀ j : Jump, g.power (.keyword j.keyword) = none

theorem standard_readsJumps (resolve : String → String) : (standard resolve).ReadsJumps where
  statement j := by cases j <;> rfl
  operand j := by cases j <;> rfl
  power j := by cases j <;> rfl

variable {g : Grammar} {c : Cursor}

namespace ReadsJumps

theorem of_operandRule {rule : OperandRule} (hg : g.ReadsJumps)
    (h : g.operandRule c.current.kind = some rule) : Jump.ofKind? c.current.kind = none :=
  Jump.ofKind?_eq_none_of_isSome hg.operand (Option.isSome_of_eq_some h)

theorem of_power {power : Power} (hg : g.ReadsJumps) (h : g.power c.current.kind = some power) :
    Jump.ofKind? c.current.kind = none :=
  Jump.ofKind?_eq_none_of_isSome hg.power (Option.isSome_of_eq_some h)

theorem of_statementRule {rule : StatementRule} (hg : g.ReadsJumps)
    (h : g.statementRule c.current.kind = some rule) (hrule : ∀ j : Jump, rule ≠ j.rule) :
    Jump.ofKind? c.current.kind = none := by
  refine Jump.ofKind?_eq_none_iff.2 fun j hk => ?_
  rw [hk, hg.statement] at h
  exact hrule j (Option.some.inj h).symm

end ReadsJumps

theorem statementOf_rule (nested : Parser (List Stmt)) (j : Jump) :
    g.statementOf nested j.rule = jumpStmt j := by
  cases j <;> rfl

/-! ### The depth of a jump -/

theorem levels_of_ne (h : c.current.kind ≠ .number) : levels c = .ok none c := by
  show (if c.current.kind = .number then _ else _ : Parser (Option UInt32)) c = _
  rw [if_neg h]
  rfl

theorem levels_of_word {n : UInt32} (h : c.current.kind = .number)
    (hword : Text.Decimal.word? c.current.value.toList = some n) :
    levels c = .ok (some n) c.advance := by
  show (if c.current.kind = .number then _ else _ : Parser (Option UInt32)) c = _
  rw [if_pos h, hword]
  rfl

theorem levels_of_no_word (h : c.current.kind = .number)
    (hword : Text.Decimal.word? c.current.value.toList = none) :
    levels c = .error ⟨.loopDepth, c.current⟩ c := by
  show (if c.current.kind = .number then _ else _ : Parser (Option UInt32)) c = _
  rw [if_pos h, hword]
  rfl

section

variable {j : Jump} {d : Cursor} {n : Option UInt32} {e : SyntaxError}

theorem jumpStmt_eq : jumpStmt j c =
    (levels >>= fun n => spanFrom c.start >>= fun span => pure (j.stmt span n)) c.advance :=
  rfl

theorem jumpStmt_of_ok (h : levels c.advance = .ok n d) :
    jumpStmt j c = .ok (j.stmt ⟨c.start, d.previousEnd⟩ n) d := by
  rw [jumpStmt_eq, bind_of_ok h]
  rfl

theorem jumpStmt_of_error (h : levels c.advance = .error e d) : jumpStmt j c = .error e d := by
  rw [jumpStmt_eq, bind_of_error h]

/-- Behind the keyword of a jump a number is passed over, or refused where it stands. -/
theorem settles_jumpStmt : Settles (jumpStmt j) c := by
  by_cases hnumber : c.advance.current.kind = .number
  · cases hword : Text.Decimal.word? c.advance.current.value.toList with
    | none => exact .refusal (jumpStmt_of_error (levels_of_no_word hnumber hword)) hword
    | some n =>
        refine .ok (jumpStmt_of_ok (levels_of_word hnumber hword)) fun hc => ?_
        refine hc.closed.advance.settled_advance ?_ ?_
        all_goals
          rw [hnumber]
          first | rfl | exact nofun
  · exact .ok (jumpStmt_of_ok (levels_of_ne hnumber)) fun hc => hc.closed.advance.settled hnumber

end

/-! ### Names, parameters and classes -/

theorem settles_identifier : Settles g.identifier c :=
  .bind (.expect rfl) fun _ _ => .pure

theorem settles_qualifiedName : Settles g.qualifiedName c :=
  .separated rfl fun _ => settles_identifier

theorem settles_parameter : Settles g.parameter c :=
  .here_bind <| .bind (.accept rfl) fun _ _ => .bind (.accept rfl) fun _ _ =>
    .bind settles_identifier fun _ _ => .bind .spanFrom fun _ _ => .pure

theorem settles_parameterList (separator : Mark) : Settles (g.parameterList separator) c :=
  .bind (.optional fun _ _ => .separated rfl fun _ => settles_parameter) fun _ _ => .pure

theorem settles_parameters : Settles g.parameters c := by
  refine .bind (.accept rfl) fun empty _ => ?_
  cases empty with
  | true => exact .pure
  | false =>
      exact .bind (.require rfl) fun _ _ => .bind (settles_parameterList _) fun _ _ =>
        .bind (.require rfl) fun _ _ => .pure

theorem settles_signature : Settles g.signature c :=
  .here_bind <| .bind (.accept rfl) fun _ _ => .bind (.accept rfl) fun _ _ =>
    .bind settles_identifier fun _ _ => .bind (.require rfl) fun _ _ =>
      .bind (settles_parameterList _) fun _ _ => .bind (.require rfl) fun _ _ =>
        .bind .spanFrom fun _ _ => .pure

theorem classCategory_keyword (j : Jump) : ClassCategory.ofKind? (.keyword j.keyword) = none := by
  cases j <;> rfl

theorem settles_classCategory : Settles classCategory c := by
  refine .peek_bind ?_
  split
  · exact .fail
  next category h =>
    have hj := Jump.ofKind?_eq_none_of_isSome classCategory_keyword (Option.isSome_of_eq_some h)
    exact .bind (.skip hj) fun _ _ => .pure

theorem settles_interfaces : Settles g.interfaces c :=
  .bind settles_identifier fun _ _ =>
    .bind (.many fun _ h => .behind rfl
      (fun _ => .bind (.skipIf rfl) fun _ _ => settles_identifier) h) fun _ _ => .pure

theorem settles_classDecl : Settles g.classDecl c :=
  .here_bind <| .bind (.accept rfl) fun _ _ => .bind settles_classCategory fun _ _ =>
    .bind settles_identifier fun _ _ => .bind (.after? rfl fun _ => settles_identifier) fun _ _ =>
      .bind (.after? rfl fun _ => settles_interfaces) fun _ _ =>
        .bind (.many fun _ _ => settles_signature) fun _ _ => .bind (.require rfl) fun _ _ =>
          .bind .spanFrom fun _ _ => .pure

theorem settles_moduleDecl : Settles g.moduleDecl c :=
  .here_bind <| .bind (.require rfl) fun _ _ => .bind settles_qualifiedName fun _ _ =>
    .bind .spanFrom fun _ _ => .pure

theorem settles_openDecl : Settles g.openDecl c :=
  .here_bind <| .bind (.require rfl) fun _ _ => .bind settles_qualifiedName fun _ _ =>
    .bind (.after? rfl fun _ => settles_identifier) fun _ _ => .bind .spanFrom fun _ _ => .pure

/-! ### Expressions -/

theorem settles_primary (hj : Jump.ofKind? c.current.kind = none) : Settles g.primary c := by
  refine .bind (.advance hj) fun t d => ?_
  split
  all_goals first | exact .pure | exact .throw

theorem settles_staticScalar : Settles g.staticScalar c := by
  refine .peek_bind ?_
  split
  next h =>
    refine settles_primary (Jump.ofKind?_eq_none_iff.2 fun j hk => ?_)
    rw [hk] at h
    cases j <;> cases h
  · exact .fail

theorem settles_constDecl : Settles g.constDecl c :=
  .here_bind <| .bind (.require rfl) fun _ _ => .bind settles_identifier fun _ _ =>
    .bind (.require rfl) fun _ _ => .bind settles_staticScalar fun _ _ =>
      .bind .spanFrom fun _ _ => .pure

section

variable {nested : Power → Parser Expr} {left : Expr} {floor power : Power}

theorem settles_operandOf (hn : ∀ floor d, Settles (nested floor) d) (rule : OperandRule)
    (hj : Jump.ofKind? c.current.kind = none) : Settles (g.operandOf nested rule) c := by
  cases rule with
  | primary => exact settles_primary hj
  | unary => exact .bind (.advance hj) fun _ _ => .bind (hn _ _) fun _ _ => .pure
  | group =>
      exact .here_bind <| .bind (.skip hj) fun _ _ => .bind (hn _ _) fun _ _ =>
        .bind (.require rfl) fun _ _ => .bind .spanFrom fun _ _ => .pure

theorem settles_operatorOf (hn : ∀ floor d, Settles (nested floor) d) (rule : OperatorRule)
    (hj : Jump.ofKind? c.current.kind = none) :
    Settles (g.operatorOf nested left power rule) c := by
  cases rule with
  | binary => exact .bind (.advance hj) fun _ _ => .bind (hn _ _) fun _ _ => .pure
  | assign => exact .bind (.skip hj) fun _ _ => .bind (hn _ _) fun _ _ => .pure
  | call =>
      exact .bind (.skip hj) fun _ _ =>
        .bind (.optional fun _ _ => .separated rfl fun _ => hn _ _) fun _ _ =>
          .bind (.require rfl) fun _ _ => .bind .spanFrom fun _ _ => .pure
  | member => exact .bind (.skip hj) fun _ _ => .bind (.expect rfl) fun _ _ => .pure

theorem settles_operand (hg : g.ReadsJumps) (hn : ∀ floor d, Settles (nested floor) d) :
    Settles (g.operand nested) c := by
  refine .peek_bind ?_
  split
  · exact .fail
  next rule h => exact settles_operandOf hn rule (hg.of_operandRule h)

theorem settles_extend (hg : g.ReadsJumps) (hn : ∀ floor d, Settles (nested floor) d) :
    Settles (g.extend nested floor left) c := by
  induction left, c using induction_extend g floor with
  | stop left c hstop => exact .ok (extend_of_stop hstop) id
  | unnamed left c power hp hr ho => exact .error (extend_of_no_rule hp hr ho)
  | operator left c power rule hp hr ho ih =>
      exact .congr (.onward (settles_operatorOf hn rule (hg.of_power hp)) ih)
        (extend_eq_onward hp hr ho)

end

theorem settles_expressionUpTo (hg : g.ReadsJumps) (n : Nat) :
    ∀ floor c, Settles (g.expressionUpTo n floor) c := by
  induction n with
  | zero => exact fun _ _ => .fail
  | succ n ih => exact fun _ _ => .bind (settles_operand hg ih) fun _ _ => settles_extend hg ih

theorem settles_expression (hg : g.ReadsJumps) (floor : Power) (c : Cursor) :
    Settles (g.expression floor) c :=
  settles_expressionUpTo hg (c.rest.length + 1) floor c

/-! ### Statements -/

section

variable {nested : Parser (List Stmt)}

theorem settles_body (hn : ∀ d, Settles nested d) : Settles (body nested) c :=
  .bind (.require rfl) fun _ _ => .bind (hn _) fun _ _ => .bind (.skipIf rfl) fun _ _ =>
    .bind (.require rfl) fun _ _ => .pure

theorem settles_defDecl (hn : ∀ d, Settles nested d) : Settles (g.defDecl nested) c :=
  .here_bind <| .bind (.require rfl) fun _ _ => .bind (.accept rfl) fun _ _ =>
    .bind settles_identifier fun _ _ => .bind settles_parameters fun _ _ =>
      .bind (settles_body hn) fun _ _ => .bind .spanFrom fun _ _ => .pure

theorem settles_ifStmt (hg : g.ReadsJumps) (hn : ∀ d, Settles nested d)
    (hj : Jump.ofKind? c.current.kind = none) : Settles (g.ifStmt nested) c :=
  have hexpression := settles_expression hg .lowest
  .here_bind <| .bind (.skip hj) fun _ _ => .bind (hexpression _) fun _ _ =>
    .bind (settles_body hn) fun _ _ =>
      .bind (.many fun _ h => .behind rfl (fun _ => .bind (hexpression _) fun _ _ =>
        .bind (settles_body hn) fun _ _ => .pure) h) fun _ _ =>
          .bind (.after? rfl fun _ => settles_body hn) fun _ _ => .bind .spanFrom fun _ _ => .pure

/-- A rule that a table names is entered on the token that the table was asked for, and only the
rules of the jumps are named for jumps. -/
theorem settles_statementOf (hg : g.ReadsJumps) (hn : ∀ d, Settles nested d) {rule : StatementRule}
    (h : g.statementRule c.current.kind = some rule) : Settles (g.statementOf nested rule) c := by
  by_cases hrule : ∃ j : Jump, rule = j.rule
  · obtain ⟨j, rfl⟩ := hrule
    rw [statementOf_rule]
    exact settles_jumpStmt
  · have hj := hg.of_statementRule h (not_exists.1 hrule)
    have hexpression := settles_expression hg .lowest
    cases rule with
    | print | raise =>
        exact .here_bind <| .bind (.skip hj) fun _ _ => .bind (hexpression _) fun _ _ =>
          .bind .spanFrom fun _ _ => .pure
    | return_ =>
        exact .here_bind <| .bind (.skip hj) fun _ _ => .bind (.optional fun _ _ => hexpression _)
          fun _ _ => .bind .spanFrom fun _ _ => .pure
    | break_ => exact (hrule ⟨.break_, rfl⟩).elim
    | continue_ => exact (hrule ⟨.continue_, rfl⟩).elim
    | goto | label =>
        exact .here_bind <| .bind (.skip hj) fun _ _ => .bind settles_identifier fun _ _ =>
          .bind .spanFrom fun _ _ => .pure
    | global =>
        exact .here_bind <| .bind (.skip hj) fun _ _ =>
          .bind (.separated rfl fun _ => settles_identifier) fun _ _ =>
            .bind .spanFrom fun _ _ => .pure
    | block =>
        exact .here_bind <| .bind (.skip hj) fun _ _ => .bind (hn _) fun _ _ =>
          .bind (.require rfl) fun _ _ => .bind .spanFrom fun _ _ => .pure
    | if_ => exact settles_ifStmt hg hn hj
    | while_ =>
        exact .here_bind <| .bind (.skip hj) fun _ _ => .bind (hexpression _) fun _ _ =>
          .bind (settles_body hn) fun _ _ => .bind .spanFrom fun _ _ => .pure
    | foreach =>
        exact .here_bind <| .bind (.skip hj) fun _ _ => .bind (.accept rfl) fun _ _ =>
          .bind settles_identifier fun _ _ => .bind (.require rfl) fun _ _ =>
            .bind (hexpression _) fun _ _ => .bind (settles_body hn) fun _ _ =>
              .bind .spanFrom fun _ _ => .pure
    | def_ => exact settles_defDecl hn
    | class_ => exact settles_classDecl
    | module_ => exact settles_moduleDecl
    | open_ => exact settles_openDecl
    | const => exact settles_constDecl

theorem settles_statementWith (hg : g.ReadsJumps) (hn : ∀ d, Settles nested d) :
    Settles (g.statementWith nested) c := by
  refine .peek_bind ?_
  split
  next rule h => exact settles_statementOf hg hn h
  · exact .bind (settles_expression hg _ _) fun _ _ => .pure

theorem settles_innerWith (hg : g.ReadsJumps) (hn : ∀ d, Settles nested d) :
    Settles (g.innerWith nested) c := by
  refine .peek_bind ?_
  show Settles (if g.startsStatement c.current.kind then _ else _) c
  split
  · exact settles_statementWith hg hn
  · split
    · exact settles_defDecl hn
    · split
      · exact settles_classDecl
      · exact .fail

theorem settles_topWith (hg : g.ReadsJumps) (hn : ∀ d, Settles nested d) :
    Settles (g.topWith nested) c := by
  refine .peek_bind ?_
  show Settles (if g.startsStatement c.current.kind then _ else _) c
  split
  · exact settles_statementWith hg hn
  · split
    · exact settles_classDecl
    · split
      · exact settles_defDecl hn
      · exact settles_moduleDecl
      · exact settles_openDecl
      · exact settles_constDecl
      · exact .fail

end

theorem settles_statementsUpTo (hg : g.ReadsJumps) (n : Nat) :
    ∀ c, Settles (g.statementsUpTo n) c := by
  induction n with
  | zero => exact fun _ => .pure
  | succ n ih => exact fun _ => .many fun _ _ => settles_innerWith hg ih

theorem settles_program (hg : g.ReadsJumps) : Settles g.program c := by
  refine .bind (.many fun d _ => settles_topWith hg fun e => ?_) fun _ _ => .peek_bind ?_
  · exact settles_statementsUpTo hg (e.rest.length + 1) e
  · split
    · exact .pure
    · exact .fail

end Grammar

end ScriptFrontend
