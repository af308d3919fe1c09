import ScriptFrontend.Grammar.Statement
import ScriptFrontend.Proofs.Tracking

/-!
Every production of the grammar tracks itself.

The statements follow the productions one by one, from names to programs, and each is put together
from the rules of the judgment.  Two facts about whole programs come out at the end: parsing
commutes with relabelling, and a syntax error depends on no token behind the one it found.
-/

namespace ScriptFrontend

namespace Grammar

def relabel (r : Relabelling) (g : Grammar) : Grammar :=
  { g with resolve := fun name => r.name (g.resolve name) }

/-- No production starts with the end of input. -/
structure RefusesEnd (g : Grammar) : Prop where
  statement : g.statementRule .endOfInput = none
  operand : g.operandRule .endOfInput = none
  power : g.power .endOfInput = none

namespace RefusesEnd

variable {g : Grammar} {k : Kind}

theorem ne_of_statementRule {rule : StatementRule} (hg : g.RefusesEnd)
    (h : g.statementRule k = some rule) : k ≠ .endOfInput := by
  rintro rfl
  cases hg.statement.symm.trans h

theorem ne_of_operandRule {rule : OperandRule} (hg : g.RefusesEnd)
    (h : g.operandRule k = some rule) : k ≠ .endOfInput := by
  rintro rfl
  cases hg.operand.symm.trans h

theorem ne_of_power {power : Power} (hg : g.RefusesEnd) (h : g.power k = some power) :
    k ≠ .endOfInput := by
  rintro rfl
  cases hg.power.symm.trans h

end RefusesEnd

theorem standard_refusesEnd (resolve : String → String) : (standard resolve).RefusesEnd :=
  ⟨rfl, rfl, rfl⟩

open ScriptFrontend.Parser

variable {g : Grammar} {r : Relabelling} {m : Nat} {c : Cursor}

/-! ### Names, parameters and classes -/

theorem tracks_identifier :
    Tracks r r.name m g.identifier (g.relabel r).identifier c :=
  .bind (.expect _ (by decide)) fun _ _ _ _ _ => .pure rfl

theorem tracks_qualifiedName :
    Tracks r (List.map r.name) m g.qualifiedName (g.relabel r).qualifiedName c :=
  .separated (by decide) fun _ _ => tracks_identifier

theorem tracks_parameter :
    Tracks r (Parameter.relabel r) m g.parameter (g.relabel r).parameter c :=
  .here_bind <| .bind (.accept _ (by decide)) fun _ _ _ _ _ =>
    .bind (.accept _ (by decide)) fun _ _ _ _ _ => .bind tracks_identifier fun _ _ _ _ _ =>
      .bind (.spanFrom _) fun _ _ _ _ _ => .pure rfl

theorem tracks_parameterList (separator : Mark) :
    Tracks r (List.map (Parameter.relabel r)) m (g.parameterList separator)
      ((g.relabel r).parameterList separator) c := by
  refine .bind (.optional fun _ => .separated nofun fun _ _ => tracks_parameter) ?_
  intro ps _ _ _ _
  cases ps <;> exact .pure rfl

theorem tracks_parameters :
    Tracks r (List.map (Parameter.relabel r)) m g.parameters (g.relabel r).parameters c := by
  refine .bind (.accept _ (by decide)) fun empty _ _ _ _ => ?_
  cases empty with
  | true => exact .pure rfl
  | false =>
      exact .bind (.require _ (by decide)) fun _ _ _ _ _ =>
        .bind (tracks_parameterList _) fun _ _ _ _ _ =>
          .bind (.require _ (by decide)) fun _ _ _ _ _ => .pure rfl

theorem tracks_signature :
    Tracks r (Signature.relabel r) m g.signature (g.relabel r).signature c :=
  .here_bind <| .bind (.accept _ (by decide)) fun _ _ _ _ _ =>
    .bind (.accept _ (by decide)) fun _ _ _ _ _ => .bind tracks_identifier fun _ _ _ _ _ =>
      .bind (.require _ (by decide)) fun _ _ _ _ _ =>
        .bind (tracks_parameterList _) fun _ _ _ _ _ =>
          .bind (.require _ (by decide)) fun _ _ _ _ _ =>
            .bind (.spanFrom _) fun _ _ _ _ _ => .pure rfl

theorem tracks_classCategory : Tracks r id m classCategory classCategory c := by
  refine .peek_bind ?_
  rw [Token.kind_relabel]
  cases h : ClassCategory.ofKind? c.current.kind with
  | none => exact .fail _
  | some category =>
      have hk : c.current.kind ≠ .endOfInput := by
        intro hk
        rw [hk] at h
        cases h
      exact .bind (.skip hk) fun _ _ _ _ _ => .pure rfl

theorem tracks_interfaces :
    Tracks r (List.map r.name) m g.interfaces (g.relabel r).interfaces c := by
  refine .bind tracks_identifier fun _ _ _ _ _ => ?_
  refine .bind (Tracks.many fun c₁ _ hst => ?_) fun _ _ _ _ _ => .pure rfl
  have hk : c₁.current.kind ≠ .endOfInput := by
    rw [of_decide_eq_true hst]; decide
  exact .bind (.skip hk) fun _ _ _ _ _ => .bind (.skipIf _ (by decide)) fun _ _ _ _ _ =>
    tracks_identifier

theorem tracks_classDecl (hr : r.native = id) :
    Tracks r (Stmt.relabel r) m g.classDecl (g.relabel r).classDecl c := by
  refine .here_bind <| .bind (.accept _ (by decide)) fun _ _ _ _ _ =>
    .bind tracks_classCategory fun _ _ _ _ _ => .bind tracks_identifier fun _ _ _ _ _ =>
      .bind (.after? (by decide) fun _ _ => tracks_identifier) fun _ _ _ _ _ =>
        .bind (.after? (by decide) fun _ _ => tracks_interfaces) fun interfaces _ _ _ _ =>
          .bind (.many fun _ _ _ => tracks_signature) fun _ _ _ _ _ =>
            .bind (.require _ (by decide)) fun _ _ _ _ _ =>
              .bind (.spanFrom _) fun _ _ _ _ _ => .pure ?_
  rw [Stmt.relabel, ClassDecl.relabel, hr]
  cases interfaces <;> rfl

theorem tracks_moduleDecl :
    Tracks r (Stmt.relabel r) m g.moduleDecl (g.relabel r).moduleDecl c :=
  .here_bind <| .bind (.require _ (by decide)) fun _ _ _ _ _ =>
    .bind tracks_qualifiedName fun _ _ _ _ _ => .bind (.spanFrom _) fun _ _ _ _ _ => .pure rfl

theorem tracks_openDecl :
    Tracks r (Stmt.relabel r) m g.openDecl (g.relabel r).openDecl c :=
  .here_bind <| .bind (.require _ (by decide)) fun _ _ _ _ _ =>
    .bind tracks_qualifiedName fun _ _ _ _ _ =>
      .bind (.after? (by decide) fun _ _ => tracks_identifier) fun _ _ _ _ _ =>
        .bind (.spanFrom _) fun _ _ _ _ _ => .pure rfl

/-! ### Expressions -/

theorem tracks_primary (hk : c.current.kind ≠ .endOfInput) :
    Tracks r (Expr.relabel r) m g.primary (g.relabel r).primary c := by
  refine .bind (.advance hk) fun t _ c₁ _ _ => ?_
  rw [Token.kind_relabel]
  split <;> first | exact .pure rfl | exact .throw _ _

theorem tracks_staticScalar :
    Tracks r (Expr.relabel r) m g.staticScalar (g.relabel r).staticScalar c := by
  refine .peek_bind ?_
  rw [Token.kind_relabel]
  split
  next hst =>
    have hk : c.current.kind ≠ .endOfInput := by
      intro hk
      rw [hk] at hst
      cases hst
    exact tracks_primary hk
  · exact .fail _

theorem tracks_constDecl :
    Tracks r (Stmt.relabel r) m g.constDecl (g.relabel r).constDecl c :=
  .here_bind <| .bind (.require _ (by decide)) fun _ _ _ _ _ =>
    .bind tracks_identifier fun _ _ _ _ _ => .bind (.require _ (by decide)) fun _ _ _ _ _ =>
      .bind tracks_staticScalar fun _ _ _ _ _ => .bind (.spanFrom _) fun _ _ _ _ _ => .pure rfl

section

variable {nested nested' : Power → Parser Expr} {left : Expr} {floor power : Power}

abbrev NestedTracks (r : Relabelling) (m : Nat) (nested nested' : Power → Parser Expr)
    (c : Cursor) : Prop :=
  ∀ floor (c₁ : Cursor), c₁.rest.length < c.rest.length →
    Tracks r (Expr.relabel r) m (nested floor) (nested' floor) c₁

theorem tracks_unary (hk : c.current.kind ≠ .endOfInput) (hn : NestedTracks r m nested nested' c) :
    Tracks r (Expr.relabel r) (m + 1) (unary nested) (unary nested') c := by
  refine .advance_bind hk fun c₁ h₁ => .bind (hn _ c₁ h₁) fun operand _ _ _ _ => .pure ?_
  rw [Expr.relabel, Expr.span_relabel]
  rfl

theorem tracks_group (hk : c.current.kind ≠ .endOfInput) (hn : NestedTracks r m nested nested' c) :
    Tracks r (Expr.relabel r) (m + 1) (group nested) (group nested') c :=
  .here_bind <| .skip_bind hk fun c₁ h₁ => .bind (hn _ c₁ h₁) fun _ _ _ _ _ =>
    .bind (.require _ (by decide)) fun _ _ _ _ _ => .bind (.spanFrom _) fun _ _ _ _ _ => .pure rfl

theorem tracks_binary (hk : c.current.kind ≠ .endOfInput)
    (hn : NestedTracks r m nested nested' c) :
    Tracks r (Expr.relabel r) (m + 1) (binary nested left power)
      (binary nested' (left.relabel r) power) c := by
  refine .advance_bind hk fun c₁ h₁ => .bind (hn _ c₁ h₁) fun right _ _ _ _ => .pure ?_
  rw [Expr.relabel, Expr.span_relabel, Expr.span_relabel]
  rfl

theorem tracks_assign (hk : c.current.kind ≠ .endOfInput)
    (hn : NestedTracks r m nested nested' c) :
    Tracks r (Expr.relabel r) (m + 1) (assign nested left) (assign nested' (left.relabel r)) c := by
  refine .skip_bind hk fun c₁ h₁ => .bind (hn _ c₁ h₁) fun value _ _ _ _ => .pure ?_
  rw [Expr.relabel, Expr.span_relabel, Expr.span_relabel]
  rfl

theorem tracks_call (hk : c.current.kind ≠ .endOfInput) (hn : NestedTracks r m nested nested' c) :
    Tracks r (Expr.relabel r) (m + 1) (g.call nested left)
      ((g.relabel r).call nested' (left.relabel r)) c := by
  refine .skip_bind hk fun c₁ h₁ => ?_
  refine .bind (.optional fun _ => .separated (by decide) fun c₂ h₂ =>
    hn _ c₂ (Nat.lt_of_le_of_lt h₂ h₁)) fun arguments _ _ _ _ => ?_
  refine .bind (.require _ (by decide)) fun _ _ _ _ _ => ?_
  rw [Expr.span_relabel]
  refine .bind (.spanFrom _) fun _ _ _ _ _ => .pure ?_
  rw [Expr.relabel, Expr.relabelEach_eq_map]
  cases arguments <;> rfl

theorem tracks_member (hk : c.current.kind ≠ .endOfInput) :
    Tracks r (Expr.relabel r) m (member left) (member (left.relabel r)) c := by
  refine .bind (.skip hk) fun _ _ _ _ _ => .bind (.expect _ (by decide)) fun property _ _ _ _ =>
    .pure ?_
  rw [Expr.relabel, Expr.span_relabel]
  rfl

theorem tracks_operandOf (rule : OperandRule) (hk : c.current.kind ≠ .endOfInput)
    (hn : NestedTracks r m nested nested' c) :
    Tracks r (Expr.relabel r) (m + 1) (g.operandOf nested rule)
      ((g.relabel r).operandOf nested' rule) c := by
  cases rule with
  | primary => exact tracks_primary hk
  | unary => exact tracks_unary hk hn
  | group => exact tracks_group hk hn

theorem tracks_operatorOf (rule : OperatorRule) (hk : c.current.kind ≠ .endOfInput)
    (hn : NestedTracks r m nested nested' c) :
    Tracks r (Expr.relabel r) (m + 1) (g.operatorOf nested left power rule)
      ((g.relabel r).operatorOf nested' (left.relabel r) power rule) c := by
  cases rule with
  | binary => exact tracks_binary hk hn
  | assign => exact tracks_assign hk hn
  | call => exact tracks_call hk hn
  | member => exact tracks_member hk

theorem tracks_operand (hg : g.RefusesEnd) (hn : NestedTracks r m nested nested' c) :
    Tracks r (Expr.relabel r) (m + 1) (g.operand nested) ((g.relabel r).operand nested') c := by
  refine .peek_bind ?_
  dsimp only [Token.kind_relabel, relabel]
  cases h : g.operandRule c.current.kind with
  | none => exact .fail _
  | some rule => exact tracks_operandOf rule (hg.ne_of_operandRule h) hn

/-- In front of an operator without a rule an expression neither ends nor goes on. -/
theorem extend_of_no_rule (hp : g.power c.current.kind = some power)
    (hr : ¬ power.rank ≤ floor.rank) (ho : g.operatorRule c.current.kind = none) :
    g.extend nested floor left c = .error ⟨.operator, c.current⟩ c := by
  rw [extend]
  simp only [hp, if_neg hr, ho]
  rfl

theorem extend_eq_onward {rule : OperatorRule} (hp : g.power c.current.kind = some power)
    (hr : ¬ power.rank ≤ floor.rank) (ho : g.operatorRule c.current.kind = some rule) :
    g.extend nested floor left c =
      onward (g.operatorOf nested left power rule) (g.extend nested floor) id c := by
  rw [extend_of_operator hp hr ho, onward]
  cases g.operatorOf nested left power rule c <;> rfl

theorem tracks_extend (hg : g.RefusesEnd) (hn : NestedTracks r m nested nested' c) :
    Tracks r (Expr.relabel r) (m + 1) (g.extend nested floor left)
      ((g.relabel r).extend nested' floor (left.relabel r)) c := by
  have hkind (c d : Cursor) (hs : c.Shadows r d) : d.current.kind = c.current.kind := by
    rw [hs.current]
    rfl
  induction left, c using induction_extend g floor with
  | stop left c hstop =>
      refine .congr (p := pure left) (q := pure (left.relabel r)) (.pure rfl)
        (extend_of_stop hstop) fun d hs => extend_of_stop ?_
      rw [hkind c d hs]
      exact hstop
  | unnamed left c power hp hr ho =>
      refine .congr (.fail .operator) (extend_of_no_rule hp hr ho) fun d hs => ?_
      rw [← hkind c d hs] at hp ho
      exact extend_of_no_rule (g := g.relabel r) hp hr ho
  | operator left c power rule hp hr ho ih =>
      have hwiden : Tracks r (Expr.relabel r) (m + 1)
          (onward (g.operatorOf nested left power rule) (g.extend nested floor) id)
          (onward ((g.relabel r).operatorOf nested' (left.relabel r) power rule)
            ((g.relabel r).extend nested' floor) id) c :=
        .onward (tracks_operatorOf rule (hg.ne_of_power hp) hn) (fun wider c₁ hlt =>
          ih wider c₁ hlt fun floor c₂ h₂ => hn floor c₂ (Nat.lt_trans h₂ hlt)) fun _ => rfl
      refine .congr hwiden (extend_eq_onward hp hr ho) fun d hs => ?_
      rw [← hkind c d hs] at hp ho
      exact extend_eq_onward (g := g.relabel r) hp hr ho

end

theorem tracks_expressionWith {nested nested' : Power → Parser Expr} {floor : Power}
    (hg : g.RefusesEnd) (hn : NestedTracks r m nested nested' c) :
    Tracks r (Expr.relabel r) (m + 1) (g.expressionWith nested floor)
      ((g.relabel r).expressionWith nested' floor) c :=
  .bind (tracks_operand hg hn) fun _ _ _ _ h₁ =>
    tracks_extend hg fun floor c₂ h₂ => hn floor c₂ (Nat.lt_of_lt_of_le h₂ h₁.length_le)

/-- Two bounds on the nesting make no difference, as long as each exceeds what lies ahead. -/
theorem tracks_expressionUpTo (hg : g.RefusesEnd) (n : Nat) :
    ∀ (m : Nat) (floor : Power) (c : Cursor), c.rest.length < n →
      Tracks r (Expr.relabel r) m (g.expressionUpTo n floor)
        ((g.relabel r).expressionUpTo m floor) c := by
  induction n with
  | zero => intro m floor c h; omega
  | succ n ih =>
      intro m floor c hn
      refine .of_succ (q := fun m => (g.relabel r).expressionUpTo m floor) (fun m => ?_) m
      exact tracks_expressionWith hg fun floor c₁ h₁ => ih m floor c₁ (by omega)

/-- A production that takes its bound from its cursor. -/
theorem tracks_bounded {α β : Type} {φ : α → β} {p : Nat → Parser α} {q : Nat → Parser β}
    (h : ∀ m, Tracks r φ m (p (c.rest.length + 1)) (q m) c) :
    Tracks r φ m (fun c => p (c.rest.length + 1) c) (fun c => q (c.rest.length + 1) c) c := by
  intro hc
  obtain ⟨w, hw, -⟩ := h 0 hc
  refine ⟨w, hw, fun d d' hs _ hd hcur => ?_⟩
  obtain ⟨v, hv, hq⟩ := h (d.rest.length + 1) hc
  have hvw : v = w := List.append_cancel_right (hv.ahead.symm.trans hw.ahead)
  subst hvw
  exact hq d d' hs (Nat.lt_succ_self _) hd hcur

theorem tracks_expression (hg : g.RefusesEnd) (floor : Power) :
    Tracks r (Expr.relabel r) m (g.expression floor) ((g.relabel r).expression floor) c :=
  tracks_bounded (p := fun n => g.expressionUpTo n floor)
    (q := fun n => (g.relabel r).expressionUpTo n floor)
    fun m => tracks_expressionUpTo hg _ m floor c (Nat.lt_succ_self _)

/-! ### Statements -/

theorem tracks_levels : Tracks r id m levels levels c := by
  refine .peek_bind ?_
  rw [Token.kind_relabel, Token.value_relabel]
  split
  next hk =>
    split
    · exact .fail _
    · exact .bind (.skip (by rw [hk]; decide)) fun _ _ _ _ _ => .pure rfl
  · exact .pure rfl

theorem tracks_printStmt (hg : g.RefusesEnd) (hk : c.current.kind ≠ .endOfInput) :
    Tracks r (Stmt.relabel r) m g.printStmt (g.relabel r).printStmt c :=
  .here_bind <| .bind (.skip hk) fun _ _ _ _ _ => .bind (tracks_expression hg _) fun _ _ _ _ _ =>
    .bind (.spanFrom _) fun _ _ _ _ _ => .pure rfl

theorem tracks_raiseStmt (hg : g.RefusesEnd) (hk : c.current.kind ≠ .endOfInput) :
    Tracks r (Stmt.relabel r) m g.raiseStmt (g.relabel r).raiseStmt c :=
  .here_bind <| .bind (.skip hk) fun _ _ _ _ _ => .bind (tracks_expression hg _) fun _ _ _ _ _ =>
    .bind (.spanFrom _) fun _ _ _ _ _ => .pure rfl

theorem tracks_returnStmt (hg : g.RefusesEnd) (hk : c.current.kind ≠ .endOfInput) :
    Tracks r (Stmt.relabel r) m g.returnStmt (g.relabel r).returnStmt c :=
  .here_bind <| .bind (.skip hk) fun _ _ _ _ _ =>
    .bind (.optional fun _ => tracks_expression hg _) fun _ _ _ _ _ =>
      .bind (.spanFrom _) fun _ _ _ _ _ => .pure rfl

theorem tracks_breakStmt (hk : c.current.kind ≠ .endOfInput) :
    Tracks r (Stmt.relabel r) m breakStmt breakStmt c :=
  .here_bind <| .bind (.skip hk) fun _ _ _ _ _ => .bind tracks_levels fun _ _ _ _ _ =>
    .bind (.spanFrom _) fun _ _ _ _ _ => .pure rfl

theorem tracks_continueStmt (hk : c.current.kind ≠ .endOfInput) :
    Tracks r (Stmt.relabel r) m continueStmt continueStmt c :=
  .here_bind <| .bind (.skip hk) fun _ _ _ _ _ => .bind tracks_levels fun _ _ _ _ _ =>
    .bind (.spanFrom _) fun _ _ _ _ _ => .pure rfl

theorem tracks_gotoStmt (hk : c.current.kind ≠ .endOfInput) :
    Tracks r (Stmt.relabel r) m g.gotoStmt (g.relabel r).gotoStmt c :=
  .here_bind <| .bind (.skip hk) fun _ _ _ _ _ => .bind tracks_identifier fun _ _ _ _ _ =>
    .bind (.spanFrom _) fun _ _ _ _ _ => .pure rfl

theorem tracks_labelStmt (hk : c.current.kind ≠ .endOfInput) :
    Tracks r (Stmt.relabel r) m g.labelStmt (g.relabel r).labelStmt c :=
  .here_bind <| .bind (.skip hk) fun _ _ _ _ _ => .bind tracks_identifier fun _ _ _ _ _ =>
    .bind (.spanFrom _) fun _ _ _ _ _ => .pure rfl

theorem tracks_globalStmt (hk : c.current.kind ≠ .endOfInput) :
    Tracks r (Stmt.relabel r) m g.globalStmt (g.relabel r).globalStmt c :=
  .here_bind <| .bind (.skip hk) fun _ _ _ _ _ =>
    .bind (.separated (by decide) fun _ _ => tracks_identifier) fun _ _ _ _ _ =>
      .bind (.spanFrom _) fun _ _ _ _ _ => .pure rfl

section

variable {nested nested' : Parser (List Stmt)}

abbrev BodyTracks (r : Relabelling) (m : Nat) (nested nested' : Parser (List Stmt)) (c : Cursor) :
    Prop :=
  ∀ c₁ : Cursor, c₁.rest.length < c.rest.length →
    Tracks r (List.map (Stmt.relabel r)) m nested nested' c₁

theorem BodyTracks.of_le {c₁ : Cursor} (hn : BodyTracks r m nested nested' c)
    (h : c₁.rest.length ≤ c.rest.length) : BodyTracks r m nested nested' c₁ :=
  fun c₂ h₂ => hn c₂ (Nat.lt_of_lt_of_le h₂ h)

theorem tracks_body (hn : BodyTracks r m nested nested' c) :
    Tracks r (List.map (Stmt.relabel r)) (m + 1) (body nested) (body nested') c :=
  .require_bind (by decide) fun c₁ h₁ => .bind (hn c₁ h₁) fun _ _ _ _ _ =>
    .bind (.skipIf _ (by decide)) fun _ _ _ _ _ => .bind (.require _ (by decide)) fun _ _ _ _ _ =>
      .pure rfl

theorem tracks_blockStmt (hk : c.current.kind ≠ .endOfInput)
    (hn : BodyTracks r m nested nested' c) :
    Tracks r (Stmt.relabel r) (m + 1) (blockStmt nested) (blockStmt nested') c := by
  refine .here_bind <| .skip_bind hk fun c₁ h₁ => .bind (hn c₁ h₁) fun body _ _ _ _ =>
    .bind (.require _ (by decide)) fun _ _ _ _ _ => .bind (.spanFrom _) fun _ _ _ _ _ => .pure ?_
  rw [Stmt.relabel, Stmt.relabelEach_eq_map]

theorem tracks_elifBranch (hg : g.RefusesEnd) (hk : c.current.kind ≠ .endOfInput)
    (hn : BodyTracks r m nested nested' c) :
    Tracks r (Prod.map (Expr.relabel r) (List.map (Stmt.relabel r))) (m + 1)
      (g.elifBranch nested) ((g.relabel r).elifBranch nested') c :=
  .bind (.skip hk) fun _ _ _ _ h₁ => .bind (tracks_expression hg _) fun _ _ _ _ h₂ =>
    .bind (tracks_body (hn.of_le (h₁.trans h₂).length_le)) fun _ _ _ _ _ => .pure rfl

/-- The chain of branches that an `if` is made of. -/
theorem relabel_chain (branches : List (Expr × List Stmt)) (last : Option (List Stmt)) :
    (branches.map (Prod.map (Expr.relabel r) (List.map (Stmt.relabel r)))).foldr
        (fun b => .elif b.1 b.2)
        (((last.map (List.map (Stmt.relabel r))).map .otherwise).getD .done) =
      ElseChain.relabel r
        (branches.foldr (fun b => .elif b.1 b.2) ((last.map .otherwise).getD .done)) := by
  induction branches with
  | nil => cases last <;> simp [ElseChain.relabel, Stmt.relabelEach_eq_map]
  | cons b bs ih =>
      rw [List.map_cons, List.foldr_cons, List.foldr_cons, ih, ElseChain.relabel,
        Stmt.relabelEach_eq_map]
      rfl

theorem tracks_ifStmt (hg : g.RefusesEnd) (hk : c.current.kind ≠ .endOfInput)
    (hn : BodyTracks r m nested nested' c) :
    Tracks r (Stmt.relabel r) (m + 1) (g.ifStmt nested) ((g.relabel r).ifStmt nested') c := by
  refine .here_bind <| .bind (.skip hk) fun _ _ c₁ _ h₁ =>
    .bind (tracks_expression hg _) fun condition _ c₂ _ h₂ => ?_
  have hn₂ := hn.of_le (h₁.trans h₂).length_le
  refine .bind (tracks_body hn₂) fun body _ c₃ _ h₃ => ?_
  have hn₃ := hn₂.of_le h₃.length_le
  refine .bind (.many fun c₄ h₄ hst => tracks_elifBranch hg ?_ (hn₃.of_le h₄))
    fun branches _ c₄ _ h₄ => ?_
  · rw [of_decide_eq_true hst]; decide
  have hn₄ := hn₃.of_le h₄.length_le
  refine .bind (.after? (by decide) fun c₅ h₅ => tracks_body (hn₄.of_le h₅))
    fun last _ _ _ _ => ?_
  refine .bind (.spanFrom _) fun _ _ _ _ _ => .pure ?_
  rw [relabel_chain, Stmt.relabel, Stmt.relabelEach_eq_map]

theorem tracks_whileStmt (hg : g.RefusesEnd) (hk : c.current.kind ≠ .endOfInput)
    (hn : BodyTracks r m nested nested' c) :
    Tracks r (Stmt.relabel r) (m + 1) (g.whileStmt nested) ((g.relabel r).whileStmt nested') c := by
  refine .here_bind <| .bind (.skip hk) fun _ _ c₁ _ h₁ =>
    .bind (tracks_expression hg _) fun condition _ c₂ _ h₂ =>
      .bind (tracks_body (hn.of_le (h₁.trans h₂).length_le)) fun body _ _ _ _ =>
        .bind (.spanFrom _) fun _ _ _ _ _ => .pure ?_
  rw [Stmt.relabel, Stmt.relabelEach_eq_map]

theorem tracks_foreachStmt (hg : g.RefusesEnd) (hk : c.current.kind ≠ .endOfInput)
    (hn : BodyTracks r m nested nested' c) :
    Tracks r (Stmt.relabel r) (m + 1) (g.foreachStmt nested)
      ((g.relabel r).foreachStmt nested') c := by
  refine .here_bind <| .bind (.skip hk) fun _ _ c₁ _ h₁ => .bind (.accept _ (by decide))
    fun _ _ c₂ _ h₂ => .bind tracks_identifier fun _ _ c₃ _ h₃ => .bind (.require _ (by decide))
    fun _ _ c₄ _ h₄ => .bind (tracks_expression hg _) fun iterable _ c₅ _ h₅ => ?_
  have hle := ((((h₁.trans h₂).trans h₃).trans h₄).trans h₅).length_le
  refine .bind (tracks_body (hn.of_le hle)) fun body _ _ _ _ =>
    .bind (.spanFrom _) fun _ _ _ _ _ => .pure ?_
  rw [Stmt.relabel, Stmt.relabelEach_eq_map]
  rfl

theorem tracks_defDecl (hn : BodyTracks r m nested nested' c) :
    Tracks r (Stmt.relabel r) (m + 1) (g.defDecl nested) ((g.relabel r).defDecl nested') c := by
  refine .here_bind <| .bind (.require _ (by decide)) fun _ _ c₁ _ h₁ => .bind
    (.accept _ (by decide)) fun _ _ c₂ _ h₂ => .bind tracks_identifier fun _ _ c₃ _ h₃ =>
    .bind tracks_parameters fun ps _ c₄ _ h₄ => ?_
  have hle := (((h₁.trans h₂).trans h₃).trans h₄).length_le
  refine .bind (tracks_body (hn.of_le hle)) fun body _ _ _ _ =>
    .bind (.spanFrom _) fun _ _ _ _ _ => .pure ?_
  rw [Stmt.relabel, Stmt.relabelEach_eq_map]
  rfl

theorem tracks_statementOf (hg : g.RefusesEnd) (hr : r.native = id) (rule : StatementRule)
    (hk : c.current.kind ≠ .endOfInput) (hn : BodyTracks r m nested nested' c) :
    Tracks r (Stmt.relabel r) (m + 1) (g.statementOf nested rule)
      ((g.relabel r).statementOf nested' rule) c := by
  cases rule with
  | print => exact tracks_printStmt hg hk
  | raise => exact tracks_raiseStmt hg hk
  | return_ => exact tracks_returnStmt hg hk
  | break_ => exact tracks_breakStmt hk
  | continue_ => exact tracks_continueStmt hk
  | goto => exact tracks_gotoStmt hk
  | label => exact tracks_labelStmt hk
  | global => exact tracks_globalStmt hk
  | block => exact tracks_blockStmt hk hn
  | if_ => exact tracks_ifStmt hg hk hn
  | while_ => exact tracks_whileStmt hg hk hn
  | foreach => exact tracks_foreachStmt hg hk hn
  | def_ => exact tracks_defDecl hn
  | class_ => exact tracks_classDecl hr
  | module_ => exact tracks_moduleDecl
  | open_ => exact tracks_openDecl
  | const => exact tracks_constDecl

theorem tracks_expressionStmt (hg : g.RefusesEnd) :
    Tracks r (Stmt.relabel r) m g.expressionStmt (g.relabel r).expressionStmt c := by
  refine .bind (tracks_expression hg _) fun e _ _ _ _ => .pure ?_
  rw [Stmt.relabel, Expr.span_relabel]

theorem tracks_statementWith (hg : g.RefusesEnd) (hr : r.native = id)
    (hn : BodyTracks r m nested nested' c) :
    Tracks r (Stmt.relabel r) (m + 1) (g.statementWith nested)
      ((g.relabel r).statementWith nested') c := by
  refine .peek_bind ?_
  dsimp only [Token.kind_relabel, relabel]
  cases h : g.statementRule c.current.kind with
  | none => exact tracks_expressionStmt hg
  | some rule => exact tracks_statementOf hg hr rule (hg.ne_of_statementRule h) hn

theorem tracks_innerWith (hg : g.RefusesEnd) (hr : r.native = id)
    (hn : BodyTracks r m nested nested' c) :
    Tracks r (Stmt.relabel r) (m + 1) (g.innerWith nested)
      ((g.relabel r).innerWith nested') c := by
  refine .peek_bind ?_
  show Tracks _ _ _ (if g.startsStatement c.current.kind then _ else _)
    (if g.startsStatement c.current.kind then _ else _) c
  split
  · exact tracks_statementWith hg hr hn
  · rw [Token.kind_relabel]
    split
    · exact tracks_defDecl hn
    · split
      · exact tracks_classDecl hr
      · exact .fail _

theorem tracks_topWith (hg : g.RefusesEnd) (hr : r.native = id)
    (hn : BodyTracks r m nested nested' c) :
    Tracks r (Stmt.relabel r) (m + 1) (g.topWith nested) ((g.relabel r).topWith nested') c := by
  refine .peek_bind ?_
  show Tracks _ _ _ (if g.startsStatement c.current.kind then _ else _)
    (if g.startsStatement c.current.kind then _ else _) c
  split
  · exact tracks_statementWith hg hr hn
  · rw [Token.kind_relabel]
    split
    · exact tracks_classDecl hr
    · split
      · exact tracks_defDecl hn
      · exact tracks_moduleDecl
      · exact tracks_openDecl
      · exact tracks_constDecl
      · exact .fail _

end

theorem tracks_statementsUpTo (hg : g.RefusesEnd) (hr : r.native = id) (n : Nat) :
    ∀ (m : Nat) (c : Cursor), c.rest.length < n →
      Tracks r (List.map (Stmt.relabel r)) m (g.statementsUpTo n)
        ((g.relabel r).statementsUpTo m) c := by
  induction n with
  | zero => intro m c h; omega
  | succ n ih =>
      intro m c hn
      refine .of_succ (q := fun m => (g.relabel r).statementsUpTo m) (fun m => ?_) m
      exact .many fun c₁ h₁ _ => tracks_innerWith hg hr fun c₂ h₂ => ih m c₂ (by omega)

theorem tracks_statements (hg : g.RefusesEnd) (hr : r.native = id) :
    Tracks r (List.map (Stmt.relabel r)) m g.statements (g.relabel r).statements c :=
  tracks_bounded (p := g.statementsUpTo) (q := (g.relabel r).statementsUpTo)
    fun m => tracks_statementsUpTo hg hr _ m c (Nat.lt_succ_self _)

theorem tracks_top (hg : g.RefusesEnd) (hr : r.native = id) :
    Tracks r (Stmt.relabel r) m g.top (g.relabel r).top c :=
  .mono (tracks_topWith hg hr fun _ _ => tracks_statements hg hr) (Nat.le_succ m)

theorem tracks_program (hg : g.RefusesEnd) (hr : r.native = id) :
    Tracks r (List.map (Stmt.relabel r)) m g.program (g.relabel r).program c := by
  refine .bind (.many fun _ _ _ => tracks_top hg hr) fun ss _ c₁ _ _ => .peek_bind ?_
  rw [Token.kind_relabel]
  split
  · exact .pure rfl
  · exact .fail _

/-- A whole program read from relabelled tokens. -/
theorem program_relabel (hg : g.RefusesEnd) (hr : r.native = id) (hc : c.Closed) :
    (g.relabel r).program (c.relabel r) =
      Outcome.retell r (List.map (Stmt.relabel r))
        ((Outcome.ending (g.program c)).relabel r) (g.program c) := by
  obtain ⟨w, hw, hq⟩ := tracks_program (r := r) (m := c.rest.length + 1) hg hr hc
  exact hq (c.relabel r) _ ⟨rfl, rfl⟩ (by simp [Cursor.relabel]) (hw.relabel r) rfl

/-- Parsing commutes with relabelling: the places of a program come from its tokens, its names from
what the grammar makes of their words, and nothing depends on either. -/
theorem parse_relabel {ts : List Token} (hg : g.RefusesEnd) (hr : r.native = id)
    (hn : ts = [] → r.place .nowhere = .nowhere) :
    (g.relabel r).parse (ts.map (Token.relabel r)) =
      ((g.parse ts).map (List.map (Stmt.relabel r))).mapError (SyntaxError.relabel r) := by
  have h := program_relabel hg hr (Cursor.closed_ofTokens ts)
  rw [parse, parse, Cursor.ofTokens_relabel hn, h]
  cases g.program (Cursor.ofTokens ts) <;> rfl

/-- A syntax error comes back wherever the same tokens lie ahead, up to the one it found. -/
theorem program_error (hg : g.RefusesEnd) (hr : r.native = id) {c' d d' : Cursor}
    {e : SyntaxError} {w : List Token} (hc : c.Closed) (h : g.program c = .error e c')
    (hw : c.Reaches w c') (hs : c.Shadows r d) (hd : d.Reaches (w.map (Token.relabel r)) d')
    (hcur : d'.current = c'.current.relabel r) :
    (g.relabel r).program d = .error (e.relabel r) d' := by
  obtain ⟨v, hv, hq⟩ := tracks_program (r := r) (m := d.rest.length + 1) hg hr hc
  rw [h] at hv hq
  have hvw : v = w := List.append_cancel_right (hv.ahead.symm.trans hw.ahead)
  subst hvw
  exact hq d d' hs (Nat.lt_succ_self _) hd hcur

end Grammar

end ScriptFrontend
