import ScriptFrontend.Proofs.Gathers
import ScriptFrontend.Proofs.Locality
import ScriptFrontend.Proofs.Soundness.Expression

/-!
Where expressions stand, and what declarations are made of.

Each production yields a node that stands on exactly the tokens that it read.  An operator widens the
expression on its left, so the operators gather from the start of that expression, and not from the
place where they are entered.
-/

namespace ScriptFrontend

namespace Grammar

open ScriptFrontend.Parser

variable {c₀ c : Cursor} {u : List Token}

/-! ### Names, parameters and signatures -/

theorem gathers_identifier_bind {β : Type} {Q : β → List Token → Prop} {f : String → Parser β}
    (hf : ∀ name t c₁, Gathers (f name) c₀ (u ++ [t]) c₁ Q) :
    Gathers (standard.identifier >>= f) c₀ u c Q := by
  rw [identifier, bind_assoc]
  refine .expect_bind (by decide) fun t c₁ _ => ?_
  rw [pure_bind]
  exact hf _ t c₁

theorem gathers_identifier :
    Gathers standard.identifier c [] c fun name w => w.map Token.lexeme = [.name name] :=
  .expect_bind (by decide) fun _ _ ht => .pure (congrArg (· :: []) (Token.lexeme_of_identifier ht))

theorem gathers_names (m : Mark) :
    Gathers (separated (.mark m) standard.identifier) c [] c fun _ _ => True :=
  (Gathers.separated (fun _ _ h => h) fun _ _ => gathers_identifier).mono fun _ _ _ => trivial

theorem gathers_parameter :
    Gathers standard.parameter c [] c fun p w => (Node.parameter p).Occupies w := by
  have hcovers : Gathers standard.parameter c [] c fun p w => p.span.Covers w := by
    apply Gathers.here_bind
    refine .accept_bind (by decide) fun variadic _ c₁ => ?_
    refine .accept_bind (by decide) fun byReference _ c₂ => ?_
    refine gathers_identifier_bind fun name _ c₃ => ?_
    exact .spanFrom_bind (by simp) fun stop h => .pure h
  refine (hcovers.and_meets meets_parameter).mono fun p w h => ?_
  obtain ⟨hcovers, _, hspells⟩ := h
  exact .mk hcovers hspells (.nil w)

theorem gathers_parameterList (separator : Mark) :
    Gathers (standard.parameterList separator) c [] c fun ps w =>
      Spread Node.Occupies (ps.map .parameter) w := by
  have hsome : ∀ c₁, Gathers (separated (.mark separator) standard.parameter) c₁ [] c₁ _ := fun c₁ =>
    .separated (P := fun p w => (Node.parameter p).Occupies w)
      (fun _ _ h => h.lexemes_parameter) fun _ _ => gathers_parameter
  refine .bind (fun _ => .optional fun _ => hsome _) fun ps w c₁ h => .pure ?_
  obtain ⟨rfl, -⟩ | ⟨ps, rfl, hps, -⟩ := h
  · exact .nil _
  · exact hps.map

theorem gathers_parameters :
    Gathers standard.parameters c [] c fun ps w =>
      Spread Node.Occupies (ps.map .parameter) w := by
  refine .accept_bind (by decide) fun empty v c₁ => ?_
  cases empty with
  | true => exact .pure (.nil _)
  | false =>
      refine .require_bind (by decide) fun _ c₂ _ => ?_
      refine .bind (fun _ => gathers_parameterList _) fun ps w c₃ hps => ?_
      exact .require_bind (by decide) fun _ c₄ _ => .pure ((hps.pad_left _).pad _)

theorem gathers_signature :
    Gathers standard.signature c [] c fun s w => (Node.signature s).Occupies w := by
  have hframe : Gathers standard.signature c [] c fun s w =>
      s.span.Covers w ∧ Spread Node.Occupies (s.parameters.map .parameter) w := by
    apply Gathers.here_bind
    refine .accept_bind (by decide) fun recursive _ c₁ => ?_
    refine .accept_bind (by decide) fun byReference _ c₂ => ?_
    refine gathers_identifier_bind fun name _ c₃ => ?_
    refine .require_bind (by decide) fun _ c₄ _ => ?_
    refine .bind (fun _ => gathers_parameterList _) fun ps w c₅ hps => ?_
    refine .require_bind (by decide) fun _ c₆ _ => ?_
    exact .spanFrom_bind (by simp) fun stop hcovers => .pure ⟨hcovers, (hps.pad_left _).pad _⟩
  refine (hframe.and_meets meets_signature).mono fun s w h => ?_
  obtain ⟨⟨hcovers, hparts⟩, _, hspells⟩ := h
  exact .mk hcovers hspells hparts

/-! ### Operands -/

/-- An expression without parts, on its own token. -/
theorem occupies_of_leaf {e : Expr} {t : Token} {l : Lexeme} (ht : t.lexeme = l)
    (hspan : e.span = t.span) (hlexemes : e.lexemes = [l]) (hparts : e.parts = []) :
    (Node.expr e).Occupies [t] := by
  subst ht
  refine .mk ?_ hlexemes.symm ?_
  · rw [Node.span, hspan]
    exact .singleton t
  · rw [Node.parts, hparts]
    exact .nil _

theorem gathers_primary (hk : c.current.kind ≠ .endOfInput) :
    Gathers standard.primary c [] c fun e w => (Node.expr e).Occupies w := by
  refine .advance_bind hk fun c₁ => ?_
  split
  next h => exact .pure (occupies_of_leaf (Token.lexeme_of_number h) rfl rfl rfl)
  next h => exact .pure (occupies_of_leaf (Token.lexeme_of_text h) rfl rfl rfl)
  next h => exact .pure (occupies_of_leaf (Token.lexeme_of_keyword h) rfl rfl rfl)
  next h => exact .pure (occupies_of_leaf (Token.lexeme_of_keyword h) rfl rfl rfl)
  next h => exact .pure (occupies_of_leaf (Token.lexeme_of_keyword h) rfl rfl rfl)
  next h => exact .pure (occupies_of_leaf (Token.lexeme_of_identifier h) rfl rfl rfl)
  · exact .throw _

theorem gathers_staticScalar :
    Gathers standard.staticScalar c [] c fun e w => (Node.expr e).Occupies w := by
  apply Gathers.peek_bind
  split
  next h =>
    refine gathers_primary fun hk => ?_
    rw [hk] at h
    cases h
  · exact .fail _

section

variable {nested : Power → Parser Expr} {left : Expr} {floor power : Power}

abbrev NestedGathers (nested : Power → Parser Expr) : Prop :=
  ∀ floor c, Gathers (nested floor) c [] c fun e w => (Node.expr e).Occupies w

theorem gathers_unary (hk : operandEntry c.current.kind = some .unary) (hn : NestedGathers nested) :
    Gathers (unary nested) c [] c fun e w => (Node.expr e).Occupies w := by
  have hfixed := fixed_of_unary hk
  refine .advance_bind hfixed.ne_endOfInput fun c₁ => ?_
  refine .bind (fun _ => hn .unary c₁) fun operand w c₂ hoperand => ?_
  refine .pure (.mk ((Span.Covers.singleton c.current).append hoperand.covers) ?_ ?_)
  · rw [List.nil_append, List.singleton_append, List.map_cons, hoperand.lexemes_expr,
      Token.lexeme_of_fixed hfixed rfl]
    rfl
  · exact (Spread.single hoperand).pad_left _

theorem gathers_group (hk : c.current.kind = .mark .openParen) (hn : NestedGathers nested) :
    Gathers (group nested) c [] c fun e w => (Node.expr e).Occupies w := by
  apply Gathers.here_bind
  refine .skip_bind (by rw [hk]; exact nofun) fun c₁ => ?_
  refine .bind (fun _ => hn .lowest c₁) fun inner w c₂ hinner => ?_
  refine .require_bind (by decide) fun close c₃ hclose => ?_
  refine .spanFrom_bind (by simp) fun stop hcovers => .pure (.mk hcovers ?_ ?_)
  · simp only [List.nil_append, List.map_append, List.map_cons, List.map_nil, hinner.lexemes_expr,
      Token.lexeme_of_mark hk, Token.lexeme_of_mark hclose]
    rfl
  · exact ((Spread.single hinner).pad_left _).pad _

theorem gathers_operand (hn : NestedGathers nested) :
    Gathers (standard.operand nested) c [] c fun e w => (Node.expr e).Occupies w := by
  apply Gathers.peek_bind
  dsimp only [standard]
  cases h : operandEntry c.current.kind with
  | none => exact .fail _
  | some rule =>
      cases rule with
      | primary =>
          refine gathers_primary fun hk => ?_
          rw [hk] at h
          cases h
      | unary => exact gathers_unary h hn
      | group =>
          refine gathers_group ?_ hn
          unfold operandEntry at h
          split at h <;> first | assumption | cases h

/-! ### Operators behind an operand -/

/-- An operator on its own token between the operands. -/
theorem occupies_of_between {e right : Expr} {t : Token} {w : List Token}
    (hleft : (Node.expr left).Occupies u) (hright : (Node.expr right).Occupies w)
    (hspan : e.span = ⟨left.span.start, right.span.stop⟩)
    (hlexemes : e.lexemes = left.lexemes ++ t.lexeme :: right.lexemes)
    (hparts : e.parts = [left, right]) : (Node.expr e).Occupies (u ++ [t] ++ w) := by
  refine .mk ?_ ?_ ?_
  · rw [Node.span, hspan]
    exact (hleft.covers.append (.singleton t)).append hright.covers
  · rw [Node.Spells, hlexemes, List.append_assoc, List.map_append, hleft.lexemes_expr,
      List.singleton_append, List.map_cons, hright.lexemes_expr]
  · rw [Node.parts, hparts]
    exact ((Spread.single hleft).pad [t]).append (.single hright)

theorem gathers_binary (hk : c.current.kind.Fixed) (hn : NestedGathers nested)
    (hleft : (Node.expr left).Occupies u) :
    Gathers (binary nested left power) c₀ u c fun e w => (Node.expr e).Occupies w := by
  refine .advance_bind hk.ne_endOfInput fun c₁ => ?_
  refine .bind (fun _ => hn power c₁) fun right w c₂ hright => ?_
  refine .pure (occupies_of_between hleft hright rfl ?_ rfl)
  rw [Token.lexeme_of_fixed hk rfl]
  rfl

theorem gathers_assign (hk : c.current.kind = .mark .bind) (hn : NestedGathers nested)
    (hleft : (Node.expr left).Occupies u) :
    Gathers (assign nested left) c₀ u c fun e w => (Node.expr e).Occupies w := by
  refine .skip_bind (by rw [hk]; exact nofun) fun c₁ => ?_
  refine .bind (fun _ => hn .lowest c₁) fun value w c₂ hvalue => ?_
  refine .pure (occupies_of_between hleft hvalue rfl ?_ rfl)
  rw [Token.lexeme_of_mark hk]
  rfl

theorem gathers_call (hk : c.current.kind = .mark .openParen) (hn : NestedGathers nested)
    (hleft : (Node.expr left).Occupies u) :
    Gathers (standard.call nested left) c₀ u c fun e w => (Node.expr e).Occupies w := by
  refine .skip_bind (by rw [hk]; exact nofun) fun c₁ => ?_
  have hsome : Gathers (separated (.mark .comma) (nested .lowest)) c₁ [] c₁ _ :=
    .separated (P := fun e w => (Node.expr e).Occupies w) (fun _ _ h => h.lexemes_expr)
      fun c₂ _ => hn .lowest c₂
  refine .bind (fun _ => .optional fun _ => hsome) fun arguments w c₂ h => ?_
  have harguments : Spread Node.Occupies ((arguments.getD []).map .expr) w ∧
      w.map Token.lexeme =
        [Lexeme.mark .comma].intercalate (Expr.lexemesEach (arguments.getD [])) := by
    rw [Expr.lexemesEach_eq_map]
    obtain ⟨rfl, rfl⟩ | ⟨es, rfl, hes, hlexemes⟩ := h
    · exact ⟨.nil [], rfl⟩
    · exact ⟨hes.map, hlexemes⟩
  obtain ⟨hparts, hlexemes⟩ := harguments
  refine .require_bind (by decide) fun close c₃ hclose => ?_
  refine .spanFrom_bind (by simp) fun stop hcovers => .pure (.mk ?_ ?_ ?_)
  · simp only [List.append_assoc] at hcovers ⊢
    have hstart := hleft.covers.start_eq hcovers
    change left.span.start = c₀.start at hstart
    rwa [← hstart] at hcovers
  · simp only [List.append_assoc, List.singleton_append, List.map_append, List.map_cons, List.map_nil,
      hleft.lexemes_expr, hlexemes, Token.lexeme_of_mark hk, Token.lexeme_of_mark hclose]
    rfl
  · exact (((Spread.single hleft).pad _).append hparts).pad _

theorem gathers_member (hk : c.current.kind = .mark .dot) (hleft : (Node.expr left).Occupies u) :
    Gathers (member left) c₀ u c fun e w => (Node.expr e).Occupies w := by
  refine .skip_bind (by rw [hk]; exact nofun) fun c₁ => ?_
  refine .expect_bind (by decide) fun property c₂ hproperty => ?_
  refine .pure (.mk ((hleft.covers.append (.singleton c.current)).append (.singleton property)) ?_ ?_)
  · simp only [List.map_append, List.map_cons, List.map_nil, List.append_assoc, hleft.lexemes_expr,
      Token.lexeme_of_mark hk, Token.lexeme_of_identifier hproperty]
    rfl
  · exact ((Spread.single hleft).pad _).pad _

theorem gathers_operatorOf {rule : OperatorRule}
    (hk : operatorEntry c.current.kind = some (power, rule)) (hn : NestedGathers nested)
    (hleft : (Node.expr left).Occupies u) :
    Gathers (standard.operatorOf nested left power rule) c₀ u c fun e w =>
      (Node.expr e).Occupies w := by
  rcases operatorEntry_cases hk with ⟨rfl, hkind, -⟩ | ⟨rfl, -⟩ | ⟨rfl, hkind, -⟩ | ⟨rfl, hkind, -⟩
  · exact gathers_assign hkind hn hleft
  · exact gathers_binary (fixed_of_operatorEntry hk) hn hleft
  · exact gathers_call hkind hn hleft
  · exact gathers_member hkind hleft

/-- The invariant of the loop: what stands on the left stands on everything gathered so far. -/
theorem gathers_extend (hn : NestedGathers nested) (hleft : (Node.expr left).Occupies u) :
    Gathers (standard.extend nested floor left) c₀ u c fun e w => (Node.expr e).Occupies w := by
  generalize hl : c.rest.length = n
  induction n using Nat.strongRecOn generalizing c left u with
  | ind n ih =>
      by_cases hstopped : c.current.kind.Stops floor
      · exact .congr (q := pure left) (extend_of_stop (Kind.stops_iff_power.1 hstopped)) (.pure hleft)
      · obtain ⟨power, rule, hk, hlt⟩ := Kind.not_stops_iff.1 hstopped
        refine .congr (extend_eq_onward (standard_power hk) (Nat.not_le_of_lt hlt)
          (standard_operatorRule hk)) ?_
        exact .onward (gathers_operatorOf hk hn hleft)
          (fun wider w c₁ hwider hlt => ih _ (hl ▸ hlt) hwider rfl) fun _ _ h => h

theorem gathers_expressionWith (hn : NestedGathers nested) :
    Gathers (standard.expressionWith nested floor) c [] c fun e w => (Node.expr e).Occupies w :=
  .bind (fun _ => gathers_operand hn) fun _ _ _ hleft => gathers_extend hn hleft

end

theorem gathers_expressionUpTo (n : Nat) : NestedGathers (standard.expressionUpTo n) := by
  induction n with
  | zero => exact fun _ _ => .fail _
  | succ n ih => exact fun _ _ => gathers_expressionWith ih

theorem gathers_expression (floor : Power) :
    Gathers (standard.expression floor) c [] c fun e w => (Node.expr e).Occupies w :=
  .congr (q := standard.expressionUpTo (c.rest.length + 1) floor) rfl
    (gathers_expressionUpTo _ floor c)

end Grammar

end ScriptFrontend
