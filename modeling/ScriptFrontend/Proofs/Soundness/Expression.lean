import ScriptFrontend.Grammar.Declaration
import ScriptFrontend.Proofs.Meets

/-!
Soundness of expressions, and of what declarations are made of.

Every production reads lexemes that spell the well-formed value it yields, and every error it stops
with is viable.  The theorems follow the productions one by one.  Each production takes the reader of
what is nested in it as a parameter, so it is met on the assumption that the reader is, wherever
fewer tokens lie ahead.
-/

namespace ScriptFrontend

theorem ClassCategory.eq_of_ofKind? {k : Kind} {category : ClassCategory}
    (h : ofKind? k = some category) : k = .keyword category.keyword := by
  unfold ofKind? at h
  split at h <;> cases h <;> rfl

namespace Grammar

open ScriptFrontend.Parser

variable {c : Cursor}

/-! ### Names, parameters and classes -/

theorem meets_identifier :
    Meets standard.identifier c fun name w _ => w = [.name name] := by
  refine .bind (.expect (u := .name "x") rfl (by decide)) ?_
  rintro t w c₁ ⟨ht, rfl⟩ _
  exact .pure (congrArg (· :: []) (Token.lexeme_of_identifier ht))

theorem meets_identifier_bind {β : Type} {Q : Post β} {f : String → Parser β}
    (hf : ∀ name (c₁ : Cursor), c₁.rest.length ≤ c.rest.length - 1 →
      Meets (f name) c₁ (Q.after [.name name])) : Meets (standard.identifier >>= f) c Q := by
  refine .bind meets_identifier ?_
  rintro name w c₁ rfl h₁
  exact hf name c₁ h₁

theorem meets_names (m : Mark) :
    Meets (separated (.mark m) standard.identifier) c fun names w _ =>
      names ≠ [] ∧ w = Lexeme.names m names := by
  refine (Meets.separated (G := fun _ => True) fun c₁ _ => ?_).mono fun names w k h => ⟨h.1, h.2.2⟩
  exact meets_identifier.mono fun name w k h => ⟨trivial, h⟩

theorem meets_announced {k : Kind} (hk : k.Fixed) :
    Meets (after? k standard.identifier) c fun name w _ =>
      w = Lexeme.announced k.lexeme name := by
  refine (Meets.after? hk fun c₁ _ => meets_identifier).mono fun name w next h => ?_
  cases name with
  | none => exact h.1
  | some name =>
      obtain ⟨v, rfl, rfl⟩ := h
      rfl

theorem meets_parameter :
    Meets standard.parameter c fun p w _ => w = p.lexemes :=
  .here_bind <| .accept_bind trivial fun _ _ _ => .accept_bind trivial fun _ _ _ =>
    meets_identifier_bind fun _ _ _ => .spanFrom_bind fun _ => .pure rfl

theorem meets_parameterList (separator : Mark) :
    Meets (standard.parameterList separator) c fun ps w _ =>
      w = Lexeme.parameters separator ps := by
  refine .bind (.optional fun _ => .separated (G := fun _ => True) fun c₁ _ =>
    meets_parameter.mono fun p w k h => ⟨trivial, h⟩) ?_
  rintro (_ | ps) w c₁ h _
  · obtain ⟨rfl, -⟩ := h
    exact .pure rfl
  · obtain ⟨-, -, rfl⟩ := h
    exact .pure (List.append_nil _)

theorem meets_parameters :
    Meets standard.parameters c fun ps w _ => ParametersSpelled ps w := by
  refine .accept_bind trivial fun empty c₁ _ => ?_
  cases empty with
  | true => exact .pure (.inl ⟨rfl, rfl⟩)
  | false =>
      refine .require_bind trivial fun c₂ _ => .bind (meets_parameterList _) ?_
      rintro ps w c₃ rfl _
      exact .require_bind trivial fun c₄ _ => .pure (.inr rfl)

theorem meets_signature :
    Meets standard.signature c fun s w _ => w = s.lexemes := by
  refine .here_bind <| .accept_bind trivial fun _ _ _ => .accept_bind trivial fun _ _ _ =>
    meets_identifier_bind fun _ _ _ => .require_bind trivial fun _ _ =>
      .bind (meets_parameterList _) ?_
  rintro ps w c₁ rfl _
  exact .require_bind trivial fun _ _ => .spanFrom_bind fun _ => .pure rfl

theorem meets_classCategory :
    Meets classCategory c fun category w _ => w = [.keyword category.keyword] := by
  refine .peek_bind ?_
  cases h : ClassCategory.ofKind? c.current.kind with
  | none => exact .fail ⟨.keyword .class_, [], .plain, rfl, rfl⟩
  | some category =>
      have hk := ClassCategory.eq_of_ofKind? h
      refine .skip_bind (by rw [hk]; exact nofun) fun c₁ _ => .pure ?_
      exact congrArg (· :: []) (Token.lexeme_of_keyword hk)

theorem othersSpelled_of_items {names : List String} {w : List Lexeme} {k : Kind}
    (h : Post.Items (fun name v _ => ∃ hash,
      v = .mark .semicolon :: (Lexeme.flag hash (.mark .hash) ++ [.name name])) names w k) :
    OthersSpelled names w := by
  induction h with
  | nil k => rfl
  | cons hname _ ih =>
      obtain ⟨hash, rfl⟩ := hname
      exact ⟨hash, _, ih, by rw [List.cons_append, List.append_assoc]; rfl⟩

theorem meets_interfaces :
    Meets standard.interfaces c fun names w _ => InterfacesSpelled names (.mark .hash :: w) := by
  refine meets_identifier_bind fun first c₁ _ => .bind (.many rfl fun c₂ _ hst => ?_)
    fun others w c₃ h _ => .pure ⟨w, othersSpelled_of_items h, ?_⟩
  · have hk : c₂.current.kind = .mark .semicolon := of_decide_eq_true hst
    refine .skip_bind (by rw [hk]; exact nofun) fun c₃ _ => .skipIf_bind trivial fun hash c₄ _ => ?_
    refine meets_identifier.mono ?_
    rintro name w k rfl
    rw [Token.lexeme_of_mark hk]
    exact ⟨List.cons_ne_nil _ _, hash, rfl⟩
  · rw [List.append_nil]; rfl

/-! ### Operands -/

theorem isStaticScalar_of_primary {k : Kind} (h : operandEntry k = some .primary) :
    k.isStaticScalar = true := by
  unfold operandEntry at h
  split at h <;> first | rfl | cases h

theorem kind_of_isStaticScalar {k : Kind} (h : k.isStaticScalar = true) :
    k = .number ∨ k = .text ∨ k = .keyword .true_ ∨ k = .keyword .false_ ∨ k = .keyword .nil ∨
      k = .identifier := by
  unfold Kind.isStaticScalar at h
  split at h <;> first | simp | cases h

theorem meets_primary (h : c.current.kind.isStaticScalar = true) :
    Meets standard.primary c fun e w _ =>
      e.IsScalar ∧ w = e.lexemes ∧ w = [c.current.lexeme] := by
  have hne : c.current.kind ≠ .endOfInput := by
    intro hk
    rw [hk] at h
    cases h
  refine .advance_bind hne fun c₁ _ => ?_
  rcases kind_of_isStaticScalar h with hk | hk | hk | hk | hk | hk
  · rw [hk]
    exact .pure ⟨trivial, congrArg (· :: []) (Token.lexeme_of_number hk), rfl⟩
  · rw [hk]
    exact .pure ⟨trivial, congrArg (· :: []) (Token.lexeme_of_text hk), rfl⟩
  · rw [hk]
    exact .pure ⟨trivial, congrArg (· :: []) (Token.lexeme_of_keyword hk), rfl⟩
  · rw [hk]
    exact .pure ⟨trivial, congrArg (· :: []) (Token.lexeme_of_keyword hk), rfl⟩
  · rw [hk]
    exact .pure ⟨trivial, congrArg (· :: []) (Token.lexeme_of_keyword hk), rfl⟩
  · rw [hk]
    exact .pure ⟨trivial, congrArg (· :: []) (Token.lexeme_of_identifier hk), rfl⟩

theorem meets_staticScalar :
    Meets standard.staticScalar c fun e w _ => e.IsScalar ∧ w = e.lexemes := by
  refine .peek_bind ?_
  split
  next h => exact (meets_primary h).mono fun e w k h => ⟨h.1, h.2.1⟩
  · exact .fail ⟨.name "x", [], .symbol ⟨.nowhere, .nowhere⟩ "x", rfl, trivial, rfl⟩

end Grammar

namespace Expr

/-- A well-formed expression that fits a context and is spelled by the lexemes, which begin with the
lexeme that the expression was entered on. -/
structure Reading (floor : Power) (start : Lexeme) (e : Expr) (w : List Lexeme) : Prop where
  wellFormed : e.WellFormed
  fits : e.Fits floor
  spelled : w = e.lexemes
  first : (Grammar.operandEntry start.kind).isSome → w.head? = some start

/-- A reading that no operator of the context goes on with. -/
def Read (floor : Power) (start : Lexeme) : Post Expr :=
  fun e w k => e.Reading floor start w ∧ k.Stops floor

/-- A reading that an operator may go on with, as tight as the expression allows. -/
def Grown (floor : Power) (start : Lexeme) : Post Expr :=
  fun e w k => e.Reading floor start w ∧ k.Stops e.limit

def Widened (floor : Power) (start : Lexeme) (v : List Lexeme) : Post Expr :=
  fun e w k => w ≠ [] ∧ e.Grown floor start (v ++ w) k

theorem IsScalar.level_eq {e : Expr} (h : e.IsScalar) : e.level = .primary := by
  cases e with
  | literal span value => rfl
  | symbol span name => rfl
  | _ => exact h.elim

theorem IsScalar.limit_eq {e : Expr} (h : e.IsScalar) : e.limit = .primary := by
  cases e with
  | literal span value => rfl
  | symbol span name => rfl
  | _ => exact h.elim

theorem fits_of_primary {e : Expr} {floor : Power} (hf : floor.rank ≤ Power.unary.rank)
    (h : e.level = .primary) : e.Fits floor := by
  refine .inl (Nat.lt_of_le_of_lt hf ?_)
  rw [h]
  decide

end Expr

namespace Grammar

open ScriptFrontend.Parser

section

variable {c : Cursor} {nested : Power → Parser Expr} {left : Expr} {floor power : Power}
variable {start : Lexeme} {v : List Lexeme}

abbrev NestedMeets (nested : Power → Parser Expr) (c : Cursor) : Prop :=
  ∀ floor (c₁ : Cursor), floor.rank ≤ Power.unary.rank → c₁.rest.length ≤ c.rest.length - 1 →
    Meets (nested floor) c₁ (Expr.Read floor c₁.current.lexeme)

theorem NestedMeets.of_le {c₁ : Cursor} (hn : NestedMeets nested c)
    (h : c₁.rest.length ≤ c.rest.length) : NestedMeets nested c₁ :=
  fun floor c₂ hf h₂ => hn floor c₂ hf (by omega)

theorem meets_unary (hk : operandEntry c.current.kind = some .unary) (hn : NestedMeets nested c) :
    Meets (unary nested) c (Expr.Grown floor c.current.lexeme) := by
  have hfixed := fixed_of_unary hk
  refine .advance_bind hfixed.ne_endOfInput fun c₁ h₁ => .bind (hn .unary c₁ (Nat.le_refl _) h₁) ?_
  rintro operand w c₂ ⟨⟨hwf, hfits, rfl, -⟩, hstop⟩ _
  refine .pure ⟨⟨⟨hk, hfits.unary_le_level, hwf⟩, .inr rfl, ?_, fun _ => rfl⟩, hstop⟩
  rw [List.append_nil, Token.lexeme_of_fixed hfixed rfl]
  rfl

theorem meets_group (hk : c.current.kind = .mark .openParen)
    (hf : floor.rank ≤ Power.unary.rank) (hn : NestedMeets nested c) :
    Meets (group nested) c (Expr.Grown floor c.current.lexeme) := by
  refine .here_bind <| .skip_bind (by rw [hk]; exact nofun) fun c₁ h₁ =>
    .bind (hn .lowest c₁ (Nat.zero_le _) h₁) ?_
  rintro inner w c₂ ⟨⟨hwf, -, rfl, -⟩, -⟩ _
  refine .require_bind trivial fun c₃ _ => .spanFrom_bind fun span =>
    .pure ⟨⟨hwf, Expr.fits_of_primary hf rfl, ?_, fun _ => rfl⟩, .primary _⟩
  rw [Token.lexeme_of_mark hk]
  rfl

theorem meets_operand (hf : floor.rank ≤ Power.unary.rank) (hn : NestedMeets nested c) :
    Meets (standard.operand nested) c (Expr.Grown floor c.current.lexeme) := by
  refine .peek_bind ?_
  dsimp only [standard]
  cases h : operandEntry c.current.kind with
  | none =>
      refine .fail ⟨.name "x", [], .symbol ⟨.nowhere, .nowhere⟩ "x", rfl, ⟨trivial, ?_, rfl, ?_⟩, ?_⟩
      · exact Expr.fits_of_primary hf rfl
      · intro hs
        rw [Token.kind_lexeme, h] at hs
        cases hs
      · exact .primary _
  | some rule =>
      cases rule with
      | primary =>
          refine (meets_primary (isStaticScalar_of_primary h)).mono ?_
          rintro e w k ⟨hscalar, rfl, hw⟩
          refine ⟨⟨hscalar.wellFormed, Expr.fits_of_primary hf hscalar.level_eq, rfl, ?_⟩, ?_⟩
          · intro _
            rw [hw]
            rfl
          · rw [hscalar.limit_eq]
            exact .primary k
      | unary => exact meets_unary h hn
      | group =>
          refine meets_group ?_ hf hn
          unfold operandEntry at h
          split at h <;> first | assumption | cases h

/-! ### Operators behind an operand -/

theorem meets_binary (hleft : left.Reading floor start v)
    (hk : operatorEntry c.current.kind = some (power, .binary))
    (hstop : c.current.kind.Stops left.limit) (hlt : floor.rank < power.rank)
    (hn : NestedMeets nested c) :
    Meets (binary nested left power) c (Expr.Widened floor start v) := by
  have hpower := rank_of_binary hk
  have hfixed := fixed_of_operatorEntry hk
  -- the operator did not go on inside the left operand, so it binds no tighter than that
  have hle : power.rank ≤ left.level.rank :=
    Nat.le_trans (hstop _ _ hk) left.limit_le_level
  refine .advance_bind hfixed.ne_endOfInput fun c₁ h₁ => .bind (hn power c₁ (Nat.le_of_lt hpower.2) h₁) ?_
  rintro right w c₂ ⟨⟨hwf, hfits, rfl, -⟩, hstop'⟩ _
  refine .pure ⟨List.cons_ne_nil _ _, ⟨⟨power, hk, hle, hfits.lt_level hpower.2,
    hleft.wellFormed, hwf⟩, .inl ?_, ?_, ?_⟩, ?_⟩
  · rwa [Expr.level_binary hk]
  · rw [List.append_nil, Token.lexeme_of_fixed hfixed rfl, hleft.spelled]
    rfl
  · intro hs
    rw [List.head?_append, hleft.first hs]
    rfl
  · rwa [Expr.limit_binary hk]

theorem meets_assign (hleft : left.Reading floor start v)
    (hk : c.current.kind = .mark .bind) (hstop : c.current.kind.Stops left.limit)
    (hlt : floor.rank < Power.assignment.rank) (hn : NestedMeets nested c) :
    Meets (assign nested left) c (Expr.Widened floor start v) := by
  rw [hk] at hstop
  have hle := hleft.wellFormed.assignment_lt_level (hstop _ _ rfl)
  refine .skip_bind (by rw [hk]; exact nofun) fun c₁ h₁ =>
    .bind (hn .lowest c₁ (Nat.zero_le _) h₁) ?_
  rintro value w c₂ ⟨⟨hwf, -, rfl, -⟩, hstop'⟩ _
  refine .pure ⟨List.cons_ne_nil _ _, ⟨⟨hle, hleft.wellFormed, hwf⟩, .inl hlt, ?_, ?_⟩, hstop'⟩
  · rw [List.append_nil, Token.lexeme_of_mark hk, hleft.spelled]
    rfl
  · intro hs
    rw [List.head?_append, hleft.first hs]
    rfl

theorem meets_call (hf : floor.rank ≤ Power.unary.rank) (hleft : left.Reading floor start v)
    (hk : c.current.kind = .mark .openParen) (hstop : c.current.kind.Stops left.limit)
    (hn : NestedMeets nested c) :
    Meets (standard.call nested left) c (Expr.Widened floor start v) := by
  rw [hk] at hstop
  have hle : Power.unary.rank < left.level.rank :=
    Nat.lt_of_lt_of_le (by decide : _ < Power.call.rank)
      (Nat.le_trans (hstop _ _ rfl) left.limit_le_level)
  refine .skip_bind (by rw [hk]; exact nofun) fun c₁ h₁ => ?_
  refine .bind (.optional fun _ => .separated (G := Expr.WellFormed) fun c₂ h₂ =>
    (hn .lowest c₂ (Nat.zero_le _) (by omega)).mono fun e w k h =>
      ⟨h.1.wellFormed, h.1.spelled⟩) fun arguments w c₂ ha _ => ?_
  have ha' : Expr.WellFormedEach (arguments.getD []) ∧
      w = [Lexeme.mark .comma].intercalate (Expr.lexemesEach (arguments.getD [])) := by
    rw [Expr.wellFormedEach_iff, Expr.lexemesEach_eq_map]
    cases arguments with
    | none => exact ⟨nofun, ha.1⟩
    | some es => exact ha.2
  obtain ⟨hwf, rfl⟩ := ha'
  refine .require_bind trivial fun c₃ _ => .spanFrom_bind fun span =>
    .pure ⟨List.cons_ne_nil _ _,
      ⟨⟨hle, hleft.wellFormed, hwf⟩, Expr.fits_of_primary hf rfl, ?_, ?_⟩, .primary _⟩
  · rw [Token.lexeme_of_mark hk, hleft.spelled]
    rfl
  · intro hs
    rw [List.head?_append, hleft.first hs]
    rfl

theorem meets_member (hf : floor.rank ≤ Power.unary.rank) (hleft : left.Reading floor start v)
    (hk : c.current.kind = .mark .dot) (hstop : c.current.kind.Stops left.limit) :
    Meets (member left) c (Expr.Widened floor start v) := by
  rw [hk] at hstop
  have hle : Power.unary.rank < left.level.rank :=
    Nat.lt_of_lt_of_le (by decide : _ < Power.member.rank)
      (Nat.le_trans (hstop _ _ rfl) left.limit_le_level)
  refine .skip_bind (by rw [hk]; exact nofun) fun c₁ h₁ =>
    .bind (.expect (u := .name "x") rfl (by decide)) ?_
  rintro property w c₂ ⟨hp, rfl⟩ _
  refine .pure ⟨List.cons_ne_nil _ _,
    ⟨⟨hle, hleft.wellFormed⟩, Expr.fits_of_primary hf rfl, ?_, ?_⟩, .primary _⟩
  · rw [Token.lexeme_of_mark hk, Token.lexeme_of_identifier hp, hleft.spelled]
    rfl
  · intro hs
    rw [List.head?_append, hleft.first hs]
    rfl

theorem meets_operatorOf {rule : OperatorRule} (hf : floor.rank ≤ Power.unary.rank)
    (hleft : left.Reading floor start v)
    (hk : operatorEntry c.current.kind = some (power, rule))
    (hstop : c.current.kind.Stops left.limit) (hlt : floor.rank < power.rank)
    (hn : NestedMeets nested c) :
    Meets (standard.operatorOf nested left power rule) c (Expr.Widened floor start v) := by
  rcases operatorEntry_cases hk with ⟨rfl, hkind, rfl⟩ | ⟨rfl, -⟩ | ⟨rfl, hkind, -⟩ | ⟨rfl, hkind, -⟩
  · exact meets_assign hleft hkind hstop hlt hn
  · exact meets_binary hleft hk hstop hlt hn
  · exact meets_call hf hleft hkind hstop hn
  · exact meets_member hf hleft hkind hstop

/-- The invariant of the loop: what stands on the left is a reading of its own, and the next operator
may go on with it. -/
theorem meets_extend (hf : floor.rank ≤ Power.unary.rank) (hleft : left.Reading floor start v)
    (hstop : c.current.kind.Stops left.limit) (hn : NestedMeets nested c) :
    Meets (standard.extend nested floor left) c ((Expr.Read floor start).after v) := by
  generalize hl : c.rest.length = n
  induction n using Nat.strongRecOn generalizing c left v with
  | ind n ih =>
      by_cases hstopped : c.current.kind.Stops floor
      · refine .congr (q := pure left) (extend_of_stop (Kind.stops_iff_power.1 hstopped))
          (.pure ⟨?_, hstopped⟩)
        rwa [List.append_nil]
      · obtain ⟨power, rule, hk, hlt⟩ := Kind.not_stops_iff.1 hstopped
        have hop := meets_operatorOf hf hleft hk hstop hlt hn
        intro hc
        have hpos := List.length_pos_iff.2 (hc.rest_ne_nil (fixed_of_operatorEntry hk).ne_endOfInput)
        suffices h : Meets
            (standard.operatorOf nested left power rule >>= standard.extend nested floor) c
            ((Expr.Read floor start).after v) by
          refine Meets.congr ?_ h hc
          have hmoved := hop hc
          rw [extend_of_operator (standard_power hk) (Nat.not_le_of_lt hlt)
            (standard_operatorRule hk)]
          cases hoc : standard.operatorOf nested left power rule c with
          | error e d => rw [bind_of_error hoc]
          | ok wider d =>
              rw [hoc] at hmoved
              obtain ⟨w, hw, hwne, -⟩ := hmoved
              have := hw.length
              have := List.length_pos_iff.2 hwne
              rw [bind_of_ok hoc]
              exact if_pos (by omega)
        refine .bind hop fun wider w c₁ hwider h₁ => ?_
        obtain ⟨hwne, hread, hstop₁⟩ := hwider
        have := List.length_pos_iff.2 hwne
        have hmore := @ih c₁.rest.length (by omega) c₁ wider (v ++ w) hread hstop₁
          (hn.of_le (by omega)) rfl
        refine hmore.mono fun e u k h => ?_
        rwa [Post.after, List.append_assoc] at h

theorem meets_expressionWith (hf : floor.rank ≤ Power.unary.rank) (hn : NestedMeets nested c) :
    Meets (standard.expressionWith nested floor) c (Expr.Read floor c.current.lexeme) := by
  refine .bind (meets_operand hf hn) fun left v c₁ hleft h₁ => ?_
  exact meets_extend hf hleft.1 hleft.2 (hn.of_le (by omega))

end

variable {floor : Power}

theorem meets_expressionUpTo (n : Nat) :
    ∀ (floor : Power) (c : Cursor), floor.rank ≤ Power.unary.rank → c.rest.length ≤ n →
      Meets (standard.expressionUpTo n floor) c (Expr.Read floor c.current.lexeme) := by
  induction n with
  | zero =>
      intro floor c hf hl hc
      have hk := hc.kind_of_rest_nil (List.length_eq_zero_iff.1 (Nat.le_zero.1 hl))
      refine Meets.fail ⟨.name "x", [], .symbol ⟨.nowhere, .nowhere⟩ "x", rfl,
        ⟨trivial, Expr.fits_of_primary hf rfl, rfl, ?_⟩, .of_none rfl⟩ hc
      intro hs
      rw [Token.kind_lexeme, hk] at hs
      cases hs
  | succ n ih =>
      intro floor c hf hl
      exact meets_expressionWith hf fun floor c₁ hf₁ h₁ => ih floor c₁ hf₁ (by omega)

theorem meets_expression (hf : floor.rank ≤ Power.unary.rank) :
    Meets (standard.expression floor) c (Expr.Read floor c.current.lexeme) :=
  .congr (q := standard.expressionUpTo (c.rest.length + 1) floor) rfl
    (meets_expressionUpTo _ floor c hf (Nat.le_succ _))

end Grammar

end ScriptFrontend
