import ScriptFrontend.Grammar.Statement
import ScriptFrontend.Proofs.Soundness.Expression

/-!
Soundness of statements and programs.

A list of statements reads one statement after the other, each up to a token that it does not go on
with.  That token starts the next statement or ends the list, so neighbours can stand side by side.
-/

namespace ScriptFrontend

theorem Kind.Stops.not_opens {k : Kind} (h : k.Stops .lowest) :
    ¬ (k = .mark .dash ∨ k = .mark .openParen) := by
  rintro (rfl | rfl)
  · exact absurd (h .additive .binary rfl) (by decide)
  · exact absurd (h .call .call rfl) (by decide)

/-- A well-formed statement that its lexemes spell, which the kind behind it does not go on with, and
which starts with the kind it was entered on if it is an expression. -/
structure Stmt.Reading (start : Kind) (s : Stmt) (w : List Lexeme) (k : Kind) : Prop where
  wellFormed : s.WellFormed
  spelled : s.Spelled w
  stops : ¬ s.Takes k
  first : (Grammar.operandEntry s.first).isSome → s.first = start

def Stmt.InnerReading (start : Kind) : Post Stmt :=
  fun s w k => s.Nests ∧ s.Reading start w k

namespace Grammar

open ScriptFrontend.Parser

variable {c : Cursor}

/-! ### Declarations -/

theorem meets_classDecl :
    Meets standard.classDecl c (Stmt.InnerReading c.current.kind) := by
  refine .here_bind <| .accept_bind trivial fun native c₁ _ => .bind meets_classCategory ?_
  rintro category w c₂ rfl _
  refine meets_identifier_bind fun name c₃ _ => .bind (meets_announced trivial) ?_
  rintro base w c₄ rfl _
  refine .bind (.after? trivial fun c₅ _ => meets_interfaces) fun interfaces u c₅ hu _ => ?_
  have hu' : InterfacesSpelled (interfaces.getD []) u := by
    cases interfaces with
    | none => exact hu.1
    | some names =>
        obtain ⟨v, rfl, hv⟩ := hu
        exact hv
  refine .bind (Meets.many (S := fun s w => True ∧ w = s.lexemes) rfl fun c₆ _ _ =>
    meets_signature.mono fun s w k h => ⟨h ▸ (s.startsSignature_front k).1, trivial, h⟩)
    fun signatures v c₆ hv _ => ?_
  obtain ⟨-, rfl⟩ := hv.of_lexemes
  refine .require_bind trivial fun c₇ _ => .spanFrom_bind fun span =>
    .pure ⟨trivial, trivial, ⟨u, hu', rfl⟩, id, fun h => ?_⟩
  obtain ⟨_, _, h⟩ := Stmt.first_operandEntry h
  cases h

theorem meets_moduleDecl :
    Meets standard.moduleDecl c (Stmt.Reading c.current.kind) := by
  refine .here_bind <| .require_bind trivial fun c₁ _ => .bind (meets_names _) ?_
  rintro segments w c₂ ⟨hne, rfl⟩ _
  exact .spanFrom_bind fun span => .pure ⟨hne, congrArg _ (List.append_nil _), id, nofun⟩

theorem meets_openDecl :
    Meets standard.openDecl c (Stmt.Reading c.current.kind) := by
  refine .here_bind <| .require_bind trivial fun c₁ _ => .bind (meets_names _) ?_
  rintro segments w c₂ ⟨hne, rfl⟩ _
  refine .bind (meets_announced trivial) ?_
  rintro rename w c₃ rfl _
  refine .spanFrom_bind fun span => .pure ⟨hne, ?_, id, nofun⟩
  rw [List.append_nil]
  rfl

theorem meets_constDecl :
    Meets standard.constDecl c (Stmt.Reading c.current.kind) := by
  refine .here_bind <| .require_bind trivial fun c₁ _ => meets_identifier_bind fun name c₂ _ =>
    .require_bind trivial fun c₃ _ => .bind meets_staticScalar ?_
  rintro value w c₄ ⟨hscalar, rfl⟩ _
  refine .spanFrom_bind fun span => .pure ⟨hscalar, ?_, id, nofun⟩
  rw [List.append_nil]
  rfl

/-! ### Statements -/

theorem meets_levels :
    Meets levels c fun levels w k => LevelsSpelled levels w ∧ (levels = none → k ≠ .number) := by
  refine .peek_bind ?_
  split
  next hk =>
    split
    · exact .fail ⟨.number "1", [], some 1, ⟨"1", rfl, rfl⟩, ⟨"1", rfl, rfl⟩, nofun⟩
    next n hn =>
      refine .skip_bind (by rw [hk]; exact nofun) fun c₁ _ => .pure ⟨⟨_, hn, ?_⟩, nofun⟩
      rw [Token.lexeme_of_number hk]
      rfl
  next hk => exact .pure ⟨rfl, fun _ => hk⟩

theorem meets_printStmt (hk : c.current.kind = .keyword .print) :
    Meets standard.printStmt c (Stmt.InnerReading c.current.kind) := by
  refine .here_bind <| .skip_bind (by rw [hk]; exact nofun) fun c₁ _ =>
    .bind (meets_expression (Nat.zero_le _)) ?_
  rintro value w c₂ ⟨⟨hwf, -, rfl, -⟩, hstop⟩ _
  refine .spanFrom_bind fun span => .pure ⟨trivial, hwf, ?_, hstop.not_opens, nofun⟩
  rw [Token.lexeme_of_keyword hk, List.append_nil]
  rfl

theorem meets_raiseStmt (hk : c.current.kind = .keyword .raise) :
    Meets standard.raiseStmt c (Stmt.InnerReading c.current.kind) := by
  refine .here_bind <| .skip_bind (by rw [hk]; exact nofun) fun c₁ _ =>
    .bind (meets_expression (Nat.zero_le _)) ?_
  rintro value w c₂ ⟨⟨hwf, -, rfl, -⟩, hstop⟩ _
  refine .spanFrom_bind fun span => .pure ⟨trivial, hwf, ?_, hstop.not_opens, nofun⟩
  rw [Token.lexeme_of_keyword hk, List.append_nil]
  rfl

theorem meets_returnStmt (hk : c.current.kind = .keyword .return_) :
    Meets standard.returnStmt c (Stmt.InnerReading c.current.kind) := by
  refine .here_bind <| .skip_bind (by rw [hk]; exact nofun) fun c₁ _ =>
    .bind (.optional fun _ => meets_expression (Nat.zero_le _)) ?_
  rw [Token.lexeme_of_keyword hk]
  rintro (_ | value) w c₂ h _
  · obtain ⟨rfl, hstop⟩ := h
    refine .spanFrom_bind fun span => .pure ⟨trivial, trivial, rfl, fun htakes => ?_, nofun⟩
    rw [startsExpression] at hstop
    exact Bool.false_ne_true (hstop.symm.trans htakes)
  · obtain ⟨⟨hwf, -, rfl, -⟩, hstop⟩ := h
    refine .spanFrom_bind fun span => .pure ⟨trivial, hwf, ?_, hstop.not_opens, nofun⟩
    rw [List.append_nil]
    rfl

theorem meets_breakStmt (hk : c.current.kind = .keyword .break_) :
    Meets breakStmt c (Stmt.InnerReading c.current.kind) := by
  refine .here_bind <| .skip_bind (by rw [hk]; exact nofun) fun c₁ _ =>
    .bind meets_levels fun levels w c₂ h _ => ?_
  rw [Token.lexeme_of_keyword hk]
  refine .spanFrom_bind fun span => .pure ⟨trivial, trivial, ⟨w, h.1, ?_⟩, ?_, nofun⟩
  · rw [List.append_nil]
    rfl
  · cases levels with
    | none => exact h.2 rfl
    | some n => exact id

theorem meets_continueStmt (hk : c.current.kind = .keyword .continue_) :
    Meets continueStmt c (Stmt.InnerReading c.current.kind) := by
  refine .here_bind <| .skip_bind (by rw [hk]; exact nofun) fun c₁ _ =>
    .bind meets_levels fun levels w c₂ h _ => ?_
  rw [Token.lexeme_of_keyword hk]
  refine .spanFrom_bind fun span => .pure ⟨trivial, trivial, ⟨w, h.1, ?_⟩, ?_, nofun⟩
  · rw [List.append_nil]
    rfl
  · cases levels with
    | none => exact h.2 rfl
    | some n => exact id

theorem meets_gotoStmt (hk : c.current.kind = .keyword .goto) :
    Meets standard.gotoStmt c (Stmt.InnerReading c.current.kind) := by
  refine .here_bind <| .skip_bind (by rw [hk]; exact nofun) fun c₁ _ =>
    meets_identifier_bind fun label c₂ _ => ?_
  rw [Token.lexeme_of_keyword hk]
  exact .spanFrom_bind fun span => .pure ⟨trivial, trivial, rfl, id, nofun⟩

theorem meets_labelStmt (hk : c.current.kind = .keyword .label) :
    Meets standard.labelStmt c (Stmt.InnerReading c.current.kind) := by
  refine .here_bind <| .skip_bind (by rw [hk]; exact nofun) fun c₁ _ =>
    meets_identifier_bind fun name c₂ _ => ?_
  rw [Token.lexeme_of_keyword hk]
  exact .spanFrom_bind fun span => .pure ⟨trivial, trivial, rfl, id, nofun⟩

theorem meets_globalStmt (hk : c.current.kind = .keyword .global) :
    Meets standard.globalStmt c (Stmt.InnerReading c.current.kind) := by
  refine .here_bind <| .skip_bind (by rw [hk]; exact nofun) fun c₁ _ => .bind (meets_names _) ?_
  rintro names w c₂ ⟨hne, rfl⟩ _
  refine .spanFrom_bind fun span => .pure ⟨trivial, hne, ?_, id, nofun⟩
  rw [Token.lexeme_of_keyword hk, List.append_nil]
  rfl

/-! ### Statements that hold statements -/

section

variable {nested : Parser (List Stmt)}

abbrev BodyMeets (nested : Parser (List Stmt)) (c : Cursor) : Prop :=
  ∀ c₁ : Cursor, c₁.rest.length ≤ c.rest.length - 1 →
    Meets nested c₁ fun ss w _ => BodyWellFormed ss ∧ SpelledEach ss w

theorem BodyMeets.of_le {c₁ : Cursor} (hn : BodyMeets nested c)
    (h : c₁.rest.length ≤ c.rest.length) : BodyMeets nested c₁ :=
  fun c₂ h₂ => hn c₂ (by omega)

theorem meets_body (hn : BodyMeets nested c) :
    Meets (body nested) c fun ss w _ => BodyWellFormed ss ∧ Bracketed (SpelledEach ss) w := by
  refine .require_bind trivial fun c₁ h₁ => .bind (hn c₁ h₁) fun ss v c₂ h _ => ?_
  refine .skipIf_bind trivial fun ended c₃ _ => .require_bind trivial fun c₄ _ =>
    .pure ⟨h.1, v, ended, h.2, rfl⟩

theorem meets_blockStmt (hk : c.current.kind = .keyword .begin_) (hn : BodyMeets nested c) :
    Meets (blockStmt nested) c (Stmt.InnerReading c.current.kind) := by
  refine .here_bind <| .skip_bind (by rw [hk]; exact nofun) fun c₁ h₁ =>
    .bind (hn c₁ h₁) fun ss v c₂ h _ => ?_
  rw [Token.lexeme_of_keyword hk]
  exact .require_bind trivial fun c₃ _ => .spanFrom_bind fun span =>
    .pure ⟨trivial, h.1, ⟨v, h.2, rfl⟩, id, nofun⟩

theorem meets_whileStmt (hk : c.current.kind = .keyword .while_) (hn : BodyMeets nested c) :
    Meets (standard.whileStmt nested) c (Stmt.InnerReading c.current.kind) := by
  refine .here_bind <| .skip_bind (by rw [hk]; exact nofun) fun c₁ h₁ =>
    .bind (meets_expression (Nat.zero_le _)) ?_
  rintro condition w c₂ ⟨⟨hwf, -, rfl, -⟩, -⟩ h₂
  refine .bind (meets_body (hn.of_le (by omega))) fun ss v c₃ h _ => ?_
  rw [Token.lexeme_of_keyword hk]
  refine .spanFrom_bind fun span => .pure ⟨trivial, ⟨hwf, h.1⟩, ⟨v, h.2, ?_⟩, id, nofun⟩
  rw [List.append_nil]
  rfl

theorem meets_foreachStmt (hk : c.current.kind = .keyword .foreach) (hn : BodyMeets nested c) :
    Meets (standard.foreachStmt nested) c (Stmt.InnerReading c.current.kind) := by
  refine .here_bind <| .skip_bind (by rw [hk]; exact nofun) fun c₁ h₁ =>
    .accept_bind trivial fun byReference c₂ h₂ => meets_identifier_bind fun name c₃ h₃ =>
    .require_bind trivial fun c₄ h₄ => .bind (meets_expression (Nat.zero_le _)) ?_
  rintro iterable w c₅ ⟨⟨hwf, -, rfl, -⟩, -⟩ h₅
  refine .bind (meets_body (hn.of_le (by omega))) fun ss v c₆ h _ => ?_
  rw [Token.lexeme_of_keyword hk]
  refine .spanFrom_bind fun span => .pure ⟨trivial, ⟨hwf, h.1⟩, ⟨v, h.2, ?_⟩, id, nofun⟩
  rw [List.append_nil]
  rfl

theorem meets_defDecl (hn : BodyMeets nested c) :
    Meets (standard.defDecl nested) c (Stmt.InnerReading c.current.kind) := by
  refine .here_bind <| .require_bind trivial fun c₁ h₁ =>
    .accept_bind trivial fun byReference c₂ h₂ => meets_identifier_bind fun name c₃ h₃ =>
    .bind meets_parameters fun ps u c₄ hps h₄ => ?_
  refine .bind (meets_body (hn.of_le (by omega))) fun ss v c₅ h _ => ?_
  refine .spanFrom_bind fun span => .pure ⟨trivial, h.1, ⟨u, v, hps, h.2, ?_⟩, id, nofun⟩
  rw [List.append_nil]
  rfl

def Branch (b : Expr × List Stmt) (w : List Lexeme) : Prop :=
  b.1.WellFormed ∧ BodyWellFormed b.2 ∧
    ∃ u, Bracketed (SpelledEach b.2) u ∧ w = .keyword .elif :: (b.1.lexemes ++ u)

theorem meets_elifBranch (hk : c.current.kind = .keyword .elif) (hn : BodyMeets nested c) :
    Meets (standard.elifBranch nested) c fun b w _ => w ≠ [] ∧ Branch b w := by
  refine .skip_bind (by rw [hk]; exact nofun) fun c₁ h₁ =>
    .bind (meets_expression (Nat.zero_le _)) ?_
  rintro condition w c₂ ⟨⟨hwf, -, rfl, -⟩, -⟩ h₂
  refine .bind (meets_body (hn.of_le (by omega))) fun ss v c₃ h _ => ?_
  rw [Token.lexeme_of_keyword hk]
  refine .pure ⟨List.cons_ne_nil _ _, hwf, h.1, v, h.2, ?_⟩
  rw [List.append_nil]
  rfl

/-- The branches of an `if` and its last body as a chain. -/
theorem chain_of_branches {branches : List (Expr × List Stmt)} {v w : List Lexeme} {k : Kind}
    {last : ElseChain} (hb : Post.Items (fun b w _ => Branch b w) branches v k)
    (hl : last.WellFormed ∧ last.Spelled w) :
    (branches.foldr (fun b => .elif b.1 b.2) last).WellFormed ∧
      (branches.foldr (fun b => .elif b.1 b.2) last).Spelled (v ++ w) := by
  induction hb with
  | nil k => exact hl
  | cons hb _ ih =>
      obtain ⟨hwf, hbody, u, hu, rfl⟩ := hb
      refine ⟨⟨hwf, hbody, ih.1⟩, u, _, hu, ih.2, ?_⟩
      rw [List.cons_append, List.cons_append, List.append_assoc, List.append_assoc]

theorem meets_else (hn : BodyMeets nested c) :
    Meets (after? (.keyword .else_) (body nested)) c fun last w _ =>
      ((last.map ElseChain.otherwise).getD .done).WellFormed ∧
        ((last.map ElseChain.otherwise).getD .done).Spelled w := by
  refine (Meets.after? (k := .keyword .else_) trivial fun c₁ h₁ => meets_body (hn.of_le (by omega))).mono ?_
  rintro (_ | ss) w k h
  · exact ⟨trivial, h.1⟩
  · obtain ⟨v, rfl, hwf, hv⟩ := h
    exact ⟨hwf, v, hv, rfl⟩

theorem meets_ifStmt (hk : c.current.kind = .keyword .if_) (hn : BodyMeets nested c) :
    Meets (standard.ifStmt nested) c (Stmt.InnerReading c.current.kind) := by
  refine .here_bind <| .skip_bind (by rw [hk]; exact nofun) fun c₁ h₁ =>
    .bind (meets_expression (Nat.zero_le _)) ?_
  rintro condition w c₂ ⟨⟨hwf, -, rfl, -⟩, -⟩ h₂
  refine .bind (meets_body (hn.of_le (by omega))) fun ss u c₃ h h₃ => ?_
  refine .bind (Meets.many (S := Branch) rfl fun c₄ h₄ hst => ?_) fun branches v c₄ hb h₄ => ?_
  · exact meets_elifBranch (of_decide_eq_true hst) (hn.of_le (by omega))
  refine .bind (meets_else (hn.of_le (by omega))) fun last v' c₅ hl _ => ?_
  have hchain := chain_of_branches hb hl
  rw [Token.lexeme_of_keyword hk]
  refine .spanFrom_bind fun span =>
    .pure ⟨trivial, ⟨hwf, h.1, hchain.1⟩, ⟨u, _, h.2, hchain.2, ?_⟩, id, nofun⟩
  rw [List.append_nil]
  rfl

/-! ### Any statement -/

theorem meets_expressionStmt (hs : (operandEntry c.current.kind).isSome) :
    Meets standard.expressionStmt c (Stmt.InnerReading c.current.kind) := by
  refine .bind (meets_expression (Nat.zero_le _)) ?_
  rintro e w c₁ ⟨⟨hwf, -, rfl, hfirst⟩, hstop⟩ _
  refine .pure ⟨trivial, hwf, List.append_nil _, hstop.not_opens, fun _ => ?_⟩
  have hhead := hfirst (by rwa [Token.kind_lexeme])
  have := e.front_lexemes .endOfInput
  rw [Lexeme.front_of_head? hhead, Token.kind_lexeme] at this
  exact this.symm

theorem meets_statementWith (hs : standard.startsStatement c.current.kind = true)
    (hn : BodyMeets nested c) :
    Meets (standard.statementWith nested) c (Stmt.InnerReading c.current.kind) := by
  refine .peek_bind ?_
  dsimp only [standard]
  cases h : statementEntry c.current.kind with
  | none =>
      refine meets_expressionStmt ?_
      change ((statementEntry c.current.kind).isSome || _) = true at hs
      rwa [h] at hs
  | some rule =>
      unfold statementEntry at h
      split at h <;> cases h
      case h_1 hk => exact meets_printStmt hk
      case h_2 hk => exact meets_raiseStmt hk
      case h_3 hk => exact meets_returnStmt hk
      case h_4 hk => exact meets_breakStmt hk
      case h_5 hk => exact meets_continueStmt hk
      case h_6 hk => exact meets_gotoStmt hk
      case h_7 hk => exact meets_labelStmt hk
      case h_8 hk => exact meets_globalStmt hk
      case h_9 hk => exact meets_blockStmt hk hn
      case h_10 hk => exact meets_ifStmt hk hn
      case h_11 hk => exact meets_whileStmt hk hn
      case h_12 hk => exact meets_foreachStmt hk hn

theorem meets_innerWith (hs : standard.startsInner c.current.kind = true)
    (hn : BodyMeets nested c) :
    Meets (standard.innerWith nested) c (Stmt.InnerReading c.current.kind) := by
  refine .peek_bind ?_
  change Meets (if standard.startsStatement c.current.kind then _ else _) c _
  split
  next h => exact meets_statementWith h hn
  next h =>
    split
    · exact meets_defDecl hn
    next hdef =>
      split
      · exact meets_classDecl
      next hclass => simp [startsInner, h, hdef, hclass] at hs

theorem meets_topWith (hs : standard.startsTop c.current.kind = true) (hn : BodyMeets nested c) :
    Meets (standard.topWith nested) c (Stmt.Reading c.current.kind) := by
  refine .peek_bind ?_
  change Meets (if standard.startsStatement c.current.kind then _ else _) c _
  split
  next h => exact (meets_statementWith h hn).mono fun s w k h => h.2
  next h =>
    split
    · exact meets_classDecl.mono fun s w k h => h.2
    next hclass =>
      split
      · exact (meets_defDecl hn).mono fun s w k h => h.2
      · exact meets_moduleDecl
      · exact meets_openDecl
      · exact meets_constDecl
      next hdef hmodule hopen hconst =>
        simp [startsTop, h, hclass] at hs

end

/-! ### Lists of statements -/

/-- A list of readings is well formed and spelled by the lexemes of its items. -/
theorem wellFormedEach_of_items {N : Stmt → Prop} {ss : List Stmt} {w : List Lexeme} {k : Kind}
    (h : Post.Items (fun s w k => N s ∧ s.WellFormed ∧ s.Spelled w ∧ ¬ s.Takes k) ss w k) :
    (∀ s ∈ ss, N s) ∧ WellFormedEach ss ∧ SpelledEach ss w := by
  induction h with
  | nil k => exact ⟨nofun, trivial, rfl⟩
  | @cons s ss v w k hs _ ih =>
      obtain ⟨hN, hwf, hspelled, hstop⟩ := hs
      obtain ⟨hNs, hwfs, hspelleds⟩ := ih
      refine ⟨List.forall_mem_cons.2 ⟨hN, hNs⟩, ⟨hwf, fun t ht => ?_, hwfs⟩,
        v, w, hspelled, hspelleds, rfl⟩
      rw [Option.mem_def] at ht
      rw [hspelleds.front, ht] at hstop
      exact Stmt.mayPrecede_iff.2 hstop

/-- A statement that is completed in another way than the one that was read either begins with the
same kind or starts no expression, so the statement before it does not go on with it. -/
theorem meets_each {starts : Kind → Bool} {p : Parser Stmt} {N : Stmt → Prop}
    (hend : starts .endOfInput = false)
    (hp : ∀ c₁ : Cursor, c₁.rest.length ≤ c.rest.length → starts c₁.current.kind = true →
      Meets p c₁ fun s w k => N s ∧ s.Reading c₁.current.kind w k) :
    Meets (many starts p) c fun ss w k =>
      starts k = false ∧ (∀ s ∈ ss, N s) ∧ WellFormedEach ss ∧ SpelledEach ss w := by
  refine (Meets.many_joining (R := fun k k' => (operandEntry k').isSome → k' = k)
    (P := fun s w k => N s ∧ s.WellFormed ∧ s.Spelled w ∧ ¬ s.Takes k) hend ?_ ?_).mono
    fun ss w k h => ⟨h.1, wellFormedEach_of_items h.2⟩
  · intro s v k k' hs hk
    obtain ⟨hN, hwf, hspelled, hstop⟩ := hs
    refine ⟨hN, hwf, hspelled, fun ht => hstop ?_⟩
    rwa [← hk ht.operandEntry_isSome]
  · intro c₁ h₁ hst
    refine (hp c₁ h₁ hst).mono fun s w k h => ?_
    obtain ⟨hN, hread⟩ := h
    obtain ⟨hne, hfront⟩ := hread.spelled.front .endOfInput
    refine ⟨⟨hne, ?_⟩, hN, hread.wellFormed, hread.spelled, hread.stops⟩
    rw [hfront]
    exact hread.first

theorem meets_statementsUpTo (n : Nat) :
    ∀ c : Cursor, c.rest.length ≤ n →
      Meets (standard.statementsUpTo n) c fun ss w _ => BodyWellFormed ss ∧ SpelledEach ss w := by
  induction n with
  | zero =>
      intro c _
      exact .pure ⟨⟨nofun, trivial⟩, rfl⟩
  | succ n ih =>
      intro c hl
      refine (meets_each (N := Stmt.Nests) rfl fun c₁ h₁ hst => ?_).mono
        fun ss w k h => ⟨⟨h.2.1, h.2.2.1⟩, h.2.2.2⟩
      exact meets_innerWith hst fun c₂ h₂ => ih c₂ (by omega)

theorem meets_statements :
    Meets standard.statements c fun ss w _ => BodyWellFormed ss ∧ SpelledEach ss w :=
  .congr (q := standard.statementsUpTo (c.rest.length + 1)) rfl
    (meets_statementsUpTo _ c (Nat.le_succ _))

theorem meets_top (hs : standard.startsTop c.current.kind = true) :
    Meets standard.top c (Stmt.Reading c.current.kind) :=
  meets_topWith hs fun _ _ => meets_statements

/-- A program is read up to the end of input.  Wherever it stops short of it, a statement could have
followed. -/
theorem meets_program :
    Meets standard.program c fun ss w k =>
      k = .endOfInput ∧ WellFormedEach ss ∧ SpelledEach ss w := by
  refine .bind (meets_each (N := fun _ => True) rfl fun c₁ _ hst =>
    (meets_top hst).mono fun s w k h => ⟨trivial, h⟩) fun ss w c₁ h _ => .peek_bind ?_
  obtain ⟨-, -, hwf, hspelled⟩ := h
  split
  next hk =>
    refine .pure ⟨hk, hwf, ?_⟩
    rwa [List.append_nil]
  · have hlabel : SpelledEach [.label ⟨.nowhere, .nowhere⟩ "x"] [.keyword .label, .name "x"] :=
      ⟨[.keyword .label, .name "x"], [], rfl, rfl, rfl⟩
    refine .fail ⟨.keyword .label, [.name "x"], _, rfl, rfl, ?_, hspelled.append hlabel⟩
    refine hwf.append ⟨trivial, nofun, trivial⟩ fun s _ t ht => ?_
    cases ht
    trivial

end Grammar

end ScriptFrontend
