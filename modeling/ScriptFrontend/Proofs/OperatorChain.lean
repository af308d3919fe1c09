import ScriptFrontend.Proofs.Completeness.Expression
import ScriptFrontend.Proofs.Soundness.Expression
import ScriptFrontend.Proofs.Unplaced

/-!
Operator sequences.

A sequence of operands with operators between them is defined without a tree and without binding
powers: it only alternates.  Every such sequence is spelled by a well-formed expression, which is
built from the left: the operator and the operand at the end of a sequence go into the right end of
the tree of what stands before them, below every operator that binds less tightly.  The parser reads
what well-formed expressions spell, so it reads every sequence, and since it returns one tree, there
is no other.
-/

namespace ScriptFrontend

def Kind.Joins (k : Kind) (power : Power) : Prop :=
  Grammar.operatorEntry k = some (power, .binary) ∨ Grammar.operatorEntry k = some (power, .assign)

/-- The parts of an operator sequence. -/
inductive Stretch
  /-- A literal, a name or a sequence in parentheses, with members and calls behind it. -/
  | core
  /-- A core with prefix operators before it. -/
  | operand
  /-- Operands with operators between them. -/
  | chain

/-- The lexemes of each part of an operator sequence. -/
inductive Flat : Stretch → List Lexeme → Prop
  | primary {l : Lexeme} : Grammar.operandEntry l.kind = some .primary → Flat .core [l]
  | group {w : List Lexeme} :
      Flat .chain w → Flat .core (.mark .openParen :: (w ++ [.mark .closeParen]))
  | member {w : List Lexeme} (property : String) :
      Flat .core w → Flat .core (w ++ [.mark .dot, .name property])
  | call {w : List Lexeme} {arguments : List (List Lexeme)} :
      Flat .core w → (∀ v ∈ arguments, Flat .chain v) →
      Flat .core (w ++ .mark .openParen ::
        ([Lexeme.mark .comma].intercalate arguments ++ [.mark .closeParen]))
  | bare {w : List Lexeme} : Flat .core w → Flat .operand w
  | unary {l : Lexeme} {w : List Lexeme} :
      Grammar.operandEntry l.kind = some .unary → Flat .operand w → Flat .operand (l :: w)
  | single {w : List Lexeme} : Flat .operand w → Flat .chain w
  | joined {l : Lexeme} {power : Power} {v w : List Lexeme} :
      Flat .chain v → l.kind.Joins power → Flat .operand w → Flat .chain (v ++ l :: w)

def Stretch.Holds : Stretch → Expr → Prop
  | core, e => Power.unary.rank < e.level.rank
  | operand, e => Power.unary.rank ≤ e.level.rank
  | chain, _ => True

namespace Kind.Joins

variable {k : Kind} {power : Power}

theorem operatorEntry (h : k.Joins power) :
    Grammar.operatorEntry k = some (power, .binary) ∨ (k = .mark .bind ∧ power = .assignment) := by
  refine h.imp id fun h => ?_
  rcases Grammar.operatorEntry_cases h with ⟨-, h⟩ | ⟨h, -⟩ | ⟨h, -⟩ | ⟨h, -⟩
  · exact h
  all_goals cases h

theorem rank (h : k.Joins power) :
    Power.assignment.rank ≤ power.rank ∧ power.rank < Power.unary.rank := by
  rcases h.operatorEntry with h | ⟨-, rfl⟩
  · have := Grammar.rank_of_binary h
    omega
  · decide

theorem fixed (h : k.Joins power) : k.Fixed :=
  h.elim Grammar.fixed_of_operatorEntry Grammar.fixed_of_operatorEntry

end Kind.Joins

/-- A lexeme of a kind with one spelling is that spelling. -/
theorem Lexeme.lexeme_kind {l : Lexeme} (h : l.kind.Fixed) : l.kind.lexeme = l := by
  cases l with
  | mark m => rfl
  | keyword k => rfl
  | _ => exact h.elim

/-! ### From sequences to trees -/

theorem Expr.exists_scalar {l : Lexeme} (h : Grammar.operandEntry l.kind = some .primary) :
    ∃ e : Expr, e.IsScalar ∧ e.lexemes = [l] := by
  cases l with
  | number digits => exact ⟨.literal ⟨.nowhere, .nowhere⟩ (.number digits), trivial, rfl⟩
  | text value => exact ⟨.literal ⟨.nowhere, .nowhere⟩ (.text value), trivial, rfl⟩
  | name word => exact ⟨.symbol ⟨.nowhere, .nowhere⟩ word, trivial, rfl⟩
  | keyword k =>
      cases k with
      | true_ => exact ⟨.literal ⟨.nowhere, .nowhere⟩ (.boolean true), trivial, rfl⟩
      | false_ => exact ⟨.literal ⟨.nowhere, .nowhere⟩ (.boolean false), trivial, rfl⟩
      | nil => exact ⟨.literal ⟨.nowhere, .nowhere⟩ .nil, trivial, rfl⟩
      | _ => cases h
  | mark m => cases m <;> cases h
  | endOfInput => cases h

namespace Expr.WellFormed

variable {e x : Expr} {op : Kind} {power : Power}

/-- An operator takes all of an expression that holds together at least as tightly as itself. -/
theorem exists_joined (he : e.WellFormed) (hx : x.WellFormed)
    (hxl : Power.unary.rank ≤ x.level.rank) (hop : op.Joins power)
    (hle : power.rank ≤ e.level.rank) (hlt : Power.assignment.rank < e.level.rank) :
    ∃ e' : Expr, e'.WellFormed ∧ e'.lexemes = e.lexemes ++ op.lexeme :: x.lexemes ∧
      e'.level = power := by
  rcases hop.operatorEntry with h | ⟨rfl, rfl⟩
  · have hwf : (Expr.binary ⟨.nowhere, .nowhere⟩ op e x).WellFormed :=
      ⟨power, h, hle, Nat.lt_of_lt_of_le hop.rank.2 hxl, he, hx⟩
    exact ⟨_, hwf, rfl, level_binary h _ e x⟩
  · have hwf : (Expr.assign ⟨.nowhere, .nowhere⟩ e x).WellFormed := ⟨hlt, he, hx⟩
    exact ⟨_, hwf, rfl, rfl⟩

/-- An operator and an operand behind an expression take its right end, as far as that holds
together more tightly than the operator. -/
theorem exists_grown (he : e.WellFormed) (hx : x.WellFormed)
    (hxl : Power.unary.rank ≤ x.level.rank) (hop : op.Joins power) :
    ∃ e' : Expr, e'.WellFormed ∧ e'.lexemes = e.lexemes ++ op.lexeme :: x.lexemes ∧
      e'.level.rank = min e.level.rank power.rank := by
  obtain ⟨hbind, hunary⟩ := hop.rank
  -- The recursion goes down the right ends; every other expression is taken whole.
  have hwhole {e : Expr} (he : e.WellFormed) (hle : power.rank ≤ e.level.rank)
      (hlt : Power.assignment.rank < e.level.rank) :
      ∃ e' : Expr, e'.WellFormed ∧ e'.lexemes = e.lexemes ++ op.lexeme :: x.lexemes ∧
        e'.level.rank = min e.level.rank power.rank := by
    obtain ⟨e', hwf, hlexemes, hlevel⟩ := he.exists_joined hx hxl hop hle hlt
    exact ⟨e', hwf, hlexemes, by rw [hlevel]; omega⟩
  induction e using Expr.rec (motive_2 := fun _ => True) with
  | assign span target value _ ih =>
      obtain ⟨hlt, htarget, hvalue⟩ := he
      obtain ⟨value', hvalue', hlexemes, -⟩ := ih hvalue
      refine ⟨.assign span target value', ⟨hlt, htarget, hvalue'⟩, ?_, ?_⟩
      · simp [lexemes, hlexemes]
      · exact (Nat.min_eq_left hbind).symm
  | binary span op' left right _ ih =>
      obtain ⟨power', hop', hle, hlt, hleft, hright⟩ := id he
      have hlevel := level_binary hop' span
      by_cases hpower : power.rank ≤ power'.rank
      · refine hwhole he ?_ ?_
        · rwa [hlevel]
        · rw [hlevel]
          exact (Grammar.rank_of_binary hop').1
      · obtain ⟨right', hright', hlexemes, hmin⟩ := ih hright
        refine ⟨.binary span op' left right', ⟨power', hop', hle, ?_, hleft, hright'⟩, ?_, ?_⟩
        · omega
        · simp [lexemes, hlexemes]
        · rw [hlevel, hlevel]
          omega
  | unary span op operand => exact hwhole he (Nat.le_of_lt hunary) (by decide : _ < Power.unary.rank)
  | literal | symbol | call | member | group =>
      exact hwhole he (power.rank_le_primary) (by decide : _ < Power.primary.rank)
  | nil => trivial
  | cons => trivial

end Expr.WellFormed

/-- Expressions can be chosen for each of some lists of lexemes. -/
theorem Expr.exists_each {ws : List (List Lexeme)}
    (h : ∀ w ∈ ws, ∃ e : Expr, e.WellFormed ∧ e.lexemes = w) :
    ∃ es : List Expr, WellFormedEach es ∧ lexemesEach es = ws := by
  induction ws with
  | nil => exact ⟨[], trivial, rfl⟩
  | cons w ws ih =>
      obtain ⟨⟨e, hwf, hlexemes⟩, hws⟩ := List.forall_mem_cons.1 h
      obtain ⟨es, hwfs, hlexemess⟩ := ih hws
      exact ⟨e :: es, ⟨hwf, hwfs⟩, by rw [lexemesEach, hlexemes, hlexemess]⟩

/-- Every part of a sequence is spelled by a well-formed expression that holds together as the part
does. -/
theorem Flat.exists_wellFormed {r : Stretch} {w : List Lexeme} (h : Flat r w) :
    ∃ e : Expr, e.WellFormed ∧ r.Holds e ∧ e.lexemes = w := by
  have hprimary : Power.unary.rank < Power.primary.rank := by decide
  induction h with
  | primary hl =>
      obtain ⟨e, he, hlexemes⟩ := Expr.exists_scalar hl
      refine ⟨e, he.wellFormed, ?_, hlexemes⟩
      rwa [Stretch.Holds, he.level_eq]
  | group _ ih =>
      obtain ⟨e, he, -, rfl⟩ := ih
      exact ⟨.group ⟨.nowhere, .nowhere⟩ e, he, hprimary, rfl⟩
  | member property _ ih =>
      obtain ⟨e, he, hholds, rfl⟩ := ih
      exact ⟨.member ⟨.nowhere, .nowhere⟩ e property, ⟨hholds, he⟩, hprimary, rfl⟩
  | call _ _ ih iha =>
      obtain ⟨e, he, hholds, rfl⟩ := ih
      obtain ⟨es, hes, rfl⟩ := Expr.exists_each fun v hv =>
        let ⟨e, he, _, hv⟩ := iha v hv
        ⟨e, he, hv⟩
      exact ⟨.call ⟨.nowhere, .nowhere⟩ e es, ⟨hholds, he, hes⟩, hprimary, rfl⟩
  | bare _ ih =>
      obtain ⟨e, he, hholds, rfl⟩ := ih
      exact ⟨e, he, Nat.le_of_lt hholds, rfl⟩
  | @unary l w hl _ ih =>
      obtain ⟨e, he, hholds, rfl⟩ := ih
      have hlexeme := Lexeme.lexeme_kind (Grammar.fixed_of_unary hl)
      exact ⟨.unary ⟨.nowhere, .nowhere⟩ l.kind e, ⟨hl, hholds, he⟩,
        (Nat.le_refl _ : _ ≤ Power.unary.rank), congrArg (· :: e.lexemes) hlexeme⟩
  | single _ ih =>
      obtain ⟨e, he, -, rfl⟩ := ih
      exact ⟨e, he, trivial, rfl⟩
  | joined _ hl _ ihv ihw =>
      obtain ⟨e, he, -, rfl⟩ := ihv
      obtain ⟨x, hx, hholds, rfl⟩ := ihw
      obtain ⟨e', he', hlexemes, -⟩ := he.exists_grown hx hholds hl
      rw [Lexeme.lexeme_kind hl.fixed] at hlexemes
      exact ⟨e', he', trivial, hlexemes⟩

/-! ### From trees to sequences -/

theorem Flat.of_core {w : List Lexeme} (h : Flat .core w) : ∀ r, Flat r w
  | .core => h
  | .operand => .bare h
  | .chain => .single (.bare h)

theorem Flat.of_operand {w : List Lexeme} (h : Flat .operand w) {r : Stretch} (hr : r ≠ .core) :
    Flat r w := by
  cases r with
  | core => exact absurd rfl hr
  | operand => exact h
  | chain => exact .single h

/-- Sequences with an operator between them are one sequence. -/
theorem Flat.append {l : Lexeme} {power : Power} {v w : List Lexeme} (hv : Flat .chain v)
    (hl : l.kind.Joins power) (hw : Flat .chain w) : Flat .chain (v ++ l :: w) := by
  -- on the second sequence, because a sequence grows at its right end
  generalize hr : Stretch.chain = r at hw
  induction hw with
  | single hw => exact .joined hv hl hw
  | @joined l' power' v' w' _ hl' hw' ih _ =>
      have hassoc : v ++ l :: (v' ++ l' :: w') = (v ++ l :: v') ++ l' :: w' := by simp
      rw [hassoc]
      exact .joined (ih rfl) hl' hw'
  | _ => cases hr

/-- A well-formed expression spells every part of a sequence that it holds together for. -/
theorem Expr.WellFormed.flat {e : Expr} (he : e.WellFormed) :
    ∀ r : Stretch, r.Holds e → Flat r e.lexemes := by
  -- on the expression for every kind of part, and for the arguments of a call as whole sequences
  induction e using Expr.rec
    (motive_2 := fun es => WellFormedEach es → ∀ v ∈ lexemesEach es, Flat .chain v) with
  | literal span value =>
      intro r _
      refine Flat.of_core (.primary ?_) r
      cases value with
      | boolean value => cases value <;> rfl
      | _ => rfl
  | symbol span name => exact fun r _ => Flat.of_core (.primary rfl) r
  | unary span op operand ih =>
      intro r hr
      obtain ⟨hop, hle, hoperand⟩ := he
      refine Flat.of_operand (.unary ?_ (ih hoperand .operand hle)) ?_
      · rwa [Kind.kind_lexeme]
      · rintro rfl
        exact Nat.lt_irrefl _ hr
  | binary span op left right ihl ihr =>
      intro r hr
      obtain ⟨power, hop, hle, hlt, hleft, hright⟩ := he
      have hpower := (Grammar.rank_of_binary hop).2
      cases r with
      | chain =>
          have hjoins : op.lexeme.kind.Joins power := by
            rw [Kind.kind_lexeme]
            exact .inl hop
          exact (ihl hleft .chain trivial).append hjoins (ihr hright .chain trivial)
      | core | operand =>
          simp only [Stretch.Holds, level_binary hop] at hr
          omega
  | assign span target value iht ihv =>
      intro r hr
      obtain ⟨hlt, htarget, hvalue⟩ := he
      cases r with
      | chain => exact (iht htarget .chain trivial).append (.inr rfl) (ihv hvalue .chain trivial)
      | core | operand => exact absurd hr (by decide : ¬ _ ≤ Power.assignment.rank)
  | call span callee arguments ihc iha =>
      intro r _
      obtain ⟨hlt, hcallee, harguments⟩ := he
      exact Flat.of_core (.call (ihc hcallee .core hlt) (iha harguments)) r
  | member span object property iho =>
      intro r _
      obtain ⟨hlt, hobject⟩ := he
      exact Flat.of_core (.member property (iho hobject .core hlt)) r
  | group span inner ih => exact fun r _ => Flat.of_core (.group (ih he .chain trivial)) r
  | nil hnil v hv => cases hv
  | cons e es ih ihs hes v hv =>
      obtain ⟨he, hes⟩ := hes
      rcases List.mem_cons.1 hv with rfl | hv
      · exact ih he .chain trivial
      · exact ihs hes v hv

/-- Operator sequences are exactly what well-formed expressions spell. -/
theorem flat_chain_iff {w : List Lexeme} :
    Flat .chain w ↔ ∃ e : Expr, e.WellFormed ∧ e.lexemes = w := by
  constructor
  · intro h
    obtain ⟨e, he, -, hlexemes⟩ := h.exists_wellFormed
    exact ⟨e, he, hlexemes⟩
  · rintro ⟨e, he, rfl⟩
    exact he.flat .chain trivial

namespace Grammar

/-- An operator sequence in front of a token that is no operator is read whole, and to the only
well-formed expression that it spells, up to the places. -/
theorem expression_chain {w : List Lexeme} {c d : Cursor} (hw : Flat .chain w)
    (hr : c.Reads w d) (hd : operatorEntry d.current.kind = none) :
    ∃ e, standard.expression .lowest c = .ok e d ∧ e.WellFormed ∧ e.lexemes = w ∧
      ∀ e' : Expr, e'.WellFormed → e'.lexemes = w → e'.unplaced = e.unplaced := by
  have hreads {e : Expr} (he : e.WellFormed) (hlexemes : e.lexemes = w) :
      ∃ a, standard.expression .lowest c = .ok a d ∧ a.unplaced = e.unplaced :=
    yields_expression he (.of_none hd) c d (hlexemes ▸ hr) rfl
  obtain ⟨e, he, hlexemes⟩ := flat_chain_iff.1 hw
  obtain ⟨a, ha, heq⟩ := hreads he hlexemes
  refine ⟨a, ha, (Expr.wellFormed_congr heq).2 he, (Expr.lexemes_congr heq).trans hlexemes, ?_⟩
  intro e' he' hlexemes'
  obtain ⟨a', ha', heq'⟩ := hreads he' hlexemes'
  cases ha.symm.trans ha'
  exact heq'.symm

/-- The sequence `not a or b . c ( ) :- d`, in front of the end of input. -/
theorem expression_chain_mixed :
    ∃ e d, standard.expression .lowest (Cursor.ofTokens
        ([.keyword .not_, .name "a", .keyword .or_, .name "b", .mark .dot, .name "c",
          .mark .openParen, .mark .closeParen, .mark .bind, .name "d"].map Lexeme.token)) = .ok e d ∧
      d.current.kind = .endOfInput ∧ e.WellFormed := by
  have hname (word : String) : Flat .core [.name word] := .primary rfl
  have hcall : Flat .core [.name "b", .mark .dot, .name "c", .mark .openParen, .mark .closeParen] :=
    @Flat.call _ [] (.member "c" (hname "b")) nofun
  have hnot : Flat .operand [.keyword .not_, .name "a"] := .unary rfl (.bare (hname "a"))
  have hor := Flat.joined (l := .keyword .or_) (.single hnot) (.inl rfl) (.bare hcall)
  have hbind := hor.joined (l := .mark .bind) (.inr rfl) (.bare (hname "d"))
  obtain ⟨p, hp⟩ := @Cursor.ahead_ofTokens
    ([.keyword .not_, .name "a", .keyword .or_, .name "b", .mark .dot, .name "c",
      .mark .openParen, .mark .closeParen, .mark .bind, .name "d"].map Lexeme.token) (by decide)
  obtain ⟨e, he, hwf, -⟩ := expression_chain hbind ⟨_, Cursor.reaches_of_ahead hp, rfl⟩ rfl
  exact ⟨e, _, he, rfl, hwf⟩

end Grammar

end ScriptFrontend
