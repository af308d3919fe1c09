import ScriptFrontend.Grammar.Basic
import ScriptFrontend.Proofs.Lexeme
import ScriptFrontend.Syntax.Tree

/-!
Expressions whose operators respect the binding powers.

An expression is well formed if it is the one reading of its own lexemes: operands hold together
more tightly than the operators that take them.  What a context may ask of an expression is said by
two notions.  An expression fits a context if its operators bind tighter than the context does, and
an operator may follow it if it binds no tighter than the operand at the right end allows.
-/

namespace ScriptFrontend

def Literal.lexeme : Literal → Lexeme
  | number digits => .number digits
  | text value => .text value
  | boolean true => .keyword .true_
  | boolean false => .keyword .false_
  | nil => .keyword .nil

namespace Expr

mutual

def lexemes : Expr → List Lexeme
  | .literal _ value => [value.lexeme]
  | .symbol _ name => [.name name]
  | .unary _ op operand => op.lexeme :: operand.lexemes
  | .binary _ op left right => left.lexemes ++ op.lexeme :: right.lexemes
  | .assign _ target value => target.lexemes ++ .mark .bind :: value.lexemes
  | .call _ callee arguments =>
    callee.lexemes ++ .mark .openParen ::
      ([Lexeme.mark .comma].intercalate (lexemesEach arguments) ++ [.mark .closeParen])
  | .member _ object property => object.lexemes ++ [.mark .dot, .name property]
  | .group _ inner => .mark .openParen :: (inner.lexemes ++ [.mark .closeParen])

def lexemesEach : List Expr → List (List Lexeme)
  | [] => []
  | e :: es => e.lexemes :: lexemesEach es

end

theorem lexemesEach_eq_map (es : List Expr) : lexemesEach es = es.map lexemes := by
  induction es with
  | nil => rfl
  | cons e es ih => rw [lexemesEach, ih, List.map_cons]

def first : Expr → Kind
  | .literal _ value => value.lexeme.kind
  | .symbol _ _ => .identifier
  | .unary _ op _ => op
  | .binary _ _ left _ => left.first
  | .assign _ target _ => target.first
  | .call _ callee _ => callee.first
  | .member _ object _ => object.first
  | .group _ _ => .mark .openParen

/-- How tightly the outermost operator holds the expression together. -/
def level : Expr → Power
  | .assign _ _ _ => .assignment
  | .binary _ op _ _ => ((Grammar.operatorEntry op).map (·.1)).getD .lowest
  | .unary _ _ _ => .unary
  | _ => .primary

/-- How tightly an operator behind the expression may bind without reaching into it.  The value of
an assignment takes every operator that follows. -/
def limit : Expr → Power
  | .assign _ _ _ => .lowest
  | e => e.level

mutual

/-- Operators are the operators of the language, and each holds operands that hold together more
tightly than itself. -/
def WellFormed : Expr → Prop
  | .literal _ _ => True
  | .symbol _ _ => True
  | .unary _ op operand =>
    Grammar.operandEntry op = some .unary ∧ Power.unary.rank ≤ operand.level.rank ∧
      operand.WellFormed
  | .binary _ op left right =>
    ∃ power, Grammar.operatorEntry op = some (power, .binary) ∧
      power.rank ≤ left.level.rank ∧ power.rank < right.level.rank ∧
        left.WellFormed ∧ right.WellFormed
  | .assign _ target value =>
    Power.assignment.rank < target.level.rank ∧ target.WellFormed ∧ value.WellFormed
  | .call _ callee arguments =>
    Power.unary.rank < callee.level.rank ∧ callee.WellFormed ∧ WellFormedEach arguments
  | .member _ object _ => Power.unary.rank < object.level.rank ∧ object.WellFormed
  | .group _ inner => inner.WellFormed

def WellFormedEach : List Expr → Prop
  | [] => True
  | e :: es => e.WellFormed ∧ WellFormedEach es

end

theorem wellFormedEach_iff (es : List Expr) : WellFormedEach es ↔ ∀ e ∈ es, e.WellFormed := by
  induction es with
  | nil => simp [WellFormedEach]
  | cons e es ih => simp [WellFormedEach, ih]

/-- The operators of the expression bind tighter than a context that is no tighter than a unary
operator. -/
def Fits (floor : Power) (e : Expr) : Prop :=
  floor.rank < e.level.rank ∨ e.level = .unary

end Expr

/-- No operator that binds tighter than the context starts with the kind. -/
def Kind.Stops (floor : Power) (k : Kind) : Prop :=
  ∀ power rule, Grammar.operatorEntry k = some (power, rule) → power.rank ≤ floor.rank

/-! ### Powers -/

theorem Power.rank_le_primary (p : Power) : p.rank ≤ Power.primary.rank := by
  cases p <;> decide

theorem Power.lowest_rank_le (p : Power) : Power.lowest.rank ≤ p.rank :=
  Nat.zero_le _

/-- The operators of the language, by what they read. -/
theorem Grammar.operatorEntry_cases {k : Kind} {power : Power} {rule : OperatorRule}
    (h : operatorEntry k = some (power, rule)) :
    (rule = .assign ∧ k = .mark .bind ∧ power = .assignment) ∨
      (rule = .binary ∧ Power.assignment.rank < power.rank ∧ power.rank < Power.unary.rank) ∨
      (rule = .call ∧ k = .mark .openParen ∧ power = .call) ∨
      (rule = .member ∧ k = .mark .dot ∧ power = .member) := by
  unfold operatorEntry at h
  split at h <;> cases h <;> decide

theorem Grammar.rank_of_binary {k : Kind} {power : Power}
    (h : operatorEntry k = some (power, .binary)) :
    Power.assignment.rank < power.rank ∧ power.rank < Power.unary.rank := by
  rcases operatorEntry_cases h with ⟨h, -⟩ | ⟨-, h⟩ | ⟨h, -⟩ | ⟨h, -⟩
  · cases h
  · exact h
  · cases h
  · cases h

theorem Grammar.standard_power {k : Kind} {power : Power} {rule : OperatorRule}
    (h : operatorEntry k = some (power, rule)) : standard.power k = some power := by
  change Option.map _ (operatorEntry k) = _
  rw [h]; rfl

theorem Grammar.standard_operatorRule {k : Kind} {power : Power} {rule : OperatorRule}
    (h : operatorEntry k = some (power, rule)) : standard.operatorRule k = some rule := by
  change Option.map _ (operatorEntry k) = _
  rw [h]; rfl

theorem Grammar.fixed_of_operatorEntry {k : Kind} {entry : Power × OperatorRule}
    (h : operatorEntry k = some entry) : k.Fixed := by
  unfold operatorEntry at h
  split at h <;> trivial

theorem Grammar.fixed_of_unary {k : Kind} (h : operandEntry k = some .unary) : k.Fixed := by
  unfold operandEntry at h
  split at h <;> trivial

namespace Kind.Stops

theorem mono {floor floor' : Power} {k : Kind} (h : k.Stops floor)
    (hle : floor.rank ≤ floor'.rank) : k.Stops floor' :=
  fun power rule hk => Nat.le_trans (h power rule hk) hle

theorem of_none {floor : Power} {k : Kind} (h : Grammar.operatorEntry k = none) :
    k.Stops floor := by
  intro power rule hk
  rw [h] at hk
  cases hk

theorem of_entry {floor power : Power} {rule : OperatorRule} {k : Kind}
    (h : Grammar.operatorEntry k = some (power, rule)) (hle : power.rank ≤ floor.rank) :
    k.Stops floor := by
  intro power' rule' hk
  cases h.symm.trans hk
  exact hle

theorem primary (k : Kind) : k.Stops .primary :=
  fun power _ _ => power.rank_le_primary

end Kind.Stops

theorem Kind.not_stops_iff {floor : Power} {k : Kind} :
    ¬ k.Stops floor ↔
      ∃ power rule, Grammar.operatorEntry k = some (power, rule) ∧ floor.rank < power.rank := by
  simp [Kind.Stops]

/-- The kinds that stop a context are those that the grammar does not go on with. -/
theorem Kind.stops_iff_power {floor : Power} {k : Kind} :
    k.Stops floor ↔
      ∀ power, Grammar.standard.power k = some power → power.rank ≤ floor.rank := by
  constructor
  · intro h power hp
    obtain ⟨⟨_, rule⟩, hk, rfl⟩ := Option.map_eq_some_iff.1 hp
    exact h _ rule hk
  · intro h power rule hk
    exact h power (Grammar.standard_power hk)

/-! ### Levels and limits of well-formed expressions -/

namespace Expr

variable {e : Expr}

@[simp] theorem level_binary {op : Kind} {power : Power} {rule : OperatorRule}
    (h : Grammar.operatorEntry op = some (power, rule)) (span : Span) (left right : Expr) :
    (Expr.binary span op left right).level = power := by
  rw [level, h]; rfl

@[simp] theorem limit_binary {op : Kind} {power : Power} {rule : OperatorRule}
    (h : Grammar.operatorEntry op = some (power, rule)) (span : Span) (left right : Expr) :
    (Expr.binary span op left right).limit = power :=
  level_binary h span left right

theorem limit_le_level (e : Expr) : e.limit.rank ≤ e.level.rank := by
  cases e with
  | assign span target value => exact Power.lowest_rank_le _
  | _ => exact Nat.le_refl _

theorem WellFormed.lowest_lt_level (he : e.WellFormed) : Power.lowest.rank < e.level.rank := by
  cases e with
  | binary span op left right =>
      obtain ⟨power, hop, -⟩ := he
      rw [level_binary hop]
      exact Nat.lt_of_le_of_lt (Power.lowest_rank_le _) (Grammar.rank_of_binary hop).1
  | _ => exact Nat.zero_lt_succ _

theorem WellFormed.fits_lowest (he : e.WellFormed) : e.Fits .lowest :=
  .inl he.lowest_lt_level

/-- An assignment takes what stands before it, unless that is an assignment too. -/
theorem WellFormed.assignment_lt_level (he : e.WellFormed)
    (h : Power.assignment.rank ≤ e.limit.rank) : Power.assignment.rank < e.level.rank := by
  cases e with
  | assign span target value => exact absurd h (Nat.not_succ_le_zero _)
  | binary span op left right =>
      obtain ⟨power, hop, -⟩ := he
      rw [level_binary hop]
      exact (Grammar.rank_of_binary hop).1
  | _ => simp [level, Power.rank]

/-- Only operands are taken by calls and members. -/
theorem WellFormed.limit_of_unary_lt_level (he : e.WellFormed)
    (h : Power.unary.rank < e.level.rank) : e.limit = .primary := by
  cases e with
  | unary span op operand => exact absurd h (Nat.lt_irrefl _)
  | assign span target value => simp [level, Power.rank] at h
  | binary span op left right =>
      obtain ⟨power, hop, -⟩ := he
      rw [level_binary hop] at h
      exact absurd h (Nat.lt_asymm (Grammar.rank_of_binary hop).2)
  | _ => rfl

/-- An operator may follow what holds together at least as tightly as itself. -/
theorem le_limit_of_le_level {p : Power} (hp : Power.assignment.rank < p.rank)
    (h : p.rank ≤ e.level.rank) : p.rank ≤ e.limit.rank := by
  cases e with
  | assign span target value =>
      change p.rank ≤ Power.assignment.rank at h
      omega
  | _ => exact h

theorem assignment_le_limit (h : Power.assignment.rank < e.level.rank) :
    Power.assignment.rank ≤ e.limit.rank := by
  cases e with
  | assign span target value => exact absurd h (Nat.lt_irrefl _)
  | _ => exact Nat.le_of_lt h

/-! ### Expressions that fit a context -/

theorem Fits.lt_level {p : Power} (h : e.Fits p) (hp : p.rank < Power.unary.rank) :
    p.rank < e.level.rank := by
  rcases h with h | h
  · exact h
  · rw [h]; exact hp

theorem Fits.lt_assignment {floor : Power} {span : Span} {target value : Expr}
    (h : (Expr.assign span target value).Fits floor) : floor.rank < Power.assignment.rank := by
  rcases h with h | h
  · exact h
  · cases h

theorem Fits.lt_binary {floor power : Power} {span : Span} {op : Kind} {left right : Expr}
    (hk : Grammar.operatorEntry op = some (power, .binary))
    (h : (Expr.binary span op left right).Fits floor) : floor.rank < power.rank := by
  rw [Fits, level_binary hk] at h
  rcases h with h | rfl
  · exact h
  · exact absurd (Grammar.rank_of_binary hk).2 (Nat.lt_irrefl _)

theorem Fits.unary_le_level (h : e.Fits .unary) : Power.unary.rank ≤ e.level.rank := by
  rcases h with h | h
  · exact Nat.le_of_lt h
  · exact Nat.le_of_eq (congrArg Power.rank h.symm)

theorem fits_unary (h : Power.unary.rank ≤ e.level.rank) : e.Fits .unary := by
  rcases Nat.lt_or_eq_of_le h with h | h
  · exact .inl h
  · refine .inr ?_
    generalize e.level = p at h
    cases p <;> first | rfl | exact absurd h (by decide)

/-- What may follow a context may follow every expression that fits it. -/
theorem Fits.le_limit {floor : Power} (h : e.Fits floor) (hf : floor.rank ≤ Power.unary.rank) :
    floor.rank ≤ e.limit.rank := by
  cases e with
  | assign span target value =>
      rcases h with h | h
      · exact Nat.le_of_lt_succ h
      · cases h
  | _ =>
      rcases h with h | h
      · exact Nat.le_of_lt h
      · rw [limit, h]
        · exact hf
        · exact nofun

/-! ### The first token -/

theorem head?_lexemes (e : Expr) : e.lexemes.head?.map Lexeme.kind = some e.first := by
  induction e using Expr.rec (motive_2 := fun _ => True) with
  | literal | symbol | group => rfl
  | unary span op operand => simp [lexemes, first]
  | binary span op left right ihl _ =>
      rw [lexemes, List.head?_append, first, ← ihl]
      cases h : left.lexemes.head? <;> simp_all
  | assign span target value iht _ =>
      rw [lexemes, List.head?_append, first, ← iht]
      cases h : target.lexemes.head? <;> simp_all
  | call span callee arguments ihc _ =>
      rw [lexemes, List.head?_append, first, ← ihc]
      cases h : callee.lexemes.head? <;> simp_all
  | member span object property iho =>
      rw [lexemes, List.head?_append, first, ← iho]
      cases h : object.lexemes.head? <;> simp_all
  | nil => trivial
  | cons => trivial

theorem front_lexemes (e : Expr) (k : Kind) : Lexeme.front e.lexemes k = e.first := by
  rw [Lexeme.front, e.head?_lexemes]; rfl

/-- A well-formed expression starts with a kind that starts expressions. -/
theorem WellFormed.operandEntry_first (he : e.WellFormed) :
    (Grammar.operandEntry e.first).isSome := by
  induction e using Expr.rec (motive_2 := fun _ => True) with
  | literal span value =>
      cases value with
      | boolean value => cases value <;> rfl
      | _ => rfl
  | symbol | group => rfl
  | unary span op operand => exact Option.isSome_of_eq_some he.1
  | binary span op left right ihl _ =>
      obtain ⟨_, _, _, _, hleft, _⟩ := he
      exact ihl hleft
  | assign span target value iht _ => exact iht he.2.1
  | call span callee arguments ihc _ => exact ihc he.2.1
  | member span object property iho => exact iho he.2
  | nil => trivial
  | cons => trivial

theorem lexemes_ne_nil (e : Expr) : e.lexemes ≠ [] := by
  intro h
  have := e.head?_lexemes
  rw [h] at this
  cases this

end Expr

end ScriptFrontend
