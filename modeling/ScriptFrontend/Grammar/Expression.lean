import ScriptFrontend.Grammar.Basic
import ScriptFrontend.Grammar.Parser
import ScriptFrontend.Syntax.Tree

/-!
Expressions by binding power.

An expression is an operand that grows to the right as long as the next operator binds tighter than
the context does.  Each production takes the reader of nested expressions as a parameter.  Every
nested expression starts behind the token that announces it, so the number of tokens ahead bounds
the nesting: `expressionUpTo` reads that many levels, and `expression` takes the bound from its
cursor.
-/

namespace ScriptFrontend

namespace Grammar

open ScriptFrontend.Parser

variable (g : Grammar)

def primary : Parser Expr := do
  let t ← advance
  match t.kind with
  | .number => return .literal t.span (.number t.value)
  | .text => return .literal t.span (.text t.value)
  | .keyword .true_ => return .literal t.span (.boolean true)
  | .keyword .false_ => return .literal t.span (.boolean false)
  | .keyword .nil => return .literal t.span .nil
  | .identifier => return .symbol t.span (g.resolve t.value)
  | _ => throw ⟨.expression, t⟩

def unary (nested : Power → Parser Expr) : Parser Expr := do
  let op ← advance
  let operand ← nested .unary
  return .unary ⟨op.span.start, operand.span.stop⟩ op.kind operand

def group (nested : Power → Parser Expr) : Parser Expr := do
  let start ← here
  skip
  let inner ← nested .lowest
  require (.mark .closeParen)
  return .group (← spanFrom start) inner

/-- `left operator right`, grouping to the left. -/
def binary (nested : Power → Parser Expr) (left : Expr) (power : Power) : Parser Expr := do
  let op ← advance
  let right ← nested power
  return .binary ⟨left.span.start, right.span.stop⟩ op.kind left right

/-- `target :- value`, grouping to the right. -/
def assign (nested : Power → Parser Expr) (left : Expr) : Parser Expr := do
  skip
  let value ← nested .lowest
  return .assign ⟨left.span.start, value.span.stop⟩ left value

def call (nested : Power → Parser Expr) (left : Expr) : Parser Expr := do
  skip
  let arguments ← optional g.startsExpression (separated (.mark .comma) (nested .lowest))
  require (.mark .closeParen)
  return .call (← spanFrom left.span.start) left (arguments.getD [])

/-- `object . property`; a property is no name of a scope, so it stays as it is written. -/
def member (left : Expr) : Parser Expr := do
  skip
  let property ← expect .identifier
  return .member ⟨left.span.start, property.span.stop⟩ left property.value

def operandOf (nested : Power → Parser Expr) : OperandRule → Parser Expr
  | .primary => g.primary
  | .unary => unary nested
  | .group => group nested

def operatorOf (nested : Power → Parser Expr) (left : Expr) (power : Power) :
    OperatorRule → Parser Expr
  | .binary => binary nested left power
  | .assign => assign nested left
  | .call => g.call nested left
  | .member => member left

def operand (nested : Power → Parser Expr) : Parser Expr := do
  match g.operandRule (← peek).kind with
  | none => fail .expression
  | some rule => g.operandOf nested rule

/-- Extends an expression to the right while the next operator binds tighter than the context.  An
operator that consumes nothing extends it once. -/
def extend (nested : Power → Parser Expr) (floor : Power) (left : Expr) : Parser Expr := fun c =>
  match g.power c.current.kind with
  | none => .ok left c
  | some power =>
    if power.rank ≤ floor.rank then
      .ok left c
    else
      match g.operatorRule c.current.kind with
      | none => fail .operator c
      | some rule =>
        match g.operatorOf nested left power rule c with
        | .error e c' => .error e c'
        | .ok wider c' =>
          if c'.rest.length < c.rest.length then
            extend nested floor wider c'
          else
            .ok wider c'
termination_by c => c.rest.length

/-- Induction over the operators that extend an expression, each of which leaves fewer tokens ahead
if it consumes anything. -/
@[elab_as_elim]
theorem induction_extend (floor : Power) {motive : Expr → Cursor → Prop}
    (stop : ∀ (left : Expr) (c : Cursor),
      (∀ power, g.power c.current.kind = some power → power.rank ≤ floor.rank) → motive left c)
    (unnamed : ∀ (left : Expr) (c : Cursor) (power : Power), g.power c.current.kind = some power →
      ¬ power.rank ≤ floor.rank → g.operatorRule c.current.kind = none → motive left c)
    (operator : ∀ (left : Expr) (c : Cursor) (power : Power) (rule : OperatorRule),
      g.power c.current.kind = some power → ¬ power.rank ≤ floor.rank →
        g.operatorRule c.current.kind = some rule →
          (∀ (wider : Expr) (d : Cursor), d.rest.length < c.rest.length → motive wider d) →
            motive left c)
    (left : Expr) (c : Cursor) : motive left c := by
  induction hn : c.rest.length using Nat.strongRecOn generalizing left c with
  | ind n ih =>
      by_cases hstop : ∀ power, g.power c.current.kind = some power → power.rank ≤ floor.rank
      · exact stop left c hstop
      · simp only [Classical.not_forall] at hstop
        obtain ⟨power, hp, hr⟩ := hstop
        cases ho : g.operatorRule c.current.kind with
        | none => exact unnamed left c power hp hr ho
        | some rule =>
            exact operator left c power rule hp hr ho fun wider d hlt => ih _ (hn ▸ hlt) wider d rfl

variable {g}

/-- In front of a kind that does not bind tighter than the context an expression is complete. -/
theorem extend_of_stop {nested : Power → Parser Expr} {floor : Power} {left : Expr} {c : Cursor}
    (h : ∀ power, g.power c.current.kind = some power → power.rank ≤ floor.rank) :
    g.extend nested floor left c = .ok left c := by
  rw [extend]
  split
  · rfl
  next power hp => exact if_pos (h power hp)

/-- An operator behind the operand on its left, which then grows on. -/
theorem extend_of_operator {nested : Power → Parser Expr} {floor power : Power} {left : Expr}
    {c : Cursor} {rule : OperatorRule} (hp : g.power c.current.kind = some power)
    (hr : ¬ power.rank ≤ floor.rank) (ho : g.operatorRule c.current.kind = some rule) :
    g.extend nested floor left c =
      match g.operatorOf nested left power rule c with
      | .error e c' => .error e c'
      | .ok wider c' =>
        if c'.rest.length < c.rest.length then g.extend nested floor wider c' else .ok wider c' := by
  rw [extend]
  simp only [hp, if_neg hr, ho]

variable (g)

/-- An expression whose operators bind tighter than `floor`. -/
def expressionWith (nested : Power → Parser Expr) (floor : Power) : Parser Expr := do
  let left ← g.operand nested
  g.extend nested floor left

/-- An expression nested at most so many levels deep. -/
def expressionUpTo : Nat → Power → Parser Expr
  | 0, _ => fail .expression
  | depth + 1, floor => g.expressionWith (expressionUpTo depth) floor

/-- An expression whose operators bind tighter than `floor`, nested as deep as its tokens allow. -/
def expression (floor : Power) : Parser Expr := fun c =>
  g.expressionUpTo (c.rest.length + 1) floor c

end Grammar

end ScriptFrontend
