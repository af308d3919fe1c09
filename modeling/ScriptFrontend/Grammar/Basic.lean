import ScriptFrontend.Token.Basic

/-!
The grammar as data: which kinds of token start which production.

Three tables name the production that a kind starts, as a statement, as an operand or as an operator
behind an operand.  A fourth holds how tightly an operator binds.  The two tables for operators are
filled together, so a kind that binds is a kind with a production.

The predicates at the end look at one kind.  A production is entered as soon as its predicate holds and
there is no way back, so a predicate holds of no kind that its production cannot start with.
-/

namespace ScriptFrontend

/-- How tightly an operator holds its operands. -/
inductive Power
  | lowest | assignment | logicalOr | logicalAnd | relational | additive | multiplicative
  | unary | call | member | primary
  deriving DecidableEq, Repr

def Power.rank : Power → Nat
  | lowest => 0
  | assignment => 1
  | logicalOr => 2
  | logicalAnd => 3
  | relational => 4
  | additive => 5
  | multiplicative => 6
  | unary => 7
  | call => 8
  | member => 9
  | primary => 10

inductive StatementRule
  | print | raise | return_ | break_ | continue_ | goto | label | global | block | if_ | while_
  | foreach | def_ | class_ | module_ | open_ | const
  deriving DecidableEq, Repr

inductive OperandRule
  | primary | unary | group
  deriving DecidableEq, Repr

inductive OperatorRule
  | binary | assign | call | member
  deriving DecidableEq, Repr

structure Grammar where
  statementRule : Kind → Option StatementRule
  operandRule : Kind → Option OperandRule
  operatorRule : Kind → Option OperatorRule
  power : Kind → Option Power
  /-- The name that a written name stands for. -/
  resolve : String → String

namespace Grammar

def update {α : Type} (table : Kind → Option α) (k : Kind) (a : α) : Kind → Option α :=
  fun k' => if k' = k then some a else table k'

def withStatement (g : Grammar) (k : Kind) (rule : StatementRule) : Grammar :=
  { g with statementRule := update g.statementRule k rule }

def withOperand (g : Grammar) (k : Kind) (rule : OperandRule) : Grammar :=
  { g with operandRule := update g.operandRule k rule }

def withOperator (g : Grammar) (k : Kind) (power : Power) (rule : OperatorRule) : Grammar :=
  { g with
    power := update g.power k power
    operatorRule := update g.operatorRule k rule }

def statementEntry : Kind → Option StatementRule
  | .keyword .print => some .print
  | .keyword .raise => some .raise
  | .keyword .return_ => some .return_
  | .keyword .break_ => some .break_
  | .keyword .continue_ => some .continue_
  | .keyword .goto => some .goto
  | .keyword .label => some .label
  | .keyword .global => some .global
  | .keyword .begin_ => some .block
  | .keyword .if_ => some .if_
  | .keyword .while_ => some .while_
  | .keyword .foreach => some .foreach
  | _ => none

def operandEntry : Kind → Option OperandRule
  | .number | .text | .identifier => some .primary
  | .keyword .true_ | .keyword .false_ | .keyword .nil => some .primary
  | .keyword .not_ | .mark .dash => some .unary
  | .mark .openParen => some .group
  | _ => none

def operatorEntry : Kind → Option (Power × OperatorRule)
  | .mark .bind => some (.assignment, .assign)
  | .keyword .or_ => some (.logicalOr, .binary)
  | .keyword .and_ => some (.logicalAnd, .binary)
  | .mark .equals | .mark .notEquals => some (.relational, .binary)
  | .mark .less | .mark .lessEquals => some (.relational, .binary)
  | .mark .greater | .mark .greaterEquals => some (.relational, .binary)
  | .mark .plus | .mark .dash => some (.additive, .binary)
  | .mark .star | .mark .slash | .mark .percent => some (.multiplicative, .binary)
  | .mark .openParen => some (.call, .call)
  | .mark .dot => some (.member, .member)
  | _ => none

/-- The grammar of the language, with a meaning for written names. -/
def standard (resolve : String → String := id) : Grammar where
  statementRule := statementEntry
  operandRule := operandEntry
  operatorRule k := (operatorEntry k).map (·.2)
  power k := (operatorEntry k).map (·.1)
  resolve := resolve

end Grammar

/-! ### What a token can start -/

namespace Kind

def startsClass : Kind → Bool
  | .keyword .native | .keyword .class_ | .keyword .model | .keyword .final => true
  | _ => false

def startsParameter : Kind → Bool
  | .mark .ellipsis | .mark .star | .identifier => true
  | _ => false

def startsSignature : Kind → Bool
  | .keyword .rec_ | .mark .star | .identifier => true
  | _ => false

/-- Constants are literals and names, never operators. -/
def isStaticScalar : Kind → Bool
  | .number | .text | .keyword .true_ | .keyword .false_ | .keyword .nil | .identifier => true
  | _ => false

end Kind

namespace Grammar

variable (g : Grammar)

def startsExpression (k : Kind) : Bool :=
  (g.operandRule k).isSome

/-- Statements that may stand anywhere. -/
def startsStatement (k : Kind) : Bool :=
  (g.statementRule k).isSome || g.startsExpression k

def startsTop (k : Kind) : Bool :=
  g.startsStatement k || k.startsClass ||
    match k with
    | .keyword .def_ | .keyword .module_ | .keyword .open_ | .keyword .const => true
    | _ => false

def startsInner (k : Kind) : Bool :=
  g.startsStatement k || k = .keyword .def_ || k.startsClass

end Grammar

end ScriptFrontend
