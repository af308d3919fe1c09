import ScriptFrontend.Proofs.Spelling

/-!
Nodes of a tree, and the tokens that they stand on.

A node is a statement, an expression, a parameter or a signature, and its parts are the nodes right
below it, in the order of the source.  `n.Occupies w` says that the node stands on exactly the tokens
`w`: its span covers them, they spell the node, and its parts occupy stretches of them, one behind the
other.  Everything about the spans of a tree is read off from that.
-/

namespace ScriptFrontend

/-- The span runs from the start of the first token to the end of the last. -/
def Span.Covers (s : Span) (w : List Token) : Prop :=
  ∃ first ∈ w.head?, ∃ last ∈ w.getLast?, s = ⟨first.span.start, last.span.stop⟩

namespace Span.Covers

variable {s s' : Span} {u v w : List Token}

theorem singleton (t : Token) : t.span.Covers [t] :=
  ⟨t, rfl, t, rfl, rfl⟩

theorem ne_nil (h : s.Covers w) : w ≠ [] := by
  obtain ⟨first, hfirst, -⟩ := h
  rintro rfl
  cases hfirst

theorem append (hu : s.Covers u) (hw : s'.Covers w) :
    Span.Covers ⟨s.start, s'.stop⟩ (u ++ w) := by
  obtain ⟨first, hfirst, -, -, rfl⟩ := hu
  obtain ⟨-, -, last, hlast, rfl⟩ := hw
  rw [Option.mem_def] at hfirst hlast
  refine ⟨first, ?_, last, ?_, rfl⟩
  · rw [Option.mem_def, List.head?_append, hfirst, Option.some_or]
  · rw [Option.mem_def, List.getLast?_append, hlast, Option.some_or]

/-- Stretches that begin together start at one place. -/
theorem start_eq (hu : s.Covers u) (hw : s'.Covers (u ++ v)) : s.start = s'.start := by
  obtain ⟨first, hfirst, -, -, rfl⟩ := hu
  obtain ⟨first', hfirst', -, -, rfl⟩ := hw
  rw [Option.mem_def] at hfirst hfirst'
  rw [List.head?_append, hfirst, Option.some_or] at hfirst'
  cases hfirst'
  rfl

end Span.Covers

/-! ### Stretches of a token list -/

section

variable {α β : Type} {P : α → List Token → Prop}

/-- The items stand on stretches of the tokens that do not overlap, in their order. -/
inductive Spread (P : α → List Token → Prop) : List α → List Token → Prop
  | nil (w : List Token) : Spread P [] w
  | cons {a : α} {as : List α} (u : List Token) {v w : List Token} (ha : P a v)
      (has : Spread P as w) : Spread P (a :: as) (u ++ (v ++ w))

/-- The items stand on stretches that make up the tokens. -/
inductive Filled (P : α → List Token → Prop) : List α → List Token → Prop
  | nil : Filled P [] []
  | cons {a : α} {as : List α} {v w : List Token} (ha : P a v) (has : Filled P as w) :
      Filled P (a :: as) (v ++ w)

variable {a : α} {as bs : List α} {v w : List Token}

theorem Spread.pad_left (u : List Token) (h : Spread P as w) : Spread P as (u ++ w) := by
  cases h with
  | nil w => exact .nil _
  | cons u' ha has =>
      rw [← List.append_assoc]
      exact .cons (u ++ u') ha has

theorem Spread.append (hv : Spread P as v) (hw : Spread P bs w) :
    Spread P (as ++ bs) (v ++ w) := by
  induction hv with
  | nil v => exact hw.pad_left v
  | cons u ha _ ih =>
      rw [List.append_assoc, List.append_assoc]
      exact .cons u ha ih

theorem Spread.pad (h : Spread P as w) (v : List Token) : Spread P as (w ++ v) := by
  have := h.append (.nil v)
  rwa [List.append_nil] at this

theorem Spread.single (h : P a w) : Spread P [a] w := by
  have := Spread.cons [] h (.nil [])
  rwa [List.nil_append, List.append_nil] at this

theorem Spread.mem (h : Spread P as w) (ha : a ∈ as) : ∃ u v x, w = u ++ v ++ x ∧ P a v := by
  induction h with
  | nil w => cases ha
  | @cons b bs u v w hb _ ih =>
      rcases List.mem_cons.1 ha with rfl | ha
      · exact ⟨u, v, w, (List.append_assoc ..).symm, hb⟩
      · obtain ⟨u', v', x, rfl, hv'⟩ := ih ha
        exact ⟨u ++ (v ++ u'), v', x, by simp only [List.append_assoc], hv'⟩

/-- Of two items the first stands on a stretch before that of the second. -/
theorem Spread.pairwise (h : Spread P as w) :
    as.Pairwise fun a b => ∃ u v x y z, w = u ++ v ++ x ++ y ++ z ∧ P a v ∧ P b y := by
  induction h with
  | nil w => exact .nil
  | @cons a as u v w ha has ih =>
      refine List.pairwise_cons.2 ⟨fun b hb => ?_, ih.imp ?_⟩
      · obtain ⟨x, y, z, rfl, hy⟩ := has.mem hb
        exact ⟨u, v, x, y, z, by simp only [List.append_assoc], ha, hy⟩
      · rintro b c ⟨u', v', x, y, z, rfl, hv', hy⟩
        exact ⟨u ++ (v ++ u'), v', x, y, z, by simp only [List.append_assoc], hv', hy⟩

theorem Filled.mono {Q : α → List Token → Prop} (h : Filled P as w) (hPQ : ∀ a w, P a w → Q a w) :
    Filled Q as w := by
  induction h with
  | nil => exact .nil
  | cons ha _ ih => exact .cons (hPQ _ _ ha) ih

theorem Filled.map_lexeme {lexemes : α → List Lexeme}
    (h : Filled (fun a w => w.map Token.lexeme = lexemes a) as w) :
    w.map Token.lexeme = (as.map lexemes).flatten := by
  induction h with
  | nil => rfl
  | cons ha _ ih => rw [List.map_append, ha, ih, List.map_cons, List.flatten_cons]

theorem Filled.spread (h : Filled P as w) : Spread P as w := by
  induction h with
  | nil => exact .nil []
  | cons ha _ ih => exact .cons [] ha ih

/-- Stretches with an item somewhere in each. -/
theorem Spread.flatten (h : Spread (fun a w => Spread P [a] w) as w) : Spread P as w := by
  induction h with
  | nil w => exact .nil w
  | cons u ha _ ih => exact (ha.append ih).pad_left u

theorem Spread.map {g : β → α} {bs : List β} (h : Spread (fun b w => P (g b) w) bs w) :
    Spread P (bs.map g) w := by
  induction h with
  | nil w => exact .nil w
  | cons u hb _ ih => exact .cons u hb ih

end

/-! ### Nodes -/

inductive Node
  | stmt (s : Stmt)
  | expr (e : Expr)
  | parameter (p : Parameter)
  | signature (s : Signature)

def Expr.parts : Expr → List Expr
  | .literal _ _ => []
  | .symbol _ _ => []
  | .unary _ _ operand => [operand]
  | .binary _ _ left right => [left, right]
  | .assign _ target value => [target, value]
  | .call _ callee arguments => callee :: arguments
  | .member _ object _ => [object]
  | .group _ inner => [inner]

def ElseChain.parts : ElseChain → List Node
  | .done => []
  | .elif condition body chain => .expr condition :: (body.map .stmt ++ chain.parts)
  | .otherwise body => body.map .stmt

def Stmt.parts : Stmt → List Node
  | .block _ body => body.map .stmt
  | .class_ _ decl => decl.signatures.map .signature
  | .const _ _ value => [.expr value]
  | .def_ _ _ _ parameters body => parameters.map .parameter ++ body.map .stmt
  | .expr _ e => [.expr e]
  | .foreach _ _ _ iterable body => .expr iterable :: body.map .stmt
  | .if_ _ condition body chain => .expr condition :: (body.map .stmt ++ chain.parts)
  | .print _ value => [.expr value]
  | .raise _ value => [.expr value]
  | .return_ _ value => (value.map .expr).toList
  | .while_ _ condition body => .expr condition :: body.map .stmt
  | .break_ _ _ | .continue_ _ _ | .global _ _ | .goto _ _ | .label _ _ | .module_ _ _
  | .open_ _ _ _ => []

namespace Node

def span : Node → Span
  | stmt s => s.span
  | expr e => e.span
  | parameter p => p.span
  | signature s => s.span

def parts : Node → List Node
  | stmt s => s.parts
  | expr e => e.parts.map expr
  | parameter _ => []
  | signature s => s.parameters.map parameter

/-- The node is another one, or at any depth below it. -/
inductive Within (n : Node) : Node → Prop
  | self : n.Within n
  | part {m k : Node} (hk : k ∈ m.parts) (h : n.Within k) : n.Within m

/-- The lexemes spell the node. -/
def Spells : Node → List Lexeme → Prop
  | stmt s, w => s.Spelled w
  | expr e, w => w = e.lexemes
  | parameter p, w => w = p.lexemes
  | signature s, w => w = s.lexemes

/-- The node stands on the tokens: its span covers them, they spell it, and its parts stand on
stretches of them, in their order. -/
inductive Occupies : Node → List Token → Prop
  | mk {n : Node} {w : List Token} (hcovers : n.span.Covers w)
      (hspells : n.Spells (w.map Token.lexeme)) (hparts : Spread Occupies n.parts w) : n.Occupies w

namespace Occupies

variable {m n : Node} {e : Expr} {p : Parameter} {w : List Token}

theorem covers (h : n.Occupies w) : n.span.Covers w := by
  cases h with
  | mk hcovers _ _ => exact hcovers

theorem spells (h : n.Occupies w) : n.Spells (w.map Token.lexeme) := by
  cases h with
  | mk _ hspells _ => exact hspells

theorem lexemes_expr (h : (expr e).Occupies w) : w.map Token.lexeme = e.lexemes :=
  h.spells

theorem lexemes_parameter (h : (parameter p).Occupies w) : w.map Token.lexeme = p.lexemes :=
  h.spells

theorem parts (h : n.Occupies w) : Spread Occupies n.parts w := by
  cases h with
  | mk _ _ hparts => exact hparts

/-- Whatever is below a node stands on a stretch of the tokens of the node. -/
theorem within (h : m.Occupies w) (hn : n.Within m) : ∃ u v x, w = u ++ v ++ x ∧ n.Occupies v := by
  induction hn generalizing w with
  | self => exact ⟨[], w, [], (List.append_nil w).symm, h⟩
  | part hk _ ih =>
      obtain ⟨u, v, x, rfl, hv⟩ := h.parts.mem hk
      obtain ⟨u', v', x', rfl, hv'⟩ := ih hv
      exact ⟨u ++ u', v', x' ++ x, by simp only [List.append_assoc], hv'⟩

end Occupies

end Node

end ScriptFrontend
