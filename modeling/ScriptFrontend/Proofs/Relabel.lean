import ScriptFrontend.Grammar.Parser
import ScriptFrontend.Proofs.Lexeme
import ScriptFrontend.Syntax.Render

/-!
Relabelled trees.

A relabelling moves the places and changes the names of a tree and leaves everything else as it is.
The one used most takes all places away: two trees that agree without their places are the same
program, written in different spots.
-/

namespace ScriptFrontend

/-- What becomes of the places, of the names that are resolved, and of the classes that the host
implements. -/
structure Relabelling where
  place : Position → Position := id
  name : String → String := id
  native : Bool → Bool := id

namespace Relabelling

def keep : Relabelling where

def unplace : Relabelling where
  place _ := .nowhere

@[simp] theorem place_unplace (p : Position) : unplace.place p = .nowhere := rfl

/-- Takes away all places, and with them which classes the host implements. -/
def unmark : Relabelling where
  place _ := .nowhere
  native _ := false

end Relabelling

variable (r : Relabelling)

def Span.relabel (s : Span) : Span :=
  ⟨r.place s.start, r.place s.stop⟩

/-- A token keeps its lexeme, which only the grammar resolves. -/
def Token.relabel (t : Token) : Token :=
  { t with span := t.span.relabel r }

@[simp] theorem Token.kind_relabel (t : Token) : (t.relabel r).kind = t.kind := rfl

@[simp] theorem Token.value_relabel (t : Token) : (t.relabel r).value = t.value := rfl

def SyntaxError.relabel (e : SyntaxError) : SyntaxError :=
  ⟨e.expected, e.found.relabel r⟩

mutual

def Expr.relabel : Expr → Expr
  | .literal span value => .literal (span.relabel r) value
  | .symbol span name => .symbol (span.relabel r) (r.name name)
  | .unary span op operand => .unary (span.relabel r) op operand.relabel
  | .binary span op left right => .binary (span.relabel r) op left.relabel right.relabel
  | .assign span target value => .assign (span.relabel r) target.relabel value.relabel
  | .call span callee arguments =>
    .call (span.relabel r) callee.relabel (Expr.relabelEach arguments)
  | .member span object property => .member (span.relabel r) object.relabel property
  | .group span inner => .group (span.relabel r) inner.relabel

def Expr.relabelEach : List Expr → List Expr
  | [] => []
  | e :: es => e.relabel :: Expr.relabelEach es

end

theorem Expr.relabelEach_eq_map (es : List Expr) :
    Expr.relabelEach r es = es.map (Expr.relabel r) := by
  induction es with
  | nil => rfl
  | cons e es ih => rw [relabelEach, ih, List.map_cons]

@[simp] theorem Expr.span_relabel (e : Expr) : (e.relabel r).span = e.span.relabel r := by
  cases e <;> rfl

def Parameter.relabel (p : Parameter) : Parameter :=
  { p with name := r.name p.name, span := p.span.relabel r }

def Signature.relabel (s : Signature) : Signature :=
  { s with
    name := r.name s.name
    parameters := s.parameters.map (Parameter.relabel r)
    span := s.span.relabel r }

def ClassDecl.relabel (d : ClassDecl) : ClassDecl :=
  { d with
    name := r.name d.name
    base := d.base.map r.name
    interfaces := d.interfaces.map r.name
    signatures := d.signatures.map (Signature.relabel r)
    native := r.native d.native }

mutual

def Stmt.relabel : Stmt → Stmt
  | .block span body => .block (span.relabel r) (Stmt.relabelEach body)
  | .break_ span levels => .break_ (span.relabel r) levels
  | .class_ span decl => .class_ (span.relabel r) (decl.relabel r)
  | .const span name value => .const (span.relabel r) (r.name name) (value.relabel r)
  | .continue_ span levels => .continue_ (span.relabel r) levels
  | .def_ span name byReference parameters body =>
    .def_ (span.relabel r) (r.name name) byReference (parameters.map (Parameter.relabel r))
      (Stmt.relabelEach body)
  | .expr span expr => .expr (span.relabel r) (expr.relabel r)
  | .foreach span name byReference iterable body =>
    .foreach (span.relabel r) (r.name name) byReference (iterable.relabel r)
      (Stmt.relabelEach body)
  | .global span names => .global (span.relabel r) (names.map r.name)
  | .goto span label => .goto (span.relabel r) (r.name label)
  | .if_ span condition body chain =>
    .if_ (span.relabel r) (condition.relabel r) (Stmt.relabelEach body) chain.relabel
  | .label span name => .label (span.relabel r) (r.name name)
  | .module_ span segments => .module_ (span.relabel r) (segments.map r.name)
  | .open_ span segments rename =>
    .open_ (span.relabel r) (segments.map r.name) (rename.map r.name)
  | .print span value => .print (span.relabel r) (value.relabel r)
  | .raise span value => .raise (span.relabel r) (value.relabel r)
  | .return_ span value => .return_ (span.relabel r) (value.map (Expr.relabel r))
  | .while_ span condition body =>
    .while_ (span.relabel r) (condition.relabel r) (Stmt.relabelEach body)

def ElseChain.relabel : ElseChain → ElseChain
  | .done => .done
  | .elif condition body chain =>
    .elif (condition.relabel r) (Stmt.relabelEach body) chain.relabel
  | .otherwise body => .otherwise (Stmt.relabelEach body)

def Stmt.relabelEach : List Stmt → List Stmt
  | [] => []
  | s :: ss => s.relabel :: Stmt.relabelEach ss

end

theorem Stmt.relabelEach_eq_map (ss : List Stmt) :
    Stmt.relabelEach r ss = ss.map (Stmt.relabel r) := by
  induction ss with
  | nil => rfl
  | cons s ss ih => rw [relabelEach, ih, List.map_cons]

/-! ### Trees without places -/

def Expr.unplaced (e : Expr) : Expr :=
  e.relabel .unplace

def Parameter.unplaced (p : Parameter) : Parameter :=
  p.relabel .unplace

def Signature.unplaced (s : Signature) : Signature :=
  s.relabel .unplace

def Stmt.unplaced (s : Stmt) : Stmt :=
  s.relabel .unplace

def ElseChain.unplaced (chain : ElseChain) : ElseChain :=
  chain.relabel .unplace

/-- The statement without its places and without telling which classes are native. -/
def Stmt.unmarked (s : Stmt) : Stmt :=
  s.relabel .unmark

/-- Marking a class changes nothing else. -/
theorem Stmt.unmarked_markNative (s : Stmt) : s.markNative.unmarked = s.unmarked := by
  cases s <;> rfl

/-! ### Trees that are kept -/

theorem Expr.relabel_keep (e : Expr) : e.relabel .keep = e := by
  induction e using Expr.rec (motive_2 := fun es => Expr.relabelEach .keep es = es) with
  | literal | symbol => rfl
  | unary span op operand ih => exact congrArg _ ih
  | binary span op left right ihl ihr =>
      rw [relabel, ihl, ihr]
      rfl
  | assign span target value iht ihv =>
      rw [relabel, iht, ihv]
      rfl
  | call span callee arguments ihc iha =>
      rw [relabel, ihc, iha]
      rfl
  | member span object property iho =>
      rw [relabel, iho]
      rfl
  | group span inner ih => exact congrArg _ ih
  | nil => rfl
  | cons e es ih ihs => rw [relabelEach, ih, ihs]

theorem Signature.relabel_keep (s : Signature) : s.relabel .keep = s :=
  congrArg (fun ps => { s with parameters := ps }) (List.map_id s.parameters)

theorem ClassDecl.relabel_keep (d : ClassDecl) : d.relabel .keep = d := by
  have hbase : d.base.map (Relabelling.name .keep) = d.base := Option.map_id_apply
  have hinterfaces : d.interfaces.map (Relabelling.name .keep) = d.interfaces := List.map_id _
  have hsignatures : d.signatures.map (Signature.relabel .keep) = d.signatures := by
    rw [List.map_congr_left fun s _ => s.relabel_keep, List.map_id']
  rw [relabel, hbase, hinterfaces, hsignatures]
  rfl

mutual

theorem Stmt.relabel_keep : ∀ s : Stmt, s.relabel .keep = s
  | .block span body => congrArg (Stmt.block span) (Stmt.relabelEach_keep body)
  | .break_ _ _ => rfl
  | .class_ span decl => congrArg (Stmt.class_ span) decl.relabel_keep
  | .const span name value => congrArg (Stmt.const span name) value.relabel_keep
  | .continue_ _ _ => rfl
  | .def_ span name byReference parameters body =>
      congr (congrArg (Stmt.def_ span name byReference) (List.map_id parameters))
        (Stmt.relabelEach_keep body)
  | .expr span expr => congrArg (Stmt.expr span) expr.relabel_keep
  | .foreach span name byReference iterable body =>
      congr (congrArg (Stmt.foreach span name byReference) iterable.relabel_keep)
        (Stmt.relabelEach_keep body)
  | .global span names => congrArg (Stmt.global span) (List.map_id names)
  | .goto _ _ => rfl
  | .if_ span condition body chain => by
      rw [Stmt.relabel, condition.relabel_keep, Stmt.relabelEach_keep body, chain.relabel_keep]
      rfl
  | .label _ _ => rfl
  | .module_ span segments => congrArg (Stmt.module_ span) (List.map_id segments)
  | .open_ span segments rename =>
      congr (congrArg (Stmt.open_ span) (List.map_id segments)) (Option.map_id_apply (x := rename))
  | .print span value => congrArg (Stmt.print span) value.relabel_keep
  | .raise span value => congrArg (Stmt.raise span) value.relabel_keep
  | .return_ _ none => rfl
  | .return_ span (some value) =>
      congrArg (fun value => Stmt.return_ span (some value)) value.relabel_keep
  | .while_ span condition body =>
      congr (congrArg (Stmt.while_ span) condition.relabel_keep) (Stmt.relabelEach_keep body)

theorem ElseChain.relabel_keep : ∀ chain : ElseChain, chain.relabel .keep = chain
  | .done => rfl
  | .elif condition body chain => by
      rw [ElseChain.relabel, condition.relabel_keep, Stmt.relabelEach_keep body,
        chain.relabel_keep]
  | .otherwise body => congrArg ElseChain.otherwise (Stmt.relabelEach_keep body)

theorem Stmt.relabelEach_keep : ∀ ss : List Stmt, Stmt.relabelEach .keep ss = ss
  | [] => rfl
  | s :: ss => by rw [Stmt.relabelEach, s.relabel_keep, Stmt.relabelEach_keep ss]

end

end ScriptFrontend
