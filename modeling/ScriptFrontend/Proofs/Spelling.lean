import ScriptFrontend.Grammar.Basic
import ScriptFrontend.Proofs.Precedence
import ScriptFrontend.Syntax.Tree
import ScriptFrontend.Text.Decimal

/-!
The language: which lexemes spell which statements, and which statements are well formed.

Neither notion mentions a cursor or a production.  A statement is spelled by the lexemes of its
canonical text, with four liberties: the mark for an empty parameter list, a word that ends a body in
brackets a second time, a `#` that may be missing, and the digits of a loop depth.  Statements follow
one another without anything between them, so being well formed includes that no statement of a list
begins with what the statement before it would take for a part of itself.
-/

namespace ScriptFrontend

def Lexeme.flag (flag : Bool) (l : Lexeme) : List Lexeme :=
  if flag then [l] else []

theorem Lexeme.front_flag_ne {flag : Bool} {l : Lexeme} {w : List Lexeme} {k x : Kind}
    (hl : l.kind ≠ x) (hw : front w k ≠ x) : front (Lexeme.flag flag l ++ w) k ≠ x := by
  cases flag with
  | true => exact hl
  | false => exact hw

def Lexeme.names (separator : Mark) (names : List String) : List Lexeme :=
  [Lexeme.mark separator].intercalate (names.map fun name => [Lexeme.name name])

/-- The first of some parts, and a separator before each of the others. -/
theorem intercalate_cons {α : Type} (separator part : List α) (parts : List (List α)) :
    separator.intercalate (part :: parts) = part ++ (parts.map (separator ++ ·)).flatten := by
  induction parts generalizing part with
  | nil => simp
  | cons other parts ih =>
      rw [List.intercalate_cons_cons, ih, List.map_cons, List.flatten_cons, List.append_assoc,
        List.append_assoc]

theorem forall_mem_intercalate {α : Type} {P : α → Prop} {separator : List α}
    {parts : List (List α)} (hs : ∀ x ∈ separator, P x) (hp : ∀ part ∈ parts, ∀ x ∈ part, P x) :
    ∀ x ∈ separator.intercalate parts, P x := by
  cases parts with
  | nil => exact nofun
  | cons first parts =>
      rw [List.forall_mem_cons] at hp
      rw [intercalate_cons, List.forall_mem_append]
      refine ⟨hp.1, fun x hx => ?_⟩
      obtain ⟨_, hmem, hx⟩ := List.mem_flatten.1 hx
      obtain ⟨part, hpart, rfl⟩ := List.mem_map.1 hmem
      exact (List.mem_append.1 hx).elim (hs x) (hp.2 part hpart x)

theorem length_le_intercalate {α : Type} (separator : List α) {part : List α}
    {parts : List (List α)} (h : part ∈ parts) : part.length ≤ (separator.intercalate parts).length := by
  cases parts with
  | nil => cases h
  | cons first parts =>
      rw [intercalate_cons, List.length_append]
      rcases List.mem_cons.1 h with rfl | h
      · omega
      · have hsub : (separator ++ part).Sublist (parts.map (separator ++ ·)).flatten :=
          List.sublist_flatten_of_mem (List.mem_map_of_mem h)
        have := hsub.length_le
        rw [List.length_append] at this
        omega

/-! ### Declarations without statements -/

def Parameter.lexemes (p : Parameter) : List Lexeme :=
  Lexeme.flag p.variadic (.mark .ellipsis) ++ (Lexeme.flag p.byReference (.mark .star) ++ [.name p.name])

def Lexeme.parameters (separator : Mark) (ps : List Parameter) : List Lexeme :=
  [Lexeme.mark separator].intercalate (ps.map Parameter.lexemes)

def Signature.lexemes (s : Signature) : List Lexeme :=
  Lexeme.flag s.recursive (.keyword .rec_) ++ (Lexeme.flag s.byReference (.mark .star) ++
    .name s.name :: .mark .openParen ::
      (Lexeme.parameters .comma s.parameters ++ [.mark .closeParen]))

theorem Parameter.startsParameter_front (p : Parameter) (k : Kind) :
    p.lexemes ≠ [] ∧ (Lexeme.front p.lexemes k).startsParameter = true := by
  obtain ⟨name, byReference, variadic, span⟩ := p
  cases variadic <;> cases byReference <;> exact ⟨List.cons_ne_nil _ _, rfl⟩

theorem Signature.startsSignature_front (s : Signature) (k : Kind) :
    s.lexemes ≠ [] ∧ (Lexeme.front s.lexemes k).startsSignature = true := by
  obtain ⟨name, recursive, byReference, parameters, span⟩ := s
  cases recursive <;> cases byReference <;> exact ⟨List.cons_ne_nil _ _, rfl⟩

/-- The parameters of a function; the empty list may be written with a mark of its own. -/
def ParametersSpelled (ps : List Parameter) (w : List Lexeme) : Prop :=
  (ps = [] ∧ w = [.mark .bang]) ∨
    w = .mark .openBracket :: (Lexeme.parameters .semicolon ps ++ [.mark .closeBracket])

def ClassCategory.keyword : ClassCategory → Keyword
  | plain => .class_
  | model => .model
  | final => .final

def Lexeme.announced (announcer : Lexeme) : Option String → List Lexeme
  | none => []
  | some word => [announcer, .name word]

/-- The implemented names behind the first; each `#` may be missing. -/
def OthersSpelled : List String → List Lexeme → Prop
  | [], w => w = []
  | name :: names, w => ∃ hash v, OthersSpelled names v ∧
      w = .mark .semicolon :: (Lexeme.flag hash (.mark .hash) ++ .name name :: v)

def InterfacesSpelled : List String → List Lexeme → Prop
  | [], w => w = []
  | name :: names, w => ∃ v, OthersSpelled names v ∧ w = .mark .hash :: .name name :: v

def ClassDecl.Spelled (d : ClassDecl) (w : List Lexeme) : Prop :=
  ∃ v, InterfacesSpelled d.interfaces v ∧
    w = Lexeme.flag d.native (.keyword .native) ++
      .keyword d.category.keyword :: .name d.name :: (Lexeme.announced (.mark .colon) d.base ++
        (v ++ ((d.signatures.map Signature.lexemes).flatten ++ [.keyword .end_])))

/-! ### Statements -/

/-- The number of loops that a jump leaves, in any digits that stand for it. -/
def LevelsSpelled : Option UInt32 → List Lexeme → Prop
  | none, w => w = []
  | some n, w => ∃ digits, Text.Decimal.word? digits.toList = some n ∧ w = [.number digits]

/-- A body in brackets, which may end a second time before the closing bracket. -/
def Bracketed (spelled : List Lexeme → Prop) (w : List Lexeme) : Prop :=
  ∃ v ended, spelled v ∧
    w = .mark .openBracket :: (v ++ (Lexeme.flag ended (.keyword .end_) ++ [.mark .closeBracket]))

mutual

def Stmt.Spelled : Stmt → List Lexeme → Prop
  | .block _ body, w =>
    ∃ v, SpelledEach body v ∧ w = .keyword .begin_ :: (v ++ [.keyword .end_])
  | .break_ _ levels, w => ∃ v, LevelsSpelled levels v ∧ w = .keyword .break_ :: v
  | .class_ _ decl, w => decl.Spelled w
  | .const _ name value, w =>
    w = .keyword .const :: .name name :: .mark .bind :: value.lexemes
  | .continue_ _ levels, w => ∃ v, LevelsSpelled levels v ∧ w = .keyword .continue_ :: v
  | .def_ _ name byReference parameters body, w =>
    ∃ u v, ParametersSpelled parameters u ∧ Bracketed (fun v => SpelledEach body v) v ∧
      w = .keyword .def_ :: (Lexeme.flag byReference (.mark .star) ++ .name name :: (u ++ v))
  | .expr _ expr, w => w = expr.lexemes
  | .foreach _ name byReference iterable body, w =>
    ∃ v, Bracketed (fun v => SpelledEach body v) v ∧
      w = .keyword .foreach :: (Lexeme.flag byReference (.mark .star) ++
        .name name :: .keyword .in_ :: (iterable.lexemes ++ v))
  | .global _ names, w => w = .keyword .global :: Lexeme.names .comma names
  | .goto _ label, w => w = [.keyword .goto, .name label]
  | .if_ _ condition body chain, w =>
    ∃ u v, Bracketed (fun v => SpelledEach body v) u ∧ chain.Spelled v ∧
      w = .keyword .if_ :: (condition.lexemes ++ (u ++ v))
  | .label _ name, w => w = [.keyword .label, .name name]
  | .module_ _ segments, w => w = .keyword .module_ :: Lexeme.names .dot segments
  | .open_ _ segments rename, w =>
    w = .keyword .open_ :: (Lexeme.names .dot segments ++ Lexeme.announced (.keyword .as_) rename)
  | .print _ value, w => w = .keyword .print :: value.lexemes
  | .raise _ value, w => w = .keyword .raise :: value.lexemes
  | .return_ _ none, w => w = [.keyword .return_]
  | .return_ _ (some value), w => w = .keyword .return_ :: value.lexemes
  | .while_ _ condition body, w =>
    ∃ v, Bracketed (fun v => SpelledEach body v) v ∧
      w = .keyword .while_ :: (condition.lexemes ++ v)

def ElseChain.Spelled : ElseChain → List Lexeme → Prop
  | .done, w => w = []
  | .elif condition body chain, w =>
    ∃ u v, Bracketed (fun v => SpelledEach body v) u ∧ chain.Spelled v ∧
      w = .keyword .elif :: (condition.lexemes ++ (u ++ v))
  | .otherwise body, w =>
    ∃ v, Bracketed (fun v => SpelledEach body v) v ∧ w = .keyword .else_ :: v

def SpelledEach : List Stmt → List Lexeme → Prop
  | [], w => w = []
  | s :: ss, w => ∃ u v, s.Spelled u ∧ SpelledEach ss v ∧ w = u ++ v

end

namespace Stmt

/-- The statement goes on with an expression that starts with the kind. -/
def Takes : Stmt → Kind → Prop
  | .expr _ _, k | .print _ _, k | .raise _ _, k | .return_ _ (some _), k =>
    k = .mark .dash ∨ k = .mark .openParen
  | .return_ _ none, k => (Grammar.operandEntry k).isSome
  | .break_ _ none, k | .continue_ _ none, k => k = .number
  | _, _ => False

/-- Another statement may stand right behind the statement. -/
def MayPrecede (s : Stmt) : Stmt → Prop
  | .expr _ e => ¬ s.Takes e.first
  | _ => True

def Nests : Stmt → Prop
  | .module_ _ _ | .open_ _ _ _ | .const _ _ _ => False
  | _ => True

end Stmt

def Expr.IsScalar : Expr → Prop
  | .literal _ _ | .symbol _ _ => True
  | _ => False

theorem Expr.IsScalar.wellFormed {e : Expr} (h : e.IsScalar) : e.WellFormed := by
  cases e with
  | literal span value => trivial
  | symbol span name => trivial
  | _ => exact h.elim

mutual

def Stmt.WellFormed : Stmt → Prop
  | .block _ body => (∀ s ∈ body, s.Nests) ∧ WellFormedEach body
  | .break_ _ _ => True
  | .class_ _ _ => True
  | .const _ _ value => value.IsScalar
  | .continue_ _ _ => True
  | .def_ _ _ _ _ body => (∀ s ∈ body, s.Nests) ∧ WellFormedEach body
  | .expr _ expr => expr.WellFormed
  | .foreach _ _ _ iterable body =>
    iterable.WellFormed ∧ (∀ s ∈ body, s.Nests) ∧ WellFormedEach body
  | .global _ names => names ≠ []
  | .goto _ _ => True
  | .if_ _ condition body chain =>
    condition.WellFormed ∧ ((∀ s ∈ body, s.Nests) ∧ WellFormedEach body) ∧ chain.WellFormed
  | .label _ _ => True
  | .module_ _ segments => segments ≠ []
  | .open_ _ segments _ => segments ≠ []
  | .print _ value => value.WellFormed
  | .raise _ value => value.WellFormed
  | .return_ _ none => True
  | .return_ _ (some value) => value.WellFormed
  | .while_ _ condition body =>
    condition.WellFormed ∧ (∀ s ∈ body, s.Nests) ∧ WellFormedEach body

def ElseChain.WellFormed : ElseChain → Prop
  | .done => True
  | .elif condition body chain =>
    condition.WellFormed ∧ ((∀ s ∈ body, s.Nests) ∧ WellFormedEach body) ∧ chain.WellFormed
  | .otherwise body => (∀ s ∈ body, s.Nests) ∧ WellFormedEach body

/-- Statements one after the other, none of which takes a part of the next. -/
def WellFormedEach : List Stmt → Prop
  | [] => True
  | s :: ss => s.WellFormed ∧ (∀ t ∈ ss.head?, s.MayPrecede t) ∧ WellFormedEach ss

end

/-- The statements of a body: well formed, and none of them a declaration of the top level. -/
def BodyWellFormed (body : List Stmt) : Prop :=
  (∀ s ∈ body, s.Nests) ∧ WellFormedEach body

/-! ### The first lexeme of a statement -/

def Stmt.first : Stmt → Kind
  | .block _ _ => .keyword .begin_
  | .break_ _ _ => .keyword .break_
  | .class_ _ decl => .keyword (if decl.native then .native else decl.category.keyword)
  | .const _ _ _ => .keyword .const
  | .continue_ _ _ => .keyword .continue_
  | .def_ _ _ _ _ _ => .keyword .def_
  | .expr _ e => e.first
  | .foreach _ _ _ _ _ => .keyword .foreach
  | .global _ _ => .keyword .global
  | .goto _ _ => .keyword .goto
  | .if_ _ _ _ _ => .keyword .if_
  | .label _ _ => .keyword .label
  | .module_ _ _ => .keyword .module_
  | .open_ _ _ _ => .keyword .open_
  | .print _ _ => .keyword .print
  | .raise _ _ => .keyword .raise
  | .return_ _ _ => .keyword .return_
  | .while_ _ _ _ => .keyword .while_

theorem ClassDecl.Spelled.front {d : ClassDecl} {w : List Lexeme} (h : d.Spelled w) (span : Span)
    (k : Kind) : w ≠ [] ∧ Lexeme.front w k = (Stmt.class_ span d).first := by
  obtain ⟨v, -, rfl⟩ := h
  cases hn : d.native <;> simp [Lexeme.flag, Stmt.first, hn, Lexeme.kind]

/-- A statement starts with its first kind, whatever follows it. -/
theorem Stmt.Spelled.front {s : Stmt} {w : List Lexeme} (h : s.Spelled w) (k : Kind) :
    w ≠ [] ∧ Lexeme.front w k = s.first := by
  cases s with
  | block span body => obtain ⟨v, -, rfl⟩ := h; exact ⟨List.cons_ne_nil _ _, rfl⟩
  | break_ span levels => obtain ⟨v, -, rfl⟩ := h; exact ⟨List.cons_ne_nil _ _, rfl⟩
  | class_ span decl => exact ClassDecl.Spelled.front h span k
  | const span name value => cases h; exact ⟨List.cons_ne_nil _ _, rfl⟩
  | continue_ span levels => obtain ⟨v, -, rfl⟩ := h; exact ⟨List.cons_ne_nil _ _, rfl⟩
  | def_ span name byReference parameters body =>
      obtain ⟨u, v, -, -, rfl⟩ := h; exact ⟨List.cons_ne_nil _ _, rfl⟩
  | expr span expr => cases h; exact ⟨expr.lexemes_ne_nil, expr.front_lexemes k⟩
  | foreach span name byReference iterable body =>
      obtain ⟨v, -, rfl⟩ := h; exact ⟨List.cons_ne_nil _ _, rfl⟩
  | global span names => cases h; exact ⟨List.cons_ne_nil _ _, rfl⟩
  | goto span label => cases h; exact ⟨List.cons_ne_nil _ _, rfl⟩
  | if_ span condition body chain =>
      obtain ⟨u, v, -, -, rfl⟩ := h; exact ⟨List.cons_ne_nil _ _, rfl⟩
  | label span name => cases h; exact ⟨List.cons_ne_nil _ _, rfl⟩
  | module_ span segments => cases h; exact ⟨List.cons_ne_nil _ _, rfl⟩
  | open_ span segments rename => cases h; exact ⟨List.cons_ne_nil _ _, rfl⟩
  | print span value => cases h; exact ⟨List.cons_ne_nil _ _, rfl⟩
  | raise span value => cases h; exact ⟨List.cons_ne_nil _ _, rfl⟩
  | return_ span value => cases value <;> cases h <;> exact ⟨List.cons_ne_nil _ _, rfl⟩
  | while_ span condition body => obtain ⟨v, -, rfl⟩ := h; exact ⟨List.cons_ne_nil _ _, rfl⟩

/-- A list of statements starts with the first kind of its first statement. -/
theorem SpelledEach.front {ss : List Stmt} {w : List Lexeme} (h : SpelledEach ss w) (k : Kind) :
    Lexeme.front w k = (ss.head?.map Stmt.first).getD k := by
  cases ss with
  | nil => cases h; rfl
  | cons s ss =>
      obtain ⟨u, v, hu, -, rfl⟩ := h
      rw [Lexeme.front_append]
      exact (hu.front _).2

/-- What a statement goes on with starts an expression. -/
theorem Stmt.Takes.operandEntry_isSome {s : Stmt} {k : Kind} (h : s.Takes k) :
    (Grammar.operandEntry k).isSome := by
  unfold Takes at h
  split at h
  case h_5 => exact h
  case h_8 => exact h.elim
  all_goals rcases h with rfl | rfl <;> rfl

theorem Stmt.first_operandEntry {t : Stmt} (h : (Grammar.operandEntry t.first).isSome) :
    ∃ span e, t = .expr span e := by
  cases t with
  | expr span e => exact ⟨span, e, rfl⟩
  | class_ span decl =>
      obtain ⟨category, _, _, _, _, native⟩ := decl
      cases native <;> cases category <;> cases h
  | _ => cases h

/-- A statement goes on with nothing but expressions, so the first kind of the next statement tells
whether the two can stand side by side. -/
theorem Stmt.mayPrecede_iff {s t : Stmt} : s.MayPrecede t ↔ ¬ s.Takes t.first := by
  by_cases h : ∃ span e, t = .expr span e
  · obtain ⟨span, e, rfl⟩ := h
    exact Iff.rfl
  · refine ⟨fun _ ht => h (first_operandEntry ht.operandEntry_isSome), fun _ => ?_⟩
    cases t with
    | expr span e => exact (h ⟨span, e, rfl⟩).elim
    | _ => trivial

/-! ### Lists of statements -/

theorem SpelledEach.append {ss ts : List Stmt} {v w : List Lexeme} (hv : SpelledEach ss v)
    (hw : SpelledEach ts w) : SpelledEach (ss ++ ts) (v ++ w) := by
  induction ss generalizing v with
  | nil => cases hv; exact hw
  | cons s ss ih =>
      obtain ⟨u, v, hu, hv, rfl⟩ := hv
      exact ⟨u, v ++ w, hu, ih hv, List.append_assoc _ _ _⟩

theorem WellFormedEach.mem {s : Stmt} {ss : List Stmt} (h : WellFormedEach ss) (hs : s ∈ ss) :
    s.WellFormed := by
  induction ss with
  | nil => cases hs
  | cons t ss ih =>
      obtain ⟨ht, -, hss⟩ := h
      rcases List.mem_cons.1 hs with rfl | hs
      · exact ht
      · exact ih hss hs

theorem WellFormedEach.append {ss ts : List Stmt} (hs : WellFormedEach ss)
    (ht : WellFormedEach ts) (h : ∀ s ∈ ss.getLast?, ∀ t ∈ ts.head?, s.MayPrecede t) :
    WellFormedEach (ss ++ ts) := by
  induction ss with
  | nil => exact ht
  | cons s ss ih =>
      obtain ⟨hwf, hnext, hrest⟩ := hs
      cases ss with
      | nil => exact ⟨hwf, h s rfl, ht⟩
      | cons s' ss => exact ⟨hwf, hnext, ih hrest h⟩

end ScriptFrontend
