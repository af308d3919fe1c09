import ScriptFrontend.Proofs.Relabel
import ScriptFrontend.Proofs.Spelling

/-!
Jumps in a program and in the text that spells it.

The jumps of a tree are listed in the order of the source, at every depth of nesting.  The judgment
`JumpsIn js w k` reads them off lexemes: each keyword of a jump is a jump, and a number right behind
it is its depth.  What a well-formed program is spelled by carries exactly the jumps of the program.
-/

namespace ScriptFrontend

open Lexeme (front)

inductive Jump
  | break_
  | continue_
  deriving DecidableEq, Repr

namespace Jump

def keyword : Jump → Keyword
  | break_ => .break_
  | continue_ => .continue_

def stmt (span : Span) (levels : Option UInt32) : Jump → Stmt
  | break_ => .break_ span levels
  | continue_ => .continue_ span levels

def ofKind? : Kind → Option Jump
  | .keyword .break_ => some break_
  | .keyword .continue_ => some continue_
  | _ => none

@[simp] theorem ofKind?_keyword (j : Jump) : ofKind? (.keyword j.keyword) = some j := by
  cases j <;> rfl

theorem ofKind?_eq_some_iff {k : Kind} {j : Jump} :
    ofKind? k = some j ↔ k = .keyword j.keyword := by
  constructor
  · intro h
    unfold ofKind? at h
    split at h <;> cases h <;> rfl
  · rintro rfl
    exact ofKind?_keyword j

theorem ofKind?_eq_none_iff {k : Kind} :
    ofKind? k = none ↔ ∀ j : Jump, k ≠ .keyword j.keyword := by
  rw [Option.eq_none_iff_forall_ne_some]
  exact forall_congr' fun j => not_congr ofKind?_eq_some_iff

/-- A kind that a table holds is no jump, if the table holds no jumps. -/
theorem ofKind?_eq_none_of_isSome {α : Type} {table : Kind → Option α} {k : Kind}
    (htable : ∀ j : Jump, table (.keyword j.keyword) = none) (h : (table k).isSome) :
    ofKind? k = none := by
  refine ofKind?_eq_none_iff.2 fun j hk => ?_
  rw [hk, htable] at h
  cases h

theorem operandEntry_keyword (j : Jump) : Grammar.operandEntry (.keyword j.keyword) = none := by
  cases j <;> rfl

theorem operatorEntry_keyword (j : Jump) : Grammar.operatorEntry (.keyword j.keyword) = none := by
  cases j <;> rfl

end Jump

/-! ### The jumps of a tree -/

mutual

/-- The jumps in a statement, with the number of loops that each of them leaves if it says so. -/
def Stmt.jumps : Stmt → List (Jump × Option UInt32)
  | .block _ body => jumpsEach body
  | .break_ _ levels => [(.break_, levels)]
  | .continue_ _ levels => [(.continue_, levels)]
  | .def_ _ _ _ _ body => jumpsEach body
  | .foreach _ _ _ _ body => jumpsEach body
  | .if_ _ _ body chain => jumpsEach body ++ chain.jumps
  | .while_ _ _ body => jumpsEach body
  | _ => []

def ElseChain.jumps : ElseChain → List (Jump × Option UInt32)
  | .done => []
  | .elif _ body chain => jumpsEach body ++ chain.jumps
  | .otherwise body => jumpsEach body

def jumpsEach : List Stmt → List (Jump × Option UInt32)
  | [] => []
  | s :: ss => s.jumps ++ jumpsEach ss

end

section

variable (r : Relabelling)

mutual

theorem Stmt.jumps_relabel : ∀ s : Stmt, (s.relabel r).jumps = s.jumps
  | .block _ body | .def_ _ _ _ _ body | .foreach _ _ _ _ body | .while_ _ _ body =>
      jumpsEach_relabel body
  | .if_ _ _ body chain => by
      rw [Stmt.relabel, Stmt.jumps, jumpsEach_relabel body, ElseChain.jumps_relabel chain,
        Stmt.jumps]
  | .break_ _ _ | .class_ _ _ | .const _ _ _ | .continue_ _ _ | .expr _ _ | .global _ _ | .goto _ _
  | .label _ _ | .module_ _ _ | .open_ _ _ _ | .print _ _ | .raise _ _ | .return_ _ _ => rfl

theorem ElseChain.jumps_relabel : ∀ chain : ElseChain, (chain.relabel r).jumps = chain.jumps
  | .done => rfl
  | .elif _ body chain => by
      rw [ElseChain.relabel, ElseChain.jumps, jumpsEach_relabel body,
        ElseChain.jumps_relabel chain, ElseChain.jumps]
  | .otherwise body => jumpsEach_relabel body

theorem jumpsEach_relabel : ∀ ss : List Stmt, jumpsEach (Stmt.relabelEach r ss) = jumpsEach ss
  | [] => rfl
  | s :: ss => by
      rw [Stmt.relabelEach, jumpsEach, Stmt.jumps_relabel s, jumpsEach_relabel ss, jumpsEach]

end

end

/-- Programs that agree without their places have the same jumps. -/
theorem jumpsEach_congr {ss ts : List Stmt} (h : ss.map Stmt.unplaced = ts.map Stmt.unplaced) :
    jumpsEach ss = jumpsEach ts := by
  rw [← jumpsEach_relabel .unplace ss, ← jumpsEach_relabel .unplace ts, Stmt.relabelEach_eq_map,
    Stmt.relabelEach_eq_map]
  exact congrArg jumpsEach h

/-! ### The jumps of a text -/

def LevelsAt : Option UInt32 → List Lexeme → Kind → Prop
  | none, w, k => front w k ≠ .number
  | some n, w, _ =>
    ∃ digits, w.head? = some (.number digits) ∧ Text.Decimal.word? digits.toList = some n

/-- The lexemes, with the kind behind them, carry the jumps. -/
inductive JumpsIn : List (Jump × Option UInt32) → List Lexeme → Kind → Prop
  | nil {k : Kind} : JumpsIn [] [] k
  | other {js : List (Jump × Option UInt32)} {l : Lexeme} {w : List Lexeme} {k : Kind}
      (hl : Jump.ofKind? l.kind = none) : JumpsIn js w k → JumpsIn js (l :: w) k
  | jump {js : List (Jump × Option UInt32)} {j : Jump} {levels : Option UInt32} {l : Lexeme}
      {w : List Lexeme} {k : Kind} (hl : Jump.ofKind? l.kind = some j)
      (hlevels : LevelsAt levels w k) : JumpsIn js w k → JumpsIn ((j, levels) :: js) (l :: w) k

def JumpFree (w : List Lexeme) : Prop :=
  ∀ l ∈ w, Jump.ofKind? l.kind = none

section

variable {js js' : List (Jump × Option UInt32)} {v w : List Lexeme} {l : Lexeme} {k : Kind}

@[simp] theorem jumpFree_nil : JumpFree [] :=
  nofun

@[simp] theorem jumpFree_cons : JumpFree (l :: w) ↔ Jump.ofKind? l.kind = none ∧ JumpFree w :=
  List.forall_mem_cons

@[simp] theorem jumpFree_append : JumpFree (v ++ w) ↔ JumpFree v ∧ JumpFree w :=
  List.forall_mem_append

theorem jumpFree_flag (flag : Bool) (hl : Jump.ofKind? l.kind = none) :
    JumpFree (Lexeme.flag flag l) := by
  cases flag with
  | true => exact List.forall_mem_singleton.2 hl
  | false => exact jumpFree_nil

theorem LevelsAt.append {levels : Option UInt32} (h : LevelsAt levels v (front w k)) :
    LevelsAt levels (v ++ w) k := by
  cases levels with
  | none =>
      rw [LevelsAt, Lexeme.front_append]
      exact h
  | some n =>
      obtain ⟨digits, hhead, hword⟩ := h
      exact ⟨digits, by rw [List.head?_append, hhead]; rfl, hword⟩

theorem JumpsIn.append (h : JumpsIn js v (front w k)) (h' : JumpsIn js' w k) :
    JumpsIn (js ++ js') (v ++ w) k := by
  generalize hk : front w k = k' at h
  induction h with
  | nil => exact h'
  | other hl _ ih => exact .other hl (ih hk)
  | jump hl hlevels _ ih => exact .jump hl (hk ▸ hlevels).append (ih hk)

theorem JumpFree.jumpsIn (h : JumpFree w) : JumpsIn [] w k := by
  induction w with
  | nil => exact .nil
  | cons l w ih =>
      obtain ⟨hl, hw⟩ := jumpFree_cons.1 h
      exact .other hl (ih hw)

theorem JumpFree.before (hv : JumpFree v) (hw : JumpsIn js w k) : JumpsIn js (v ++ w) k :=
  hv.jumpsIn.append hw

theorem JumpFree.behind (hw : JumpFree w) (hv : JumpsIn js v (front w k)) :
    JumpsIn js (v ++ w) k := by
  rw [← List.append_nil js]
  exact hv.append hw.jumpsIn

/-- A jump with a number behind it is a jump of that depth, and before it come as many jumps as
there are keywords of jumps. -/
theorem JumpsIn.numbered {j : Jump} {digits : String}
    (h : JumpsIn js (v ++ .keyword j.keyword :: .number digits :: w) k) :
    ∃ n, js[v.countP fun l => (Jump.ofKind? l.kind).isSome]? = some (j, some n) ∧
      Text.Decimal.word? digits.toList = some n := by
  -- on the lexemes in front of the jump, which count as jumps by their kinds
  induction v generalizing js with
  | nil =>
      cases h with
      | other hl h => cases (Jump.ofKind?_keyword j).symm.trans hl
      | @jump _ _ levels _ _ _ hl hlevels h =>
          cases (Jump.ofKind?_keyword j).symm.trans hl
          cases levels with
          | none => exact (hlevels rfl).elim
          | some n =>
              obtain ⟨_, hhead, hword⟩ := hlevels
              cases hhead
              exact ⟨n, rfl, hword⟩
  | cons l v ih =>
      cases h with
      | other hl h =>
          obtain ⟨n, hn, hword⟩ := ih h
          exact ⟨n, by simp [hl, hn], hword⟩
      | jump hl hlevels h =>
          obtain ⟨n, hn, hword⟩ := ih h
          exact ⟨n, by simp [hl, hn], hword⟩

end

/-! ### What no jump stands in -/

theorem JumpFree.intercalate {separator : Mark} {parts : List (List Lexeme)}
    (h : ∀ part ∈ parts, JumpFree part) : JumpFree ([Lexeme.mark separator].intercalate parts) :=
  forall_mem_intercalate (List.forall_mem_singleton.2 rfl) h

theorem jumpFree_names (separator : Mark) (names : List String) :
    JumpFree (Lexeme.names separator names) :=
  .intercalate (List.forall_mem_map.2 fun _ _ => List.forall_mem_singleton.2 rfl)

theorem jumpFree_announced {announcer : Lexeme} (h : Jump.ofKind? announcer.kind = none)
    (name : Option String) : JumpFree (Lexeme.announced announcer name) := by
  cases name with
  | none => exact jumpFree_nil
  | some word => exact jumpFree_cons.2 ⟨h, List.forall_mem_singleton.2 rfl⟩

theorem jumpFree_parameters (separator : Mark) (ps : List Parameter) :
    JumpFree (Lexeme.parameters separator ps) := by
  refine .intercalate (List.forall_mem_map.2 fun p _ => ?_)
  rw [Parameter.lexemes, jumpFree_append, jumpFree_append]
  exact ⟨jumpFree_flag _ rfl, jumpFree_flag _ rfl, List.forall_mem_singleton.2 rfl⟩

theorem ParametersSpelled.jumpFree {ps : List Parameter} {w : List Lexeme}
    (h : ParametersSpelled ps w) : JumpFree w := by
  rcases h with ⟨-, rfl⟩ | rfl
  · exact List.forall_mem_singleton.2 rfl
  · rw [jumpFree_cons, jumpFree_append]
    exact ⟨rfl, jumpFree_parameters _ _, List.forall_mem_singleton.2 rfl⟩

theorem Signature.jumpFree_lexemes (s : Signature) : JumpFree s.lexemes := by
  simp only [Signature.lexemes, jumpFree_append, jumpFree_cons]
  exact ⟨jumpFree_flag _ rfl, jumpFree_flag _ rfl, rfl, rfl, jumpFree_parameters _ _, rfl,
    jumpFree_nil⟩

theorem OthersSpelled.jumpFree {names : List String} {w : List Lexeme} (h : OthersSpelled names w) :
    JumpFree w := by
  induction names generalizing w with
  | nil =>
      cases h
      exact jumpFree_nil
  | cons name names ih =>
      obtain ⟨hash, v, hv, rfl⟩ := h
      simp only [jumpFree_append, jumpFree_cons]
      exact ⟨rfl, jumpFree_flag _ rfl, rfl, ih hv⟩

theorem InterfacesSpelled.jumpFree {names : List String} {w : List Lexeme}
    (h : InterfacesSpelled names w) : JumpFree w := by
  cases names with
  | nil =>
      cases h
      exact jumpFree_nil
  | cons name names =>
      obtain ⟨v, hv, rfl⟩ := h
      exact jumpFree_cons.2 ⟨rfl, jumpFree_cons.2 ⟨rfl, hv.jumpFree⟩⟩

theorem ClassDecl.Spelled.jumpFree {d : ClassDecl} {w : List Lexeme} (h : d.Spelled w) :
    JumpFree w := by
  obtain ⟨v, hv, rfl⟩ := h
  have hcategory : Jump.ofKind? (.keyword d.category.keyword) = none := by
    cases d.category <;> rfl
  have hsignatures : JumpFree (d.signatures.map Signature.lexemes).flatten := by
    intro l hl
    obtain ⟨_, hmem, hl⟩ := List.mem_flatten.1 hl
    obtain ⟨s, -, rfl⟩ := List.mem_map.1 hmem
    exact s.jumpFree_lexemes l hl
  simp only [jumpFree_append, jumpFree_cons]
  exact ⟨jumpFree_flag _ rfl, hcategory, rfl, jumpFree_announced rfl _, hv.jumpFree, hsignatures,
    rfl, jumpFree_nil⟩

theorem Literal.ofKind?_lexeme (value : Literal) : Jump.ofKind? value.lexeme.kind = none := by
  cases value with
  | boolean b => cases b <;> rfl
  | _ => rfl

/-- Operators are no jumps, so no jump stands in a well-formed expression. -/
theorem Expr.WellFormed.jumpFree {e : Expr} : e.WellFormed → JumpFree e.lexemes := by
  induction e using Expr.rec
    (motive_2 := fun es => Expr.WellFormedEach es → ∀ w ∈ Expr.lexemesEach es, JumpFree w) with
  | literal span value => exact fun _ => List.forall_mem_singleton.2 value.ofKind?_lexeme
  | symbol span name => exact fun _ => List.forall_mem_singleton.2 rfl
  | unary span op operand ih =>
      rintro ⟨hop, -, hwf⟩
      have hnone := Jump.ofKind?_eq_none_of_isSome Jump.operandEntry_keyword
        (Option.isSome_of_eq_some hop)
      exact jumpFree_cons.2 ⟨op.kind_lexeme.symm ▸ hnone, ih hwf⟩
  | binary span op left right ihl ihr =>
      rintro ⟨power, hop, -, -, hl, hr⟩
      have hnone := Jump.ofKind?_eq_none_of_isSome Jump.operatorEntry_keyword
        (Option.isSome_of_eq_some hop)
      exact jumpFree_append.2 ⟨ihl hl, jumpFree_cons.2 ⟨op.kind_lexeme.symm ▸ hnone, ihr hr⟩⟩
  | assign span target value iht ihv =>
      rintro ⟨-, ht, hv⟩
      exact jumpFree_append.2 ⟨iht ht, jumpFree_cons.2 ⟨rfl, ihv hv⟩⟩
  | call span callee arguments ihc iha =>
      rintro ⟨-, hc, ha⟩
      simp only [Expr.lexemes, jumpFree_append, jumpFree_cons]
      exact ⟨ihc hc, rfl, .intercalate (iha ha), rfl, jumpFree_nil⟩
  | member span object property iho =>
      rintro ⟨-, ho⟩
      simp only [Expr.lexemes, jumpFree_append, jumpFree_cons]
      exact ⟨iho ho, rfl, rfl, jumpFree_nil⟩
  | group span inner ih =>
      intro hwf
      simp only [Expr.lexemes, jumpFree_append, jumpFree_cons]
      exact ⟨rfl, ih hwf, rfl, jumpFree_nil⟩
  | nil _ w hw => cases hw
  | cons e es ih ihs h w hw =>
      rcases List.mem_cons.1 hw with rfl | hw
      · exact ih h.1
      · exact ihs h.2 w hw

/-! ### What a program is spelled by -/

/-- A body in brackets carries the jumps of what stands in it: none of the kinds that may follow
there starts an expression. -/
theorem Bracketed.jumpsIn {spelled : List Lexeme → Prop} {js : List (Jump × Option UInt32)}
    {w : List Lexeme} {k : Kind} (h : Bracketed spelled w)
    (hbody : ∀ v k, spelled v → Grammar.operandEntry k = none → JumpsIn js v k) :
    JumpsIn js w k := by
  obtain ⟨v, ended, hv, rfl⟩ := h
  have hfree : JumpFree (Lexeme.flag ended (.keyword .end_) ++ [.mark .closeBracket]) :=
    jumpFree_append.2 ⟨jumpFree_flag _ rfl, List.forall_mem_singleton.2 rfl⟩
  refine .other rfl (hfree.behind (hbody v _ hv ?_))
  cases ended <;> rfl

theorem LevelsSpelled.jumpsIn {levels : Option UInt32} {w : List Lexeme} {k : Kind} (j : Jump)
    (h : LevelsSpelled levels w) (hk : levels = none → k ≠ .number) :
    JumpsIn [(j, levels)] (.keyword j.keyword :: w) k := by
  cases levels with
  | none =>
      cases h
      exact .jump (Jump.ofKind?_keyword j) (hk rfl) .nil
  | some n =>
      obtain ⟨digits, hword, rfl⟩ := h
      exact .jump (Jump.ofKind?_keyword j) ⟨digits, rfl, hword⟩ (.other rfl .nil)

mutual

theorem Stmt.Spelled.jumpsIn : ∀ (s : Stmt) {w : List Lexeme} {k : Kind},
    s.Spelled w → s.WellFormed → ¬ s.Takes k → JumpsIn s.jumps w k
  | .block _ body, _, _, ⟨v, hv, hw⟩, ⟨_, hbody⟩, _ => by
      subst hw
      have hend : JumpFree [.keyword .end_] := List.forall_mem_singleton.2 rfl
      exact .other rfl (hend.behind (SpelledEach.jumpsIn body hv hbody rfl))
  | .break_ _ levels, _, _, ⟨v, hv, hw⟩, _, hk => by
      subst hw
      refine LevelsSpelled.jumpsIn .break_ hv fun hnone hnumber => hk ?_
      subst hnone
      exact hnumber
  | .class_ _ _, _, _, h, _, _ => (ClassDecl.Spelled.jumpFree h).jumpsIn
  | .const _ _ _, _, _, rfl, hvalue, _ =>
      .other rfl (.other rfl (.other rfl hvalue.wellFormed.jumpFree.jumpsIn))
  | .continue_ _ levels, _, _, ⟨v, hv, hw⟩, _, hk => by
      subst hw
      refine LevelsSpelled.jumpsIn .continue_ hv fun hnone hnumber => hk ?_
      subst hnone
      exact hnumber
  | .def_ _ _ _ _ body, _, _, ⟨u, v, hu, hv, hw⟩, ⟨_, hbody⟩, _ => by
      subst hw
      refine .other rfl ((jumpFree_flag _ rfl).before (.other rfl (hu.jumpFree.before ?_)))
      exact hv.jumpsIn fun v k hv hk => SpelledEach.jumpsIn body hv hbody hk
  | .expr _ _, _, _, rfl, hwf, _ => hwf.jumpFree.jumpsIn
  | .foreach _ _ _ _ body, _, _, ⟨v, hv, hw⟩, ⟨hiterable, _, hbody⟩, _ => by
      subst hw
      refine .other rfl ((jumpFree_flag _ rfl).before (.other rfl (.other rfl ?_)))
      refine hiterable.jumpFree.before ?_
      exact hv.jumpsIn fun v k hv hk => SpelledEach.jumpsIn body hv hbody hk
  | .global _ names, _, _, rfl, _, _ => .other rfl (jumpFree_names .comma names).jumpsIn
  | .goto _ _, _, _, rfl, _, _ => .other rfl (.other rfl .nil)
  | .if_ _ _ body chain, _, _, ⟨u, v, hu, hv, hw⟩, ⟨hcondition, ⟨_, hbody⟩, hchain⟩, _ => by
      subst hw
      refine .other rfl (hcondition.jumpFree.before ?_)
      refine .append ?_ (ElseChain.Spelled.jumpsIn chain hv hchain)
      exact hu.jumpsIn fun v k hv hk => SpelledEach.jumpsIn body hv hbody hk
  | .label _ _, _, _, rfl, _, _ => .other rfl (.other rfl .nil)
  | .module_ _ segments, _, _, rfl, _, _ => .other rfl (jumpFree_names .dot segments).jumpsIn
  | .open_ _ segments rename, _, _, rfl, _, _ =>
      .other rfl ((jumpFree_names .dot segments).before (jumpFree_announced rfl rename).jumpsIn)
  | .print _ _, _, _, rfl, hwf, _ => .other rfl hwf.jumpFree.jumpsIn
  | .raise _ _, _, _, rfl, hwf, _ => .other rfl hwf.jumpFree.jumpsIn
  | .return_ _ none, _, _, rfl, _, _ => .other rfl .nil
  | .return_ _ (some _), _, _, rfl, hwf, _ => .other rfl (Expr.WellFormed.jumpFree hwf).jumpsIn
  | .while_ _ _ body, _, _, ⟨v, hv, hw⟩, ⟨hcondition, _, hbody⟩, _ => by
      subst hw
      refine .other rfl (hcondition.jumpFree.before ?_)
      exact hv.jumpsIn fun v k hv hk => SpelledEach.jumpsIn body hv hbody hk

theorem ElseChain.Spelled.jumpsIn : ∀ (chain : ElseChain) {w : List Lexeme} {k : Kind},
    chain.Spelled w → chain.WellFormed → JumpsIn chain.jumps w k
  | .done, _, _, rfl, _ => .nil
  | .elif _ body chain, _, _, ⟨u, v, hu, hv, hw⟩, ⟨hcondition, ⟨_, hbody⟩, hchain⟩ => by
      subst hw
      refine .other rfl (hcondition.jumpFree.before ?_)
      refine .append ?_ (ElseChain.Spelled.jumpsIn chain hv hchain)
      exact hu.jumpsIn fun v k hv hk => SpelledEach.jumpsIn body hv hbody hk
  | .otherwise body, _, _, ⟨v, hv, hw⟩, ⟨_, hbody⟩ => by
      subst hw
      exact .other rfl (hv.jumpsIn fun v k hv hk => SpelledEach.jumpsIn body hv hbody hk)

/-- A well-formed program is spelled by lexemes that carry its jumps, if no kind follows that starts
an expression: only such a kind could still be taken for a part of the last statement. -/
theorem SpelledEach.jumpsIn : ∀ (ss : List Stmt) {w : List Lexeme} {k : Kind}, SpelledEach ss w →
    WellFormedEach ss → Grammar.operandEntry k = none → JumpsIn (jumpsEach ss) w k
  | [], _, _, rfl, _, _ => .nil
  | s :: ss, _, k, ⟨u, v, hu, hv, hw⟩, ⟨hs, hnext, hss⟩, hk => by
      subst hw
      refine .append (Stmt.Spelled.jumpsIn s hu hs ?_) (SpelledEach.jumpsIn ss hv hss hk)
      rw [hv.front]
      cases ss with
      | nil =>
          intro htakes
          have := htakes.operandEntry_isSome
          rw [List.head?_nil, Option.map_none, Option.getD_none, hk] at this
          cases this
      | cons t ss => exact Stmt.mayPrecede_iff.1 (hnext t rfl)

end

/-- In a well-formed program a number right behind a jump is a word, and the depth of the jump. -/
theorem SpelledEach.numbered {ss : List Stmt} {v w : List Lexeme} {j : Jump} {digits : String}
    (h : SpelledEach ss (v ++ .keyword j.keyword :: .number digits :: w))
    (hwf : WellFormedEach ss) :
    ∃ n, (jumpsEach ss)[v.countP fun l => (Jump.ofKind? l.kind).isSome]? = some (j, some n) ∧
      Text.Decimal.word? digits.toList = some n :=
  (SpelledEach.jumpsIn ss (k := .endOfInput) h hwf rfl).numbered

end ScriptFrontend
