import ScriptFrontend.Proofs.Formatting
import ScriptFrontend.Proofs.Outline
import ScriptFrontend.Proofs.Slices
import ScriptFrontend.Proofs.TextLiteral

/-!
The layout of canonical texts.

The text of every statement that was read from a source is an outline.  Names, numbers and operators
have no blank in them and literals no line feed, so an expression fills a line; whatever else a
statement writes is on lines that it ends itself.
-/

namespace ScriptFrontend

/-! ### Words -/

theorem Inline.name {word : String} (h : (Lexeme.name word).Proper) : Inline word := by
  obtain ⟨c, cs, hcs, -⟩ := h.1
  refine .of_solid (by simp [hcs]) fun d hd => ?_
  simpa using Rule.not_isBlank_of_isWord h.1 hd

theorem Inline.number {digits : String} (h : (Lexeme.number digits).Proper) : Inline digits := by
  obtain ⟨c, cs, fs, hcs, -⟩ := id h
  refine .of_solid (by simp [hcs]) fun d hd => ?_
  simpa using Rule.not_isBlank_of_isNumeral h hd

theorem Inline.keyword (k : Keyword) : Inline k.spelling := by
  have hword := Lexes.isWord_spelling k
  obtain ⟨c, cs, hcs, -⟩ := id hword
  refine .of_solid (by simp [hcs]) fun d hd => ?_
  simpa using Rule.not_isBlank_of_isWord hword hd

theorem Inline.mark (m : Mark) : Inline m.spelling := by
  have hsolid : m.spelling.toList.all fun c => !Text.isBlank c := by
    cases m <;> rfl
  refine .of_solid (by cases m <;> decide) fun c hc => ?_
  simpa using List.all_eq_true.1 hsolid c hc

theorem Inline.kind {k : Kind} (h : k.Fixed) : Inline k.name := by
  cases k with
  | mark m =>
      rw [Kind.name_mark]
      exact .mark m
  | keyword k => exact .keyword k
  | _ => exact h.elim

theorem Inline.literal {value : Literal} (h : value.lexeme.Proper) : Inline value.render := by
  cases value with
  | number digits => exact .number h
  | text value =>
      have hquote : Inline "\"" := .of_solid (by decide) fun c hc => by
        rw [List.mem_singleton.1 hc]
        rfl
      refine hquote.between ?_ hquote
      rw [String.toList_ofList]
      exact Text.Escape.not_mem_encode (by decide) value.toList
  | boolean value =>
      cases value with
      | true => exact .keyword .true_
      | false => exact .keyword .false_
  | nil => exact .keyword .nil

theorem Opening.keyword_blank (k : Keyword) : Opening (k.spelling ++ " ") :=
  (Inline.keyword k).opening (by decide)

theorem Opening.flagged {word : String} (h : Opening word) (flag : Bool) :
    Opening (flagged flag word) := by
  cases flag with
  | true => exact h
  | false => exact .empty

def Trails (t : String) : Prop :=
  ∀ s, Inline s → Inline (s ++ t)

theorem Trails.empty : Trails "" := by
  intro s hs
  rwa [String.append_empty]

theorem Trails.announced {t u : String} (ht : '\n' ∉ t.toList) (hu : Inline u) :
    Trails (t ++ u) := by
  intro s hs
  rw [← String.append_assoc]
  exact hs.between ht hu

section

variable {separator first last : String} {words : List String}

theorem Inline.intercalate (hs : '\n' ∉ separator.toList) (hne : words ≠ [])
    (h : ∀ word ∈ words, Inline word) : Inline (separator.intercalate words) := by
  induction words with
  | nil => exact (hne rfl).elim
  | cons word words ih =>
      rw [List.forall_mem_cons] at h
      cases words with
      | nil =>
          rw [String.intercalate_singleton]
          exact h.1
      | cons other others =>
          rw [String.intercalate_cons_cons]
          exact h.1.between hs (ih (List.cons_ne_nil _ _) h.2)

/-- Between brackets there may be nothing. -/
theorem Inline.enclosed (hf : Inline first) (hs : '\n' ∉ separator.toList)
    (h : ∀ word ∈ words, Inline word) (hl : Inline last) :
    Inline (first ++ separator.intercalate words ++ last) := by
  by_cases hne : words = []
  · subst hne
    rw [String.intercalate_nil, String.append_empty]
    exact hf.append hl
  · exact (hf.append (.intercalate hs hne h)).append hl

end

/-! ### Expressions and declarations -/

theorem Expr.inline (e : Expr) : e.WellFormed → e.Proper → Inline e.render := by
  induction e using Expr.rec (motive_2 := fun es => WellFormedEach es → (∀ e ∈ es, e.Proper) →
    ∀ e ∈ es, Inline e.render) with
  | literal span value => exact fun _ hp => .literal (hp _ (List.mem_singleton_self _))
  | symbol span name => exact fun _ hp => .name (hp _ (List.mem_singleton_self _))
  | unary span op operand ih =>
      rintro ⟨hop, -, hwf⟩ hp
      have hoperand := ih hwf (List.forall_mem_cons.1 hp).2
      rw [render]
      split
      · exact (Opening.keyword_blank .not_).inline hoperand
      · exact (Inline.kind (Grammar.fixed_of_unary hop)).append hoperand
  | binary span op left right ihl ihr =>
      rintro ⟨power, hop, -, -, hl, hr⟩ hp
      obtain ⟨hpl, hpr⟩ := List.forall_mem_append.1 hp
      have hkind := Inline.kind (Grammar.fixed_of_operatorEntry hop)
      have hright := ihr hr (List.forall_mem_cons.1 hpr).2
      exact ((ihl hl hpl).between (by decide) hkind).between (by decide) hright
  | assign span target value iht ihv =>
      rintro ⟨-, ht, hv⟩ hp
      obtain ⟨hpt, hpv⟩ := List.forall_mem_append.1 hp
      exact (iht ht hpt).between (by decide) (ihv hv (List.forall_mem_cons.1 hpv).2)
  | call span callee arguments ihc iha =>
      rintro ⟨-, hc, ha⟩ hp
      obtain ⟨hpc, hpa⟩ := List.forall_mem_append.1 hp
      obtain ⟨hpa, -⟩ := List.forall_mem_append.1 (List.forall_mem_cons.1 hpa).2
      have hopen := (ihc hc hpc).append (.mark .openParen)
      refine hopen.enclosed (by decide) ?_ (.mark .closeParen)
      rw [renderEach_eq_map, List.forall_mem_map]
      exact iha ha (proper_of_mem_arguments hpa)
  | member span object property iho =>
      rintro ⟨-, ho⟩ hp
      obtain ⟨hpo, hpp⟩ := List.forall_mem_append.1 hp
      exact (iho ho hpo).between (by decide) (.name (hpp _ (by simp)))
  | group span inner ih =>
      intro hwf hp
      have hinner := ih hwf (List.forall_mem_append.1 (List.forall_mem_cons.1 hp).2).1
      exact ((Inline.mark .openParen).append hinner).append (.mark .closeParen)
  | nil _ _ x hx => cases hx
  | cons e es ih ihs hwf hp x hx =>
      rw [List.forall_mem_cons] at hp
      rcases List.mem_cons.1 hx with rfl | hx
      · exact ih hwf.1 hp.1
      · exact ihs hwf.2 hp.2 x hx

theorem Parameter.inline {p : Parameter} (h : p.Proper) : Inline p.render := by
  have hellipsis := (Inline.mark .ellipsis).toOpening.flagged p.variadic
  have hstar := (Inline.mark .star).toOpening.flagged p.byReference
  exact (hellipsis.append hstar).inline (.name h)

theorem inline_renderParameters {ps : List Parameter} (h : ∀ p ∈ ps, p.Proper) :
    Inline (renderParameters ps) := by
  have hwords : ∀ word ∈ ps.map Parameter.render, Inline word :=
    List.forall_mem_map.2 fun p hp => Parameter.inline (h p hp)
  cases ps with
  | nil => exact .mark .bang
  | cons p ps => exact (Inline.mark .openBracket).enclosed (by decide) hwords (.mark .closeBracket)

theorem Signature.inline {s : Signature} (h : s.Proper) : Inline s.render := by
  have hrec : Opening "rec " := .keyword_blank .rec_
  have hstar := (Inline.mark .star).toOpening.flagged s.byReference
  have hname := ((hrec.flagged s.recursive).append hstar).inline (.name h.name)
  refine (hname.append (.mark .openParen)).enclosed (by decide) ?_ (.mark .closeParen)
  exact List.forall_mem_map.2 fun p hp => Parameter.inline (h.parameters p hp)

/-! ### Lines -/

def Ended (render : Layout → String) : Prop :=
  ∃ f, Laid f ∧ ∀ l, render l = f l ++ "\n"

theorem Laid.ended {f : Layout → String} (h : Laid f) : Ended fun l => f l ++ "\n" :=
  ⟨f, h, fun _ => rfl⟩

theorem Inline.ended {s : String} (h : Inline s) : Ended fun _ => s ++ "\n" :=
  (Laid.last h).ended

/-- Texts on lines of their own, one level deeper than the lines around them. -/
theorem Laid.around {α : Type} {f : Layout → String} {t : String} {as : List α}
    {render : α → Layout → String} (hf : Laid f) (has : ∀ a ∈ as, Ended (render a))
    (ht : Inline t) :
    Laid fun l => f l ++ "\n" ++ String.join (as.map fun a => l.enter.indent ++ render a l.enter) ++
      l.indent ++ t := by
  induction as generalizing f with
  | nil =>
      refine .congr (hf.break_ 0 (.last ht)) fun l => ?_
      rw [List.map_nil, String.join_nil, String.append_empty, Layout.deeper_zero]
  | cons a as ih =>
      rw [List.forall_mem_cons] at has
      obtain ⟨⟨g, hg, hrender⟩, has⟩ := has
      refine .congr (ih (hf.break_ 1 hg.enter) has) fun l => ?_
      rw [List.map_cons, String.join_cons, hrender, Layout.deeper_one]
      simp only [String.append_assoc]

theorem renderLines_eq_join (l : Layout) (ss : List Stmt) :
    renderLines l ss = String.join (ss.map fun s => l.indent ++ s.render l) := by
  induction ss with
  | nil => rfl
  | cons s ss ih => rw [renderLines, ih, List.map_cons, String.join_cons]

theorem laid_renderBody {body : List Stmt} (h : ∀ s ∈ body, Ended fun l => s.render l) :
    Laid fun l => renderBody l body := by
  cases body with
  | nil => exact .last ((Inline.mark .openBracket).append (.mark .closeBracket))
  | cons s ss =>
      refine .congr ((Laid.last (.mark .openBracket)).around h (.mark .closeBracket)) fun l => ?_
      rw [renderBody_cons, renderLines_eq_join]
      rfl

/-! ### Statements -/

/-- The line of a class names what it extends and what it implements, if anything, behind its own
name. -/
theorem ClassDecl.exists_trails {d : ClassDecl} (h : d.Proper) :
    ∃ base interfaces, Trails base ∧ Trails interfaces ∧ ∀ l, d.render l =
      flagged d.native "native " ++ d.category.name ++ " " ++ d.name ++ base ++ interfaces ++ "\n" ++
        String.join (d.signatures.map fun s => l.enter.indent ++ s.render ++ "\n") ++
          l.indent ++ "end\n" := by
  refine ⟨_, _, ?_, ?_, fun l => rfl⟩
  · have hbase := h.base
    cases hb : d.base with
    | none => exact .empty
    | some base => exact .announced (by decide) (.name (hbase base hb))
  · have hinterfaces := h.interfaces
    cases hi : d.interfaces with
    | nil => exact .empty
    | cons name names =>
        refine .announced (by decide) (.intercalate (by decide) (List.cons_ne_nil _ _) ?_)
        exact fun word hword => .name (hinterfaces word (hi ▸ hword))

theorem ClassDecl.ended {d : ClassDecl} (h : d.Proper) : Ended d.render := by
  obtain ⟨base, interfaces, hbase, hinterfaces, hrender⟩ := exists_trails h
  have hnative : Opening "native " := .keyword_blank .native
  have hcategory : Inline d.category.name := by
    rw [← d.category.spelling_keyword]
    exact .keyword _
  have hname := ((hnative.flagged d.native).inline hcategory).between (t := " ") (by decide)
    (.name h.name)
  have hsignatures : ∀ s ∈ d.signatures, Ended fun _ => s.render ++ "\n" :=
    fun s hs => (Signature.inline (h.signatures s hs)).ended
  have hhead := hinterfaces _ (hbase _ hname)
  refine ⟨_, (Laid.last hhead).around hsignatures (.keyword .end_), fun l => ?_⟩
  rw [hrender]
  simp only [String.append_assoc]
  rfl

theorem Ended.jump (k : Keyword) (levels : Option UInt32) :
    Ended fun _ => renderJump k.spelling levels := by
  cases levels with
  | none => exact (Inline.keyword k).ended
  | some n =>
      have hnumber := Inline.number (isNumeral_toString n.toNat)
      exact ((Inline.keyword k).between (by decide) hnumber).ended

theorem Inline.qualified {segments : List String} (hne : segments ≠ [])
    (h : ∀ name ∈ segments, (Lexeme.name name).Proper) : Inline (qualified segments) :=
  .intercalate (by decide) hne fun name hname => .name (h name hname)

/-- A keyword and a name, which may be marked as a reference. -/
theorem Inline.named (k : Keyword) (byReference : Bool) {name : String}
    (h : (Lexeme.name name).Proper) :
    Inline (k.spelling ++ " " ++ flagged byReference "*" ++ name) := by
  have hstar := (Inline.mark .star).toOpening.flagged byReference
  exact ((Opening.keyword_blank k).append hstar).inline (.name h)

/-- A keyword and an expression in front of a body. -/
theorem Opening.guarded {head : String} {e : Expr} (hh : Opening head) (hwf : e.WellFormed)
    (hp : e.Proper) : Opening (head ++ e.render ++ " ") :=
  (hh.inline (e.inline hwf hp)).opening (by decide)

-- The induction is on the statement and has no layout in it: an outline says what is written at every
-- layout, and stays one when its lines are put a level deeper.
mutual

theorem Stmt.ended : ∀ s : Stmt, s.WellFormed → s.Proper → Ended fun l => s.render l
  | .block _ body, ⟨_, hwf⟩, hp => by
      have hlines := (Laid.last (.keyword .begin_)).around (Stmt.ended_each body hwf hp)
        (.keyword .end_)
      refine ⟨_, hlines, fun l => ?_⟩
      show "begin\n" ++ renderLines l.enter body ++ l.indent ++ ("end" ++ "\n") = _
      rw [renderLines_eq_join, ← String.append_assoc]
      rfl
  | .break_ _ levels, _, _ => .jump .break_ levels
  | .class_ _ decl, _, hp => ClassDecl.ended hp
  | .const _ name value, hs, ⟨hname, hp⟩ => by
      have hhead : Inline ("const " ++ name) := (Opening.keyword_blank .const).inline (.name hname)
      exact (hhead.between (by decide) (value.inline hs.wellFormed hp)).ended
  | .continue_ _ levels, _, _ => .jump .continue_ levels
  | .def_ _ name byReference ps body, ⟨_, hwf⟩, ⟨hname, hps, hp⟩ => by
      have hhead := (Inline.named .def_ byReference hname).between (t := " ") (by decide)
        (inline_renderParameters hps)
      exact (Laid.lead (hhead.opening (by decide))
        (laid_renderBody (Stmt.ended_each body hwf hp))).ended
  | .expr _ e, hwf, hp => (e.inline hwf hp).ended
  | .foreach _ name byReference iterable body, ⟨hi, _, hwf⟩, ⟨hname, hip, hp⟩ => by
      have hhead := (Inline.named .foreach byReference hname).opening (t := " in ") (by decide)
      exact (Laid.lead (hhead.guarded hi hip) (laid_renderBody (Stmt.ended_each body hwf hp))).ended
  | .global _ names, hne, hp => by
      have hnames : Inline (", ".intercalate names) :=
        .intercalate (by decide) hne fun name hname => .name (hp name hname)
      exact ((Opening.keyword_blank .global).inline hnames).ended
  | .goto _ label, _, hp => ((Opening.keyword_blank .goto).inline (.name hp)).ended
  | .if_ _ condition body chain, ⟨hc, ⟨_, hwf⟩, hchain⟩, ⟨hcp, hp, hchainp⟩ => by
      have hif : Opening "if " := .keyword_blank .if_
      have hbody := Laid.lead (hif.guarded hc hcp) (laid_renderBody (Stmt.ended_each body hwf hp))
      exact (ElseChain.laid chain hchain hchainp hbody).ended
  | .label _ name, _, hp => ((Opening.keyword_blank .label).inline (.name hp)).ended
  | .module_ _ segments, hne, hp =>
      ((Opening.keyword_blank .module_).inline (.qualified hne hp)).ended
  | .open_ _ segments none, hne, ⟨hp, _⟩ =>
      ((Opening.keyword_blank .open_).inline (.qualified hne hp)).ended
  | .open_ _ segments (some rename), hne, ⟨hp, hr⟩ => by
      have hopen : Inline ("open " ++ qualified segments) :=
        (Opening.keyword_blank .open_).inline (.qualified hne hp)
      exact (hopen.between (by decide) (.name (hr rename rfl))).ended
  | .print _ value, hwf, hp => ((Opening.keyword_blank .print).inline (value.inline hwf hp)).ended
  | .raise _ value, hwf, hp => ((Opening.keyword_blank .raise).inline (value.inline hwf hp)).ended
  | .return_ _ none, _, _ => (Inline.keyword .return_).ended
  | .return_ _ (some value), hwf, hp =>
      ((Opening.keyword_blank .return_).inline (value.inline hwf (hp value rfl))).ended
  | .while_ _ condition body, ⟨hc, _, hwf⟩, ⟨hcp, hp⟩ => by
      have hwhile : Opening "while " := .keyword_blank .while_
      exact (Laid.lead (hwhile.guarded hc hcp) (laid_renderBody (Stmt.ended_each body hwf hp))).ended

theorem ElseChain.laid : ∀ (chain : ElseChain) {f : Layout → String}, chain.WellFormed →
    chain.Proper → Laid f → Laid fun l => f l ++ chain.render l
  | .done, f, _, _, hf => by
      refine .congr hf fun l => ?_
      exact String.append_empty
  | .elif condition body chain, f, ⟨hc, ⟨_, hwf⟩, hchain⟩, ⟨hcp, hp, hchainp⟩, hf => by
      have hcondition : Laid fun _ => condition.render := .last (condition.inline hc hcp)
      have hbody := laid_renderBody (Stmt.ended_each body hwf hp)
      have hhead := ((hf.between (t := " elif ") (by decide) hcondition).between (t := " ")
        (by decide) hbody)
      refine .congr (ElseChain.laid chain hchain hchainp hhead) fun l => ?_
      simp only [ElseChain.render, String.append_assoc]
  | .otherwise body, f, ⟨_, hwf⟩, hp, hf => by
      have hbody := laid_renderBody (Stmt.ended_each body hwf hp)
      refine .congr (hf.between (t := " else ") (by decide) hbody) fun l => ?_
      rw [ElseChain.render, String.append_assoc]

theorem Stmt.ended_each : ∀ ss : List Stmt, WellFormedEach ss → ProperEach ss →
    ∀ s ∈ ss, Ended fun l => s.render l
  | [], _, _ => nofun
  | s :: ss, ⟨hs, _, hss⟩, ⟨hp, hps⟩ => by
      rw [List.forall_mem_cons]
      exact ⟨Stmt.ended s hs hp, Stmt.ended_each ss hss hps⟩

end

/-! ### Every statement of a source -/

/-- How the text of a statement is laid out at a depth and a width. -/
structure Stmt.LaidOut (s : Stmt) (depth width : Nat) : Prop where
  /-- The formatter is left at the layout that it came with. -/
  balanced : s.format.run ⟨depth, width⟩ = (s.render ⟨depth, width⟩, ⟨depth, width⟩)
  tidy : Text.Tidy (s.render ⟨depth, width⟩).toList
  /-- The depth pushes in all lines but the first. -/
  nesting : (s.render ⟨depth, width⟩).toList =
    Text.pushIn (width * depth) (s.render ⟨0, width⟩).toList
  /-- The width replaces the spaces in front of each line. -/
  indentation : (s.render ⟨depth, width⟩).toList =
    Text.widen width (s.render ⟨depth, 2⟩).toList
  /-- At a width of two, lines are indented by whole levels. -/
  levels : ∀ line ∈ Text.lines (s.render ⟨depth, 2⟩).toList, 2 ∣ Text.leading line

theorem Stmt.laidOut {s : Stmt} (hwf : s.WellFormed) (hp : s.Proper) (depth width : Nat) :
    s.LaidOut depth width := by
  obtain ⟨f, hf, hended⟩ := Stmt.ended s hwf hp
  have hrender (l : Layout) : (s.render l).toList = (f l ++ "\n").toList :=
    congrArg String.toList (hended l)
  obtain ⟨hwiden, hlevels⟩ := hf.widen depth width
  refine ⟨s.run_format _, ?_, ?_, ?_, ?_⟩
  · rw [hrender]
    exact hf.tidy _
  · rw [hrender, hrender]
    exact hf.pushIn depth width
  · rw [hrender, hrender]
    exact hwiden
  · rw [hrender]
    exact hlevels

/-- The text of a statement of a source, at whatever depth of its program it stands, is laid out by its
nesting alone. -/
theorem laidOut_of_parse {source file : String} {ts : List Token} {p : List Stmt} {s t : Stmt}
    (hts : tokenize source file = .ok ts) (hp : parseTokens source ts = .ok p) (ht : t ∈ p)
    (hs : (Node.stmt s).Within (.stmt t)) (depth width : Nat) : s.LaidOut depth width := by
  rw [parseTokens_eq_ok_iff] at hp
  obtain ⟨before, w, after, hw, hoccupies⟩ := Grammar.occupies_of_parse hp ht hs
  obtain ⟨_, _, _, -, -, hlexes⟩ := exists_slice hts hw hoccupies.covers
  have hproper : s.Proper := Stmt.Spelled.proper s hoccupies.spells hlexes.proper
  have hwf : s.WellFormed :=
    Node.WellFormed.within (m := .stmt t) ((wellFormed_and_proper_of_parse hts hp).1.mem ht) hs
  exact Stmt.laidOut hwf hproper depth width

/-- A block in the body of a loop, written at a depth of three levels of four spaces. -/
theorem laidOut_of_parse_block :
    ∃ ts p s t, tokenize "while x [ begin y end ]" "a.qk" = .ok ts ∧
      parseTokens "while x [ begin y end ]" ts = .ok p ∧ t ∈ p ∧
      (Node.stmt s).Within (.stmt t) ∧
      s.render ⟨3, 4⟩ = "begin\n                y\n            end\n" ∧ s.LaidOut 3 4 := by
  let position (column : Nat) : Position := ⟨column - 1, 1, column, "a.qk"⟩
  let span (start stop : Nat) : Span := ⟨position start, position stop⟩
  let ts : List Token := [⟨.keyword .while_, "while", span 1 6⟩, ⟨.identifier, "x", span 7 8⟩,
    ⟨.mark .openBracket, "[", span 9 10⟩, ⟨.keyword .begin_, "begin", span 11 16⟩,
    ⟨.identifier, "y", span 17 18⟩, ⟨.keyword .end_, "end", span 19 22⟩,
    ⟨.mark .closeBracket, "]", span 23 24⟩, .endOfInput (position 24)]
  let s : Stmt := .block (span 11 22) [.expr (span 17 18) (.symbol (span 17 18) "y")]
  let t : Stmt := .while_ (span 1 24) (.symbol (span 7 8) "x") [s]
  have hts : tokenize "while x [ begin y end ]" "a.qk" = .ok ts := by with_unfolding_all rfl
  have hp : parseTokens "while x [ begin y end ]" ts = .ok [t] := by with_unfolding_all rfl
  have ht : t ∈ [t] := List.mem_singleton.2 rfl
  have hs : Node.stmt s ∈ Node.parts (.stmt t) := List.mem_cons_of_mem _ (List.mem_singleton.2 rfl)
  exact ⟨ts, [t], s, t, hts, hp, ht, .part hs .self, by decide,
    laidOut_of_parse hts hp ht (.part hs .self) 3 4⟩

end ScriptFrontend
