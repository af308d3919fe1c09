import ScriptFrontend.Proofs.Acceptance
import ScriptFrontend.Proofs.Phases
import ScriptFrontend.Proofs.Rendering.Statement

/-!
What is parsed from the canonical text of a program is the program again.

A program that was parsed from a source is well formed and proper, so its canonical text reads as
lexemes that spell it, and from these the parser returns it, up to its places.  Which of its classes
are native does not matter for any of this.
-/

namespace ScriptFrontend

open Grammar (standard)

/-! ### The scanner before a whole source -/

/-- The tokens of a source are those of its lexemes, closed by the end of input. -/
theorem lexes_of_tokenize {source file : String} {ts : List Token}
    (h : tokenize source file = .ok ts) :
    ∃ us, (Cursor.ofTokens ts).Holds us ∧ Lexes source.toList (us.map Token.lexeme) := by
  obtain ⟨us, p, rfl, hus⟩ := Scanner.lexes_of_tokens (tokenize_eq_ok_iff.1 h)
  refine ⟨us, Cursor.holds_ofTokens_concat (fun t ht => ?_) p, hus⟩
  rw [← t.kind_lexeme]
  exact (hus.proper _ (List.mem_map_of_mem ht)).kind_ne

/-- A token of a source is a lexeme of the language, or the end of input. -/
theorem proper_of_mem_tokenize {source file : String} {ts : List Token}
    (hts : tokenize source file = .ok ts) {t : Token} (ht : t ∈ ts) (hk : t.kind ≠ .endOfInput) :
    t.lexeme.Proper := by
  obtain ⟨vs, p, rfl, hvs⟩ := Scanner.lexes_of_tokens (tokenize_eq_ok_iff.1 hts)
  rcases List.mem_append.1 ht with ht | ht
  · exact hvs.proper _ (List.mem_map_of_mem ht)
  · exact absurd (List.mem_singleton.1 ht ▸ rfl) hk

theorem Lexes.tokenize {source : String} {w : List Lexeme} (h : Lexes source.toList w)
    (file : String) : ∃ ts us, ScriptFrontend.tokenize source file = .ok ts ∧
      (Cursor.ofTokens ts).Holds us ∧ us.map Token.lexeme = w := by
  obtain ⟨us, p, hus, rfl⟩ := h.tokens (.ofSource source file) rfl
  refine ⟨us ++ [.endOfInput p], us, tokenize_eq_ok_iff.2 hus, ?_, rfl⟩
  refine Cursor.holds_ofTokens_concat (fun t ht => ?_) p
  rw [← t.kind_lexeme]
  exact (h.proper _ (List.mem_map_of_mem ht)).kind_ne

/-- A program that was read from a source can be written down again. -/
theorem wellFormed_and_proper_of_parse {source file : String} {ts : List Token} {p : List Stmt}
    (hts : tokenize source file = .ok ts) (hp : standard.parse ts = .ok p) :
    WellFormedEach p ∧ ProperEach p := by
  obtain ⟨us, hus, hlexes⟩ := lexes_of_tokenize hts
  obtain ⟨hwf, hspelled⟩ := Grammar.parse_sound hus hp
  exact ⟨hwf, SpelledEach.proper p hspelled hlexes.proper⟩

/-! ### Whole programs -/

/-- The texts of some statements, one behind the other, read as lexemes that spell them. -/
theorem join_writes (l : Layout) {ss : List Stmt} (hwf : WellFormedEach ss) (hp : ProperEach ss) :
    ∃ v, SpelledEach ss v ∧ Writes (String.join (ss.map (Stmt.render l))) v := by
  induction ss with
  | nil => exact ⟨[], rfl, .empty⟩
  | cons s ss ih =>
      obtain ⟨u, hu, hs⟩ := Stmt.writes s l hwf.1 hp.1
      obtain ⟨v, hv, hss⟩ := ih hwf.2.2 hp.2
      refine ⟨u ++ v, ⟨u, v, hu, hv, rfl⟩, ?_⟩
      rw [List.map_cons, String.join_cons]
      exact hs.append hss

theorem parse_join {p : List Stmt} (hwf : WellFormedEach p) (hp : ProperEach p) (l : Layout)
    (file : String) :
    ∃ ts p', tokenize (String.join (p.map (Stmt.render l))) file = .ok ts ∧
      standard.parse ts = .ok p' ∧ p'.map Stmt.unplaced = p.map Stmt.unplaced := by
  obtain ⟨v, hv, hwrites⟩ := join_writes l hwf hp
  have hlexes := hwrites [] [] .nil
  rw [List.append_nil, List.append_nil] at hlexes
  obtain ⟨ts, us, hts, hus, rfl⟩ := hlexes.tokenize file
  obtain ⟨p', hp', heq⟩ := Grammar.parse_complete hus hwf hv
  exact ⟨ts, p', hts, hp', heq⟩

/-! ### Canonical texts do not show places -/

section

variable {r : Relabelling}

theorem Expr.render_relabel (hn : r.name = id) (e : Expr) : (e.relabel r).render = e.render := by
  induction e using Expr.rec
    (motive_2 := fun es => Expr.renderEach (Expr.relabelEach r es) = Expr.renderEach es) with
  | literal span value => rfl
  | symbol span name => rw [relabel, hn]; rfl
  | unary span op operand ih => rw [relabel, render, render, ih]
  | binary span op left right ihl ihr => rw [relabel, render, render, ihl, ihr]
  | assign span target value iht ihv => rw [relabel, render, render, iht, ihv]
  | call span callee arguments ihc iha => rw [relabel, render, render, ihc, iha]
  | member span object property iho => rw [relabel, render, render, iho]
  | group span inner ih => rw [relabel, render, render, ih]
  | nil => rfl
  | cons e es ih ihs => rw [relabelEach, renderEach, renderEach, ih, ihs]

theorem Parameter.render_relabel (hn : r.name = id) (p : Parameter) :
    (p.relabel r).render = p.render := by
  rw [relabel, hn]
  rfl

theorem Parameter.map_render_relabel (hn : r.name = id) (ps : List Parameter) :
    (ps.map (Parameter.relabel r)).map Parameter.render = ps.map Parameter.render := by
  rw [List.map_map]
  exact List.map_congr_left fun p _ => p.render_relabel hn

theorem Signature.render_relabel (hn : r.name = id) (s : Signature) :
    (s.relabel r).render = s.render := by
  rw [relabel, render, Parameter.map_render_relabel hn, hn]
  rfl

theorem renderParameters_relabel (hn : r.name = id) (ps : List Parameter) :
    renderParameters (ps.map (Parameter.relabel r)) = renderParameters ps := by
  cases ps with
  | nil => rfl
  | cons p ps =>
      have h := Parameter.map_render_relabel hn (p :: ps)
      rw [renderParameters, h, renderParameters]
      · exact List.cons_ne_nil _ _
      · exact List.cons_ne_nil _ _

theorem ClassDecl.render_relabel (hn : r.name = id) (hc : r.native = id) (d : ClassDecl)
    (l : Layout) : (d.relabel r).render l = d.render l := by
  have hsignatures : (d.signatures.map (Signature.relabel r)).map
        (fun s => l.enter.indent ++ s.render ++ "\n") =
      d.signatures.map fun s => l.enter.indent ++ s.render ++ "\n" := by
    rw [List.map_map]
    refine List.map_congr_left fun s _ => ?_
    rw [Function.comp_apply, s.render_relabel hn]
  rw [relabel, render, hsignatures, hn, hc, List.map_id, Option.map_id_apply]
  rfl

mutual

theorem Stmt.render_relabel (hn : r.name = id) (hc : r.native = id) :
    ∀ (s : Stmt) (l : Layout), (s.relabel r).render l = s.render l
  | .block _ body, l => by
      simp only [Stmt.relabel, Stmt.render, renderLines_relabel hn hc body]
  | .break_ _ _, _ => rfl
  | .class_ _ decl, l => decl.render_relabel hn hc l
  | .const _ _ value, l => by
      simp only [Stmt.relabel, Stmt.render, hn, id, value.render_relabel hn]
  | .continue_ _ _, _ => rfl
  | .def_ _ _ _ ps body, l => by
      simp only [Stmt.relabel, Stmt.render, hn, id, renderParameters_relabel hn,
        renderBody_relabel hn hc body]
  | .expr _ e, l => by
      simp only [Stmt.relabel, Stmt.render, e.render_relabel hn]
  | .foreach _ _ _ iterable body, l => by
      simp only [Stmt.relabel, Stmt.render, hn, id, iterable.render_relabel hn,
        renderBody_relabel hn hc body]
  | .global _ _, l => by
      simp only [Stmt.relabel, Stmt.render, hn, List.map_id]
  | .goto _ _, l => by
      simp only [Stmt.relabel, Stmt.render, hn, id]
  | .if_ _ condition body chain, l => by
      simp only [Stmt.relabel, Stmt.render, condition.render_relabel hn,
        renderBody_relabel hn hc body, ElseChain.render_relabel hn hc chain]
  | .label _ _, l => by
      simp only [Stmt.relabel, Stmt.render, hn, id]
  | .module_ _ _, l => by
      simp only [Stmt.relabel, Stmt.render, hn, List.map_id]
  | .open_ _ _ none, l => by
      simp only [Stmt.relabel, Option.map_none, Stmt.render, hn, List.map_id]
  | .open_ _ _ (some _), l => by
      simp only [Stmt.relabel, Option.map_some, Stmt.render, hn, List.map_id, id]
  | .print _ value, l => by
      simp only [Stmt.relabel, Stmt.render, value.render_relabel hn]
  | .raise _ value, l => by
      simp only [Stmt.relabel, Stmt.render, value.render_relabel hn]
  | .return_ _ none, _ => rfl
  | .return_ _ (some value), l => by
      simp only [Stmt.relabel, Option.map_some, Stmt.render, value.render_relabel hn]
  | .while_ _ condition body, l => by
      simp only [Stmt.relabel, Stmt.render, condition.render_relabel hn,
        renderBody_relabel hn hc body]

theorem ElseChain.render_relabel (hn : r.name = id) (hc : r.native = id) :
    ∀ (chain : ElseChain) (l : Layout), (chain.relabel r).render l = chain.render l
  | .done, _ => rfl
  | .elif condition body chain, l => by
      simp only [ElseChain.relabel, ElseChain.render, condition.render_relabel hn,
        renderBody_relabel hn hc body, ElseChain.render_relabel hn hc chain]
  | .otherwise body, l => by
      simp only [ElseChain.relabel, ElseChain.render, renderBody_relabel hn hc body]

theorem renderBody_relabel (hn : r.name = id) (hc : r.native = id) :
    ∀ (body : List Stmt) (l : Layout), renderBody l (Stmt.relabelEach r body) = renderBody l body
  | [], _ => rfl
  | s :: ss, l => by
      simp only [Stmt.relabelEach, renderBody, Stmt.render_relabel hn hc s,
        renderLines_relabel hn hc ss]

theorem renderLines_relabel (hn : r.name = id) (hc : r.native = id) :
    ∀ (ss : List Stmt) (l : Layout), renderLines l (Stmt.relabelEach r ss) = renderLines l ss
  | [], _ => rfl
  | s :: ss, l => by
      simp only [Stmt.relabelEach, renderLines, Stmt.render_relabel hn hc s,
        renderLines_relabel hn hc ss]

end

end

/-- Programs that agree without their places have one canonical text. -/
theorem renderProgram_congr {p q : List Stmt} (h : p.map Stmt.unplaced = q.map Stmt.unplaced) :
    renderProgram p = renderProgram q := by
  have hrender (ss : List Stmt) :
      (ss.map Stmt.unplaced).map (Stmt.render {}) = ss.map (Stmt.render {}) := by
    rw [List.map_map]
    exact List.map_congr_left fun s _ => s.render_relabel rfl rfl {}
  rw [renderProgram, renderProgram, ← hrender p, ← hrender q, h]

/-- The texts of the statements of a parsed program, at any layout and with any of its classes marked
as native, are read back as the program, and so its canonical text is read back and written again
unchanged. -/
theorem parse_rendered {source file : String} {ts : List Token} {p p' : List Stmt}
    (hts : tokenize source file = .ok ts) (hp : standard.parse ts = .ok p)
    (hmark : p'.map Stmt.unmarked = p.map Stmt.unmarked) (l : Layout) (file' : String) :
    ∃ ts' p'', tokenize (String.join (p'.map (Stmt.render l))) file' = .ok ts' ∧
      standard.parse ts' = .ok p'' ∧ p''.map Stmt.unplaced = p'.map Stmt.unplaced ∧
        renderProgram p'' = renderProgram p' := by
  obtain ⟨hwf, hproper⟩ := wellFormed_and_proper_of_parse hts hp
  have hwf' := (wellFormedEach_congr (r := .unmark) hmark).2 hwf
  have hproper' := (properEach_congr (r := .unmark) rfl hmark).2 hproper
  obtain ⟨ts', p'', hts', hp', heq⟩ := parse_join hwf' hproper' l file'
  exact ⟨ts', p'', hts', hp', heq, renderProgram_congr heq⟩

/-- A class that is marked as native, written in a block of a wider layout. -/
theorem parse_rendered_native_class :
    ∃ ts p, tokenize "class A end" = .ok ts ∧ standard.parse ts = .ok p ∧
      (p.map Stmt.markNative).map Stmt.unmarked = p.map Stmt.unmarked ∧
        ∃ ts' p', tokenize "native class A\n    end\n" = .ok ts' ∧ standard.parse ts' = .ok p' ∧
          p'.map Stmt.unplaced = (p.map Stmt.markNative).map Stmt.unplaced ∧
            renderProgram p' = "native class A\nend\n" := by
  let position (column : Nat) : Position := ⟨column - 1, 1, column, "shell"⟩
  let ts : List Token := [⟨.keyword .class_, "class", ⟨position 1, position 6⟩⟩,
    ⟨.identifier, "A", ⟨position 7, position 8⟩⟩, ⟨.keyword .end_, "end", ⟨position 9, position 12⟩⟩,
    .endOfInput (position 12)]
  let p : List Stmt := [.class_ ⟨position 1, position 12⟩ ⟨.plain, "A", none, [], [], false⟩]
  have hts : tokenize "class A end" = .ok ts := by with_unfolding_all rfl
  have hp : standard.parse ts = .ok p := by with_unfolding_all rfl
  have hmark : (p.map Stmt.markNative).map Stmt.unmarked = p.map Stmt.unmarked := by
    simp [Stmt.unmarked_markNative]
  exact ⟨ts, p, hts, hp, hmark, parse_rendered hts hp hmark ⟨1, 4⟩ _⟩

end ScriptFrontend
