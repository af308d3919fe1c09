import ScriptFrontend.Proofs.Lossless
import ScriptFrontend.Proofs.RoundTrip
import ScriptFrontend.Proofs.Spans

/-!
Slices of a source are programs of their own.

The text between the two ends of a node's span is scanned, by itself, into the tokens that the node
stands on.  They spell the node, and what is well formed within a program is well formed alone, so
the slice is parsed back to the node, at other places.
-/

namespace ScriptFrontend

open Grammar (standard)

/-! ### Parts of well-formed nodes -/

def Node.WellFormed : Node → Prop
  | stmt s => s.WellFormed
  | expr e => e.WellFormed
  | parameter _ => True
  | signature _ => True

theorem Expr.WellFormed.part {e part : Expr} (h : e.WellFormed) (hp : part ∈ e.parts) :
    part.WellFormed := by
  cases e with
  | literal | symbol => cases hp
  | unary span op operand =>
      cases List.mem_singleton.1 hp
      exact h.2.2
  | binary span op left right =>
      obtain ⟨_, _, _, _, hleft, hright⟩ := h
      rcases List.mem_cons.1 hp with rfl | hp
      · exact hleft
      · cases List.mem_singleton.1 hp
        exact hright
  | assign span target value =>
      rcases List.mem_cons.1 hp with rfl | hp
      · exact h.2.1
      · cases List.mem_singleton.1 hp
        exact h.2.2
  | call span callee arguments =>
      rcases List.mem_cons.1 hp with rfl | hp
      · exact h.2.1
      · exact (wellFormedEach_iff arguments).1 h.2.2 part hp
  | member span object property =>
      cases List.mem_singleton.1 hp
      exact h.2
  | group span inner =>
      cases List.mem_singleton.1 hp
      exact h

namespace Node

variable {m n : Node}

theorem wellFormed_of_body {body : List Stmt} (h : BodyWellFormed body) (hm : m ∈ body.map .stmt) :
    m.WellFormed := by
  obtain ⟨s, hs, rfl⟩ := List.mem_map.1 hm
  exact h.2.mem hs

theorem wellFormed_of_chain {chain : ElseChain} (h : chain.WellFormed) (hm : m ∈ chain.parts) :
    m.WellFormed := by
  match chain with
  | .done => cases hm
  | .elif condition body chain =>
      rcases List.mem_cons.1 hm with rfl | hm
      · exact h.1
      · rcases List.mem_append.1 hm with hm | hm
        · exact wellFormed_of_body h.2.1 hm
        · exact wellFormed_of_chain h.2.2 hm
  | .otherwise body => exact wellFormed_of_body h hm

theorem wellFormed_of_stmt {s : Stmt} (h : s.WellFormed) (hm : m ∈ s.parts) : m.WellFormed := by
  cases s with
  | block span body => exact wellFormed_of_body h hm
  | class_ span decl =>
      obtain ⟨_, -, rfl⟩ := List.mem_map.1 hm
      trivial
  | const span name value =>
      cases List.mem_singleton.1 hm
      exact Expr.IsScalar.wellFormed h
  | def_ span name byReference parameters body =>
      rcases List.mem_append.1 hm with hm | hm
      · obtain ⟨_, -, rfl⟩ := List.mem_map.1 hm
        trivial
      · exact wellFormed_of_body h hm
  | foreach span name byReference iterable body =>
      rcases List.mem_cons.1 hm with rfl | hm
      · exact h.1
      · exact wellFormed_of_body h.2 hm
  | if_ span condition body chain =>
      rcases List.mem_cons.1 hm with rfl | hm
      · exact h.1
      · rcases List.mem_append.1 hm with hm | hm
        · exact wellFormed_of_body h.2.1 hm
        · exact wellFormed_of_chain h.2.2 hm
  | while_ span condition body =>
      rcases List.mem_cons.1 hm with rfl | hm
      · exact h.1
      · exact wellFormed_of_body h.2 hm
  | expr span value | print span value | raise span value =>
      cases List.mem_singleton.1 hm
      exact h
  | return_ span value =>
      cases value with
      | none => cases hm
      | some value =>
          cases List.mem_singleton.1 hm
          exact h
  | break_ | continue_ | global | goto | label | module_ | open_ => cases hm

/-- What is below a well-formed node is well formed. -/
theorem WellFormed.within (h : m.WellFormed) (hn : n.Within m) : n.WellFormed := by
  induction hn with
  | self => exact h
  | @part m k hk _ ih =>
      refine ih ?_
      cases m with
      | stmt s => exact wellFormed_of_stmt h hk
      | expr e =>
          obtain ⟨part, hpart, rfl⟩ := List.mem_map.1 hk
          exact Expr.WellFormed.part h hpart
      | parameter => cases hk
      | signature =>
          obtain ⟨_, -, rfl⟩ := List.mem_map.1 hk
          trivial

/-- The statement that the node is, or that it makes when it stands alone. -/
def statement? : Node → Option Stmt
  | stmt s => some s
  | expr e => some (.expr e.span e)
  | parameter _ => none
  | signature _ => none

variable {s : Stmt} {w : List Lexeme}

theorem WellFormed.statement (h : n.WellFormed) (hs : n.statement? = some s) : s.WellFormed := by
  cases n with
  | stmt | expr => cases hs; exact h
  | parameter | signature => cases hs

theorem Spells.statement (h : n.Spells w) (hs : n.statement? = some s) : s.Spelled w := by
  cases n with
  | stmt | expr => cases hs; exact h
  | parameter | signature => cases hs

end Node

/-! ### Cutting a run of the scanner -/

theorem Span.Covers.unique {s s' : Span} {w : List Token} (h : s.Covers w) (h' : s'.Covers w) :
    s = s' := by
  obtain ⟨first, hfirst, last, hlast, rfl⟩ := h
  obtain ⟨first', hfirst', last', hlast', rfl⟩ := h'
  cases hfirst.symm.trans hfirst'
  cases hlast.symm.trans hlast'
  rfl

namespace Scanner

variable {s s' s'' : Scanner} {us vs ws : List Token} {t : Token} {r : Rule} {n : Nat}

theorem Run.trans (h : Run s us s') (h' : Run s' vs s'') : Run s (us ++ vs) s'' := by
  induction h with
  | refl s => exact h'
  | step hr _ ih =>
      rw [List.append_assoc]
      exact .step hr (ih h')

theorem Run.step_token (hr : Rule.first? s.rest = some (r, n)) (ht : s.token? r n = some t)
    (h : Run (s.skip n) us s') : Run s (t :: us) s' := by
  have := Run.step hr h
  rwa [ht] at this

theorem span_of_token? (ht : s.token? r n = some t) : t.span = ⟨s.position, (s.skip n).position⟩ := by
  obtain ⟨_, -, rfl⟩ := Option.map_eq_some_iff.1 ht
  rfl

/-- A run makes each of its tokens in one step. -/
theorem Run.at_token (h : Run s (us ++ t :: vs) s') :
    ∃ s₁ r n, Run s us s₁ ∧ Rule.first? s₁.rest = some (r, n) ∧ s₁.token? r n = some t ∧
      Run (s₁.skip n) vs s' := by
  generalize hw : us ++ t :: vs = ws at h
  induction h generalizing us with
  | refl s => simp at hw
  | @step s s' r n ws hr h ih =>
      cases ht : s.token? r n with
      | none =>
          rw [ht] at hw
          obtain ⟨s₁, r₁, n₁, hrun, hfirst⟩ := ih hw
          have := Run.step hr hrun
          rw [ht] at this
          exact ⟨s₁, r₁, n₁, this, hfirst⟩
      | some u =>
          rw [ht] at hw
          cases us with
          | nil =>
              cases hw
              exact ⟨s, r, n, .refl s, hr, ht, h⟩
          | cons u' us =>
              obtain ⟨rfl, htail⟩ := List.cons.inj hw
              obtain ⟨s₁, r₁, n₁, hrun, hfirst⟩ := ih htail
              exact ⟨s₁, r₁, n₁, .step_token hr ht hrun, hfirst⟩

/-- A run passes through both ends of each stretch of its tokens. -/
theorem Run.around (h : Run s (us ++ ws ++ vs) s') (hne : ws ≠ []) :
    ∃ s₁ s₂, Run s us s₁ ∧ Run s₁ ws s₂ ∧ Span.Covers ⟨s₁.position, s₂.position⟩ ws := by
  obtain ⟨first, ws', rfl⟩ := List.exists_cons_of_ne_nil hne
  rw [List.append_assoc, List.cons_append] at h
  obtain ⟨s₁, r, n, hus, hr, hfirst, hrest⟩ := h.at_token
  have hfrom := Run.step_token hr hfirst hrest
  have hlast := (List.dropLast_concat_getLast hne).symm
  generalize (first :: ws').dropLast = init at hlast
  generalize (first :: ws').getLast hne = last at hlast
  rw [← List.cons_append, hlast, List.append_assoc, List.singleton_append] at hfrom
  obtain ⟨s₂, r', n', hinit, hr', hlast', -⟩ := hfrom.at_token
  refine ⟨s₁, s₂.skip n', hus, ?_, first, rfl, last, ?_, ?_⟩
  · rw [hlast]
    exact hinit.trans (.step_token hr' hlast' (.refl _))
  · rw [hlast]
    exact List.getLast?_concat
  · rw [span_of_token? hfirst, span_of_token? hlast']

end Scanner

/-- The text that a stretch of the tokens of a source spans, which is made of their lexemes. -/
theorem exists_slice {source file : String} {ts before w after : List Token} {span : Span}
    (hts : tokenize source file = .ok ts)
    (hw : ts.takeWhile (·.kind ≠ .endOfInput) = before ++ w ++ after) (hspan : span.Covers w) :
    ∃ front slice back, source.toList = front ++ slice ++ back ∧
      span = ⟨.behind front file, .behind (front ++ slice) file⟩ ∧
        Lexes slice (w.map Token.lexeme) := by
  obtain ⟨us, s', hrun, -, rfl⟩ := Scanner.run_of_tokens_eq_ok (tokenize_eq_ok_iff.1 hts)
  have hwithin := Scanner.within_ofSource source file
  have hus : (us ++ [Token.endOfInput s'.position]).takeWhile (·.kind ≠ .endOfInput) = us := by
    rw [List.takeWhile_append_of_pos, List.takeWhile_cons_of_neg, List.append_nil]
    · exact fun h => absurd rfl (of_decide_eq_true h)
    · exact fun t ht => decide_eq_true ((hrun.tiling hwithin).2.stands t ht).kind_ne
  rw [hus] at hw
  subst hw
  -- the run is cut at both ends of the slice, and the middle part runs alone
  obtain ⟨s₁, s₂, hbefore, hslice, hcovers⟩ := hrun.around hspan.ne_nil
  obtain ⟨⟨front, hfront, hstart⟩, -⟩ := hbefore.tiling hwithin
  obtain ⟨slice, hrest, hstop, halone⟩ := hslice.alone
  refine ⟨front, slice, s₂.rest, ?_, ?_, ?_⟩
  · rw [hfront, hrest, List.append_assoc]
  · rw [hspan.unique hcovers, hstop, hstart, Position.behind_append]
  · have htokens := halone.tokens
    have hend : Scanner.tokens ⟨s₂.position, []⟩ = _ := Scanner.tokens_nil rfl
    rw [hend] at htokens
    obtain ⟨ws, p, hws, hlexes⟩ := Scanner.lexes_of_tokens htokens
    rwa [(List.append_inj' hws rfl).1]

/-- The slice of a source that a node of its program spans is scanned and parsed for itself, to the
one statement that the node is or makes. -/
theorem slice_parses {source file : String} {ts : List Token} {p : List Stmt} {s alone : Stmt}
    {n : Node} (hts : tokenize source file = .ok ts) (hp : parseTokens source ts = .ok p)
    (hs : s ∈ p) (hn : n.Within (.stmt s)) (halone : n.statement? = some alone) :
    ∃ front slice back, source.toList = front ++ slice ++ back ∧
      n.span = ⟨.behind front file, .behind (front ++ slice) file⟩ ∧
      ∀ file', ∃ ts' s', tokenize (String.ofList slice) file' = .ok ts' ∧
        parseTokens (String.ofList slice) ts' = .ok [s'] ∧ s'.unplaced = alone.unplaced := by
  rw [parseTokens_eq_ok_iff] at hp
  obtain ⟨before, w, after, hw, hoccupies⟩ := Grammar.occupies_of_parse hp hs hn
  obtain ⟨front, slice, back, hsource, hspan, hlexes⟩ := exists_slice hts hw hoccupies.covers
  have hnode : n.WellFormed :=
    Node.WellFormed.within (m := .stmt s) ((wellFormed_and_proper_of_parse hts hp).1.mem hs) hn
  have hwf : WellFormedEach [alone] :=
    ⟨hnode.statement halone, fun _ hnext => (Option.not_mem_none _ hnext).elim, trivial⟩
  have hspelled : SpelledEach [alone] (w.map Token.lexeme) :=
    ⟨_, [], hoccupies.spells.statement halone, rfl, (List.append_nil _).symm⟩
  refine ⟨front, slice, back, hsource, hspan, fun file' => ?_⟩
  rw [← String.toList_ofList (l := slice)] at hlexes
  obtain ⟨ts', us, hts', hus, hlexemes⟩ := hlexes.tokenize file'
  rw [← hlexemes] at hspelled
  obtain ⟨p', hp', heq⟩ := Grammar.parse_complete hus hwf hspelled
  obtain ⟨s', rfl, hs'⟩ := List.map_eq_singleton_iff.1 heq
  exact ⟨ts', s', hts', parseTokens_eq_ok_iff.2 hp', hs'⟩

/-- An expression in the body of a loop. -/
theorem slice_parses_difference :
    ∃ ts p s e, tokenize "while x [ y - 1 ]" "a.qk" = .ok ts ∧
      parseTokens "while x [ y - 1 ]" ts = .ok p ∧ s ∈ p ∧ (Node.expr e).Within (.stmt s) ∧
      e.lexemes = [.name "y", .mark .dash, .number "1"] ∧
      ∃ front slice back, "while x [ y - 1 ]".toList = front ++ slice ++ back ∧
        e.span = ⟨.behind front "a.qk", .behind (front ++ slice) "a.qk"⟩ ∧
        ∀ file', ∃ ts' s', tokenize (String.ofList slice) file' = .ok ts' ∧
          parseTokens (String.ofList slice) ts' = .ok [s'] ∧
            s'.unplaced = (Stmt.expr e.span e).unplaced := by
  let position (column : Nat) : Position := ⟨column - 1, 1, column, "a.qk"⟩
  let span (start stop : Nat) : Span := ⟨position start, position stop⟩
  let ts : List Token := [⟨.keyword .while_, "while", span 1 6⟩, ⟨.identifier, "x", span 7 8⟩,
    ⟨.mark .openBracket, "[", span 9 10⟩, ⟨.identifier, "y", span 11 12⟩,
    ⟨.mark .dash, "-", span 13 14⟩, ⟨.number, "1", span 15 16⟩,
    ⟨.mark .closeBracket, "]", span 17 18⟩, .endOfInput (position 18)]
  let e : Expr := .binary (span 11 16) (.mark .dash) (.symbol (span 11 12) "y")
    (.literal (span 15 16) (.number "1"))
  let body : Stmt := .expr (span 11 16) e
  let s : Stmt := .while_ (span 1 18) (.symbol (span 7 8) "x") [body]
  have hts : tokenize "while x [ y - 1 ]" "a.qk" = .ok ts := by with_unfolding_all rfl
  have hp : parseTokens "while x [ y - 1 ]" ts = .ok [s] := by with_unfolding_all rfl
  have hs : s ∈ [s] := List.mem_singleton.2 rfl
  have hbody : Node.stmt body ∈ Node.parts (.stmt s) := List.mem_cons_of_mem _ (List.mem_singleton.2 rfl)
  have he : (Node.expr e).Within (.stmt s) := .part hbody (.part (List.mem_singleton.2 rfl) .self)
  exact ⟨ts, [s], s, e, hts, hp, hs, he, rfl, slice_parses hts hp hs he rfl⟩

end ScriptFrontend
