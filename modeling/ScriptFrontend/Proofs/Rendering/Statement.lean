import ScriptFrontend.Proofs.Rendering.Expression

/-!
The canonical texts of statements.

A well-formed and proper statement is rendered to a text that reads as lexemes which spell it, at any
depth and whatever text follows.  The induction is on the statement, for all depths at once.
-/

namespace ScriptFrontend

/-! ### Statements without a body -/

theorem isNumeral_toString (n : Nat) : (Lexeme.number (toString n)).Proper :=
  Rule.isNumeral_of_digits (Text.Decimal.toList_toString_ne_nil n) fun _ hc =>
    Text.Decimal.isDigit_of_mem_toString hc

/-- A jump is written with the shortest digits for its number of loops. -/
theorem renderJump_writes (k : Keyword) (levels : Option UInt32) :
    ∃ v, LevelsSpelled levels v ∧ Writes (renderJump k.spelling levels) (.keyword k :: v) := by
  cases levels with
  | none => exact ⟨[], rfl, .keyword_newline k⟩
  | some n =>
      have hword := Writes.keyword_blank k
      have hnumber := hword.append_apart (.number (isNumeral_toString n.toNat))
      exact ⟨_, ⟨_, Text.Decimal.word?_toString n, rfl⟩, hnumber.append_newline⟩

theorem writes_word (k : Keyword) {name : String} (h : (Lexeme.name name).Proper) :
    Writes (k.spelling ++ " " ++ name ++ "\n") [.keyword k, .name name] :=
  ((Writes.keyword_blank k).append_apart (.name h)).append_newline

theorem writes_value (k : Keyword) {e : Expr} (hwf : e.WellFormed) (hp : e.Proper) :
    Writes (k.spelling ++ " " ++ e.render ++ "\n") (.keyword k :: e.lexemes) :=
  ((Writes.keyword_blank k).append_apart (e.writes hwf hp)).append_newline

theorem writes_const {name : String} {value : Expr} (hname : (Lexeme.name name).Proper)
    (hs : value.IsScalar) (hp : value.Proper) :
    Writes ("const " ++ name ++ " :- " ++ value.render ++ "\n")
      (.keyword .const :: .name name :: .mark .bind :: value.lexemes) := by
  have hconst : Writes "const " [.keyword .const] := .keyword_blank .const
  have hbind : Writes " :- " [.mark .bind] := Writes.blank.append (.mark_blank .bind)
  have hhead := (hconst.append_apart (.name hname)).append ⟨' ', rfl, rfl, by decide⟩ hbind
  exact (hhead.append_apart (value.writes hs.wellFormed hp)).append_newline

theorem writes_open {segments : List String} (h : ∀ name ∈ segments, (Lexeme.name name).Proper) :
    WritesApart ("open " ++ qualified segments) (.keyword .open_ :: Lexeme.names .dot segments) := by
  have hopen : Writes "open " [.keyword .open_] := .keyword_blank .open_
  exact hopen.append_apart (.qualified h)

theorem writes_rename {s rename : String} {v : List Lexeme} (hs : WritesApart s v)
    (h : (Lexeme.name rename).Proper) :
    Writes (s ++ " as " ++ rename ++ "\n") (v ++ [.keyword .as_, .name rename]) := by
  have has : Writes " as " [.keyword .as_] := Writes.blank.append (.keyword_blank .as_)
  have hhead := (hs.append ⟨' ', rfl, rfl, by decide⟩ has).append_apart (.name h)
  exact hhead.append_newline.of_eq (List.append_assoc ..)

/-! ### Bodies -/

/-- What a list of statements needs to be written between brackets. -/
theorem renderBody_writes {l : Layout} {body : List Stmt}
    (h : ∃ v, SpelledEach body v ∧ Writes (renderLines l.enter body) v) :
    ∃ w, Bracketed (SpelledEach body) w ∧ Writes (renderBody l body) w := by
  obtain ⟨v, hv, hlines⟩ := h
  refine ⟨_, ⟨v, false, hv, rfl⟩, ?_⟩
  have hopen : Writes "[" [.mark .openBracket] := .mark .openBracket rfl
  have hclose : Writes "]" [.mark .closeBracket] := .mark .closeBracket rfl
  cases body with
  | nil =>
      cases hv
      exact hopen.append hclose
  | cons s ss =>
      have hline : Writes "[\n" [.mark .openBracket] := hopen.append .newline
      rw [renderBody_cons]
      refine (((hline.append hlines).append (.indent l)).append hclose).of_eq ?_
      simp [Lexeme.flag]

/-- A keyword, an expression and a body. -/
theorem writes_guarded {k : Keyword} {head s : String} {e : Expr} {v : List Lexeme}
    (hk : Writes head [.keyword k]) (hwf : e.WellFormed) (hp : e.Proper) (hs : Writes s v) :
    Writes (head ++ e.render ++ " " ++ s) (.keyword k :: (e.lexemes ++ v)) :=
  (hk.append_apart (e.writes hwf hp)).append_blank.append hs

/-- A keyword and a name, which may be marked as a reference. -/
theorem writes_named (k : Keyword) (byReference : Bool) {name : String}
    (h : (Lexeme.name name).Proper) :
    WritesApart (k.spelling ++ " " ++ flagged byReference "*" ++ name)
      (.keyword k :: (Lexeme.flag byReference (.mark .star) ++ [.name name])) := by
  have hstar : Writes "*" [.mark .star] := .mark .star rfl
  exact ((Writes.keyword_blank k).append (hstar.flagged byReference)).append_apart (.name h)

mutual

theorem Stmt.writes : ∀ (s : Stmt) (l : Layout), s.WellFormed → s.Proper →
    ∃ v, s.Spelled v ∧ Writes (s.render l) v
  | .block _ body, l, ⟨_, hwf⟩, hp => by
      obtain ⟨v, hv, hlines⟩ := renderLines_writes body l.enter hwf hp
      have hbegin : Writes "begin\n" [.keyword .begin_] := .keyword_newline .begin_
      have hend : Writes "end\n" [.keyword .end_] := .keyword_newline .end_
      refine ⟨_, ⟨v, hv, rfl⟩, ?_⟩
      rw [Stmt.render]
      exact (((hbegin.append hlines).append (.indent l)).append hend).of_eq (by simp)
  | .break_ _ levels, l, _, _ => by
      obtain ⟨v, hv, hjump⟩ := renderJump_writes .break_ levels
      exact ⟨_, ⟨v, hv, rfl⟩, hjump⟩
  | .class_ _ decl, l, _, hp => ClassDecl.writes hp l
  | .const _ name value, l, hs, ⟨hname, hp⟩ => ⟨_, rfl, writes_const hname hs hp⟩
  | .continue_ _ levels, l, _, _ => by
      obtain ⟨v, hv, hjump⟩ := renderJump_writes .continue_ levels
      exact ⟨_, ⟨v, hv, rfl⟩, hjump⟩
  | .def_ _ name byReference ps body, l, ⟨_, hwf⟩, ⟨hname, hps, hp⟩ => by
      obtain ⟨u, hu, hparameters⟩ := renderParameters_writes hps
      obtain ⟨v, hv, hbody⟩ := renderBody_writes (renderLines_writes body l.enter hwf hp)
      have hhead := (writes_named .def_ byReference hname).append_blank.append hparameters
      refine ⟨_, ⟨u, v, hu, hv, rfl⟩, ?_⟩
      rw [Stmt.render]
      exact (((hhead.append .blank).append hbody).append .newline).of_eq (by simp)
  | .expr _ e, l, hwf, hp => ⟨_, rfl, (e.writes hwf hp).append_newline⟩
  | .foreach _ name byReference iterable body, l, ⟨hi, _, hwf⟩, ⟨hname, hip, hp⟩ => by
      obtain ⟨v, hv, hbody⟩ := renderBody_writes (renderLines_writes body l.enter hwf hp)
      have hin : Writes " in " [.keyword .in_] := Writes.blank.append (.keyword_blank .in_)
      have hhead := (writes_named .foreach byReference hname).append
        ⟨' ', rfl, rfl, by decide⟩ hin
      have hiterable := (hhead.append_apart (iterable.writes hi hip)).append_blank
      refine ⟨_, ⟨v, hv, rfl⟩, ?_⟩
      rw [Stmt.render]
      exact ((hiterable.append hbody).append .newline).of_eq (by simp)
  | .global _ names, l, _, hp => by
      have hglobal : Writes "global " [.keyword .global] := .keyword_blank .global
      have hnames := WritesApart.names ⟨',', rfl, rfl, by decide⟩ (.mark_blank .comma) hp
      exact ⟨_, rfl, (hglobal.append_apart hnames).append_newline⟩
  | .goto _ label, l, _, hp => ⟨_, rfl, writes_word .goto hp⟩
  | .if_ _ condition body chain, l, ⟨hc, ⟨_, hwf⟩, hchain⟩, ⟨hcp, hp, hchainp⟩ => by
      obtain ⟨u, hu, hbody⟩ := renderBody_writes (renderLines_writes body l.enter hwf hp)
      obtain ⟨v, hv, helse⟩ := ElseChain.writes chain l hchain hchainp
      have hif : Writes "if " [.keyword .if_] := .keyword_blank .if_
      have hhead := (writes_guarded hif hc hcp hbody).append helse
      exact ⟨_, ⟨u, v, hu, hv, rfl⟩, (hhead.append .newline).of_eq (by simp)⟩
  | .label _ name, l, _, hp => ⟨_, rfl, writes_word .label hp⟩
  | .module_ _ segments, l, _, hp => by
      have hmodule : Writes "module " [.keyword .module_] := .keyword_blank .module_
      exact ⟨_, rfl, (hmodule.append_apart (.qualified hp)).append_newline⟩
  | .open_ _ segments none, l, _, ⟨hp, _⟩ => by
      refine ⟨_, rfl, ?_⟩
      rw [Lexeme.announced, List.append_nil]
      exact (writes_open hp).append_newline
  | .open_ _ segments (some rename), l, _, ⟨hp, hr⟩ =>
      ⟨_, rfl, writes_rename (writes_open hp) (hr rename rfl)⟩
  | .print _ value, l, hwf, hp => ⟨_, rfl, writes_value .print hwf hp⟩
  | .raise _ value, l, hwf, hp => ⟨_, rfl, writes_value .raise hwf hp⟩
  | .return_ _ none, l, _, _ => ⟨_, rfl, .keyword_newline .return_⟩
  | .return_ _ (some value), l, hwf, hp => ⟨_, rfl, writes_value .return_ hwf (hp value rfl)⟩
  | .while_ _ condition body, l, ⟨hc, _, hwf⟩, ⟨hcp, hp⟩ => by
      obtain ⟨v, hv, hbody⟩ := renderBody_writes (renderLines_writes body l.enter hwf hp)
      have hwhile : Writes "while " [.keyword .while_] := .keyword_blank .while_
      have hhead := writes_guarded hwhile hc hcp hbody
      exact ⟨_, ⟨v, hv, rfl⟩, (hhead.append .newline).of_eq (by simp)⟩

theorem ElseChain.writes : ∀ (chain : ElseChain) (l : Layout), chain.WellFormed → chain.Proper →
    ∃ v, chain.Spelled v ∧ Writes (chain.render l) v
  | .done, _, _, _ => ⟨[], rfl, .empty⟩
  | .elif condition body chain, l, ⟨hc, ⟨_, hwf⟩, hchain⟩, ⟨hcp, hp, hchainp⟩ => by
      obtain ⟨u, hu, hbody⟩ := renderBody_writes (renderLines_writes body l.enter hwf hp)
      obtain ⟨v, hv, helse⟩ := ElseChain.writes chain l hchain hchainp
      have helif : Writes " elif " [.keyword .elif] := Writes.blank.append (.keyword_blank .elif)
      have hhead := (writes_guarded helif hc hcp hbody).append helse
      exact ⟨_, ⟨u, v, hu, hv, rfl⟩, hhead.of_eq (by simp)⟩
  | .otherwise body, l, ⟨_, hwf⟩, hp => by
      obtain ⟨v, hv, hbody⟩ := renderBody_writes (renderLines_writes body l.enter hwf hp)
      have helse : Writes " else " [.keyword .else_] := Writes.blank.append (.keyword_blank .else_)
      exact ⟨_, ⟨v, hv, rfl⟩, helse.append hbody⟩

theorem renderLines_writes : ∀ (ss : List Stmt) (l : Layout), WellFormedEach ss → ProperEach ss →
    ∃ v, SpelledEach ss v ∧ Writes (renderLines l ss) v
  | [], _, _, _ => ⟨[], rfl, .empty⟩
  | s :: ss, l, ⟨hs, _, hss⟩, ⟨hp, hps⟩ => by
      obtain ⟨u, hu, hstmt⟩ := Stmt.writes s l hs hp
      obtain ⟨v, hv, hlines⟩ := renderLines_writes ss l hss hps
      refine ⟨_, ⟨u, v, hu, hv, rfl⟩, ?_⟩
      rw [renderLines]
      exact ((Writes.indent l).append hstmt).append hlines

end

end ScriptFrontend
