import ScriptFrontend.Proofs.Proper
import ScriptFrontend.Proofs.Writes

/-!
The canonical texts of expressions and of declarations without statements.

A well-formed and proper expression is rendered to a text that reads as its lexemes, so blanks stand
wherever two of them would run into one another.
-/

namespace ScriptFrontend

/-! ### Expressions -/

theorem Literal.writes {value : Literal} (h : value.lexeme.Proper) :
    WritesApart value.render [value.lexeme] := by
  cases value with
  | number digits => exact .number h
  | text value => exact .of_writes (.text value)
  | boolean value =>
      cases value with
      | true => exact .keyword .true_
      | false => exact .keyword .false_
  | nil => exact .keyword .nil

namespace Expr

theorem writes_unary {op : Kind} {operand : Expr} (h : Grammar.operandEntry op = some .unary)
    (ho : WritesApart operand.render operand.lexemes) (span : Span) :
    WritesApart (unary span op operand).render (unary span op operand).lexemes := by
  rw [render, lexemes]
  unfold Grammar.operandEntry at h
  split at h <;> cases h
  case h_7 => exact (Writes.keyword_blank .not_).append_apart ho
  case h_8 => exact (Writes.mark .dash rfl).append_apart ho

/-- Operators between two operands have a blank on either side. -/
theorem writes_between {k : Kind} {left right : Expr} (hk : k.Fixed)
    (hl : WritesApart left.render left.lexemes) (hr : WritesApart right.render right.lexemes) :
    WritesApart (left.render ++ " " ++ k.name ++ " " ++ right.render)
      (left.lexemes ++ k.lexeme :: right.lexemes) := by
  have h := (hl.append_blank.append (.fixed_blank hk)).append_apart hr
  rwa [← String.append_assoc, List.append_assoc] at h

theorem writes_arguments {arguments : List Expr}
    (h : ∀ e ∈ arguments, WritesApart e.render e.lexemes) :
    WritesApart (", ".intercalate (renderEach arguments))
      ([Lexeme.mark .comma].intercalate (lexemesEach arguments)) := by
  rw [renderEach_eq_map, lexemesEach_eq_map]
  exact .intercalate ⟨',', rfl, rfl, by decide⟩ (.mark_blank .comma) h

theorem proper_of_mem_arguments {arguments : List Expr}
    (h : ∀ l ∈ [Lexeme.mark .comma].intercalate (lexemesEach arguments), l.Proper) :
    ∀ e ∈ arguments, e.Proper := by
  intro e he l hl
  rw [lexemesEach_eq_map] at h
  exact h l (mem_intercalate (List.mem_map_of_mem he) hl)

theorem writes (e : Expr) : e.WellFormed → e.Proper → WritesApart e.render e.lexemes := by
  induction e using Expr.rec (motive_2 := fun es => WellFormedEach es → (∀ e ∈ es, e.Proper) →
    ∀ e ∈ es, WritesApart e.render e.lexemes) with
  | literal span value => exact fun _ hp => Literal.writes (hp _ (List.mem_singleton_self _))
  | symbol span name => exact fun _ hp => .name (hp _ (List.mem_singleton_self _))
  | unary span op operand ih =>
      intro ⟨hop, _, hwf⟩ hp
      exact writes_unary hop (ih hwf (List.forall_mem_cons.1 hp).2) span
  | binary span op left right ihl ihr =>
      intro ⟨power, hop, _, _, hl, hr⟩ hp
      obtain ⟨hpl, hpr⟩ := List.forall_mem_append.1 hp
      exact writes_between (Grammar.fixed_of_operatorEntry hop) (ihl hl hpl)
        (ihr hr (List.forall_mem_cons.1 hpr).2)
  | assign span target value iht ihv =>
      intro ⟨_, ht, hv⟩ hp
      obtain ⟨hpt, hpv⟩ := List.forall_mem_append.1 hp
      have hbetween := writes_between (k := .mark .bind) trivial (iht ht hpt)
        (ihv hv (List.forall_mem_cons.1 hpv).2)
      have htext : target.render ++ " " ++ (Kind.mark .bind).name ++ " " =
          target.render ++ " :- " := by
        rw [String.append_assoc, String.append_assoc]
        rfl
      rw [htext] at hbetween
      exact hbetween
  | call span callee arguments ihc iha =>
      intro ⟨_, hc, ha⟩ hp
      obtain ⟨hpc, hpa⟩ := List.forall_mem_append.1 hp
      obtain ⟨hpa, -⟩ := List.forall_mem_append.1 (List.forall_mem_cons.1 hpa).2
      have hopen := (ihc hc hpc).append_mark .openParen (by decide) rfl
      have harguments := hopen.append_apart
        (writes_arguments (iha ha (proper_of_mem_arguments hpa)))
      have hclose := harguments.append_mark .closeParen (by decide) rfl
      rw [List.append_assoc, List.append_assoc] at hclose
      exact .of_writes hclose
  | member span object property iho =>
      intro ⟨_, ho⟩ hp
      obtain ⟨hpo, hpp⟩ := List.forall_mem_append.1 hp
      have hproperty : (Lexeme.name property).Proper := hpp _ (by simp)
      exact (iho ho hpo).append_dot (.name hproperty) hproperty.starts
  | group span inner ih =>
      intro hwf hp
      have hinner := ih hwf (List.forall_mem_append.1 (List.forall_mem_cons.1 hp).2).1
      have hopen := (Writes.mark .openParen rfl).append_apart hinner
      have hclose := hopen.append_mark .closeParen (by decide) rfl
      exact .of_writes hclose
  | nil _ _ x hx => cases hx
  | cons e es ih ihs hwf hp x hx =>
      rcases List.mem_cons.1 hx with rfl | hx
      · exact ih hwf.1 (hp x (List.mem_cons_self ..))
      · exact ihs hwf.2 (fun y hy => hp y (List.mem_cons_of_mem _ hy)) x hx

end Expr

/-! ### Parameters and signatures -/

theorem Parameter.writes {p : Parameter} (h : p.Proper) : WritesApart p.render p.lexemes := by
  have hflags := ((Writes.mark .ellipsis rfl).flagged p.variadic).append
    ((Writes.mark .star rfl).flagged p.byReference)
  have hname := hflags.append_apart (.name h)
  rwa [List.append_assoc] at hname

theorem writes_parameters {separator : String} {m : Mark} {ps : List Parameter}
    (hd : Detached separator) (hm : Writes separator [.mark m]) (h : ∀ p ∈ ps, p.Proper) :
    WritesApart (separator.intercalate (ps.map Parameter.render)) (Lexeme.parameters m ps) :=
  .intercalate hd hm fun p hp => Parameter.writes (h p hp)

/-- The canonical text of the parameters uses the mark for an empty list. -/
theorem renderParameters_writes {ps : List Parameter} (h : ∀ p ∈ ps, p.Proper) :
    ∃ w, ParametersSpelled ps w ∧ Writes (renderParameters ps) w := by
  cases ps with
  | nil => exact ⟨_, .inl ⟨rfl, rfl⟩, .mark .bang rfl⟩
  | cons p ps =>
      refine ⟨_, .inr rfl, ?_⟩
      have hlist := (Writes.mark .openBracket rfl).append_apart
        (writes_parameters ⟨';', rfl, rfl, by decide⟩ (.mark_blank .semicolon) h)
      exact hlist.append_mark .closeBracket (by decide) rfl

theorem Signature.writes {s : Signature} (h : s.Proper) : Writes s.render s.lexemes := by
  have hflags := ((Writes.keyword_blank .rec_).flagged s.recursive).append
    ((Writes.mark .star rfl).flagged s.byReference)
  have hopen := (hflags.append_apart (.name h.name)).append_mark .openParen (by decide) rfl
  have hlist := hopen.append_apart
    (writes_parameters ⟨',', rfl, rfl, by decide⟩ (.mark_blank .comma) h.parameters)
  have hclose := hlist.append_mark .closeParen (by decide) rfl
  exact hclose.of_eq (by simp [lexemes])

/-! ### Classes -/

theorem ClassCategory.spelling_keyword (category : ClassCategory) :
    category.keyword.spelling = category.name := by
  cases category <;> rfl

theorem writes_interfaces {name : String} {names : List String}
    (h : ∀ word ∈ name :: names, (Lexeme.name word).Proper) :
    ∃ v, OthersSpelled names v ∧
      WritesApart ("; # ".intercalate (name :: names)) (.name name :: v) := by
  induction names generalizing name with
  | nil =>
      refine ⟨[], rfl, ?_⟩
      rw [String.intercalate_singleton]
      exact .name (h name (List.mem_singleton_self _))
  | cons other names ih =>
      rw [List.forall_mem_cons] at h
      obtain ⟨v, hv, hothers⟩ := ih h.2
      refine ⟨_, ⟨true, v, hv, rfl⟩, ?_⟩
      rw [String.intercalate_cons_cons]
      have hseparator : Writes "; # " [.mark .semicolon, .mark .hash] :=
        (Writes.mark_blank .semicolon).append (.mark_blank .hash)
      exact ((WritesApart.name h.1).append ⟨';', rfl, rfl, by decide⟩ hseparator).append_apart
        hothers

section

variable {d : ClassDecl} {s : String} {v : List Lexeme}

theorem ClassDecl.Proper.writes_base (h : d.Proper) (hs : WritesApart s v) :
    WritesApart (s ++ (match d.base with
      | some base => " : " ++ base
      | none => "")) (v ++ Lexeme.announced (.mark .colon) d.base) := by
  have hproper := h.base
  cases hb : d.base with
  | none => rwa [String.append_empty, Lexeme.announced, List.append_nil]
  | some base =>
      have hcolon : Writes " : " [.mark .colon] := Writes.blank.append (.mark_blank .colon)
      have hname := hcolon.append_apart (.name (hproper base hb))
      exact hs.append_apart (.append ⟨' ', rfl, rfl, by decide⟩ base) hname

theorem ClassDecl.Proper.writes_interfaces (h : d.Proper) (hs : WritesApart s v) :
    ∃ w, InterfacesSpelled d.interfaces w ∧
      WritesApart (s ++ (match d.interfaces with
        | [] => ""
        | names => " # " ++ "; # ".intercalate names)) (v ++ w) := by
  have hproper := h.interfaces
  cases hi : d.interfaces with
  | nil => exact ⟨[], rfl, by rwa [String.append_empty, List.append_nil]⟩
  | cons name names =>
      rw [hi] at hproper
      obtain ⟨w, hw, hnames⟩ := ScriptFrontend.writes_interfaces hproper
      have hhash : Writes " # " [.mark .hash] := Writes.blank.append (.mark_blank .hash)
      refine ⟨_, ⟨w, hw, rfl⟩, ?_⟩
      exact hs.append_apart (.append ⟨' ', rfl, rfl, by decide⟩ _) (hhash.append_apart hnames)

theorem ClassDecl.writes (h : d.Proper) (l : Layout) :
    ∃ w, d.Spelled w ∧ Writes (d.render l) w := by
  have hnative : Writes "native " [.keyword .native] := .keyword_blank .native
  have hend : Writes "end\n" [.keyword .end_] := .keyword_newline .end_
  have hcategory : WritesApart d.category.name [.keyword d.category.keyword] := by
    rw [← d.category.spelling_keyword]
    exact .keyword _
  have hline (s : Signature) (hs : s ∈ d.signatures) :
      Writes (l.enter.indent ++ s.render ++ "\n") s.lexemes := by
    have hs := ((Writes.indent l.enter).append (Signature.writes (h.signatures s hs))).append
      .newline
    rwa [List.nil_append, List.append_nil] at hs
  have hhead := ((hnative.flagged d.native).append_apart hcategory).append_blank.append_apart
    (.name h.name)
  obtain ⟨w, hw, hinterfaces⟩ := h.writes_interfaces (h.writes_base hhead)
  have hsignatures := hinterfaces.append_newline.append (.join hline)
  have hall := (hsignatures.append (.indent l)).append hend
  refine ⟨_, ⟨w, hw, rfl⟩, ?_⟩
  rw [render]
  refine hall.of_eq ?_
  simp

end

end ScriptFrontend
