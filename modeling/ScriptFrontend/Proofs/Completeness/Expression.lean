import ScriptFrontend.Grammar.Declaration
import ScriptFrontend.Proofs.Yields

/-!
Completeness of expressions, and of what declarations are made of.

Whatever is well formed is read from the lexemes that spell it, up to its places.  The theorems
follow the productions as those of soundness do.  For expressions the obligation is the left
recursion: the operand at the left end of an expression is read first, and each operator on the way
out goes on with what has been read so far.
-/

namespace ScriptFrontend

theorem ClassCategory.ofKind?_keyword (category : ClassCategory) :
    ofKind? (.keyword category.keyword) = some category := by
  cases category <;> rfl

/-- A list of signatures starts with a signature or with the word that ends it. -/
theorem Signature.front_each_ne (ss : List Signature) {k x : Kind} (hx : x ≠ .keyword .end_)
    (hs : x.startsSignature = false) :
    Lexeme.front ((ss.map lexemes).flatten ++ [.keyword .end_]) k ≠ x := by
  cases ss with
  | nil => exact fun h => hx h.symm
  | cons s ss =>
      rw [List.map_cons, List.flatten_cons, List.append_assoc, Lexeme.front_append]
      intro h
      rw [← h, (s.startsSignature_front _).2] at hs
      cases hs

namespace Grammar

open ScriptFrontend.Parser

variable {w : List Lexeme} {k : Kind}

/-! ### Names, parameters and classes -/

theorem yields_identifier (name : String) :
    Yields standard.identifier [.name name] k (· = name) :=
  .expect_bind (l := .name name) fun _ ht => .pure (Token.eq_of_lexeme_eq_name ht).2

theorem yields_identifier_bind {β : Type} {name : String} {Q : β → Prop} {f : String → Parser β}
    (hf : Yields (f name) w k Q) : Yields (standard.identifier >>= f) (.name name :: w) k Q := by
  refine Yields.bind (v := [.name name]) (yields_identifier name) ?_
  rintro _ rfl
  exact hf

theorem yields_names {m : Mark} {names : List String} (hne : names ≠ []) (hk : k ≠ .mark m) :
    Yields (separated (.mark m) standard.identifier) (Lexeme.names m names) k (· = names) := by
  refine (Yields.separated (φ := id) hne hk fun name _ k' _ => yields_identifier name).mono ?_
  intro names' h
  rwa [List.map_id, List.map_id] at h

theorem yields_announced {l : Lexeme} (hk : k ≠ l.kind) (name : Option String) :
    Yields (after? l.kind standard.identifier) (Lexeme.announced l name) k (· = name) := by
  cases name with
  | none => exact .optional_none (decide_eq_false hk) rfl
  | some name => exact .after?_some ((yields_identifier name).mono fun _ h => congrArg some h)

theorem yields_parameter (p : Parameter) :
    Yields standard.parameter p.lexemes k (·.unplaced = p.unplaced) := by
  obtain ⟨name, byReference, variadic, span⟩ := p
  refine .here_bind fun start => .accept_bind (l := .mark .ellipsis) ?_ <|
    .accept_bind (l := .mark .star) (fun _ => nofun) <| yields_identifier_bind <|
      .spanFrom_bind fun span' => .pure rfl
  exact fun _ => Lexeme.front_flag_ne nofun nofun

theorem yields_parameterList {separator : Mark} (ps : List Parameter)
    (hk : k.startsParameter = false) (hsep : k ≠ .mark separator) :
    Yields (standard.parameterList separator) (Lexeme.parameters separator ps) k
      fun ps' => ps'.map Parameter.unplaced = ps.map Parameter.unplaced := by
  rw [← List.append_nil (Lexeme.parameters separator ps)]
  refine .bind (P := fun ps' => (ps'.getD []).map Parameter.unplaced = ps.map Parameter.unplaced) ?_
    fun ps' h => .pure h
  cases ps with
  | nil => exact .optional_none hk rfl
  | cons p ps =>
      refine .optional_some ?_ (.separated (List.cons_ne_nil p ps) hsep fun p _ k' _ =>
        yields_parameter p)
      rw [Lexeme.parameters, List.map_cons, intercalate_cons, Lexeme.front_append]
      exact (p.startsParameter_front _).2

theorem yields_parameters {ps : List Parameter} (hw : ParametersSpelled ps w) :
    Yields standard.parameters w k
      fun ps' => ps'.map Parameter.unplaced = ps.map Parameter.unplaced := by
  rcases hw with ⟨rfl, rfl⟩ | rfl
  · exact .accept_bind (b := true) (l := .mark .bang) (w := []) nofun (.pure rfl)
  · refine .accept_bind (b := false) (l := .mark .bang) (fun _ => nofun) <|
      .require_bind (l := .mark .openBracket) <| .bind (yields_parameterList ps rfl nofun)
        fun ps' h => .require_bind (l := .mark .closeBracket) <| .pure h

theorem yields_signature (s : Signature) :
    Yields standard.signature s.lexemes k (·.unplaced = s.unplaced) := by
  obtain ⟨name, recursive, byReference, parameters, span⟩ := s
  refine .here_bind fun start => .accept_bind (l := .keyword .rec_) ?_ <|
    .accept_bind (l := .mark .star) (fun _ => nofun) <| yields_identifier_bind <|
      .require_bind (l := .mark .openParen) <| .bind (yields_parameterList parameters rfl nofun)
        fun ps h => .require_bind (l := .mark .closeParen) <| .spanFrom_bind fun span' => .pure ?_
  · exact fun _ => Lexeme.front_flag_ne nofun nofun
  · exact congrArg (fun ps => Signature.mk name recursive byReference ps ⟨.nowhere, .nowhere⟩) h

theorem yields_classCategory (category : ClassCategory) :
    Yields classCategory [.keyword category.keyword] k (· = category) := by
  refine .peek_bind fun t ht _ => ?_
  have hof : ClassCategory.ofKind? t.kind = some category := by
    rw [ht]
    exact category.ofKind?_keyword
  rw [hof]
  exact .skip_bind (.pure rfl)

theorem yields_interfaces {name : String} {names : List String} (hw : OthersSpelled names w)
    (hk : k ≠ .mark .semicolon) :
    Yields standard.interfaces (.name name :: w) k (· = name :: names) := by
  have hmany : Yields (many (· = .mark .semicolon) do
      skip
      skipIf (.mark .hash)
      standard.identifier) w k (· = names) := by
    induction names generalizing w with
    | nil =>
        cases hw
        exact .many_nil (decide_eq_false hk) rfl
    | cons other names ih =>
        obtain ⟨hash, v, hv, rfl⟩ := hw
        have hw' : Lexeme.mark .semicolon :: (Lexeme.flag hash (.mark .hash) ++ .name other :: v) =
            (.mark .semicolon :: (Lexeme.flag hash (.mark .hash) ++ [.name other])) ++ v := by
          rw [List.cons_append, List.append_assoc]
          rfl
        rw [hw']
        refine .many_cons (P := (· = other)) (List.cons_ne_nil _ _) (decide_eq_true rfl) ?_ (ih hv)
          fun _ _ h hs => by rw [h, hs]
        exact .skip_bind <| .skipIf_bind (l := .mark .hash) (fun _ => nofun) <| yields_identifier other
  refine yields_identifier_bind ?_
  rw [← List.append_nil w]
  exact .bind hmany fun names' h => .pure (congrArg _ h)

theorem yields_classDecl (span : Span) {d : ClassDecl} (hw : d.Spelled w) :
    Yields standard.classDecl w k (·.unplaced = (Stmt.class_ span d).unplaced) := by
  obtain ⟨category, name, base, interfaces, signatures, native⟩ := d
  obtain ⟨v, hv, rfl⟩ := hw
  refine .here_bind fun start => .accept_bind (l := .keyword .native) ?_ ?_
  · cases category <;> exact fun _ => nofun
  refine .bind (v := [.keyword category.keyword]) (yields_classCategory category) ?_
  rintro category rfl
  refine yields_identifier_bind <| .bind (yields_announced (l := .mark .colon) ?_ base) ?_
  · cases interfaces with
    | nil =>
        cases hv
        exact Signature.front_each_ne signatures nofun rfl
    | cons name names =>
        obtain ⟨u, -, rfl⟩ := hv
        exact nofun
  rintro base rfl
  refine .bind (P := fun names => names.getD [] = interfaces) ?_ ?_
  · cases interfaces with
    | nil =>
        cases hv
        exact .optional_none (decide_eq_false (Signature.front_each_ne signatures nofun rfl)) rfl
    | cons name names =>
        obtain ⟨u, hu, rfl⟩ := hv
        exact .after?_some (l := .mark .hash) <|
          yields_interfaces hu (Signature.front_each_ne signatures nofun rfl)
  rintro names rfl
  refine .bind (Yields.many (φ := Signature.unplaced) rfl ?_ ?_) ?_
  · exact fun s _ => ⟨(s.startsSignature_front k).1, fun k => (s.startsSignature_front k).2⟩
  · exact fun s _ k' _ => yields_signature s
  intro signatures' h
  refine .require_bind (l := .keyword .end_) <| .spanFrom_bind fun span' => .pure ?_
  exact congrArg (fun ss => Stmt.class_ ⟨.nowhere, .nowhere⟩
    ⟨category, name, base.map id, (names.getD []).map id, ss, native⟩) h

theorem yields_moduleDecl {span : Span} {segments : List String} (hne : segments ≠ [])
    (hk : k ≠ .mark .dot) :
    Yields standard.moduleDecl (.keyword .module_ :: Lexeme.names .dot segments) k
      (·.unplaced = (Stmt.module_ span segments).unplaced) := by
  rw [← List.append_nil (Lexeme.names .dot segments)]
  refine .here_bind fun start => .require_bind (l := .keyword .module_) <|
    .bind (yields_names hne hk) ?_
  rintro _ rfl
  exact .spanFrom_bind fun span' => .pure rfl

theorem yields_openDecl {span : Span} {segments : List String} {rename : Option String}
    (hne : segments ≠ []) (hdot : k ≠ .mark .dot) (has : k ≠ .keyword .as_) :
    Yields standard.openDecl
      (.keyword .open_ :: (Lexeme.names .dot segments ++
        Lexeme.announced (.keyword .as_) rename)) k
      (·.unplaced = (Stmt.open_ span segments rename).unplaced) := by
  rw [← List.append_nil (Lexeme.announced _ _)]
  refine .here_bind fun start => .require_bind (l := .keyword .open_) <|
    .bind (yields_names hne ?_) ?_
  · cases rename with
    | none => exact hdot
    | some name => exact nofun
  rintro _ rfl
  refine .bind (yields_announced (l := .keyword .as_) has rename) ?_
  rintro _ rfl
  exact .spanFrom_bind fun span' => .pure rfl

/-! ### Operands -/

theorem yields_primary {e : Expr} (he : e.IsScalar) :
    Yields standard.primary e.lexemes k (·.unplaced = e.unplaced) := by
  cases e with
  | literal span value =>
      refine .advance_bind fun t ht => ?_
      cases value with
      | number digits =>
          obtain ⟨hk, hv⟩ := Token.eq_of_lexeme_eq_number ht
          rw [hk, hv]
          exact .pure rfl
      | text value =>
          obtain ⟨hk, hv⟩ := Token.eq_of_lexeme_eq_text ht
          rw [hk, hv]
          exact .pure rfl
      | boolean value =>
          cases value <;> rw [Token.kind_of_lexeme_eq ht] <;> exact .pure rfl
      | nil =>
          rw [Token.kind_of_lexeme_eq ht]
          exact .pure rfl
  | symbol span name =>
      refine .advance_bind fun t ht => ?_
      obtain ⟨hk, hv⟩ := Token.eq_of_lexeme_eq_name ht
      rw [hk, hv]
      exact .pure rfl
  | _ => exact he.elim

theorem isStaticScalar_first {e : Expr} (he : e.IsScalar) : e.first.isStaticScalar = true := by
  cases e with
  | literal span value =>
      cases value with
      | boolean value => cases value <;> rfl
      | _ => rfl
  | symbol span name => rfl
  | _ => exact he.elim

theorem yields_constDecl {span : Span} {name : String} {value : Expr} (hv : value.IsScalar) :
    Yields standard.constDecl (.keyword .const :: .name name :: .mark .bind :: value.lexemes) k
      (·.unplaced = (Stmt.const span name value).unplaced) := by
  rw [← List.append_nil value.lexemes]
  refine .here_bind fun start => .require_bind (l := .keyword .const) <| yields_identifier_bind <|
    .require_bind (l := .mark .bind) <| .bind (P := (·.unplaced = value.unplaced)) ?_ ?_
  · refine .peek_bind fun t ht _ => ?_
    rw [ht, value.front_lexemes, if_pos (isStaticScalar_first hv)]
    exact yields_primary hv
  · intro value' h
    exact .spanFrom_bind fun span' => .pure (congrArg (Stmt.const ⟨.nowhere, .nowhere⟩ name) h)

section

variable {nested : Power → Parser Expr} {n : Nat} {floor power : Power} {left : Expr}

abbrev NestedYields (nested : Power → Parser Expr) (n : Nat) : Prop :=
  ∀ (floor : Power) (e : Expr) (k : Kind), floor.rank ≤ Power.unary.rank → e.lexemes.length ≤ n →
    e.WellFormed → e.Fits floor → k.Stops floor →
      Yields (nested floor) e.lexemes k (·.unplaced = e.unplaced)

theorem yields_operand (rule : OperandRule) {Q : Expr → Prop}
    (h : operandEntry (Lexeme.front w k) = some rule)
    (hp : Yields (standard.operandOf nested rule) w k Q) :
    Yields (standard.operand nested) w k Q := by
  refine .peek_bind fun t ht _ => ?_
  dsimp only [standard]
  rw [ht, h]
  exact hp

theorem yields_unary {span : Span} {op : Kind} {operand : Expr}
    (he : (Expr.unary span op operand).WellFormed) (hlen : operand.lexemes.length ≤ n)
    (hk : k.Stops .unary) (hn : NestedYields nested n) :
    Yields (unary nested) (op.lexeme :: operand.lexemes) k
      (·.unplaced = (Expr.unary span op operand).unplaced) := by
  obtain ⟨-, hle, hwf⟩ := he
  rw [← List.append_nil operand.lexemes]
  refine .advance_bind fun t ht =>
    .bind (hn .unary operand k (Nat.le_refl _) hlen hwf (Expr.fits_unary hle) hk) fun operand' h => ?_
  rw [Token.kind_of_lexeme_eq ht, Kind.kind_lexeme]
  exact .pure (congrArg (Expr.unary ⟨.nowhere, .nowhere⟩ op) h)

theorem yields_group {span : Span} {inner : Expr} (he : inner.WellFormed)
    (hlen : inner.lexemes.length ≤ n) (hn : NestedYields nested n) :
    Yields (group nested) (.mark .openParen :: (inner.lexemes ++ [.mark .closeParen])) k
      (·.unplaced = (Expr.group span inner).unplaced) :=
  .here_bind fun _ => .skip_bind <|
    .bind (hn .lowest inner _ (Nat.zero_le _) hlen he he.fits_lowest (.of_none rfl)) fun _ h =>
      .require_bind (l := .mark .closeParen) <| .spanFrom_bind fun _ =>
        .pure (congrArg (Expr.group ⟨.nowhere, .nowhere⟩) h)

/-! ### Operators behind an operand -/

variable {left' : Expr}

theorem yields_binary {span : Span} {op : Kind} {right : Expr}
    (hk : operatorEntry op = some (power, .binary))
    (hlt : power.rank < right.level.rank) (hwf : right.WellFormed)
    (hlen : right.lexemes.length ≤ n) (hleft : left'.unplaced = left.unplaced)
    (hstop : k.Stops power) (hn : NestedYields nested n) :
    Yields (binary nested left' power) (op.lexeme :: right.lexemes) k
      (·.unplaced = (Expr.binary span op left right).unplaced) := by
  have hpower := Nat.le_of_lt (rank_of_binary hk).2
  rw [← List.append_nil right.lexemes]
  refine .advance_bind fun t ht =>
    .bind (hn power right k hpower hlen hwf (.inl hlt) hstop) fun right' h => ?_
  rw [Token.kind_of_lexeme_eq ht, Kind.kind_lexeme]
  refine .pure ?_
  change Expr.binary _ op left'.unplaced right'.unplaced = _
  rw [hleft, h]
  rfl

theorem yields_assign {span : Span} {value : Expr} (hwf : value.WellFormed)
    (hlen : value.lexemes.length ≤ n) (hleft : left'.unplaced = left.unplaced)
    (hstop : k.Stops .lowest) (hn : NestedYields nested n) :
    Yields (assign nested left') (.mark .bind :: value.lexemes) k
      (·.unplaced = (Expr.assign span left value).unplaced) := by
  rw [← List.append_nil value.lexemes]
  refine .skip_bind <|
    .bind (hn .lowest value k (Nat.zero_le _) hlen hwf hwf.fits_lowest hstop) fun value' h => .pure ?_
  change Expr.assign _ left'.unplaced value'.unplaced = _
  rw [hleft, h]
  rfl

theorem yields_arguments {es : List Expr} (hwf : ∀ e ∈ es, e.WellFormed)
    (hlen : ∀ e ∈ es, e.lexemes.length ≤ n) (hn : NestedYields nested n) :
    Yields (optional standard.startsExpression (separated (.mark .comma) (nested .lowest)))
      ([Lexeme.mark .comma].intercalate (es.map Expr.lexemes)) (.mark .closeParen)
      fun es' => (es'.getD []).map Expr.unplaced = es.map Expr.unplaced := by
  cases es with
  | nil => exact .optional_none rfl rfl
  | cons e es =>
      refine .optional_some ?_ <| .separated (List.cons_ne_nil e es) nofun fun e he k' hk' => ?_
      · rw [List.map_cons, intercalate_cons, Lexeme.front_append, e.front_lexemes]
        exact (hwf e (List.mem_cons_self ..)).operandEntry_first
      · refine hn .lowest e k' (Nat.zero_le _) (hlen e he) (hwf e he) (hwf e he).fits_lowest ?_
        rcases hk' with rfl | rfl <;> exact .of_none rfl

theorem yields_call {span : Span} {es : List Expr} (hwf : ∀ e ∈ es, e.WellFormed)
    (hlen : ∀ e ∈ es, e.lexemes.length ≤ n) (hleft : left'.unplaced = left.unplaced)
    (hn : NestedYields nested n) :
    Yields (standard.call nested left')
      (.mark .openParen :: ([Lexeme.mark .comma].intercalate (es.map Expr.lexemes) ++
        [.mark .closeParen])) k
      (·.unplaced = (Expr.call span left es).unplaced) := by
  refine .skip_bind <| .bind (yields_arguments hwf hlen hn) fun es' h =>
    .require_bind (l := .mark .closeParen) <| .spanFrom_bind fun span' => .pure ?_
  change Expr.call _ left'.unplaced (Expr.relabelEach .unplace _) =
    Expr.call _ left.unplaced (Expr.relabelEach .unplace _)
  rw [hleft, Expr.relabelEach_eq_map, Expr.relabelEach_eq_map]
  exact congrArg (Expr.call ⟨.nowhere, .nowhere⟩ left.unplaced) h

theorem yields_member {span : Span} {property : String} (hleft : left'.unplaced = left.unplaced) :
    Yields (member left') [.mark .dot, .name property] k
      (·.unplaced = (Expr.member span left property).unplaced) := by
  refine .skip_bind <| .expect_bind (l := .name property) fun t ht => ?_
  rw [(Token.eq_of_lexeme_eq_name ht).2]
  exact .pure (congrArg (Expr.member ⟨.nowhere, .nowhere⟩ · property) hleft)

/-! ### The left end of an expression -/

/-- Reading the expression is reading what stands behind it, with the expression on the left. -/
def Leads (nested : Power → Parser Expr) (floor : Power) (e : Expr) : Prop :=
  ∀ c d : Cursor, c.Reads e.lexemes d → d.current.kind.Stops e.limit →
    ∃ e', e'.unplaced = e.unplaced ∧
      standard.expressionWith nested floor c = standard.extend nested floor e' d

theorem leads_of_operand {e : Expr}
    (h : ∀ k, k.Stops e.limit →
      Yields (standard.operand nested) e.lexemes k (·.unplaced = e.unplaced)) :
    Leads nested floor e := by
  intro c d hr hd
  obtain ⟨e', he', heq⟩ := h _ hd c d hr rfl
  exact ⟨e', heq, bind_of_ok he'⟩

/-- An operator goes on with what stands on its left, whatever its places are. -/
theorem Leads.operator {e : Expr} {l : Lexeme} (hleft : Leads nested floor left)
    (rule : OperatorRule) (hk : operatorEntry l.kind = some (power, rule))
    (hlt : floor.rank < power.rank) (hle : power.rank ≤ left.limit.rank)
    (hlexemes : e.lexemes = left.lexemes ++ l :: w)
    (hop : ∀ left' k, left'.unplaced = left.unplaced → k.Stops e.limit →
      Yields (standard.operatorOf nested left' power rule) (l :: w) k
        (·.unplaced = e.unplaced)) : Leads nested floor e := by
  intro c d hr hd
  rw [hlexemes] at hr
  obtain ⟨m, hcm, hmd⟩ := hr.split
  have hm : m.current.kind = l.kind := kind_of_reads hmd
  obtain ⟨left', heq, hext⟩ := hleft c m hcm (by rw [hm]; exact .of_entry hk hle)
  obtain ⟨e', he', heq'⟩ := hop left' _ heq hd m d hmd rfl
  refine ⟨e', heq', ?_⟩
  rw [← hm] at hk
  rw [hext, extend_of_operator (standard_power hk) (Nat.not_le_of_lt hlt)
    (standard_operatorRule hk), he']
  refine if_pos ?_
  have := hmd.length
  rw [List.length_cons] at this
  omega

theorem length_lexemes_left {u v w : List Lexeme} {l : Lexeme} {n : Nat} (h : u = v ++ l :: w)
    (hlen : u.length ≤ n + 1) : v.length ≤ n + 1 ∧ w.length ≤ n := by
  rw [h, List.length_append, List.length_cons] at hlen
  omega

theorem leads (hf : floor.rank ≤ Power.unary.rank) (hn : NestedYields nested n) (e : Expr) :
    e.WellFormed → e.Fits floor → e.lexemes.length ≤ n + 1 → Leads nested floor e := by
  -- On the expression, down its left end only: what stands behind an operator, or in brackets, has
  -- fewer lexemes and is left to `hn`.
  induction e using Expr.rec (motive_2 := fun _ => True) with
  | literal span value =>
      intro _ _ _
      refine leads_of_operand fun k _ => yields_operand .primary ?_ (yields_primary trivial)
      cases value with
      | boolean value => cases value <;> rfl
      | _ => rfl
  | symbol span name =>
      intro _ _ _
      exact leads_of_operand fun k _ => yields_operand .primary rfl (yields_primary trivial)
  | unary span op operand =>
      intro he _ hlen
      refine leads_of_operand fun k hk => yields_operand .unary ?_ ?_
      · exact (congrArg operandEntry op.kind_lexeme).trans he.1
      · exact yields_unary he (Nat.le_of_succ_le_succ hlen) hk hn
  | group span inner =>
      intro he _ hlen
      refine leads_of_operand fun k _ => yields_operand .group rfl ?_
      refine yields_group he ?_ hn
      simp only [Expr.lexemes, List.length_cons, List.length_append] at hlen
      omega
  | binary span op left right ihl _ =>
      intro he hfits hlen
      obtain ⟨power, hop, hle, hlt, hleft, hright⟩ := he
      have hpower := rank_of_binary hop
      have hfloor := hfits.lt_binary hop
      obtain ⟨hlen₁, hlen₂⟩ := length_lexemes_left rfl hlen
      refine (ihl hleft (.inl (Nat.lt_of_lt_of_le hfloor hle)) hlen₁).operator
        (l := op.lexeme) .binary (by rwa [Kind.kind_lexeme]) hfloor
        (Expr.le_limit_of_le_level hpower.1 hle) rfl fun left' k heq hk => ?_
      rw [Expr.limit_binary hop] at hk
      exact yields_binary hop hlt hright hlen₂ heq hk hn
  | assign span target value iht _ =>
      intro he hfits hlen
      obtain ⟨hlt, htarget, hvalue⟩ := he
      have hfloor := hfits.lt_assignment
      obtain ⟨hlen₁, hlen₂⟩ := length_lexemes_left rfl hlen
      exact (iht htarget (.inl (Nat.lt_trans hfloor hlt)) hlen₁).operator
        .assign rfl hfloor (Expr.assignment_le_limit hlt) rfl fun left' k heq hk =>
          yields_assign hvalue hlen₂ heq hk hn
  | call span callee arguments ihc _ =>
      intro he hfits hlen
      obtain ⟨hlt, hcallee, hargs⟩ := he
      rw [Expr.wellFormedEach_iff] at hargs
      have hlimit := hcallee.limit_of_unary_lt_level hlt
      obtain ⟨hlen₁, hlen₂⟩ := length_lexemes_left rfl hlen
      rw [List.length_append, Expr.lexemesEach_eq_map] at hlen₂
      refine (ihc hcallee (.inl (Nat.lt_of_le_of_lt hf hlt)) hlen₁).operator .call rfl
        (Nat.lt_of_le_of_lt hf (by decide : _ < Power.call.rank)) (by rw [hlimit]; decide) rfl
        fun left' k heq _ => ?_
      rw [Expr.lexemesEach_eq_map]
      refine yields_call hargs (fun e he => ?_) heq hn
      have := length_le_intercalate [Lexeme.mark .comma]
        (List.mem_map_of_mem (f := Expr.lexemes) he)
      omega
  | member span object property iho =>
      intro he hfits hlen
      obtain ⟨hlt, hobject⟩ := he
      have hlimit := hobject.limit_of_unary_lt_level hlt
      obtain ⟨hlen₁, -⟩ := length_lexemes_left rfl hlen
      exact (iho hobject (.inl (Nat.lt_of_le_of_lt hf hlt)) hlen₁).operator .member rfl
        (Nat.lt_of_le_of_lt hf (by decide : _ < Power.member.rank)) (by rw [hlimit]; decide) rfl
        fun left' k heq _ => yields_member heq
  | nil => trivial
  | cons => trivial

theorem yields_expressionWith (hn : NestedYields nested n) {e : Expr} {k : Kind}
    (hf : floor.rank ≤ Power.unary.rank) (hlen : e.lexemes.length ≤ n + 1) (he : e.WellFormed)
    (hfits : e.Fits floor) (hk : k.Stops floor) :
    Yields (standard.expressionWith nested floor) e.lexemes k (·.unplaced = e.unplaced) := by
  intro c d hr hd
  have hstop : d.current.kind.Stops floor := hd ▸ hk
  obtain ⟨e', heq, hext⟩ := leads hf hn e he hfits hlen c d hr (hstop.mono (hfits.le_limit hf))
  exact ⟨e', hext.trans (extend_of_stop (Kind.stops_iff_power.1 hstop)), heq⟩

end

theorem yields_expressionUpTo (n : Nat) : NestedYields (standard.expressionUpTo n) n := by
  induction n with
  | zero =>
      intro floor e k _ hlen
      exact absurd (List.length_eq_zero_iff.1 (Nat.le_zero.1 hlen)) e.lexemes_ne_nil
  | succ n ih =>
      intro floor e k hf hlen he hfits hk
      exact yields_expressionWith ih hf hlen he hfits hk

/-- An expression is read whole wherever the next token does not go on with it. -/
theorem yields_expression {e : Expr} (he : e.WellFormed) (hk : k.Stops .lowest) :
    Yields (standard.expression .lowest) e.lexemes k (·.unplaced = e.unplaced) := by
  intro c d hr hd
  have := hr.length
  exact yields_expressionUpTo (c.rest.length + 1) .lowest e k (Nat.zero_le _) (by omega) he
    he.fits_lowest hk c d hr hd

end Grammar

end ScriptFrontend
