import Mathlib.Data.List.Basic
import ScriptFrontend.Proofs.Extents.Expression
import ScriptFrontend.Proofs.Renaming
import ScriptFrontend.Proofs.RoundTrip
import ScriptFrontend.Proofs.Segments

/-!
Aliases for qualified names in expressions.

The language has no qualified names in expressions: what an alias with dots in it turns a symbol
into is written like a chain of members, and read back as one.  Such a chain holds together as
tightly as the symbol does, so it fits wherever the symbol stood, and it has the same text.
-/

namespace ScriptFrontend

open Grammar (standard)

/-- Words of the language, joined with dots. -/
def IsPath (name : String) : Prop :=
  ∃ words, words ≠ [] ∧ (∀ w ∈ words, (Lexeme.name w).Proper) ∧ name = qualified words

def Aliases.Paths (aliases : Aliases) : Prop :=
  ∀ name, ∀ target ∈ aliases.reverse.lookup name, IsPath target

theorem IsPath.of_proper {word : String} (h : (Lexeme.name word).Proper) : IsPath word :=
  ⟨[word], List.cons_ne_nil _ _, List.forall_mem_singleton.2 h, String.intercalate_singleton.symm⟩

theorem IsPath.proper {name : String} (h : IsPath name) :
    ∀ w ∈ segments name, (Lexeme.name w).Proper := by
  obtain ⟨words, hne, hproper, rfl⟩ := h
  rwa [segments_qualified hne fun w hw => (hproper w hw).plain]

/-- A word of the language stands for a path, be it an alias or not. -/
theorem Aliases.Paths.resolve {aliases : Aliases} (h : aliases.Paths) {word : String}
    (hword : (Lexeme.name word).Proper) : IsPath (aliases.resolve word) := by
  rw [Aliases.resolve]
  cases htarget : aliases.reverse.lookup word with
  | none => exact .of_proper hword
  | some target => exact h word target htarget

namespace Expr

def members (span : Span) (object : Expr) (properties : List String) : Expr :=
  properties.foldl (.member span) object

/-- The name as a chain of members that begins with its first segment. -/
def chain (span : Span) (name : String) : Expr :=
  members span (.symbol span ((segments name).headD name)) (segments name).tail

mutual

/-- The expression with a chain of members for each symbol with dots in its name. -/
def expand : Expr → Expr
  | .literal span value => .literal span value
  | .symbol span name => chain span name
  | .unary span op operand => .unary span op operand.expand
  | .binary span op left right => .binary span op left.expand right.expand
  | .assign span target value => .assign span target.expand value.expand
  | .call span callee arguments => .call span callee.expand (expandEach arguments)
  | .member span object property => .member span object.expand property
  | .group span inner => .group span inner.expand

def expandEach : List Expr → List Expr
  | [] => []
  | e :: es => e.expand :: expandEach es

end

mutual

def symbols : Expr → List String
  | .literal _ _ => []
  | .symbol _ name => [name]
  | .unary _ _ operand => operand.symbols
  | .binary _ _ left right => left.symbols ++ right.symbols
  | .assign _ target value => target.symbols ++ value.symbols
  | .call _ callee arguments => callee.symbols ++ symbolsEach arguments
  | .member _ object _ => object.symbols
  | .group _ inner => inner.symbols

def symbolsEach : List Expr → List String
  | [] => []
  | e :: es => e.symbols ++ symbolsEach es

end

/-! ### Chains -/

section

variable {span : Span} {object : Expr} {properties : List String} {name : String}

theorem level_members (h : object.level = .primary) :
    (members span object properties).level = .primary := by
  induction properties generalizing object with
  | nil => exact h
  | cons property properties ih => exact ih rfl

theorem wellFormed_members (h : object.level = .primary) (hwf : object.WellFormed) :
    (members span object properties).WellFormed := by
  induction properties generalizing object with
  | nil => exact hwf
  | cons property properties ih =>
      refine ih rfl ⟨?_, hwf⟩
      rw [h]
      decide

theorem proper_members (h : object.Proper)
    (hproperties : ∀ w ∈ properties, (Lexeme.name w).Proper) :
    (members span object properties).Proper := by
  induction properties generalizing object with
  | nil => exact h
  | cons property properties ih =>
      rw [List.forall_mem_cons] at hproperties
      refine ih (fun l hl => ?_) hproperties.2
      rcases List.mem_append.1 hl with hl | hl
      · exact h l hl
      · rcases List.mem_pair.1 hl with rfl | rfl
        · trivial
        · exact hproperties.1

theorem render_members :
    (members span object properties).render = ".".intercalate (object.render :: properties) := by
  induction properties generalizing object with
  | nil => exact String.intercalate_singleton.symm
  | cons property properties ih =>
      refine ih.trans ?_
      rw [render, String.intercalate_cons_append, String.intercalate_cons_cons]

theorem segments_eq_cons (name : String) :
    segments name = (segments name).headD name :: (segments name).tail := by
  obtain ⟨first, others, h⟩ := List.exists_cons_of_ne_nil (segments_ne_nil name)
  rw [h]
  rfl

@[simp] theorem level_chain : (chain span name).level = .primary :=
  level_members rfl

theorem wellFormed_chain : (chain span name).WellFormed :=
  wellFormed_members rfl trivial

@[simp] theorem render_chain : (chain span name).render = name := by
  rw [chain, render_members, render, ← segments_eq_cons]
  exact qualified_segments name

theorem proper_chain (h : IsPath name) : (chain span name).Proper := by
  have hproper := h.proper
  rw [segments_eq_cons, List.forall_mem_cons] at hproper
  exact proper_members (List.forall_mem_singleton.2 hproper.1) hproper.2

theorem members_concat (span : Span) (object : Expr) (properties : List String) (last : String) :
    members span object (properties ++ [last]) =
      .member span (members span object properties) last :=
  List.foldl_concat ..

/-- A chain is the symbol that it stands for only if there is nothing to expand. -/
theorem unplaced_chain_eq_iff :
    (chain span name).unplaced = (symbol span name).unplaced ↔ Plain name := by
  constructor
  · intro h
    rw [chain] at h
    rcases List.eq_nil_or_concat (segments name).tail with htail | ⟨init, last, htail⟩
    · have hsegments := segments_eq_cons name
      rw [htail] at hsegments
      exact (segments_eq_singleton_iff.1 hsegments).1
    · rw [htail, List.concat_eq_append, members_concat] at h
      cases h
  · intro h
    rw [chain, segments_of_plain h]
    rfl

end

/-! ### Expanded expressions -/

section

variable {ρ : String → String}

theorem level_expand (e : Expr) : e.expand.level = e.level := by
  cases e with
  | symbol span name => exact level_chain
  | _ => rfl

theorem wellFormed_expand (e : Expr) : e.WellFormed → e.expand.WellFormed := by
  induction e using Expr.rec
    (motive_2 := fun es => WellFormedEach es → WellFormedEach (expandEach es)) with
  | literal span value => exact id
  | symbol span name => exact fun _ => wellFormed_chain
  | unary span op operand ih =>
      intro ⟨hop, hlevel, hwf⟩
      rw [← operand.level_expand] at hlevel
      exact ⟨hop, hlevel, ih hwf⟩
  | binary span op left right ihl ihr =>
      intro ⟨power, hop, hleft, hright, hl, hr⟩
      rw [← left.level_expand] at hleft
      rw [← right.level_expand] at hright
      exact ⟨power, hop, hleft, hright, ihl hl, ihr hr⟩
  | assign span target value iht ihv =>
      intro ⟨hlevel, ht, hv⟩
      rw [← target.level_expand] at hlevel
      exact ⟨hlevel, iht ht, ihv hv⟩
  | call span callee arguments ihc iha =>
      intro ⟨hlevel, hc, ha⟩
      rw [← callee.level_expand] at hlevel
      exact ⟨hlevel, ihc hc, iha ha⟩
  | member span object property iho =>
      intro ⟨hlevel, ho⟩
      rw [← object.level_expand] at hlevel
      exact ⟨hlevel, iho ho⟩
  | group span inner ih => exact ih
  | nil h => exact h
  | cons e es ih ihs h => exact ⟨ih h.1, ihs h.2⟩

theorem render_expand (e : Expr) : e.expand.render = e.render := by
  induction e using Expr.rec
    (motive_2 := fun es => renderEach (expandEach es) = renderEach es) with
  | literal span value => rfl
  | symbol span name => exact render_chain
  | unary span op operand ih => rw [expand, render, render, ih]
  | binary span op left right ihl ihr => rw [expand, render, render, ihl, ihr]
  | assign span target value iht ihv => rw [expand, render, render, iht, ihv]
  | call span callee arguments ihc iha => rw [expand, render, render, ihc, iha]
  | member span object property iho => rw [expand, render, render, iho]
  | group span inner ih => rw [expand, render, render, ih]
  | nil => rfl
  | cons e es ih ihs => rw [expandEach, renderEach, renderEach, ih, ihs]

theorem unplaced_expand_eq_iff (e : Expr) :
    e.expand.unplaced = e.unplaced ↔ ∀ name ∈ e.symbols, Plain name := by
  induction e using Expr.rec
    (motive_2 := fun es => relabelEach .unplace (expandEach es) = relabelEach .unplace es ↔
      ∀ name ∈ symbolsEach es, Plain name) with
  | literal span value => exact iff_of_true rfl (List.forall_mem_nil Plain)
  | symbol span name => exact unplaced_chain_eq_iff.trans List.forall_mem_singleton.symm
  | unary span op operand ih =>
      rw [symbols, ← ih]
      simp [expand, unplaced, relabel]
  | binary span op left right ihl ihr =>
      rw [symbols, List.forall_mem_append, ← ihl, ← ihr]
      simp [expand, unplaced, relabel]
  | assign span target value iht ihv =>
      rw [symbols, List.forall_mem_append, ← iht, ← ihv]
      simp [expand, unplaced, relabel]
  | call span callee arguments ihc iha =>
      rw [symbols, List.forall_mem_append, ← ihc, ← iha]
      simp [expand, unplaced, relabel]
  | member span object property iho =>
      rw [symbols, ← iho]
      simp [expand, unplaced, relabel]
  | group span inner ih =>
      rw [symbols, ← ih]
      simp [expand, unplaced, relabel]
  | nil => exact iff_of_true rfl (List.forall_mem_nil Plain)
  | cons e es ih ihs =>
      rw [symbolsEach, List.forall_mem_append, ← ih, ← ihs]
      simp [expandEach, unplaced, relabelEach]

theorem proper_call_iff {span : Span} {callee : Expr} {arguments : List Expr} :
    (call span callee arguments).Proper ↔ callee.Proper ∧ ∀ e ∈ arguments, e.Proper := by
  rw [Proper, lexemes, List.forall_mem_append, List.forall_mem_cons, List.forall_mem_append]
  constructor
  · rintro ⟨hcallee, -, harguments, -⟩
    exact ⟨hcallee, proper_of_mem_arguments harguments⟩
  · rintro ⟨hcallee, harguments⟩
    refine ⟨hcallee, trivial, ?_, List.forall_mem_singleton.2 trivial⟩
    rw [lexemesEach_eq_map]
    exact forall_mem_intercalate (List.forall_mem_singleton.2 trivial)
      (List.forall_mem_map.2 harguments)

/-- Expanding makes an expression proper whose names were resolved to paths. -/
theorem proper_expand_rename (hρ : ∀ word, (Lexeme.name word).Proper → IsPath (ρ word)) (e : Expr) :
    e.Proper → (e.relabel (.rename ρ)).expand.Proper := by
  induction e using Expr.rec (motive_2 := fun es => (∀ e ∈ es, e.Proper) →
    ∀ e ∈ expandEach (relabelEach (.rename ρ) es), e.Proper) with
  | literal span value => exact id
  | symbol span name => exact fun h => proper_chain (hρ name (h _ (List.mem_singleton_self _)))
  | unary span op operand ih =>
      intro h
      obtain ⟨hop, ho⟩ := List.forall_mem_cons.1 h
      exact List.forall_mem_cons.2 ⟨hop, ih ho⟩
  | binary span op left right ihl ihr =>
      intro h
      obtain ⟨hl, hr⟩ := List.forall_mem_append.1 h
      obtain ⟨hop, hr⟩ := List.forall_mem_cons.1 hr
      exact List.forall_mem_append.2 ⟨ihl hl, List.forall_mem_cons.2 ⟨hop, ihr hr⟩⟩
  | assign span target value iht ihv =>
      intro h
      obtain ⟨ht, hv⟩ := List.forall_mem_append.1 h
      obtain ⟨hbind, hv⟩ := List.forall_mem_cons.1 hv
      exact List.forall_mem_append.2 ⟨iht ht, List.forall_mem_cons.2 ⟨hbind, ihv hv⟩⟩
  | call span callee arguments ihc iha =>
      intro h
      obtain ⟨hc, ha⟩ := proper_call_iff.1 h
      exact proper_call_iff.2 ⟨ihc hc, iha ha⟩
  | member span object property iho =>
      intro h
      obtain ⟨ho, hp⟩ := List.forall_mem_append.1 h
      exact List.forall_mem_append.2 ⟨iho ho, hp⟩
  | group span inner ih =>
      intro h
      obtain ⟨hopen, h⟩ := List.forall_mem_cons.1 h
      obtain ⟨hi, hclose⟩ := List.forall_mem_append.1 h
      exact List.forall_mem_cons.2 ⟨hopen, List.forall_mem_append.2 ⟨ih hi, hclose⟩⟩
  | nil _ _ hx => cases hx
  | cons e es ih ihs h x hx =>
      obtain ⟨he, hes⟩ := List.forall_mem_cons.1 h
      rcases List.mem_cons.1 hx with rfl | hx
      · exact ih he
      · exact ihs hes x hx

end

end Expr

/-! ### Reading and writing -/

section

variable {source file : String} {ts us : List Token} {ρ : String → String} {c d : Cursor}

/-- With a meaning for names an expression is read as it is without, and renamed. -/
theorem Grammar.expression_rename {floor : Power} {e : Expr} (hc : c.Closed)
    (h : (standard ρ).expression floor c = .ok e d) :
    ∃ e₀, standard.expression floor c = .ok e₀ d ∧ e = e₀.relabel (.rename ρ) := by
  have htracks := tracks_expression (r := .rename ρ) (m := c.rest.length + 1) (c := c)
    (standard_refusesEnd id) floor
  obtain ⟨w, hw, hsame⟩ := htracks hc
  have hagain := hsame c _ ⟨(Token.map_relabel_rename _).symm, rfl⟩ (Nat.lt_succ_self _)
    (by rwa [Token.map_relabel_rename]) rfl
  rw [relabel_rename_standard, h] at hagain
  cases hplain : standard.expression floor c with
  | error e c' =>
      rw [hplain] at hagain
      cases hagain
  | ok e₀ c' =>
      rw [hplain] at hagain
      cases hagain
      exact ⟨e₀, rfl, rfl⟩

/-- What lies ahead of a list of tokens is in the list, apart from the end of input. -/
theorem Cursor.mem_of_mem_ahead {t : Token} (h : t ∈ (ofTokens us).ahead)
    (hk : t.kind ≠ .endOfInput) : t ∈ us := by
  cases us with
  | nil => exact absurd (List.mem_singleton.1 h ▸ rfl) hk
  | cons u us =>
      have hmem : t ∈ (u :: us) ++ closing ((u :: us).getLast (List.cons_ne_nil u us)) := h
      rcases List.mem_append.1 hmem with hmem | hmem
      · exact hmem
      · rw [closing] at hmem
        split at hmem
        · cases hmem
        · exact absurd (List.mem_singleton.1 hmem ▸ rfl) hk

/-- An expression that was read from tokens of a source can be written down again. -/
theorem wellFormed_and_proper_of_expression {e : Expr} (hts : tokenize source file = .ok ts)
    (hus : us ⊆ ts) (h : standard.expression .lowest (Cursor.ofTokens us) = .ok e d) :
    e.WellFormed ∧ e.Proper := by
  have hc := Cursor.closed_ofTokens us
  obtain ⟨w, hw, -⟩ := Grammar.gathers_expression .lowest hc (.refl _) e d h
  have hlowest : Power.lowest.rank ≤ Power.unary.rank := Nat.zero_le _
  have hmeets := Grammar.meets_expression hlowest hc
  rw [h] at hmeets
  obtain ⟨_, ⟨v, hv, rfl⟩, hread, -⟩ := hmeets
  obtain rfl : v = w := List.append_cancel_right (hv.ahead.symm.trans hw.ahead)
  refine ⟨hread.wellFormed, ?_⟩
  rw [Expr.Proper, ← hread.spelled, List.forall_mem_map]
  intro t ht
  have hk := hw.kind_ne t ht
  have hahead : t ∈ (Cursor.ofTokens us).ahead := hv.ahead ▸ List.mem_append_left _ ht
  exact proper_of_mem_tokenize hts (hus (Cursor.mem_of_mem_ahead hahead hk)) hk

/-- What a well-formed and proper expression is written as is read to the end as that expression. -/
theorem expression_of_render {e : Expr} (hwf : e.WellFormed) (hproper : e.Proper) (file : String) :
    ∃ ts e' d, tokenize e.render file = .ok ts ∧
      standard.expression .lowest (Cursor.ofTokens ts) = .ok e' d ∧
      d.current.kind = .endOfInput ∧ e'.unplaced = e.unplaced := by
  have hlexes := e.writes hwf hproper [] [] ⟨rfl, rfl⟩ .nil
  rw [List.append_nil, List.append_nil] at hlexes
  obtain ⟨ts, us, hts, hus, hlexemes⟩ := hlexes.tokenize file
  obtain ⟨d, hd, hk⟩ := hus.reads
  rw [hlexemes] at hd
  have hstops : Kind.Stops .lowest .endOfInput := .of_none rfl
  obtain ⟨e', he', heq⟩ := Grammar.yields_expression hwf hstops _ d hd hk
  exact ⟨ts, e', d, hts, he', hk, heq⟩

theorem Expr.render_congr {e e' : Expr} (h : e.unplaced = e'.unplaced) : e.render = e'.render := by
  rw [← e.render_relabel (r := .unplace) rfl, ← e'.render_relabel (r := .unplace) rfl]
  exact congrArg render h

/-- Aliases in expressions leave the canonical text readable.  Where all that the aliases stand for
are paths, an expression that is read with them from tokens of a source has a canonical text that is
tokenized, that is read to its end without aliases, and that is the canonical text of what is read:
the expression with a chain of members for every path, which is another one exactly if there is a
path with a dot. -/
theorem expression_expanded {aliases : Aliases} {e : Expr} (hts : tokenize source file = .ok ts)
    (hus : us ⊆ ts) (hpaths : aliases.Paths)
    (h : (standard aliases.resolve).expression .lowest (Cursor.ofTokens us) = .ok e d)
    (file' : String) :
    ∃ ts' e' d', tokenize e.render file' = .ok ts' ∧
      standard.expression .lowest (Cursor.ofTokens ts') = .ok e' d' ∧
      d'.current.kind = .endOfInput ∧ e'.render = e.render ∧
      e'.unplaced = e.expand.unplaced ∧
      (e'.unplaced = e.unplaced ↔ ∀ name ∈ e.symbols, Plain name) := by
  obtain ⟨e₀, h₀, rfl⟩ := Grammar.expression_rename (Cursor.closed_ofTokens us) h
  obtain ⟨hwf, hproper⟩ := wellFormed_and_proper_of_expression hts hus h₀
  have hrenamed : (e₀.relabel (.rename aliases.resolve)).WellFormed := e₀.wellFormed_relabel.2 hwf
  have hwf' := Expr.wellFormed_expand _ hrenamed
  have hproper' := Expr.proper_expand_rename (fun _ => hpaths.resolve) e₀ hproper
  obtain ⟨ts', e', d', hts', he', hk, heq⟩ := expression_of_render hwf' hproper' file'
  rw [Expr.render_expand] at hts'
  refine ⟨ts', e', d', hts', he', hk, ?_, heq, ?_⟩
  · rw [Expr.render_congr heq, Expr.render_expand]
  · rw [heq, Expr.unplaced_expand_eq_iff]

/-- An alias for the object of a member is read back as a member of an object itself. -/
theorem expression_expanded_call :
    let outside : Span := ⟨.nowhere, .nowhere⟩
    let chain : Expr := .member outside (.member outside (.symbol outside "Std") "Io") "write"
    ∃ ts e d, tokenize "io.write(x)" = .ok ts ∧ Aliases.Paths [("io", "Std.Io")] ∧
      (standard (Aliases.resolve [("io", "Std.Io")])).expression .lowest (Cursor.ofTokens ts) =
        .ok e d ∧
      ∃ ts' e' d', tokenize "Std.Io.write(x)" = .ok ts' ∧
        standard.expression .lowest (Cursor.ofTokens ts') = .ok e' d' ∧
        d'.current.kind = .endOfInput ∧ e'.render = "Std.Io.write(x)" ∧
        e'.unplaced = .call outside chain [.symbol outside "x"] ∧ e'.unplaced ≠ e.unplaced := by
  intro outside chain
  let position (column : Nat) : Position := ⟨column - 1, 1, column, "shell"⟩
  let ts : List Token := [⟨.identifier, "io", ⟨position 1, position 3⟩⟩,
    ⟨.mark .dot, ".", ⟨position 3, position 4⟩⟩,
    ⟨.identifier, "write", ⟨position 4, position 9⟩⟩,
    ⟨.mark .openParen, "(", ⟨position 9, position 10⟩⟩,
    ⟨.identifier, "x", ⟨position 10, position 11⟩⟩,
    ⟨.mark .closeParen, ")", ⟨position 11, position 12⟩⟩, .endOfInput (position 12)]
  let e : Expr := .call ⟨position 1, position 12⟩
    (.member ⟨position 1, position 9⟩ (.symbol ⟨position 1, position 3⟩ "Std.Io") "write")
    [.symbol ⟨position 10, position 11⟩ "x"]
  let d : Cursor := ⟨ts.dropLast.reverse, .endOfInput (position 12), []⟩
  have hts : tokenize "io.write(x)" = .ok ts := by with_unfolding_all rfl
  have hpath : IsPath "Std.Io" := by
    refine ⟨["Std", "Io"], List.cons_ne_nil _ _, ?_, by decide⟩
    rw [List.forall_mem_cons, List.forall_mem_singleton]
    exact ⟨⟨⟨'S', ['t', 'd'], rfl, rfl, List.all_eq_true.1 rfl⟩, rfl⟩,
      ⟨⟨'I', ['o'], rfl, rfl, List.all_eq_true.1 rfl⟩, rfl⟩⟩
  have hpaths : Aliases.Paths [("io", "Std.Io")] := by
    intro name target htarget
    simp only [List.reverse_singleton, List.lookup_cons, List.lookup_nil] at htarget
    split at htarget <;> cases htarget
    exact hpath
  have he : (standard (Aliases.resolve [("io", "Std.Io")])).expression .lowest
      (Cursor.ofTokens ts) = .ok e d := by with_unfolding_all rfl
  obtain ⟨ts', e', d', hts', he', hk, hrender, hexpand, hsame⟩ :=
    expression_expanded hts (List.Subset.refl ts) hpaths he "shell"
  have hdots : ¬ ∀ name ∈ e.symbols, Plain name := by decide
  exact ⟨ts, e, d, hts, hpaths, he, ts', e', d', hts', he', hk, hrender, hexpand,
    mt hsame.1 hdots⟩

end

end ScriptFrontend
