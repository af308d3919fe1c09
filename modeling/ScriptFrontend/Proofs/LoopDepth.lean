import ScriptFrontend.Proofs.EarliestError
import ScriptFrontend.Proofs.Numerals
import ScriptFrontend.Proofs.RoundTrip
import ScriptFrontend.Proofs.Settles

/-!
The number behind a jump.

A numeral of the language right behind `break` or `continue` is the number of loops that the jump
leaves, if it denotes a number that fits a word.  It is refused otherwise, at the numeral itself.
Which of the two happens is decided where a statement starts on the jump.  A whole program shows the
same, since no other production looks at the numeral: what is parsed has the jump with its depth in
its place, and what stops at the numeral stops with the refusal.
-/

namespace ScriptFrontend

open Grammar (standard)
open Text.Decimal (Denotes word?)

/-! ### Jumps that are written down -/

namespace Jump

variable {j : Jump} {span : Span}

theorem render_stmt (j : Jump) (span : Span) (n : UInt32) (l : Layout) :
    (j.stmt span (some n)).render l =
      j.keyword.spelling ++ " " ++ toString n.toNat ++ "\n" := by
  cases j <;> rfl

theorem eq_stmt_of_unplaced {s : Stmt} {levels : Option UInt32}
    (h : s.unplaced = (j.stmt span levels).unplaced) : ∃ span', s = j.stmt span' levels := by
  cases j with
  | break_ =>
      cases s <;> cases h
      exact ⟨_, rfl⟩
  | continue_ =>
      cases s <;> cases h
      exact ⟨_, rfl⟩

theorem levels_of_stmt_eq {span' : Span} {levels levels' : Option UInt32}
    (h : j.stmt span levels = j.stmt span' levels') : levels = levels' := by
  cases j <;> cases h <;> rfl

/-- The text of a jump is read back as the jump. -/
theorem parse_render (j : Jump) (span : Span) (levels : Option UInt32) (l : Layout)
    (file : String) :
    ∃ ts span', tokenize ((j.stmt span levels).render l) file = .ok ts ∧
      standard.parse ts = .ok [j.stmt span' levels] := by
  have hwf : WellFormedEach [j.stmt span levels] := by
    refine ⟨?_, by simp, trivial⟩
    cases j <;> trivial
  have hproper : ProperEach [j.stmt span levels] := by
    refine ⟨?_, trivial⟩
    cases j <;> trivial
  obtain ⟨ts, p, hts, hp, hunplaced⟩ := parse_join hwf hproper l file
  rw [List.map_singleton, List.map_eq_singleton_iff] at hunplaced
  obtain ⟨s, rfl, hs⟩ := hunplaced
  obtain ⟨span', rfl⟩ := eq_stmt_of_unplaced hs
  refine ⟨ts, span', ?_, hp⟩
  rwa [List.map_singleton, String.join_cons, String.join_nil, String.append_empty] at hts

end Jump

namespace Grammar

open ScriptFrontend.Parser

variable {g : Grammar} {c : Cursor} {j : Jump}

/-! ### Statements that start on a jump -/

theorem ReadsJumps.statementWith_eq (hg : g.ReadsJumps) (hk : c.current.kind = .keyword j.keyword)
    (nested : Parser (List Stmt)) : g.statementWith nested c = jumpStmt j c := by
  have hrule : g.statementRule c.current.kind = some j.rule := by
    rw [hk, hg.statement]
  simp only [statementWith, bind, EStateM.bind, peek, hrule, statementOf_rule]

theorem ReadsJumps.startsStatement_eq (hg : g.ReadsJumps)
    (hk : c.current.kind = .keyword j.keyword) : g.startsStatement c.current.kind = true := by
  rw [startsStatement, hk, hg.statement]
  rfl

theorem ReadsJumps.top_eq (hg : g.ReadsJumps) (hk : c.current.kind = .keyword j.keyword) :
    g.top c = jumpStmt j c := by
  show (if g.startsStatement c.current.kind then _ else _ : Parser Stmt) c = _
  rw [if_pos (hg.startsStatement_eq hk)]
  exact hg.statementWith_eq hk _

theorem ReadsJumps.inner_eq (hg : g.ReadsJumps) (hk : c.current.kind = .keyword j.keyword) :
    g.inner c = jumpStmt j c := by
  show (if g.startsStatement c.current.kind then _ else _ : Parser Stmt) c = _
  rw [if_pos (hg.startsStatement_eq hk)]
  exact hg.statementWith_eq hk _

/-! ### A number behind a jump -/

/-- A jump among the tokens of a source, with a number right behind it. -/
structure NumberedJump (source file : String) (ts before : List Token) (j : Jump)
    (jump numeral : Token) : Prop where
  scanned : tokenize source file = .ok ts
  stretch : before ++ [jump, numeral] <+: ts
  jump_kind : jump.kind = .keyword j.keyword
  numeral_kind : numeral.kind = .number

/-- The number becomes the depth of the jump. -/
structure DepthTaken (ts before : List Token) (j : Jump) (jump numeral : Token) (n : UInt32) :
    Prop where
  /-- What starts on the jump is the jump with the depth, up to the end of the number. -/
  read : ∃ c d, (Cursor.ofTokens ts).Reaches before c ∧ c.Reaches [jump, numeral] d ∧ ∀ resolve,
    (standard resolve).top c = .ok (j.stmt ⟨jump.span.start, numeral.span.stop⟩ (some n)) d ∧
    (standard resolve).inner c = .ok (j.stmt ⟨jump.span.start, numeral.span.stop⟩ (some n)) d
  /-- No error is reported at the number. -/
  passed : ∀ i e, standard.FailsAt ts i e → i ≠ before.length + 1
  /-- A program of all tokens has the jump in its place among the jumps. -/
  parsed : ∀ p, standard.parse ts = .ok p →
    (jumpsEach p)[before.countP fun t => (Jump.ofKind? t.kind).isSome]? = some (j, some n)
  /-- The text of the jump has the decimal of the depth, and is read back as the jump. -/
  written : ∀ span l file,
    (j.stmt span (some n)).render l = j.keyword.spelling ++ " " ++ toString n.toNat ++ "\n" ∧
      ∃ ts' span', tokenize ((j.stmt span (some n)).render l) file = .ok ts' ∧
        standard.parse ts' = .ok [j.stmt span' (some n)]
  /-- The canonical text of a program of all tokens is read back with the same jumps. -/
  rewritten : ∀ p file, standard.parse ts = .ok p → ∃ ts' p',
    tokenize (renderProgram p) file = .ok ts' ∧ standard.parse ts' = .ok p' ∧
      jumpsEach p' = jumpsEach p

/-- The number is refused as the depth of the jump. -/
structure DepthRefused (source : String) (ts before : List Token) (jump numeral : Token) :
    Prop where
  /-- What starts on the jump stops at the number. -/
  read : ∃ c d, (Cursor.ofTokens ts).Reaches before c ∧ c.Reaches [jump] d ∧
    d.current = numeral ∧ ∀ resolve,
      (standard resolve).top c = .error ⟨.loopDepth, numeral⟩ d ∧
      (standard resolve).inner c = .error ⟨.loopDepth, numeral⟩ d
  /-- A program of all tokens stops at the number, or before it. -/
  stops : ∃ i e, standard.FailsAt ts i e ∧ i ≤ before.length + 1
  /-- It stops at the number if some program begins with the tokens before the number. -/
  stops_here : ∀ us p, standard.parse (before ++ jump :: us) = .ok p →
    standard.FailsAt ts (before.length + 1) ⟨.loopDepth, numeral⟩
  /-- Whatever stops at the number asks for a depth. -/
  asks : ∀ e, standard.FailsAt ts (before.length + 1) e →
    parseTokens source ts = .error (.unexpectedToken "loop depth" numeral source)

namespace NumberedJump

variable {source file : String} {ts before w : List Token} {jump numeral : Token} {i : Nat}
  {e : SyntaxError} {n : UInt32}

theorem isNumeral (h : NumberedJump source file ts before j jump numeral) :
    Rule.IsNumeral numeral.value.toList := by
  have hmem : numeral ∈ ts := h.stretch.subset (by simp)
  have hproper := proper_of_mem_tokenize h.scanned hmem (by rw [h.numeral_kind]; decide)
  rwa [Token.lexeme_of_number h.numeral_kind] at hproper

theorem stretch_ahead (h : NumberedJump source file ts before j jump numeral) :
    before ++ [jump, numeral] <+: (Cursor.ofTokens ts).ahead :=
  h.stretch.trans (Cursor.prefix_ahead_ofTokens ts)

/-- The cursor on the jump, which goes on to the number and past it. -/
theorem exists_cursor (h : NumberedJump source file ts before j jump numeral) :
    ∃ c, (Cursor.ofTokens ts).Reaches before c ∧ c.current = jump ∧ c.Reaches [jump] c.advance ∧
      c.advance.current = numeral ∧ c.advance.Reaches [numeral] c.advance.advance := by
  obtain ⟨us, hus⟩ := h.stretch_ahead
  have hahead : (Cursor.ofTokens ts).ahead = before ++ jump :: numeral :: us := by
    rw [← hus, List.append_assoc]
    rfl
  have hc := Cursor.reaches_of_ahead hahead
  have hclosed := (hc.closed (Cursor.closed_ofTokens ts)).advance
  have hkind : numeral.kind ≠ .endOfInput := by
    rw [h.numeral_kind]
    decide
  exact ⟨_, hc, rfl, Cursor.reaches_advance (List.cons_ne_nil _ _), rfl,
    hclosed.reaches_advance hkind⟩

/-! ### What starts on the jump -/

theorem read_of_word (h : NumberedJump source file ts before j jump numeral)
    (hword : word? numeral.value.toList = some n) :
    ∃ c d, (Cursor.ofTokens ts).Reaches before c ∧ c.Reaches [jump, numeral] d ∧ ∀ resolve,
      (standard resolve).top c = .ok (j.stmt ⟨jump.span.start, numeral.span.stop⟩ (some n)) d ∧
      (standard resolve).inner c =
        .ok (j.stmt ⟨jump.span.start, numeral.span.stop⟩ (some n)) d := by
  obtain ⟨c, hc, rfl, hjump, rfl, hnumeral⟩ := h.exists_cursor
  refine ⟨c, c.advance.advance, hc, hjump.trans hnumeral, fun resolve => ?_⟩
  have hstop : c.advance.advance.previousEnd = c.advance.current.span.stop := by
    rw [Cursor.previousEnd, hnumeral.consumed]
    rfl
  have hstmt := jumpStmt_of_ok (j := j) (levels_of_word h.numeral_kind hword)
  rw [hstop] at hstmt
  have hg := standard_readsJumps resolve
  exact ⟨(hg.top_eq h.jump_kind).trans hstmt, (hg.inner_eq h.jump_kind).trans hstmt⟩

theorem read_of_no_word (h : NumberedJump source file ts before j jump numeral)
    (hword : word? numeral.value.toList = none) :
    ∃ c d, (Cursor.ofTokens ts).Reaches before c ∧ c.Reaches [jump] d ∧ d.current = numeral ∧
      ∀ resolve, (standard resolve).top c = .error ⟨.loopDepth, numeral⟩ d ∧
        (standard resolve).inner c = .error ⟨.loopDepth, numeral⟩ d := by
  obtain ⟨c, hc, rfl, hjump, rfl, -⟩ := h.exists_cursor
  refine ⟨c, c.advance, hc, hjump, rfl, fun resolve => ?_⟩
  have hstmt := jumpStmt_of_error (j := j) (levels_of_no_word h.numeral_kind hword)
  have hg := standard_readsJumps resolve
  exact ⟨(hg.top_eq h.jump_kind).trans hstmt, (hg.inner_eq h.jump_kind).trans hstmt⟩

/-! ### Whole programs -/

/-- A program that is spelled by tokens from the first one to the number and on has the jump in its
place, and the number is a word. -/
theorem numbered {ss : List Stmt} {v : List Lexeme}
    (h : NumberedJump source file ts before j jump numeral) (hw : before ++ [jump, numeral] <+: w)
    (hwf : WellFormedEach ss) (hs : SpelledEach ss (w.map Token.lexeme ++ v)) :
    ∃ n, (jumpsEach ss)[before.countP fun t => (Jump.ofKind? t.kind).isSome]? = some (j, some n) ∧
      word? numeral.value.toList = some n := by
  obtain ⟨us, rfl⟩ := hw
  have hlexemes : (before ++ [jump, numeral] ++ us).map Token.lexeme ++ v =
      before.map Token.lexeme ++ .keyword j.keyword :: .number numeral.value ::
        (us.map Token.lexeme ++ v) := by
    simp [Token.lexeme_of_keyword h.jump_kind, Token.lexeme_of_number h.numeral_kind]
  rw [hlexemes] at hs
  -- the jump is found by counting the jumps before it
  obtain ⟨n, hn, hword⟩ := hs.numbered hwf
  refine ⟨n, ?_, hword⟩
  rw [← hn, List.countP_map]
  simp only [Function.comp_def, Token.kind_lexeme]

theorem numbered_of_parse {p : List Stmt} (h : NumberedJump source file ts before j jump numeral)
    (hp : standard.parse ts = .ok p) :
    ∃ n, (jumpsEach p)[before.countP fun t => (Jump.ofKind? t.kind).isSome]? = some (j, some n) ∧
      word? numeral.value.toList = some n := by
  obtain ⟨us, hus, -⟩ := lexes_of_tokenize h.scanned
  obtain ⟨hwf, hs⟩ := parse_sound hus hp
  rw [← List.append_nil (us.map Token.lexeme)] at hs
  refine h.numbered ?_ hwf hs
  obtain ⟨-, place, hahead⟩ := hus
  have hstretch := h.stretch_ahead
  rw [hahead] at hstretch
  rcases List.prefix_concat_iff.1 hstretch with heq | hstretch
  · have hlast := congrArg List.getLast? heq
    have hend : numeral = .endOfInput place := by simpa using hlast
    cases h.numeral_kind.symm.trans (congrArg Token.kind hend)
  · exact hstretch

/-- Where the parser goes on behind the number, the number is a word. -/
theorem exists_word_of_lt (h : NumberedJump source file ts before j jump numeral)
    (hfails : standard.FailsAt ts i e) (hi : before.length + 1 < i) :
    ∃ n, word? numeral.value.toList = some n := by
  obtain ⟨c, w, -, hw, rfl, -, u, us, ss, -, -, hwf, hs⟩ := hfails.split
  have hprefix : before ++ [jump, numeral] <+: w := by
    refine List.prefix_of_prefix_length_le h.stretch_ahead ⟨c.ahead, hw.ahead.symm⟩ ?_
    rw [List.length_append]
    exact hi
  obtain ⟨n, -, hword⟩ := h.numbered hprefix hwf hs
  exact ⟨n, hword⟩

/-- Where the parser stops at the number, it refuses the number as a depth. -/
theorem refused_of_failsAt (h : NumberedJump source file ts before j jump numeral)
    (hfails : standard.FailsAt ts (before.length + 1) e) :
    e = ⟨.loopDepth, numeral⟩ ∧ word? numeral.value.toList = none := by
  obtain ⟨c, w, hc, hw, hlength, -⟩ := hfails.split
  have hstretch : before ++ [jump] ++ [numeral] <+: (Cursor.ofTokens ts).ahead := by
    rw [List.append_assoc]
    exact h.stretch_ahead
  have hprefix : before ++ [jump] <+: w := by
    refine List.prefix_of_prefix_length_le ((List.prefix_append _ _).trans hstretch)
      ⟨c.ahead, hw.ahead.symm⟩ (Nat.le_of_eq ?_)
    rw [hlength, List.length_append]
    rfl
  have heq : before ++ [jump] = w := by
    refine hprefix.eq_of_length ?_
    rw [hlength, List.length_append]
    rfl
  subst heq
  rw [hw.ahead] at hstretch
  obtain ⟨rfl, -⟩ := List.cons_prefix_cons.1 ((List.prefix_append_right_inj _).1 hstretch)
  -- in front of a number that the parser stops at there is no jump, unless it refused the number
  have hsettles := settles_program (standard_readsJumps id) (Cursor.settled_ofTokens ts)
  rcases hsettles.2 e c hc with hsettled | hrefused
  · have hjump := hsettled.free h.numeral_kind jump (by rw [hw.consumed]; simp)
    rw [h.jump_kind, Jump.ofKind?_keyword] at hjump
    cases hjump
  · exact ⟨hrefused.eq, hrefused.word⟩

/-! ### Both outcomes -/

theorem depthTaken (h : NumberedJump source file ts before j jump numeral)
    (hword : word? numeral.value.toList = some n) : DepthTaken ts before j jump numeral n where
  read := h.read_of_word hword
  passed i e hfails hi := by
    obtain ⟨-, hnone⟩ := h.refused_of_failsAt (hi ▸ hfails)
    cases hword.symm.trans hnone
  parsed p hp := by
    obtain ⟨m, hjumps, hm⟩ := h.numbered_of_parse hp
    cases hword.symm.trans hm
    exact hjumps
  written span l file := ⟨j.render_stmt span n l, j.parse_render span (some n) l file⟩
  rewritten p file hp := by
    obtain ⟨hwf, hproper⟩ := wellFormed_and_proper_of_parse h.scanned hp
    obtain ⟨ts', p', hts', hp', hunplaced⟩ := parse_join hwf hproper {} file
    exact ⟨ts', p', hts', hp', jumpsEach_congr hunplaced⟩

/-- What becomes the depth is what the number is read as. -/
theorem word_of_depthTaken (h : NumberedJump source file ts before j jump numeral)
    (htaken : DepthTaken ts before j jump numeral n) : word? numeral.value.toList = some n := by
  obtain ⟨c, d, hc, -, hread⟩ := htaken.read
  cases hword : word? numeral.value.toList with
  | none =>
      obtain ⟨c', d', hc', -, -, hread'⟩ := h.read_of_no_word hword
      rw [hc'.unique hc] at hread'
      cases (hread id).1.symm.trans (hread' id).1
  | some m =>
      obtain ⟨c', d', hc', -, hread'⟩ := h.read_of_word hword
      rw [hc'.unique hc] at hread'
      have hstmt := (hread' id).1.symm.trans (hread id).1
      exact Jump.levels_of_stmt_eq (EStateM.Result.ok.inj hstmt).1

theorem failsAt_of_no_word (h : NumberedJump source file ts before j jump numeral)
    (hword : word? numeral.value.toList = none) :
    ∃ i e, standard.FailsAt ts i e ∧ i ≤ before.length + 1 := by
  cases hp : standard.parse ts with
  | ok p =>
      obtain ⟨n, -, hn⟩ := h.numbered_of_parse hp
      cases hword.symm.trans hn
  | error e =>
      obtain ⟨i, hfails⟩ := parse_eq_error_iff.1 hp
      refine ⟨i, e, hfails, Nat.not_lt.1 fun hlt => ?_⟩
      obtain ⟨n, hn⟩ := h.exists_word_of_lt hfails hlt
      cases hword.symm.trans hn

/-- The parser does not stop before the number if the tokens there begin some program. -/
theorem failsAt_of_begins {us : List Token} {p : List Stmt}
    (h : NumberedJump source file ts before j jump numeral)
    (hword : word? numeral.value.toList = none)
    (hp : standard.parse (before ++ jump :: us) = .ok p) :
    standard.FailsAt ts (before.length + 1) ⟨.loopDepth, numeral⟩ := by
  obtain ⟨i, e, hfails, hi⟩ := h.failsAt_of_no_word hword
  rcases Nat.lt_or_eq_of_le hi with hlt | rfl
  · have htake {vs : List Token} (hvs : before ++ [jump] <+: vs) :
        vs.take (i + 1) = (before ++ [jump]).take (i + 1) := by
      obtain ⟨ws, rfl⟩ := hvs
      refine List.take_append_of_le_length ?_
      rw [List.length_append]
      exact hlt
    have hbegins : before ++ [jump] <+: before ++ jump :: us := ⟨us, by simp⟩
    have hstretch : before ++ [jump] <+: before ++ [jump, numeral] := ⟨[numeral], by simp⟩
    have hagree := (htake (hbegins.trans (Cursor.prefix_ahead_ofTokens _))).trans
      (htake (hstretch.trans h.stretch_ahead)).symm
    obtain ⟨e', hfails', -⟩ := hfails.of_agree (congrArg (List.map Token.content) hagree)
    cases hp.symm.trans (parse_eq_error_iff.2 ⟨i, hfails'⟩)
  · obtain ⟨rfl, -⟩ := h.refused_of_failsAt hfails
    exact hfails

theorem depthRefused (h : NumberedJump source file ts before j jump numeral)
    (hword : word? numeral.value.toList = none) : DepthRefused source ts before jump numeral where
  read := h.read_of_no_word hword
  stops := h.failsAt_of_no_word hword
  stops_here _ _ hp := h.failsAt_of_begins hword hp
  asks e hfails := by
    obtain ⟨rfl, -⟩ := h.refused_of_failsAt hfails
    exact parseTokens_eq_error_iff.2 ⟨_, parse_eq_error_iff.2 ⟨_, hfails⟩, rfl⟩

theorem depthTaken_iff (h : NumberedJump source file ts before j jump numeral) :
    DepthTaken ts before j jump numeral n ↔ Denotes numeral.value.toList n.toNat := by
  rw [← Text.Decimal.word?_numeral h.isNumeral]
  exact ⟨h.word_of_depthTaken, h.depthTaken⟩

end NumberedJump

/-- A numeral right behind a jump becomes the depth `n` of the jump if and only if it has no
fraction and is the decimal of `n` behind any zeros, and `n` fits a word.  Otherwise it is refused. -/
theorem depth_of_numeral {source file : String} {ts before : List Token} {jump numeral : Token}
    (h : NumberedJump source file ts before j jump numeral) :
    (∀ n : Nat, (∃ levels : UInt32, levels.toNat = n ∧ DepthTaken ts before j jump numeral levels) ↔
      '.' ∉ numeral.value.toList ∧ Denotes numeral.value.toList n ∧ n ≤ 4294967295) ∧
    ((¬ ∃ n, '.' ∉ numeral.value.toList ∧ Denotes numeral.value.toList n ∧ n ≤ 4294967295) →
      DepthRefused source ts before jump numeral) := by
  have hpoint {n : Nat} (hn : Denotes numeral.value.toList n) : '.' ∉ numeral.value.toList :=
    (Text.Decimal.exists_denotes_iff h.isNumeral).1 ⟨n, hn⟩
  refine ⟨fun n => ⟨?_, ?_⟩, fun hnone => h.depthRefused ?_⟩
  · rintro ⟨levels, rfl, htaken⟩
    have hdenotes := h.depthTaken_iff.1 htaken
    exact ⟨hpoint hdenotes, hdenotes, Nat.le_of_lt_succ levels.toNat_lt⟩
  · rintro ⟨-, hdenotes, hle⟩
    have hlevels : (UInt32.ofNatLT n (Nat.lt_succ_of_le hle)).toNat = n := UInt32.toNat_ofNatLT
    exact ⟨_, hlevels, h.depthTaken_iff.2 (hlevels.symm ▸ hdenotes)⟩
  · rw [Option.eq_none_iff_forall_ne_some]
    intro n hn
    have hdenotes := (Text.Decimal.word?_numeral h.isNumeral).1 hn
    exact hnone ⟨_, hpoint hdenotes, hdenotes, Nat.le_of_lt_succ n.toNat_lt⟩

/-- The greatest depth behind two zeros, and one more than it. -/
theorem depth_of_numeral_limits :
    (∃ ts before jump numeral,
      NumberedJump "while x [ break 004294967295 ]" "a.qk" ts before .break_ jump numeral ∧
        ∃ levels : UInt32, levels.toNat = 4294967295 ∧
          DepthTaken ts before .break_ jump numeral levels) ∧
    ∃ ts before jump numeral,
      NumberedJump "while x [ continue 4294967296 ]" "a.qk" ts before .continue_ jump numeral ∧
        DepthRefused "while x [ continue 4294967296 ]" ts before jump numeral := by
  let position (column : Nat) : Position := ⟨column - 1, 1, column, "a.qk"⟩
  let before : List Token := [⟨.keyword .while_, "while", ⟨position 1, position 6⟩⟩,
    ⟨.identifier, "x", ⟨position 7, position 8⟩⟩,
    ⟨.mark .openBracket, "[", ⟨position 9, position 10⟩⟩]
  constructor
  · let jump : Token := ⟨.keyword .break_, "break", ⟨position 11, position 16⟩⟩
    let numeral : Token := ⟨.number, "004294967295", ⟨position 17, position 29⟩⟩
    have h : NumberedJump "while x [ break 004294967295 ]" "a.qk"
        (before ++ [jump, numeral] ++ [⟨.mark .closeBracket, "]", ⟨position 30, position 31⟩⟩,
          .endOfInput (position 31)]) before .break_ jump numeral :=
      ⟨by with_unfolding_all rfl, List.prefix_append _ _, rfl, rfl⟩
    exact ⟨_, _, _, _, h, ((depth_of_numeral h).1 _).2 ⟨by decide, ⟨2, by decide⟩, by decide⟩⟩
  · let jump : Token := ⟨.keyword .continue_, "continue", ⟨position 11, position 19⟩⟩
    let numeral : Token := ⟨.number, "4294967296", ⟨position 20, position 30⟩⟩
    have h : NumberedJump "while x [ continue 4294967296 ]" "a.qk"
        (before ++ [jump, numeral] ++ [⟨.mark .closeBracket, "]", ⟨position 31, position 32⟩⟩,
          .endOfInput (position 32)]) before .continue_ jump numeral :=
      ⟨by with_unfolding_all rfl, List.prefix_append _ _, rfl, rfl⟩
    refine ⟨_, _, _, _, h, (depth_of_numeral h).2 ?_⟩
    rintro ⟨n, -, hdenotes, hle⟩
    have hvalue : Text.Decimal.value "4294967296".toList = n := hdenotes.value_eq
    have : Text.Decimal.value "4294967296".toList = 4294967296 := by decide
    omega

end Grammar

end ScriptFrontend
