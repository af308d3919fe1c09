import ScriptFrontend.Proofs.Phases
import ScriptFrontend.Proofs.Scanning

/-!
The scanner loses nothing.

The tokens of a source stand at true places around their own lexemes, one behind the other, and what
lies between them are blanks and comments.  Every step of the scanner adds one stretch to a tiling of
the source: a token or a gap.
-/

namespace ScriptFrontend

open Text (byteLength)

/-- Text that holds no token: blanks, or a comment up to the end of its line. -/
def IsGap (gap after : List Char) : Prop :=
  Rule.blank.Shape gap ∨ Rule.comment.Shape gap ∧ ∀ c ∈ after.head?, c = '\n'

namespace Token

/-- The lexeme is the value of the token, or for a string a literal of its value. -/
def SpelledBy (t : Token) (lexeme : List Char) : Prop :=
  if t.kind = .text then
    ∃ inside, lexeme = '"' :: (inside ++ ['"']) ∧ Text.Escape.Inside inside ∧
      t.value.toList = Text.Escape.decode inside
  else
    t.value.toList = lexeme

/-- The token is what one of the rules makes of the lexeme. -/
def ReadFrom (t : Token) (lexeme : List Char) : Prop :=
  ∃ r : Rule, r.Shape lexeme ∧ r.token? lexeme = some (t.kind, t.value)

/-- The token stands around its lexeme, from the place before it to the place behind it.  Unless it
is a string it is on one line, and the place behind it is counted from the bytes of its lexeme too. -/
def StandsIn (source : List Char) (file : String) (t : Token) : Prop :=
  ∃ before lexeme after, source = before ++ lexeme ++ after ∧ lexeme ≠ [] ∧
    t.ReadFrom lexeme ∧ t.SpelledBy lexeme ∧
    t.span = ⟨.behind before file, .behind (before ++ lexeme) file⟩ ∧
    (t.kind ≠ .text →
      Scanner.span? ⟨.behind before file, lexeme ++ after⟩ (byteLength lexeme) = some t.span)

def Covers (t : Token) (offset : Nat) : Prop :=
  t.span.start.offset ≤ offset ∧ offset < t.span.stop.offset

def Avoids (t : Token) (start stop : Nat) : Prop :=
  t.span.stop.offset ≤ start ∨ stop ≤ t.span.start.offset

end Token

/-- The tokens and gaps between them fill the source from one byte offset to another. -/
structure Tiling (source : List Char) (file : String) (low high : Nat) (ts : List Token) :
    Prop where
  le : low ≤ high
  stands : ∀ t ∈ ts, t.StandsIn source file
  bounds : ∀ t ∈ ts, low ≤ t.span.start.offset ∧ t.span.start.offset < t.span.stop.offset ∧
    t.span.stop.offset ≤ high
  ordered : ts.Pairwise fun t u => t.span.stop.offset ≤ u.span.start.offset
  /-- Every byte outside the tokens belongs to a gap outside the tokens. -/
  gaps : ∀ offset, low ≤ offset → offset < high → (∀ t ∈ ts, ¬ t.Covers offset) →
    ∃ before gap after, source = before ++ gap ++ after ∧ IsGap gap after ∧
      low ≤ byteLength before ∧ byteLength before ≤ offset ∧
      offset < byteLength (before ++ gap) ∧
      ∀ t ∈ ts, t.Avoids (byteLength before) (byteLength (before ++ gap))

namespace Tiling

variable {source : List Char} {file : String} {low middle high : Nat} {t : Token} {ts : List Token}

theorem nil (source : List Char) (file : String) (low : Nat) : Tiling source file low low [] where
  le := Nat.le_refl low
  stands := nofun
  bounds := nofun
  ordered := .nil
  gaps := by omega

theorem token (ht : t.StandsIn source file) (hlow : t.span.start.offset = low)
    (hmiddle : t.span.stop.offset = middle) (hlt : low < middle)
    (h : Tiling source file middle high ts) : Tiling source file low high (t :: ts) where
  le := Nat.le_trans (Nat.le_of_lt hlt) h.le
  stands := List.forall_mem_cons.2 ⟨ht, h.stands⟩
  bounds := by
    refine List.forall_mem_cons.2 ⟨⟨Nat.le_of_eq hlow.symm, ?_, hmiddle ▸ h.le⟩, fun u hu => ?_⟩
    · rw [hlow, hmiddle]
      exact hlt
    · exact ⟨Nat.le_trans (Nat.le_of_lt hlt) (h.bounds u hu).1, (h.bounds u hu).2⟩
  ordered := List.pairwise_cons.2 ⟨fun u hu => hmiddle ▸ (h.bounds u hu).1, h.ordered⟩
  gaps := by
    intro offset hstart hstop hnot
    rw [List.forall_mem_cons] at hnot
    have hbehind : middle ≤ offset := by
      have hcovers := hnot.1
      rw [Token.Covers, hlow, hmiddle] at hcovers
      omega
    obtain ⟨before, gap, after, hsource, hgap, hfirst, hfrom, hto, havoids⟩ :=
      h.gaps offset hbehind hstop hnot.2
    refine ⟨before, gap, after, hsource, hgap, by omega, hfrom, hto, ?_⟩
    exact List.forall_mem_cons.2 ⟨.inl (hmiddle ▸ hfirst), havoids⟩

theorem gap {before gap after : List Char} (hsource : source = before ++ gap ++ after)
    (hgap : IsGap gap after) (hlow : byteLength before = low)
    (hmiddle : byteLength (before ++ gap) = middle) (h : Tiling source file middle high ts) :
    Tiling source file low high ts := by
  have hle : low ≤ middle := by
    rw [← hlow, ← hmiddle, Text.byteLength_append]
    exact Nat.le_add_right _ _
  refine ⟨Nat.le_trans hle h.le, h.stands, fun u hu => ?_, h.ordered, ?_⟩
  · exact ⟨Nat.le_trans hle (h.bounds u hu).1, (h.bounds u hu).2⟩
  · intro offset hstart hstop hnot
    -- a byte in front of the rest can only be one of this gap
    by_cases hbehind : middle ≤ offset
    · obtain ⟨before', gap', after', hsource', hgap', hfirst, hfrom, hto, havoids⟩ :=
        h.gaps offset hbehind hstop hnot
      exact ⟨before', gap', after', hsource', hgap', Nat.le_trans hle hfirst, hfrom, hto, havoids⟩
    · refine ⟨before, gap, after, hsource, hgap, by omega, by omega, by omega, fun t ht => ?_⟩
      exact .inr (hmiddle ▸ (h.bounds t ht).1)

end Tiling

/-- The tokens fill the source with the gaps between them, and the end of input is at its end. -/
def Lossless (source : List Char) (file : String) (ts : List Token) : Prop :=
  ∃ us, ts = us ++ [.endOfInput (.behind source file)] ∧ (∀ t ∈ us, t.kind ≠ .endOfInput) ∧
    Tiling source file 0 (byteLength source) us

/-! ### What a rule makes of its lexeme -/

namespace Rule

variable {lexeme : List Char} {c : Char}

theorem not_isBlank_of_isWord (h : IsWord lexeme) (hc : c ∈ lexeme) : ¬ Text.isBlank c := by
  intro hblank
  have hstart := not_isWordStart_of_isBlank hblank
  have hdigit := not_isDigit_of_isBlank hblank
  obtain ⟨d, ds, rfl, hd, hds⟩ := h
  rcases List.mem_cons.1 hc with rfl | hc
  · exact hstart hd
  · have hpart := hds c hc
    simp_all [isWordStart, isWordPart, Char.isAlphanum]

theorem not_isBlank_of_isNumeral (h : IsNumeral lexeme) (hc : c ∈ lexeme) :
    ¬ Text.isBlank c := by
  intro hblank
  have hdigit : ¬ c.isDigit := not_isDigit_of_isBlank hblank
  have hpoint : c ≠ '.' := by
    rintro rfl
    cases hblank
  obtain ⟨d, ds, fs, rfl, hd, hds, hfs⟩ := h
  have hall : c = d ∨ c ∈ ds ∨ c ∈ fs := by simpa using hc
  rcases hall with rfl | hc | hc
  · exact hdigit hd
  · exact hdigit (hds c hc)
  · rcases hfs with rfl | ⟨e, gs, rfl, he, hgs⟩
    · cases hc
    · have hall : c = e ∨ c ∈ gs := by simpa [hpoint] using hc
      rcases hall with rfl | hc
      · exact hdigit he
      · exact hdigit (hgs c hc)

theorem kind_ne_of_token? {r : Rule} {kind : Kind} {value : String}
    (h : r.token? lexeme = some (kind, value)) : kind ≠ .endOfInput := by
  cases r with
  | word =>
      simp only [token?] at h
      split at h <;> cases h <;> rintro ⟨⟩
  | blank | comment => cases h
  | number | text | mark =>
      cases h
      rintro ⟨⟩

end Rule

namespace Token

variable {t : Token} {lexeme : List Char}

theorem ReadFrom.spelledBy (h : t.ReadFrom lexeme) : t.SpelledBy lexeme := by
  obtain ⟨r, hr, ht⟩ := h
  cases r with
  | word =>
      simp only [Rule.token?] at ht
      split at ht <;> simp only [Option.some.injEq, Prod.mk.injEq] at ht <;>
        obtain ⟨hkind, hvalue⟩ := ht <;>
        rw [SpelledBy, if_neg (by rw [← hkind]; rintro ⟨⟩), ← hvalue, String.toList_ofList]
  | blank | comment => cases ht
  | text =>
      simp only [Rule.token?, Option.some.injEq, Prod.mk.injEq] at ht
      obtain ⟨inside, rfl, hinside⟩ := hr
      rw [SpelledBy, if_pos ht.1.symm]
      refine ⟨inside, rfl, hinside, ?_⟩
      rw [← ht.2, String.toList_ofList, List.tail_cons, List.dropLast_concat]
  | number =>
      simp only [Rule.token?, Option.some.injEq, Prod.mk.injEq] at ht
      rw [SpelledBy, if_neg (by rw [← ht.1]; rintro ⟨⟩), ← ht.2, String.toList_ofList]
  | mark m =>
      simp only [Rule.token?, Option.some.injEq, Prod.mk.injEq] at ht
      rw [SpelledBy, if_neg (by rw [← ht.1]; rintro ⟨⟩), ← ht.2]
      exact hr.symm

theorem StandsIn.kind_ne {source : List Char} {file : String} (h : t.StandsIn source file) :
    t.kind ≠ .endOfInput := by
  obtain ⟨before, lexeme, after, -, -, ⟨r, -, ht⟩, -⟩ := h
  exact Rule.kind_ne_of_token? ht

/-- A token other than a string holds no blank. -/
theorem ReadFrom.not_isBlank (h : t.ReadFrom lexeme) (hkind : t.kind ≠ .text) {c : Char}
    (hc : c ∈ lexeme) : ¬ Text.isBlank c := by
  obtain ⟨r, hr, ht⟩ := h
  cases r with
  | word => exact Rule.not_isBlank_of_isWord hr hc
  | number => exact Rule.not_isBlank_of_isNumeral hr hc
  | blank | comment => cases ht
  | text =>
      have htext : Kind.text = t.kind := congrArg Prod.fst (Option.some.inj ht)
      exact (hkind htext.symm).elim
  | mark m =>
      cases hr
      have hmark : m.spelling.toList.all fun c => !Text.isBlank c := by
        cases m <;> rfl
      simpa using List.all_eq_true.1 hmark c hc

end Token

namespace Rule

variable {r : Rule} {cs : List Char} {n : Nat}

theorem isGap_of_token? (hr : r.reach? cs = some n) (h : r.token? (cs.take n) = none) :
    IsGap (cs.take n) (cs.drop n) := by
  have hshape := shape_take hr
  cases r with
  | word =>
      simp only [token?] at h
      split at h <;> cases h
  | number => cases h
  | blank => exact .inl hshape
  | text => cases h
  | comment =>
      refine .inr ⟨hshape, ?_⟩
      obtain ⟨tail, rfl, rfl⟩ := reach?_comment_eq_some_iff.1 hr
      intro c hc
      rw [Nat.add_comm, List.drop_succ_cons, List.drop_succ_cons, drop_run] at hc
      have hstop := List.head?_dropWhile_not (· ≠ '\n') tail
      rw [hc] at hstop
      simpa using hstop
  | mark m => cases h

end Rule

/-! ### The steps of the scanner -/

namespace Scanner

variable {source : List Char} {file : String} {s s' : Scanner} {us : List Token}

/-- On one line, the place behind the next bytes is found without moving there. -/
theorem span?_of_newline_not_mem {cs after : List Char} (hrest : s.rest = cs ++ after)
    (hcs : '\n' ∉ cs) :
    s.span? (byteLength cs) = some ⟨s.position, s.position.after cs⟩ := by
  rw [span?, hrest, Text.charsInBytes?_append, Position.after_of_newline_not_mem _ hcs]
  rfl

/-- The end of a token other than a string is found without moving there. -/
theorem span?_of_readFrom {t : Token} {lexeme : List Char} (h : t.ReadFrom lexeme)
    (hkind : t.kind ≠ .text) (p : Position) (after : List Char) :
    span? ⟨p, lexeme ++ after⟩ (byteLength lexeme) = some ⟨p, p.after lexeme⟩ :=
  span?_of_newline_not_mem rfl fun hmem => h.not_isBlank hkind hmem rfl

def Within (source : List Char) (file : String) (s : Scanner) : Prop :=
  ∃ before, source = before ++ s.rest ∧ s.position = .behind before file

theorem Within.skip (h : s.Within source file) (n : Nat) : (s.skip n).Within source file := by
  obtain ⟨before, hsource, hposition⟩ := h
  refine ⟨before ++ s.rest.take n, ?_, ?_⟩
  · rw [List.append_assoc, Scanner.skip, List.take_append_drop, hsource]
  · rw [Position.behind_append, ← hposition]
    rfl

/-- The next step adds a token or a gap in front of what the later steps tile. -/
theorem Within.tiling_step {r : Rule} {n high : Nat} (hs : s.Within source file)
    (hr : Rule.first? s.rest = some (r, n))
    (h : Tiling source file (s.skip n).position.offset high us) :
    Tiling source file s.position.offset high ((s.token? r n).toList ++ us) := by
  obtain ⟨before, hsource, hposition⟩ := hs
  have hreach := Rule.reach?_of_first? hr
  have hpos := Rule.reach?_pos hreach
  have hlexeme : s.rest.take n ≠ [] := by
    simpa [Rule.ne_nil_of_first? hr] using Nat.ne_of_gt hpos
  have hsplit : source = before ++ s.rest.take n ++ s.rest.drop n := by
    rw [List.append_assoc, List.take_append_drop, hsource]
  have hskip : (s.skip n).position = .behind (before ++ s.rest.take n) file := by
    rw [Position.behind_append, ← hposition]
    rfl
  cases ht : r.token? (s.rest.take n) with
  | none =>
      have hnone : s.token? r n = none := by rw [token?, ht]; rfl
      rw [hnone]
      refine .gap hsplit (Rule.isGap_of_token? hreach ht) ?_ ?_ h
      · rw [hposition]
        rfl
      · rw [hskip]
        rfl
  | some entry =>
      obtain ⟨kind, value⟩ := entry
      have hsome : s.token? r n = some ⟨kind, value, ⟨s.position, (s.skip n).position⟩⟩ := by
        rw [token?, ht]
        rfl
      have hread : Token.ReadFrom ⟨kind, value, ⟨s.position, (s.skip n).position⟩⟩
          (s.rest.take n) := ⟨r, Rule.shape_take hreach, ht⟩
      rw [hsome]
      refine .token ⟨before, _, _, hsplit, hlexeme, hread, hread.spelledBy, ?_, fun hkind => ?_⟩
        rfl rfl ?_ h
      · rw [hposition, hskip]
      · rw [span?_of_readFrom hread hkind, ← hposition]
        rfl
      · have hlength := List.length_pos_iff.2 hlexeme
        have hbytes := Text.length_le_byteLength (s.rest.take n)
        rw [Scanner.skip, Position.offset_after]
        omega

/-- A run through a source tiles what it moves over. -/
theorem Run.tiling (h : Run s us s') (hs : s.Within source file) :
    s'.Within source file ∧ Tiling source file s.position.offset s'.position.offset us := by
  induction h with
  | refl s => exact ⟨hs, .nil source file s.position.offset⟩
  | @step s s' r n us hr h ih =>
      obtain ⟨hs', htiling⟩ := ih (hs.skip n)
      exact ⟨hs', hs.tiling_step hr htiling⟩

theorem within_ofSource (source file : String) :
    (ofSource source file).Within source.toList file :=
  ⟨[], rfl, rfl⟩

theorem lossless_of_tokens_eq_ok {source : String} {ts : List Token}
    (h : (ofSource source file).tokens = .ok ts) : Lossless source.toList file ts := by
  obtain ⟨us, s', hrun, hend, rfl⟩ := run_of_tokens_eq_ok h
  obtain ⟨⟨before, hsource, hposition⟩, htiling⟩ := hrun.tiling (within_ofSource source file)
  obtain rfl : source.toList = before := by rw [hsource, hend, List.append_nil]
  rw [hposition] at htiling ⊢
  exact ⟨us, rfl, fun t ht => (htiling.stands t ht).kind_ne, htiling⟩

end Scanner

/-- The scanner reads the tokens of the text up to some character, and neither a token nor a gap
starts with that character. -/
def Stops (source file : String) (d : Diagnostic) : Prop :=
  ∃ before c rest us,
    source.toList = before ++ c :: rest ∧
    d = ⟨.unrecognised c.toString, .behind before file, some source⟩ ∧
    Scanner.Run (.ofSource source file) us ⟨.behind before file, c :: rest⟩ ∧
    tokenize (String.ofList before) file = .ok (us ++ [.endOfInput (.behind before file)]) ∧
    ∀ (r : Rule) lexeme after, c :: rest = lexeme ++ after → ¬ r.Shape lexeme

theorem lossless_of_tokenize {source file : String} {ts : List Token}
    (h : tokenize source file = .ok ts) : Lossless source.toList file ts :=
  Scanner.lossless_of_tokens_eq_ok (tokenize_eq_ok_iff.1 h)

theorem stops_of_tokenize {source file : String} {d : Diagnostic}
    (h : tokenize source file = .error d) : Stops source file d := by
  obtain ⟨e, he, rfl⟩ := tokenize_eq_error_iff.1 h
  obtain ⟨us, s', c, rest, hrun, hrest, hstop, rfl⟩ := Scanner.run_of_tokens_eq_error he
  obtain ⟨⟨before, hsource, hposition⟩, -⟩ := hrun.tiling (Scanner.within_ofSource source file)
  obtain ⟨cs, hcs, -, halone⟩ := hrun.alone
  obtain rfl : cs = before := List.append_cancel_right (hcs.symm.trans hsource)
  rw [hrest] at hsource hstop
  refine ⟨cs, c, rest, us, hsource, ?_, ?_, ?_, Rule.first?_eq_none_iff.1 hstop⟩
  · rw [hposition]
    rfl
  · rw [← hposition, ← hrest]
    exact hrun
  · have hsame : Scanner.ofSource (String.ofList cs) file =
        ⟨(Scanner.ofSource source file).position, cs⟩ := by
      simp [Scanner.ofSource]
    rw [tokenize, hsame, halone.tokens, Scanner.tokens_nil rfl, hposition]
    rfl

end ScriptFrontend
