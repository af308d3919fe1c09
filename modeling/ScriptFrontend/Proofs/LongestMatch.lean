import Mathlib.Data.List.MinMax
import ScriptFrontend.Proofs.Lossless

/-!
The first rule that applies takes the most.

The order of the rules is what makes the scanner right where several of them apply: a mark in front
of its own beginnings, comments in front of the slash.  That the first rule takes more than every
other one says that the order was chosen well, and that the scanner would read the same if it compared
all rules and took the longest match, in whatever order it asks them.
-/

namespace ScriptFrontend

namespace Rule

variable {q r : Rule} {cs lexeme : List Char} {m n : Nat}

/-! ### The longest match of one rule -/

/-- A rule takes all of the text of its shape that stands at the front. -/
theorem length_le_of_shape (h : r.Shape lexeme) {rest : List Char}
    (hr : r.reach? (lexeme ++ rest) = some n) : lexeme.length ≤ n := by
  cases r with
  | word =>
      obtain ⟨c, ds, rfl, hc, hds⟩ := h
      rw [List.cons_append, reach?, if_pos hc, run_append hds] at hr
      cases hr
      rw [List.length_cons]
      omega
  | number =>
      obtain ⟨c, ds, fs, rfl, hc, hds, hfs⟩ := h
      rw [List.cons_append, List.append_assoc, reach?, if_pos hc, run_append hds] at hr
      rcases hfs with rfl | ⟨d, gs, rfl, hd, hgs⟩
      · cases hr
        rw [List.append_nil, List.length_cons]
        omega
      · have hpoint : run Char.isDigit ('.' :: d :: (gs ++ rest)) = 0 := rfl
        simp only [List.cons_append, hpoint, Nat.add_zero, List.drop_left, fraction, if_pos hd,
          run_append hgs] at hr
        cases hr
        simp only [List.length_cons, List.length_append]
        omega
  | blank =>
      obtain ⟨hne, hblank⟩ := h
      obtain ⟨c, cs, rfl⟩ := List.exists_cons_of_ne_nil hne
      rw [List.forall_mem_cons] at hblank
      rw [List.cons_append, reach?, if_pos hblank.1, run_append hblank.2] at hr
      cases hr
      rw [List.length_cons]
      omega
  | text =>
      obtain ⟨inside, rfl, hinside⟩ := h
      obtain ⟨tail, k, htail, hk, rfl⟩ := reach?_text_eq_some_iff.1 hr
      obtain rfl : inside ++ '"' :: rest = tail := by simpa using htail
      rw [Text.Escape.closing?_inside hinside rest] at hk
      cases hk
      simp
  | comment =>
      obtain ⟨body, rfl, hbody⟩ := h
      obtain ⟨tail, htail, rfl⟩ := reach?_comment_eq_some_iff.1 hr
      obtain rfl : body ++ rest = tail := by simpa using htail
      have hkeep : ∀ c ∈ body, decide (c ≠ '\n') = true := fun c hc =>
        decide_eq_true (ne_of_mem_of_not_mem hc hbody)
      rw [run_append hkeep, List.length_cons, List.length_cons]
      omega
  | mark m =>
      cases h
      exact Nat.le_of_eq (reach?_mark_eq_some_iff.1 hr).2.symm

/-! ### The longest match of all rules -/

def Dominated (q : Rule) (m : Nat) (cs : List Char) : Prop :=
  ∃ r n, first? cs = some (r, n) ∧ (r = q ∧ n = m ∨ m < n)

theorem first?_comment (rest : List Char) :
    first? ('/' :: '/' :: rest) = some (.comment, 2 + run (· ≠ '\n') rest) :=
  rfl

/-- Two points are two marks unless there is a third one. -/
theorem first?_dot_dot (h : ∀ c ∈ cs.head?, c ≠ '.') :
    first? ('.' :: '.' :: cs) = some (.mark .dot, 1) := by
  cases cs with
  | nil => rfl
  | cons c cs =>
      have hne : ('.' == c) = false := beq_false_of_ne (Ne.symm (h c rfl))
      rw [first?_eq_findSome? rfl rfl rfl (by decide) rfl]
      have hlength : ".".length = 1 := rfl
      simp only [Mark.all, List.findSome?_cons]
      simp [Mark.spelling, List.isPrefixOf, hne, hlength]

/-- A mark in front of a character that goes on with it is the beginning of something longer, except
for a point in front of a single other one. -/
theorem dominated_mark_of_mem {m : Mark} {c : Char} (hc : c ∈ m.extensions) (rest : List Char) :
    Dominated (.mark m) m.spelling.length (m.spelling.toList ++ c :: rest) := by
  cases m
  case colon =>
    obtain rfl := List.mem_singleton.1 hc
    exact ⟨.mark .bind, 2, rfl, .inr (by decide)⟩
  case less =>
    simp only [Mark.extensions, List.mem_cons, List.not_mem_nil, or_false] at hc
    rcases hc with rfl | rfl
    · exact ⟨.mark .notEquals, 2, rfl, .inr (by decide)⟩
    · exact ⟨.mark .lessEquals, 2, rfl, .inr (by decide)⟩
  case greater =>
    obtain rfl := List.mem_singleton.1 hc
    exact ⟨.mark .greaterEquals, 2, rfl, .inr (by decide)⟩
  case dot =>
    obtain rfl := List.mem_singleton.1 hc
    by_cases h : ∀ c ∈ rest.head?, c ≠ '.'
    · exact ⟨.mark .dot, 1, first?_dot_dot h, .inl ⟨rfl, rfl⟩⟩
    · obtain ⟨rest', rfl⟩ : ∃ rest', rest = '.' :: rest' := by
        simpa [List.head?_eq_some_iff] using h
      exact ⟨.mark .ellipsis, 3, rfl, .inr (by decide)⟩
  case slash =>
    obtain rfl := List.mem_singleton.1 hc
    exact ⟨.comment, _, first?_comment rest, .inr (Nat.lt_add_right _ (by decide))⟩
  all_goals cases hc

theorem dominated_of_reach? (h : q.reach? cs = some m) : Dominated q m cs := by
  cases q with
  | word => exact ⟨.word, m, by simp [first?, all, h], .inl ⟨rfl, rfl⟩⟩
  | number =>
      have hword : word.reach? cs = none := by
        cases cs with
        | nil => rfl
        | cons c cs =>
            simp only [reach?] at h ⊢
            split at h
            next hc => exact if_neg (not_isWordStart_of_isDigit hc)
            · cases h
      exact ⟨.number, m, by simp [first?, all, hword, h], .inl ⟨rfl, rfl⟩⟩
  | blank =>
      cases cs with
      | nil => cases h
      | cons c cs =>
          simp only [reach?] at h
          split at h
          next hc =>
            cases h
            exact ⟨.blank, _, first?_blank hc, .inl ⟨rfl, rfl⟩⟩
          · cases h
  | text =>
      obtain ⟨tail, k, rfl, hk, rfl⟩ := reach?_text_eq_some_iff.1 h
      exact ⟨.text, _, first?_text hk, .inl ⟨rfl, rfl⟩⟩
  | comment =>
      obtain ⟨tail, rfl, rfl⟩ := reach?_comment_eq_some_iff.1 h
      exact ⟨.comment, _, first?_comment tail, .inl ⟨rfl, rfl⟩⟩
  | mark m =>
      obtain ⟨⟨rest, rfl⟩, rfl⟩ := reach?_mark_eq_some_iff.1 h
      rw [String.length_toList]
      by_cases hend : ∀ c ∈ rest.head?, c ∉ m.extensions
      · exact ⟨.mark m, _, first?_mark m hend, .inl ⟨rfl, rfl⟩⟩
      · push Not at hend
        obtain ⟨c, hc, hmem⟩ := hend
        obtain ⟨rest', rfl⟩ := List.head?_eq_some_iff.1 hc
        exact dominated_mark_of_mem hmem rest'

/-- The first rule takes more than every other. -/
theorem longest_of_first? (h : first? cs = some (r, n)) (hq : q.reach? cs = some m) :
    q = r ∧ m = n ∨ m < n := by
  obtain ⟨r', n', h', hle⟩ := dominated_of_reach? hq
  cases h'.symm.trans h
  exact hle.imp_left fun ⟨hr, hn⟩ => ⟨hr.symm, hn.symm⟩

/-- No text of the shape of any rule that stands at the front is longer than what the first rule
takes. -/
theorem maximal_of_first? (h : first? (lexeme ++ cs) = some (r, n)) (hq : q.Shape lexeme) :
    lexeme.length ≤ n := by
  obtain ⟨m, hm⟩ := reach?_of_shape hq cs
  refine Nat.le_trans (length_le_of_shape hq hm) ?_
  rcases longest_of_first? h hm with ⟨-, rfl⟩ | hlt
  · exact Nat.le_refl m
  · exact Nat.le_of_lt hlt

/-- The rule that takes the most from the front of a text, the first of these in the order of some
rules, and how many characters it takes. -/
def longest? (rules : List Rule) (cs : List Char) : Option (Rule × Nat) :=
  (rules.filterMap fun r => (r.reach? cs).map (r, ·)).argmax Prod.snd

theorem mem_matches {rules : List Rule} :
    (q, m) ∈ rules.filterMap (fun r => (r.reach? cs).map (r, ·)) ↔
      q ∈ rules ∧ q.reach? cs = some m := by
  simp [List.mem_filterMap]

theorem longest?_pos {rules : List Rule} (h : longest? rules cs = some (r, n)) : 0 < n :=
  reach?_pos (mem_matches.1 (List.argmax_mem h)).2

theorem longest?_eq_first? {rules : List Rule} (h : ∀ r : Rule, r ∈ rules) (cs : List Char) :
    longest? rules cs = first? cs := by
  cases hfirst : first? cs with
  | none =>
      rw [longest?, List.argmax_eq_none, List.eq_nil_iff_forall_not_mem]
      rintro ⟨q, m⟩ hq
      obtain ⟨r, n, hr, -⟩ := dominated_of_reach? (mem_matches.1 hq).2
      rw [hfirst] at hr
      cases hr
  | some rn =>
      obtain ⟨r, n⟩ := rn
      rw [longest?, List.argmax_eq_some_iff]
      refine ⟨mem_matches.2 ⟨h r, reach?_of_first? hfirst⟩, ?_, ?_⟩
      · rintro ⟨q, m⟩ hq
        rcases longest_of_first? hfirst (mem_matches.1 hq).2 with ⟨-, rfl⟩ | hlt
        · exact Nat.le_refl m
        · exact Nat.le_of_lt hlt
      · rintro ⟨q, m⟩ hq hle
        rcases longest_of_first? hfirst (mem_matches.1 hq).2 with ⟨rfl, rfl⟩ | hlt
        · exact Nat.le_refl _
        · exact absurd hlt (Nat.not_lt.2 hle)

end Rule

/-! ### Scanning by the longest match -/

namespace Scanner

variable {s : Scanner} {r : Rule} {n : Nat}

/-- The tokens of the text that follows, if each time all rules are compared and the one that takes
the most is applied. -/
def munch (rules : List Rule) (s : Scanner) : Except Diagnostic (List Token) :=
  if hs : s.rest = [] then
    .ok [.endOfInput s.position]
  else
    match hm : Rule.longest? rules s.rest with
    | none => .error ⟨.unrecognised s.front.toString, s.position, none⟩
    | some (r, n) =>
      have := length_rest_skip_lt hs (Rule.longest?_pos hm)
      ((s.skip n).munch rules).map ((s.token? r n).toList ++ ·)
termination_by s.rest.length

theorem munch_eq_tokens {rules : List Rule} (h : ∀ r : Rule, r ∈ rules) (s : Scanner) :
    s.munch rules = s.tokens := by
  induction hn : s.rest.length using Nat.strongRecOn generalizing s with
  | ind k ih =>
      subst hn
      rw [munch]
      by_cases hs : s.rest = []
      · rw [dif_pos hs, tokens_nil hs]
      · rw [dif_neg hs]
        split
        next hnone =>
          rw [Rule.longest?_eq_first? h] at hnone
          rw [tokens_none hs hnone]
        next r n hsome =>
          rw [Rule.longest?_eq_first? h] at hsome
          rw [tokens_some hs hsome, ih _ (length_rest_skip_lt hs (Rule.first?_pos hsome)) _ rfl]

/-- The scanner goes on behind the longest match at its place, a match of this rule only. -/
structure TakesLongest (s : Scanner) (r : Rule) (n : Nat) : Prop where
  pos : 0 < n
  shape : r.Shape (s.rest.take n)
  /-- Every other rule that applies takes less. -/
  longest : ∀ (q : Rule) m, q.reach? s.rest = some m → q = r ∧ m = n ∨ m < n
  /-- No longer text at this place has the shape of any rule. -/
  maximal : ∀ (q : Rule) lexeme rest, s.rest = lexeme ++ rest → q.Shape lexeme → lexeme.length ≤ n
  /-- The cursor moves by as many bytes as the match has. -/
  moves : s.advance? (Text.byteLength (s.rest.take n)) = some (s.skip n)
  /-- The match of a mark is its spelling, to the byte. -/
  fixed : ∀ m, r = .mark m → s.rest.take n = m.spelling.toList
  progress : (s.skip n).rest.length < s.rest.length
  tokens : s.tokens = (s.skip n).tokens.map ((s.token? r n).toList ++ ·)

theorem takesLongest_of_first? (h : Rule.first? s.rest = some (r, n)) : s.TakesLongest r n := by
  have hne := Rule.ne_nil_of_first? h
  have hreach := Rule.reach?_of_first? h
  have hpos := Rule.reach?_pos hreach
  have hchars := Text.charsInBytes?_append (s.rest.take n) (s.rest.drop n)
  rw [List.take_append_drop, List.length_take_of_le (Rule.reach?_le hreach)] at hchars
  refine
    { pos := hpos
      shape := Rule.shape_take hreach
      longest := fun q m hq => Rule.longest_of_first? h hq
      maximal := fun q lexeme rest hrest hq => ?_
      moves := ?_
      fixed := ?_
      progress := length_rest_skip_lt hne hpos
      tokens := tokens_some hne h }
  · rw [hrest] at h
    exact Rule.maximal_of_first? h hq
  · rw [advance?, hchars]
    rfl
  · rintro m rfl
    exact Rule.shape_take hreach

end Scanner

/-- First match is longest match.  Where a rule applies, the first one takes more than every other
and the scanner goes on right behind what it takes; so it reads what it would read if it compared all
rules each time, in whatever order, and applied the one that takes the most. -/
theorem scanner_longest_match (s : Scanner) {rules : List Rule} (h : rules.Perm Rule.all) :
    (match Rule.first? s.rest with
      | none => ∀ r : Rule, r.reach? s.rest = none
      | some (r, n) => s.TakesLongest r n) ∧
    s.munch rules = s.tokens := by
  refine ⟨?_, s.munch_eq_tokens fun r => h.mem_iff.2 r.mem_all⟩
  cases hfirst : Rule.first? s.rest with
  | none =>
      intro r
      have hnone := List.findSome?_eq_none_iff.1 hfirst r r.mem_all
      exact Option.map_eq_none_iff.1 hnone
  | some rn => exact Scanner.takesLongest_of_first? hfirst

/-- With the rules in reverse, points come before ellipses and slashes before comments. -/
theorem scanner_longest_match_reversed :
    Rule.all.reverse.Perm Rule.all ∧
      Scanner.TakesLongest (.ofSource "...// x") (.mark .ellipsis) 3 ∧
      (Scanner.ofSource "...// x").munch Rule.all.reverse =
        (Scanner.ofSource "...// x").tokens := by
  have hperm : Rule.all.reverse.Perm Rule.all := List.reverse_perm _
  have h := scanner_longest_match (.ofSource "...// x") hperm
  exact ⟨hperm, h⟩

end ScriptFrontend
