import ScriptFrontend.Proofs.FirstRule

/-!
What the lexical rules take, said without scanning.

Each rule has a shape of text.  A rule takes text of its shape only, and where text of its shape
starts the rule takes something.  A rule that takes something from a text takes the same from every
beginning of the text that holds it, because no rule looks behind what it takes, except to find out
that it must stop.
-/

namespace ScriptFrontend

namespace Text.Escape

/-- The text between the quotation marks of a literal: characters other than quotation marks, where
a backslash takes the next character with it, which is no line feed. -/
inductive Inside : List Char → Prop
  | nil : Inside []
  | plain {c : Char} {cs : List Char} (hquote : c ≠ '"') (hback : c ≠ '\\') (h : Inside cs) :
      Inside (c :: cs)
  | escape {e : Char} {cs : List Char} (he : e ≠ '\n') (h : Inside cs) : Inside ('\\' :: e :: cs)

theorem closing?_inside {inside : List Char} (h : Inside inside) (rest : List Char) :
    closing? (inside ++ '"' :: rest) = some inside.length := by
  induction h with
  | nil => rfl
  | plain hquote hback h ih =>
      rw [List.cons_append, closing?.eq_5 _ _ hquote (fun hc _ => hback hc) (fun _ _ hc _ => hback hc),
        ih]
      rfl
  | escape he h ih =>
      rw [List.cons_append, List.cons_append, closing?, if_neg he, ih]
      rfl

theorem inside_of_closing? {cs : List Char} {n : Nat} (h : closing? cs = some n) :
    ∃ inside rest, cs = inside ++ '"' :: rest ∧ Inside inside ∧ inside.length = n := by
  fun_induction closing? cs generalizing n with
  | case1 => cases h
  | case2 cs =>
    cases h
    exact ⟨[], cs, rfl, .nil, rfl⟩
  | case3 => cases h
  | case4 => cases h
  | case5 e cs he ih =>
    obtain ⟨m, hm, rfl⟩ := Option.map_eq_some_iff.1 h
    obtain ⟨inside, rest, rfl, hinside, rfl⟩ := ih hm
    exact ⟨'\\' :: e :: inside, rest, rfl, .escape he hinside, rfl⟩
  | case6 c cs hquote hlast hback ih =>
    obtain ⟨m, hm, rfl⟩ := Option.map_eq_some_iff.1 h
    obtain ⟨inside, rest, rfl, hinside, rfl⟩ := ih hm
    refine ⟨c :: inside, rest, rfl, .plain (fun hc => hquote hc) ?_ hinside, rfl⟩
    rintro rfl
    cases inside <;> exact hback _ _ rfl rfl

end Text.Escape

namespace Rule

variable {r : Rule} {cs lexeme rest : List Char} {n : Nat}

def Shape : Rule → List Char → Prop
  | word, cs => IsWord cs
  | number, cs => IsNumeral cs
  | blank, cs => cs ≠ [] ∧ ∀ c ∈ cs, Text.isBlank c
  | text, cs => ∃ inside, cs = '"' :: (inside ++ ['"']) ∧ Text.Escape.Inside inside
  | comment, cs => ∃ body, cs = '/' :: '/' :: body ∧ '\n' ∉ body
  | mark m, cs => cs = m.spelling.toList

/-! ### Runs of characters -/

theorem run_le (p : Char → Bool) (cs : List Char) : run p cs ≤ cs.length :=
  (List.takeWhile_sublist p).length_le

theorem drop_run (p : Char → Bool) (cs : List Char) : cs.drop (run p cs) = cs.dropWhile p := by
  have h := List.takeWhile_append_dropWhile (p := p) (l := cs)
  calc cs.drop (run p cs) = (cs.takeWhile p ++ cs.dropWhile p).drop (run p cs) := by rw [h]
    _ = cs.dropWhile p := List.drop_left

theorem run_append_of_le {p : Char → Bool} (h : run p (cs ++ rest) ≤ cs.length) :
    run p (cs ++ rest) = run p cs := by
  simp only [run, List.takeWhile_append] at h ⊢
  split
  case isTrue hwhole =>
    rw [if_pos hwhole, List.length_append] at h
    rw [List.length_append]
    omega
  case isFalse => rfl

theorem fraction_le (cs : List Char) : fraction cs ≤ cs.length := by
  unfold fraction
  split
  case h_1 c cs =>
    have := run_le Char.isDigit cs
    split <;> simp
    omega
  case h_2 => exact Nat.zero_le _

theorem fraction_append_of_le (h : fraction (cs ++ rest) ≤ cs.length) :
    fraction (cs ++ rest) = fraction cs := by
  match cs, h with
  | [], h => exact Nat.le_zero.1 h
  | [c], h =>
      have hsingle : fraction [c] = 0 := by
        unfold fraction
        split <;> simp_all
      rw [hsingle]
      simp only [List.singleton_append, List.length_singleton] at h ⊢
      unfold fraction at h ⊢
      split at h
      next d ds =>
        split at h
        · omega
        next hd => exact if_neg hd
      · rfl
  | c :: d :: cs, h =>
      simp only [List.cons_append] at h ⊢
      by_cases hpoint : c = '.'
      · subst hpoint
        simp only [fraction] at h ⊢
        split
        case isTrue hd =>
          rw [if_pos hd] at h
          simp only [List.length_cons] at h
          rw [run_append_of_le (by omega)]
        case isFalse => rfl
      · have hnone : ∀ ds, fraction (c :: ds) = 0 := fun ds => by
          unfold fraction
          split <;> simp_all
        rw [hnone, hnone]

/-! ### Shapes -/

theorem reach?_text_eq_some_iff :
    text.reach? cs = some n ↔
      ∃ tail m, cs = '"' :: tail ∧ Text.Escape.closing? tail = some m ∧ n = m + 2 := by
  constructor
  · intro h
    cases cs with
    | nil => cases h
    | cons c tail =>
        by_cases hc : c = '"'
        · subst hc
          obtain ⟨m, hm, rfl⟩ := Option.map_eq_some_iff.1 h
          exact ⟨tail, m, rfl, hm, rfl⟩
        · have hnone : text.reach? (c :: tail) = none := by
            unfold reach?
            split <;> simp_all
          rw [hnone] at h
          cases h
  · rintro ⟨tail, m, rfl, hm, rfl⟩
    show (Text.Escape.closing? tail).map (· + 2) = _
    rw [hm]
    rfl

/-- A literal is taken up to its closing quotation mark. -/
theorem reach?_text_iff_inside :
    text.reach? cs = some n ↔
      ∃ inside, '"' :: (inside ++ ['"']) <+: cs ∧ Text.Escape.Inside inside ∧
        n = ('"' :: (inside ++ ['"'])).length := by
  rw [reach?_text_eq_some_iff]
  constructor
  · rintro ⟨tail, m, rfl, hm, rfl⟩
    obtain ⟨inside, rest, rfl, hinside, rfl⟩ := Text.Escape.inside_of_closing? hm
    exact ⟨inside, ⟨rest, by simp⟩, hinside, by simp⟩
  · rintro ⟨inside, ⟨rest, rfl⟩, hinside, rfl⟩
    exact ⟨inside ++ '"' :: rest, _, by simp, Text.Escape.closing?_inside hinside rest, by simp⟩

theorem reach?_comment_eq_some_iff :
    comment.reach? cs = some n ↔
      ∃ tail, cs = '/' :: '/' :: tail ∧ n = 2 + run (· ≠ '\n') tail := by
  constructor
  · intro h
    unfold reach? at h
    split at h <;> simp_all
  · rintro ⟨tail, rfl, rfl⟩
    rfl

theorem reach?_mark_eq_some_iff {m : Mark} :
    (mark m).reach? cs = some n ↔
      m.spelling.toList <+: cs ∧ n = m.spelling.toList.length := by
  rw [reach?_mark, ← List.isPrefixOf_iff_prefix, String.length_toList]
  split
  case isTrue h => simpa [h] using eq_comm
  case isFalse h => simp [h]

theorem reach?_le (h : r.reach? cs = some n) : n ≤ cs.length := by
  cases r with
  | word | blank =>
      cases cs with
      | nil => cases h
      | cons c cs =>
          simp only [reach?] at h
          split at h <;> cases h
          rw [List.length_cons, Nat.add_comm]
          exact Nat.succ_le_succ (run_le _ cs)
  | number =>
      cases cs with
      | nil => cases h
      | cons c cs =>
          simp only [reach?] at h
          split at h <;> cases h
          have hrun := run_le Char.isDigit cs
          have hfraction := fraction_le (cs.drop (run Char.isDigit cs))
          rw [List.length_drop] at hfraction
          rw [List.length_cons]
          omega
  | text =>
      obtain ⟨inside, hbegins, -, rfl⟩ := reach?_text_iff_inside.1 h
      exact hbegins.length_le
  | comment =>
      obtain ⟨tail, rfl, rfl⟩ := reach?_comment_eq_some_iff.1 h
      have := run_le (· ≠ '\n') tail
      simp only [List.length_cons]
      omega
  | mark m =>
      obtain ⟨hbegins, rfl⟩ := reach?_mark_eq_some_iff.1 h
      exact hbegins.length_le

theorem shape_take (h : r.reach? cs = some n) : r.Shape (cs.take n) := by
  cases r with
  | word => exact isWord_take h
  | number => exact isNumeral_take h
  | blank =>
      cases cs with
      | nil => cases h
      | cons c cs =>
          simp only [reach?] at h
          split at h
          next hc =>
            cases h
            rw [Nat.add_comm, List.take_succ_cons, take_run]
            refine ⟨List.cons_ne_nil _ _, fun d hd => ?_⟩
            rcases List.mem_cons.1 hd with rfl | hd
            · exact hc
            · exact List.all_eq_true.1 List.all_takeWhile d hd
          · cases h
  | text =>
      obtain ⟨inside, hbegins, hinside, rfl⟩ := reach?_text_iff_inside.1 h
      exact ⟨inside, (List.prefix_iff_eq_take.1 hbegins).symm, hinside⟩
  | comment =>
      obtain ⟨tail, rfl, rfl⟩ := reach?_comment_eq_some_iff.1 h
      refine ⟨tail.takeWhile (· ≠ '\n'), ?_, fun hmem => ?_⟩
      · rw [Nat.add_comm, List.take_succ_cons, List.take_succ_cons, take_run]
      · simpa using List.all_eq_true.1 List.all_takeWhile _ hmem
  | mark m =>
      obtain ⟨hbegins, rfl⟩ := reach?_mark_eq_some_iff.1 h
      exact (List.prefix_iff_eq_take.1 hbegins).symm

theorem reach?_of_shape (h : r.Shape lexeme) (rest : List Char) :
    ∃ n, r.reach? (lexeme ++ rest) = some n := by
  cases r with
  | word =>
      obtain ⟨c, ds, rfl, hc, -⟩ := h
      exact ⟨_, if_pos hc⟩
  | number =>
      obtain ⟨c, ds, fs, rfl, hc, -⟩ := h
      exact ⟨_, if_pos hc⟩
  | blank =>
      obtain ⟨hne, hblank⟩ := h
      cases lexeme with
      | nil => exact (hne rfl).elim
      | cons c cs => exact ⟨_, if_pos (hblank c (List.mem_cons_self ..))⟩
  | text =>
      obtain ⟨inside, rfl, hinside⟩ := h
      exact ⟨_, reach?_text_iff_inside.2 ⟨inside, List.prefix_append _ _, hinside, rfl⟩⟩
  | comment =>
      obtain ⟨body, rfl, -⟩ := h
      exact ⟨_, rfl⟩
  | mark m =>
      cases h
      exact ⟨_, reach?_mark_eq_some_iff.2 ⟨List.prefix_append _ _, rfl⟩⟩

/-- A rule takes the same from every beginning of a text that holds what it takes. -/
theorem reach?_of_append (h : r.reach? (cs ++ rest) = some n) (hn : n ≤ cs.length) :
    r.reach? cs = some n := by
  have hpos := reach?_pos h
  cases r with
  | word | blank =>
      cases cs with
      | nil => simp at hn; omega
      | cons c cs =>
          simp only [List.cons_append, reach?] at h ⊢
          split at h
          next hc =>
            cases h
            rw [List.length_cons] at hn
            rw [if_pos hc, run_append_of_le (by omega)]
          · cases h
  | number =>
      cases cs with
      | nil => simp at hn; omega
      | cons c cs =>
          simp only [List.cons_append, reach?] at h ⊢
          split at h
          next hc =>
            cases h
            rw [List.length_cons] at hn
            have hrun : run Char.isDigit (cs ++ rest) = run Char.isDigit cs :=
              run_append_of_le (by omega)
            have hle := run_le Char.isDigit cs
            rw [hrun, List.drop_append_of_le_length hle] at hn ⊢
            rw [if_pos hc, fraction_append_of_le (by rw [List.length_drop]; omega)]
          · cases h
  | text =>
      obtain ⟨inside, hbegins, hinside, rfl⟩ := reach?_text_iff_inside.1 h
      exact reach?_text_iff_inside.2
        ⟨inside, List.prefix_of_prefix_length_le hbegins (List.prefix_append cs rest) hn, hinside, rfl⟩
  | comment =>
      obtain ⟨tail, htail, rfl⟩ := reach?_comment_eq_some_iff.1 h
      have hbegins : ['/', '/'] <+: cs :=
        List.prefix_of_prefix_length_le ⟨tail, htail.symm⟩ (List.prefix_append cs rest)
          (show 2 ≤ cs.length by omega)
      obtain ⟨cs', rfl⟩ := hbegins
      obtain rfl : tail = cs' ++ rest := by simpa using htail.symm
      simp only [List.length_append, List.length_cons, List.length_nil] at hn
      rw [run_append_of_le (by omega)]
      rfl
  | mark m =>
      obtain ⟨hbegins, rfl⟩ := reach?_mark_eq_some_iff.1 h
      exact reach?_mark_eq_some_iff.2
        ⟨List.prefix_of_prefix_length_le hbegins (List.prefix_append cs rest) hn, rfl⟩

theorem reach?_append_eq_none (h : r.reach? (cs ++ rest) = none) : r.reach? cs = none := by
  cases hcs : r.reach? cs with
  | none => rfl
  | some n =>
      obtain ⟨m, hm⟩ := reach?_of_shape (shape_take hcs) (cs.drop n ++ rest)
      rw [← List.append_assoc, List.take_append_drop, h] at hm
      cases hm

/-! ### The first rule -/

theorem first?_of_append {r : Rule} (h : first? (cs ++ rest) = some (r, n)) (hn : n ≤ cs.length) :
    first? cs = some (r, n) := by
  obtain ⟨front, r', back, hall, hr, hfront⟩ := List.findSome?_eq_some_iff.1 h
  obtain ⟨m, hm, he⟩ := Option.map_eq_some_iff.1 hr
  cases he
  refine List.findSome?_eq_some_iff.2 ⟨front, r, back, hall, ?_, fun q hq => ?_⟩
  · rw [reach?_of_append hm hn]
    rfl
  · rw [reach?_append_eq_none (Option.map_eq_none_iff.1 (hfront q hq))]
    rfl

theorem mem_all (r : Rule) : r ∈ all := by
  cases r with
  | mark m => exact List.mem_append_right _ (List.mem_map_of_mem m.mem_all)
  | _ => decide

/-- No rule applies exactly where no text of the shape of one starts. -/
theorem first?_eq_none_iff :
    first? cs = none ↔ ∀ (r : Rule) lexeme rest, cs = lexeme ++ rest → ¬ r.Shape lexeme := by
  rw [first?, List.findSome?_eq_none_iff]
  constructor
  · rintro h r lexeme rest rfl hshape
    obtain ⟨n, hn⟩ := reach?_of_shape hshape rest
    simpa [hn] using h r r.mem_all
  · intro h r _
    cases hr : r.reach? cs with
    | none => rfl
    | some n => exact (h r _ _ (List.take_append_drop n cs).symm (shape_take hr)).elim

end Rule

end ScriptFrontend
