import ScriptFrontend.Token.Rule

/-!
Which rule applies at the front of a text.

Words and numbers take as much as they can, so what stands behind one of them must keep apart from it.
A mark ends wherever it ends, except that some marks begin a longer one or a comment and must not be
followed by the character that goes on with it.
-/

namespace ScriptFrontend

namespace Rule

variable {p : Char → Bool} {c : Char} {cs ds fs rest : List Char}

/-! ### Classes of characters

The classes are ranges of code points, so that what starts one rule starts no other is arithmetic. -/

theorem isUpper_iff : c.isUpper ↔ 65 ≤ c.toNat ∧ c.toNat ≤ 90 := by
  change decide (65 ≤ c.val ∧ c.val ≤ 90) = true ↔ _
  rw [decide_eq_true_eq, UInt32.le_iff_toNat_le, UInt32.le_iff_toNat_le]
  rfl

theorem isLower_iff : c.isLower ↔ 97 ≤ c.toNat ∧ c.toNat ≤ 122 := by
  change (decide (97 ≤ c.val) && decide (c.val ≤ 122)) = true ↔ _
  rw [Bool.and_eq_true, decide_eq_true_eq, decide_eq_true_eq, UInt32.le_iff_toNat_le,
    UInt32.le_iff_toNat_le]
  rfl

theorem isWordStart_iff : isWordStart c ↔
    (65 ≤ c.toNat ∧ c.toNat ≤ 90) ∨ (97 ≤ c.toNat ∧ c.toNat ≤ 122) ∨ c.toNat = 95 := by
  have hc : c = '_' ↔ c.toNat = 95 := by
    rw [← Char.toNat_inj]
    rfl
  change ((c.isUpper || c.isLower) || c == '_') = true ↔ _
  rw [Bool.or_eq_true, Bool.or_eq_true, beq_iff_eq, isUpper_iff, isLower_iff, hc, or_assoc]

theorem isDigit_iff : c.isDigit ↔ 48 ≤ c.toNat ∧ c.toNat ≤ 57 := by
  simp only [Char.isDigit, Bool.and_eq_true, decide_eq_true_eq, UInt32.le_iff_toNat_le, ge_iff_le]
  rfl

theorem isWordPart_of_isDigit (h : c.isDigit) : isWordPart c := by
  simp [isWordPart, Char.isAlphanum, h]

theorem not_isWordStart_of_isDigit (h : c.isDigit) : ¬ isWordStart c := by
  rw [isDigit_iff] at h
  rw [isWordStart_iff]
  omega

theorem not_isWordStart_of_isBlank (h : Text.isBlank c) : ¬ isWordStart c := by
  simp only [Text.isBlank, Text.blankRanges, List.any_cons, List.any_nil, Bool.or_eq_true,
    Bool.and_eq_true, decide_eq_true_eq, Bool.false_eq_true, or_false] at h
  rw [isWordStart_iff]
  omega

theorem not_isDigit_of_isBlank (h : Text.isBlank c) : ¬ c.isDigit := by
  simp only [Text.isBlank, Text.blankRanges, List.any_cons, List.any_nil, Bool.or_eq_true,
    Bool.and_eq_true, decide_eq_true_eq, Bool.false_eq_true, or_false] at h
  rw [isDigit_iff]
  omega

/-! ### Runs of characters -/

theorem run_append (h : ∀ d ∈ cs, p d) (rest : List Char) :
    run p (cs ++ rest) = cs.length + run p rest := by
  rw [run, List.takeWhile_append_of_pos h, List.length_append]
  rfl

theorem run_cons_of_neg (h : p c = false) : run p (c :: cs) = 0 := by
  simp [run, h]

theorem take_run (p : Char → Bool) (cs : List Char) : cs.take (run p cs) = cs.takeWhile p := by
  have h := List.takeWhile_append_dropWhile (p := p) (l := cs)
  calc cs.take (run p cs) = (cs.takeWhile p ++ cs.dropWhile p).take (run p cs) := by rw [h]
    _ = cs.takeWhile p := List.take_left

theorem run_isDigit_eq_zero (h : run isWordPart rest = 0) : run Char.isDigit rest = 0 := by
  cases rest with
  | nil => rfl
  | cons c cs =>
      apply run_cons_of_neg
      cases hc : c.isDigit with
      | false => rfl
      | true =>
          simp [run, isWordPart_of_isDigit hc] at h

/-- Neither a word nor a number goes on into the text. -/
def Apart (rest : List Char) : Prop :=
  run isWordPart rest = 0 ∧ fraction rest = 0

theorem apart_cons (hc : isWordPart c = false) (hd : c ≠ '.') : Apart (c :: rest) := by
  refine ⟨run_cons_of_neg hc, ?_⟩
  unfold fraction
  split
  · rename_i h
    exact absurd (List.cons.inj h).1 hd
  · rfl

/-! ### Words and numbers -/

/-- A letter or an underscore, and then letters, digits and underscores. -/
def IsWord (cs : List Char) : Prop :=
  ∃ c ds, cs = c :: ds ∧ isWordStart c ∧ ∀ d ∈ ds, isWordPart d

def IsFraction (cs : List Char) : Prop :=
  cs = [] ∨ ∃ c ds, cs = '.' :: c :: ds ∧ c.isDigit ∧ ∀ d ∈ ds, d.isDigit

/-- Digits, with a fraction if there is one. -/
def IsNumeral (cs : List Char) : Prop :=
  ∃ c ds fs, cs = c :: (ds ++ fs) ∧ c.isDigit ∧ (∀ d ∈ ds, d.isDigit) ∧ IsFraction fs

theorem isNumeral_of_digits (hne : ds ≠ []) (h : ∀ d ∈ ds, d.isDigit) : IsNumeral ds := by
  cases ds with
  | nil => exact (hne rfl).elim
  | cons c ds =>
      rw [List.forall_mem_cons] at h
      exact ⟨c, ds, [], by rw [List.append_nil], h.1, h.2, .inl rfl⟩

theorem isWord_take {n : Nat} (h : word.reach? cs = some n) : IsWord (cs.take n) := by
  cases cs with
  | nil => cases h
  | cons c ds =>
      simp only [reach?] at h
      split at h
      next hc =>
        cases h
        refine ⟨c, ds.takeWhile isWordPart, ?_, hc, ?_⟩
        · rw [Nat.add_comm, List.take_succ_cons, take_run]
        · exact fun d hd => List.all_eq_true.1 List.all_takeWhile d hd
      · cases h

theorem isFraction_take (cs : List Char) : IsFraction (cs.take (fraction cs)) := by
  unfold fraction
  split
  next c cs =>
    split
    next hc =>
      refine .inr ⟨c, cs.takeWhile Char.isDigit, ?_, hc, ?_⟩
      · rw [Nat.add_comm, List.take_succ_cons, List.take_succ_cons, take_run]
      · exact fun d hd => List.all_eq_true.1 List.all_takeWhile d hd
    · exact .inl rfl
  · exact .inl rfl

theorem isNumeral_take {n : Nat} (h : number.reach? cs = some n) : IsNumeral (cs.take n) := by
  cases cs with
  | nil => cases h
  | cons c ds =>
      simp only [reach?] at h
      split at h
      next hc =>
        cases h
        refine ⟨c, ds.takeWhile Char.isDigit, _, ?_, hc, ?_, isFraction_take (ds.drop (run Char.isDigit ds))⟩
        · rw [Nat.add_assoc, Nat.add_comm, List.take_succ_cons, List.take_add, take_run]
        · exact fun d hd => List.all_eq_true.1 List.all_takeWhile d hd
      · cases h

theorem reach?_number (h : IsNumeral cs) (hr : Apart rest) :
    number.reach? (cs ++ rest) = some cs.length := by
  obtain ⟨c, ds, fs, rfl, hc, hds, hfs⟩ := h
  have hdigit : run Char.isDigit rest = 0 := run_isDigit_eq_zero hr.1
  have hrun : run Char.isDigit (ds ++ (fs ++ rest)) = ds.length := by
    rw [run_append hds]
    rcases hfs with rfl | ⟨d, gs, rfl, -, -⟩
    · rw [List.nil_append, hdigit, Nat.add_zero]
    · rfl
  have hfraction : fraction (fs ++ rest) = fs.length := by
    rcases hfs with rfl | ⟨d, gs, rfl, hd, hgs⟩
    · exact hr.2
    · simp only [List.cons_append, fraction, if_pos hd, run_append hgs, hdigit, List.length_cons]
      omega
  rw [List.cons_append, List.append_assoc, reach?, if_pos hc, hrun, List.drop_left, hfraction,
    List.length_cons, List.length_append]
  congr 1
  omega

theorem reach?_word (h : IsWord cs) (hr : Apart rest) :
    word.reach? (cs ++ rest) = some cs.length := by
  obtain ⟨c, ds, rfl, hc, hds⟩ := h
  rw [List.cons_append, reach?, if_pos hc, run_append hds, hr.1, Nat.add_zero, List.length_cons,
    Nat.add_comm]

/-! ### The first rule -/

theorem first?_nil : first? [] = none := by
  decide

theorem first?_word (h : IsWord cs) (hr : Apart rest) :
    first? (cs ++ rest) = some (.word, cs.length) := by
  simp [first?, all, reach?_word h hr]

theorem first?_number (h : IsNumeral cs) (hr : Apart rest) :
    first? (cs ++ rest) = some (.number, cs.length) := by
  have hword : word.reach? (cs ++ rest) = none := by
    obtain ⟨c, ds, fs, rfl, hc, -⟩ := h
    simp [reach?, not_isWordStart_of_isDigit hc]
  simp [first?, all, hword, reach?_number h hr]

theorem first?_blank (h : Text.isBlank c) :
    first? (c :: cs) = some (.blank, 1 + run Text.isBlank cs) := by
  simp [first?, all, reach?, not_isWordStart_of_isBlank h, not_isDigit_of_isBlank h, h]

theorem first?_text {n : Nat} (h : Text.Escape.closing? cs = some n) :
    first? ('"' :: cs) = some (.text, n + 2) := by
  simp [first?, all, reach?, h, isWordStart, Text.isBlank, Text.blankRanges]

theorem reach?_mark (m : Mark) (cs : List Char) :
    (mark m).reach? cs =
      if m.spelling.toList.isPrefixOf cs then some m.spelling.length else none := by
  cases cs <;> rfl

theorem reach?_comment (h : ∀ c ∈ rest.head?, c ≠ '/') : comment.reach? ('/' :: rest) = none := by
  unfold reach?
  split <;> simp_all

/-- Where nothing else applies, the first mark in the order of the marks does. -/
theorem first?_eq_findSome? (hw : isWordStart c = false) (hd : c.isDigit = false)
    (hb : Text.isBlank c = false) (ht : c ≠ '"') (hc : comment.reach? (c :: cs) = none) :
    first? (c :: cs) = Mark.all.findSome? fun m =>
      if m.spelling.toList.isPrefixOf (c :: cs) then some (mark m, m.spelling.length) else none := by
  have hword : word.reach? (c :: cs) = none := by simp [reach?, hw]
  have hnumber : number.reach? (c :: cs) = none := by simp [reach?, hd]
  have hblank : blank.reach? (c :: cs) = none := by simp [reach?, hb]
  have htext : text.reach? (c :: cs) = none := by
    unfold reach?
    split <;> simp_all
  simp only [first?, all, List.cons_append, List.nil_append, List.findSome?_cons, hword, hnumber,
    hblank, htext, hc, Option.map_none, List.findSome?_map]
  congr 1
  funext m
  rw [Function.comp_apply, reach?_mark]
  split <;> rfl

end Rule

/-- The characters that go on with a mark, to a longer one or to a comment. -/
def Mark.extensions : Mark → List Char
  | colon => ['-']
  | less => ['>', '=']
  | greater => ['=']
  | dot => ['.']
  | slash => ['/']
  | _ => []

/-- A mark is read up to its own end unless the next character goes on with it. -/
theorem Rule.first?_mark (m : Mark) {rest : List Char} (h : ∀ c ∈ rest.head?, c ∉ m.extensions) :
    first? (m.spelling.toList ++ rest) = some (.mark m, m.spelling.length) := by
  cases rest with
  | nil => cases m <;> decide
  | cons c rest =>
      have hne : ∀ d ∈ m.extensions, (d == c) = false := fun d hd =>
        beq_false_of_ne fun he => h c rfl (he ▸ hd)
      cases m
      case colon | less | greater | dot =>
        simp only [Mark.spelling, String.reduceToList, List.cons_append, List.nil_append]
        rw [first?_eq_findSome? rfl rfl rfl (by decide) rfl]
        simp only [Mark.extensions, List.forall_mem_cons] at hne
        simp only [Mark.all, List.findSome?_cons]
        simp [Mark.spelling, List.isPrefixOf, hne]
      case slash =>
        have hslash : comment.reach? ('/' :: c :: rest) = none := reach?_comment fun d hd => by
          simp_all [Mark.extensions]
        exact (first?_eq_findSome? rfl rfl rfl (by decide) hslash).trans rfl
      all_goals rfl

end ScriptFrontend
