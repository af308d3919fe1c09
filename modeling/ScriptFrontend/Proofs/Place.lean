import ScriptFrontend.Position

/-!
Places counted from scratch.

A scanner moves its place character by character.  Here the place behind a text is counted from the
text alone: how many bytes it has, how many line feeds, and how many characters stand behind the last
of them.  The two agree wherever the scanner stops.
-/

namespace ScriptFrontend

namespace Text

/-- The part of a text behind its last line feed. -/
def lastLine (cs : List Char) : List Char :=
  (cs.reverse.takeWhile (· ≠ '\n')).reverse

@[simp] theorem lastLine_nil : lastLine [] = [] := rfl

theorem lastLine_append {t : List Char} (s : List Char) (ht : '\n' ∉ t) :
    lastLine (s ++ t) = lastLine s ++ t := by
  have hkeep : ∀ c ∈ t.reverse, decide (c ≠ '\n') = true := by
    intro c hc
    have hmem : c ∈ t := List.mem_reverse.1 hc
    simpa using ne_of_mem_of_not_mem hmem ht
  rw [lastLine, List.reverse_append, List.takeWhile_append_of_pos hkeep, List.reverse_append,
    List.reverse_reverse]
  rfl

theorem lastLine_of_not_mem {cs : List Char} (h : '\n' ∉ cs) : lastLine cs = cs :=
  lastLine_append [] h

theorem lastLine_append_newline_append (s t : List Char) :
    lastLine (s ++ '\n' :: t) = lastLine t := by
  have hstop : ('\n' :: s.reverse).takeWhile (· ≠ '\n') = [] := by simp
  rw [lastLine, List.reverse_append, List.reverse_cons, List.append_assoc, List.singleton_append,
    List.takeWhile_append, hstop]
  split
  case isTrue h =>
    have hwhole : t.reverse.takeWhile (· ≠ '\n') = t.reverse :=
      (List.takeWhile_sublist _).eq_of_length h
    rw [List.append_nil, lastLine, hwhole]
  case isFalse => rfl

theorem length_le_byteLength (cs : List Char) : cs.length ≤ byteLength cs := by
  induction cs with
  | nil => exact Nat.le_refl 0
  | cons c cs ih =>
      have := c.utf8Size_pos
      simp only [List.length_cons, byteLength]
      omega

theorem byteLength_eq_length_iff {cs : List Char} :
    byteLength cs = cs.length ↔ ∀ c ∈ cs, c.utf8Size = 1 := by
  induction cs with
  | nil => simp [byteLength]
  | cons c cs ih =>
      have hc := c.utf8Size_pos
      have hcs := length_le_byteLength cs
      rw [byteLength, List.length_cons, List.forall_mem_cons, ← ih]
      omega

/-- A text takes as many characters as it has from every text that it begins. -/
theorem charsInBytes?_append (s t : List Char) :
    charsInBytes? (byteLength s) (s ++ t) = some s.length := by
  induction s with
  | nil => rw [byteLength, charsInBytes?, List.length_nil]
  | cons c s ih =>
      obtain ⟨n, hn⟩ : ∃ n, byteLength (c :: s) = n + 1 :=
        Nat.exists_eq_add_one.2 (Nat.add_pos_left c.utf8Size_pos _)
      have hc : c.utf8Size ≤ n + 1 := by
        rw [← hn]
        exact Nat.le_add_right _ _
      have hrest : n + 1 - c.utf8Size = byteLength s := by
        rw [← hn, byteLength]
        omega
      rw [hn, List.cons_append, charsInBytes?, if_pos hc, hrest, ih]
      rfl

end Text

namespace Position

/-- The place behind a text that a file starts with. -/
def behind (before : List Char) (file : String) : Position :=
  ⟨Text.byteLength before, 1 + before.count '\n', 1 + (Text.lastLine before).length, file⟩

theorem behind_append_single (cs : List Char) (c : Char) (file : String) :
    behind (cs ++ [c]) file = (behind cs file).step c := by
  rw [step]
  split
  case isTrue h =>
    subst h
    simp [behind, Text.byteLength, Text.lastLine_append_newline_append, Nat.add_assoc]
  case isFalse h =>
    have hkeep : '\n' ∉ [c] := fun hmem => h (List.mem_singleton.1 hmem).symm
    simp [behind, Text.byteLength, Text.lastLine_append cs hkeep, h, Nat.add_assoc]

/-- Moving over more of the text leads to the place counted from scratch. -/
theorem behind_append (s t : List Char) (file : String) :
    behind (s ++ t) file = (behind s file).after t := by
  induction t generalizing s with
  | nil => simp
  | cons c t ih =>
      rw [after_cons, ← behind_append_single, ← ih, List.append_assoc]
      rfl

/-- Reading a text from the start of its file leads to the place counted from scratch. -/
theorem after_first (cs : List Char) (file : String) : (first file).after cs = behind cs file :=
  (behind_append [] cs file).symm

/-- On one line, the place moves as many columns as there are characters. -/
theorem after_of_newline_not_mem {cs : List Char} (p : Position) (h : '\n' ∉ cs) :
    p.after cs =
      { p with offset := p.offset + Text.byteLength cs, column := p.column + cs.length } := by
  induction cs generalizing p with
  | nil => rfl
  | cons c cs ih =>
      rw [List.mem_cons, not_or] at h
      rw [after_cons, ih (p.step c) h.2, step, if_neg (Ne.symm h.1)]
      simp only [Text.byteLength, List.length_cons, Nat.add_assoc, Nat.add_comm 1]

/-- No number in a place outgrows the source by more than one, so the places of a source that is
short enough fit words. -/
theorem behind_le (before after : List Char) (file : String) :
    (behind before file).offset ≤ Text.byteLength (before ++ after) ∧
      (behind before file).line ≤ Text.byteLength (before ++ after) + 1 ∧
      (behind before file).column ≤ Text.byteLength (before ++ after) + 1 := by
  have hbytes := Text.length_le_byteLength before
  have hlines : before.count '\n' ≤ before.length := List.count_le_length
  have hcolumns : (Text.lastLine before).length ≤ before.length := by
    rw [Text.lastLine, List.length_reverse, ← before.length_reverse]
    exact (List.takeWhile_sublist _).length_le
  simp only [behind, Text.byteLength_append]
  omega

end Position

end ScriptFrontend
