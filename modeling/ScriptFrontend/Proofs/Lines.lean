import ScriptFrontend.Proofs.Place
import ScriptFrontend.Text.Bytes

/-!
The line of a place.

Looking up the line of a byte agrees with counting: the number of the line is the number of line feeds
before the place, and the line is what stands around the place between two of them.
-/

namespace ScriptFrontend.Text

variable {cs before after : List Char} {k : Nat}

/-- The part of a text up to its first line feed, and the line feed. -/
def firstLine : List Char → List Char
  | [] => []
  | c :: cs => if c = '\n' then [c] else c :: firstLine cs

theorem firstLine_of_not_mem (h : '\n' ∉ cs) : firstLine cs = cs := by
  induction cs with
  | nil => rfl
  | cons c cs ih =>
      rw [List.mem_cons, not_or] at h
      rw [firstLine, if_neg (Ne.symm h.1), ih h.2]

theorem firstLine_append_newline (h : '\n' ∉ cs) (rest : List Char) :
    firstLine (cs ++ '\n' :: rest) = cs ++ ['\n'] := by
  induction cs with
  | nil => exact if_pos rfl
  | cons c cs ih =>
      rw [List.mem_cons, not_or] at h
      rw [List.cons_append, firstLine, if_neg (Ne.symm h.1), ih h.2]
      rfl

theorem lines_append_newline (h : '\n' ∉ cs) (rest : List Char) :
    lines (cs ++ '\n' :: rest) = (cs ++ ['\n']) :: lines rest := by
  induction cs with
  | nil => exact if_pos rfl
  | cons c cs ih =>
      rw [List.mem_cons, not_or] at h
      rw [List.cons_append, lines, if_neg (Ne.symm h.1), ih h.2]
      rfl

theorem lines_of_not_mem (hne : cs ≠ []) (h : '\n' ∉ cs) : lines cs = [cs] := by
  induction cs with
  | nil => exact (hne rfl).elim
  | cons c cs ih =>
      rw [List.mem_cons, not_or] at h
      rw [lines, if_neg (Ne.symm h.1)]
      cases cs with
      | nil => rfl
      | cons d ds => rw [ih (List.cons_ne_nil d ds) h.2]

def WithinNext (k : Nat) (after : List Char) : Prop :=
  k = 0 ∨ ∃ c rest, after = c :: rest ∧ k < c.utf8Size

/-- On the first of the lines. -/
theorem placeInLines_first (h : '\n' ∉ before) (hk : WithinNext k after) (number : Nat) :
    placeInLines number (byteLength before + k) (lines (before ++ after)) =
      ⟨number, before ++ firstLine after, byteLength before + k⟩ := by
  by_cases hafter : '\n' ∈ after
  · obtain ⟨cs, rest, rfl, hcs⟩ := List.eq_append_cons_of_mem hafter
    have hline : '\n' ∉ before ++ cs := by simp [h, hcs]
    have hlt : k < byteLength (cs ++ ['\n']) := by
      rcases hk with rfl | ⟨c, rest', he, hlt⟩
      · have := Char.utf8Size_pos '\n'
        simp [byteLength]
        omega
      · cases cs with
        | nil =>
            cases he
            exact hlt
        | cons d ds =>
            cases he
            exact Nat.lt_of_lt_of_le hlt (Nat.le_add_right _ _)
    rw [← List.append_assoc, lines_append_newline hline, placeInLines, if_pos,
      firstLine_append_newline hcs, List.append_assoc]
    left
    rw [List.append_assoc, byteLength_append]
    omega
  · have hline : '\n' ∉ before ++ after := by simp [h, hafter]
    rw [firstLine_of_not_mem hafter]
    by_cases hne : before ++ after = []
    · obtain ⟨rfl, rfl⟩ := List.append_eq_nil_iff.1 hne
      obtain rfl : k = 0 := by simpa [WithinNext] using hk
      rfl
    · rw [lines_of_not_mem hne hline, placeInLines, if_pos]
      refine .inr ⟨rfl, fun hlast => hline (List.mem_of_getLast? hlast)⟩

/-- The place `k` bytes behind some text is on a line that the text ends in. -/
theorem placeInLines_append (before : List Char) (hk : WithinNext k after) (number : Nat) :
    placeInLines number (byteLength before + k) (lines (before ++ after)) =
      ⟨number + before.count '\n', lastLine before ++ firstLine after,
        byteLength (lastLine before) + k⟩ := by
  by_cases hbefore : '\n' ∈ before
  · obtain ⟨cs, rest, rfl, hcs⟩ := List.eq_append_cons_of_mem hbefore
    have hbytes : byteLength (cs ++ '\n' :: rest) =
        byteLength (cs ++ ['\n']) + byteLength rest := by
      simp [byteLength, Nat.add_assoc]
    have hbehind : ¬ (byteLength (cs ++ ['\n']) + (byteLength rest + k) <
        byteLength (cs ++ ['\n']) ∨ (lines (rest ++ after) = [] ∧
          (cs ++ ['\n']).getLast? ≠ some '\n')) := by
      simp
    have hcount : (cs ++ '\n' :: rest).count '\n' = rest.count '\n' + 1 := by
      simp [List.count_eq_zero_of_not_mem hcs]
    rw [List.append_assoc, List.cons_append, lines_append_newline hcs, placeInLines, hbytes,
      Nat.add_assoc, if_neg hbehind, Nat.add_sub_cancel_left, placeInLines_append rest hk,
      lastLine_append_newline_append, hcount]
    congr 1
    omega
  · rw [placeInLines_first hbefore hk, lastLine_of_not_mem hbefore,
      List.count_eq_zero_of_not_mem hbefore]
    rfl
termination_by before.length
decreasing_by
  subst_vars
  simp
  omega

/-- Looking up the line of a place agrees with counting. -/
theorem lineAt?_append (hk : WithinNext k after) :
    lineAt? (before ++ after) (byteLength before + k) =
      some ⟨1 + before.count '\n', lastLine before ++ firstLine after,
        byteLength (lastLine before) + k⟩ := by
  have hle : ¬ byteLength (before ++ after) < byteLength before + k := by
    rw [byteLength_append]
    rcases hk with rfl | ⟨c, rest, rfl, hlt⟩
    · omega
    · rw [byteLength]
      omega
  rw [lineAt?, if_neg hle, placeInLines_append before hk]

end ScriptFrontend.Text
