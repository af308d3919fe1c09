import ScriptFrontend.Diagnostic
import ScriptFrontend.Proofs.ErrorPlaces
import ScriptFrontend.Proofs.Lines

/-!
Reports of the front end.

The place of a diagnostic is on the line that is looked up for it, so a report always has its excerpt.
The caret stands behind as many marks as there are bytes in front of the place, less the spaces that
the excerpt leaves out.
-/

namespace ScriptFrontend

open Text (byteLength lastLine firstLine)

/-! ### The text of a report -/

namespace Text

theorem lines_append_cons_newline (s t : List Char) :
    lines (s ++ '\n' :: t) = lines (s ++ ['\n']) ++ lines t := by
  induction s with
  | nil => rfl
  | cons c s ih =>
      rw [List.cons_append, List.cons_append, lines, lines, ih]
      split
      · rfl
      · cases h : lines (s ++ ['\n']) with
        | nil =>
            have hflatten := flatten_lines (s ++ ['\n'])
            simp [h] at hflatten
        | cons l ls => rfl

/-- The last of the lines of a text that ends with a line. -/
theorem getLast?_lines {l : List Char} (s : List Char) (hl : '\n' ∉ l) :
    (lines (s ++ '\n' :: (l ++ ['\n']))).getLast? = some (l ++ ['\n']) := by
  rw [lines_append_cons_newline, lines_append_newline hl, lines, List.getLast?_append]
  rfl

end Text

namespace Diagnostic

variable {d : Diagnostic} {source file : String} {before after : List Char}

/-- The spaces that the line of a place starts with. -/
def indent (before after : List Char) : Nat :=
  ((lastLine before ++ firstLine after).takeWhile (· = ' ')).length

/-- The line that is looked up for a true place is the one that the place is on. -/
theorem lineAt?_eq (hsource : source.toList = before ++ after)
    (hp : d.position = .behind before file) :
    Text.lineAt? source.toList d.position.offset = some
      ⟨d.position.line, lastLine before ++ firstLine after, byteLength (lastLine before)⟩ := by
  rw [hsource, hp]
  exact Text.lineAt?_append (k := 0) (.inl rfl)

theorem excerpt?_eq (hs : d.source = some source) (hsource : source.toList = before ++ after)
    (hp : d.position = .behind before file) :
    d.excerpt? = some (excerpt
      ⟨d.position.line, lastLine before ++ firstLine after, byteLength (lastLine before)⟩) := by
  simp [excerpt?, hs, lineAt?_eq hsource hp]

/-- The margin of the lines around the line of a place. -/
def gutter (number : Nat) : List Char :=
  flushRight ((toString number).length + 2) ' ' '|'

/-- The last line of a report. -/
def caretLine (number marks : Nat) : List Char :=
  gutter number ++ [' '] ++ List.replicate marks '-' ++ ['^']

/-- The lines of a report: the headline, the file, and the line of the place between two margins. -/
theorem report_eq (hs : d.source = some source) (hsource : source.toList = before ++ after)
    (hp : d.position = .behind before file) (path : String) :
    (d.report path).toList =
      (d.headline ++ "-> " ++ path ++ "\n").toList ++ gutter d.position.line ++ '\n' ::
        ((toString d.position.line).toList ++ " | ".toList ++
          Text.trimEnd ((lastLine before ++ firstLine after).dropWhile (· = ' '))) ++ '\n' ::
        (caretLine d.position.line (byteLength (lastLine before) - indent before after) ++ ['\n']) := by
  have hdrop := Rule.drop_run (· = ' ') (lastLine before ++ firstLine after)
  rw [Rule.run] at hdrop
  rw [report, excerpt?_eq hs hsource hp]
  simp only [excerpt, hdrop, indent, gutter, caretLine, flushRight, String.toList_append,
    String.toList_ofList, Option.getD_some, String.length_toList, Nat.add_sub_cancel]
  simp

theorem count_gutter (number : Nat) {c : Char} (hspace : c ≠ ' ') (hbar : c ≠ '|') :
    (gutter number).count c = 0 := by
  simp [gutter, flushRight, List.count_replicate, hspace.symm, hbar.symm]

theorem newline_not_mem_gutter (number : Nat) : '\n' ∉ gutter number :=
  List.count_eq_zero.1 (count_gutter number (by decide) (by decide))

theorem newline_not_mem_caretLine (number marks : Nat) : '\n' ∉ caretLine number marks := by
  simp [caretLine, newline_not_mem_gutter]

/-- The marks in front of the caret on the last line of a report. -/
def dashes (report : String) : Nat :=
  ((Text.lines report.toList).getLast?.getD []).count '-'

theorem dashes_report (hs : d.source = some source) (hsource : source.toList = before ++ after)
    (hp : d.position = .behind before file) (path : String) :
    dashes (d.report path) = byteLength (lastLine before) - indent before after := by
  have hgutter := count_gutter d.position.line (c := '-') (by decide) (by decide)
  rw [dashes, report_eq hs hsource hp, Text.getLast?_lines _ (newline_not_mem_caretLine _ _)]
  simp [caretLine, hgutter]

/-- The spaces in front of the line never reach beyond an edge. -/
theorem indent_le (h : (∀ c ∈ after.head?, c ≠ ' ') ∨ ∃ c ∈ before.getLast?, c ≠ ' ' ∧ c ≠ '\n') :
    indent before after ≤ (lastLine before).length := by
  rw [indent, List.takeWhile_append]
  split
  case isFalse => exact (List.takeWhile_sublist _).length_le
  case isTrue hspaces =>
    rcases h with hbehind | ⟨c, hc, hspace, hnewline⟩
    · have hnone : (firstLine after).takeWhile (· = ' ') = [] := by
        cases after with
        | nil => rfl
        | cons c rest =>
            have hc : c ≠ ' ' := hbehind c rfl
            rw [firstLine]
            split <;> simp [hc]
      exact Nat.le_of_eq (by rw [hnone, List.append_nil])
    · obtain ⟨cs, rfl⟩ := List.getLast?_eq_some_iff.1 hc
      have hkeep : '\n' ∉ [c] := by simpa using hnewline.symm
      have hall : (lastLine (cs ++ [c])).takeWhile (· = ' ') = lastLine (cs ++ [c]) :=
        (List.takeWhile_sublist _).eq_of_length hspaces
      have hmem : c ∈ (lastLine (cs ++ [c])).takeWhile (· = ' ') := by
        rw [hall, Text.lastLine_append cs hkeep]
        simp
      have hc' := List.all_eq_true.1 List.all_takeWhile c hmem
      exact (hspace (by simpa using hc')).elim

end Diagnostic

/-! ### Failures of the front end -/

variable {source file : String} {d : Diagnostic}

/-- The marks in front of the caret and the spaces left out make up the bytes in front of the place.
So the caret stands under the place exactly if the characters in front of it are of one byte. -/
theorem frontEnd_error_caret (h : Id.run (frontEnd (fun _ => pure ()) source file) = .error d)
    (path : String) :
    ∃ before after,
      source.toList = before ++ after ∧ d.position = .behind before file ∧
      Diagnostic.dashes (d.report path) + Diagnostic.indent before after =
        byteLength (lastLine before) ∧
      (Diagnostic.dashes (d.report path) = d.position.column - 1 - Diagnostic.indent before after ↔
        ∀ c ∈ lastLine before, c.utf8Size = 1) := by
  obtain ⟨hs, before, after, hsource, hp, hedge⟩ := edge_of_frontEnd_eq_error h
  have hdashes := Diagnostic.dashes_report hs hsource hp path
  have hindent := Diagnostic.indent_le hedge
  have hbytes := Text.length_le_byteLength (lastLine before)
  have hcolumn : d.position.column - 1 = (lastLine before).length := by
    rw [hp]
    exact Nat.add_sub_cancel_left 1 _
  refine ⟨before, after, hsource, hp, ?_, ?_⟩
  · omega
  · rw [← Text.byteLength_eq_length_iff, hdashes, hcolumn]
    omega

/-- A letter of two bytes moves the caret one column too far. -/
theorem frontEnd_error_caret_accent :
    Id.run (frontEnd (fun _ => pure ()) "\"é\" )" "main.qk") =
        .error ⟨.unexpected "statement" ")", ⟨5, 1, 5, "main.qk"⟩, some "\"é\" )"⟩ ∧
      ∃ before after, "\"é\" )".toList = before ++ after ∧
        Diagnostic.dashes (Diagnostic.report
          ⟨.unexpected "statement" ")", ⟨5, 1, 5, "main.qk"⟩, some "\"é\" )"⟩ "main.qk") +
            Diagnostic.indent before after = byteLength (lastLine before) := by
  have h : Id.run (frontEnd (fun _ => pure ()) "\"é\" )" "main.qk") =
      .error ⟨.unexpected "statement" ")", ⟨5, 1, 5, "main.qk"⟩, some "\"é\" )"⟩ := by with_unfolding_all rfl
  obtain ⟨before, after, hsource, -, hmarks, -⟩ := frontEnd_error_caret h "main.qk"
  exact ⟨h, before, after, hsource, hmarks⟩

/-- So the marks are not always as many as the characters that the excerpt shows before the place. -/
theorem dashes_ne_column :
    ¬ ∀ (source file path : String) (d : Diagnostic) (before after : List Char),
      Id.run (frontEnd (fun _ => pure ()) source file) = .error d →
      source.toList = before ++ after → d.position = .behind before file →
      Diagnostic.dashes (d.report path) = d.position.column - 1 - Diagnostic.indent before after := by
  intro h
  have hmarks := h "\"é\" )" "main.qk" "main.qk"
    ⟨.unexpected "statement" ")", ⟨5, 1, 5, "main.qk"⟩, some "\"é\" )"⟩
    ['"', 'é', '"', ' '] [')'] (by with_unfolding_all rfl) (by decide) (by decide)
  revert hmarks
  decide

end ScriptFrontend
