import ScriptFrontend.Proofs.Lines
import ScriptFrontend.Syntax.Render
import ScriptFrontend.Text.Character

/-!
Texts that depend on the layout by their indentation alone.

Such a text is an outline: a first line, which stands wherever it is put, and other lines, each with
the number of levels that it is deeper than the layout.  Between its indentation and its line feed a
line holds the same words at every layout, with no blank at either edge.  What a layout does to the
text is read off from the outline: entering a level pushes in all lines but the first, and another
width replaces the spaces in front of each line.
-/

namespace ScriptFrontend

/-! ### Words on a line -/

/-- Words that a line may begin with: no line feed in them and no blank in front. -/
structure Opening (s : String) : Prop where
  line : '\n' ∉ s.toList
  first : ∀ c ∈ s.toList.head?, Text.isBlank c = false

/-- Words that fill a line: they may begin it, and their last character is no blank. -/
structure Inline (s : String) : Prop extends Opening s where
  last : ∃ cs c, s.toList = cs ++ [c] ∧ Text.isBlank c = false

section

variable {s t u : String}

theorem Opening.empty : Opening "" :=
  ⟨nofun, nofun⟩

theorem Opening.append (hs : Opening s) (ht : Opening t) : Opening (s ++ t) := by
  refine ⟨?_, fun c hc => ?_⟩
  · rw [String.toList_append, List.mem_append, not_or]
    exact ⟨hs.line, ht.line⟩
  · rw [String.toList_append] at hc
    cases hnil : s.toList with
    | nil =>
        rw [hnil, List.nil_append] at hc
        exact ht.first c hc
    | cons d ds =>
        rw [hnil] at hc
        exact hs.first c (by rw [hnil]; exact hc)

theorem Opening.inline (hs : Opening s) (ht : Inline t) : Inline (s ++ t) := by
  obtain ⟨cs, c, hcs, hc⟩ := ht.last
  refine ⟨hs.append ht.toOpening, s.toList ++ cs, c, ?_, hc⟩
  rw [String.toList_append, hcs, List.append_assoc]

theorem Inline.toList_ne_nil (hs : Inline s) : s.toList ≠ [] := by
  obtain ⟨cs, c, hcs, -⟩ := hs.last
  simp [hcs]

/-- Behind words that fill a line any may follow as long as more come. -/
theorem Inline.opening (hs : Inline s) (ht : '\n' ∉ t.toList) : Opening (s ++ t) := by
  refine ⟨?_, fun c hc => ?_⟩
  · rw [String.toList_append, List.mem_append, not_or]
    exact ⟨hs.line, ht⟩
  · obtain ⟨d, ds, hds⟩ := List.exists_cons_of_ne_nil hs.toList_ne_nil
    rw [String.toList_append, hds] at hc
    exact hs.first c (by rw [hds]; exact hc)

theorem Inline.append (hs : Inline s) (ht : Inline t) : Inline (s ++ t) :=
  hs.toOpening.inline ht

theorem Inline.between (hs : Inline s) (ht : '\n' ∉ t.toList) (hu : Inline u) :
    Inline (s ++ t ++ u) :=
  (hs.opening ht).inline hu

/-- Words without any blank fill a line. -/
theorem Inline.of_solid (hne : s.toList ≠ []) (h : ∀ c ∈ s.toList, Text.isBlank c = false) :
    Inline s := by
  refine ⟨⟨fun hmem => ?_, fun c hc => h c (List.mem_of_mem_head? hc)⟩, ?_⟩
  · exact absurd (h _ hmem) (by decide)
  · refine ⟨s.toList.dropLast, s.toList.getLast hne, ?_, h _ (List.getLast_mem hne)⟩
    rw [List.dropLast_concat_getLast]

end

/-! ### Outlines -/

namespace Layout

def deeper (l : Layout) (levels : Nat) : Layout :=
  { l with depth := l.depth + levels }

@[simp] theorem deeper_zero (l : Layout) : l.deeper 0 = l := rfl

@[simp] theorem deeper_one (l : Layout) : l.deeper 1 = l.enter := rfl

@[simp] theorem deeper_enter (l : Layout) (levels : Nat) :
    l.enter.deeper levels = l.deeper (levels + 1) := by
  rw [deeper, enter, Nat.add_right_comm]
  rfl

end Layout

/-- A text that depends on the layout by its indentation alone. -/
inductive Laid : (Layout → String) → Prop
  | last {s : String} (hs : Inline s) : Laid fun _ => s
  | next {s : String} {f : Layout → String} (hs : Inline s) (levels : Nat) (hf : Laid f) :
      Laid fun l => s ++ "\n" ++ (l.deeper levels).indent ++ f l

namespace Laid

variable {f g : Layout → String} {s t : String}

theorem congr (hf : Laid f) (h : ∀ l, g l = f l) : Laid g := by
  rwa [funext h]

/-- Words in front go on the first line. -/
theorem lead (hs : Opening s) (hf : Laid f) : Laid fun l => s ++ f l := by
  cases hf with
  | last ht => exact .last (hs.inline ht)
  | next ht levels hf =>
      refine .congr (.next (hs.inline ht) levels hf) fun l => ?_
      simp only [String.append_assoc]

/-- Words behind one text and in front of another share a line with the edges of both. -/
theorem between (hf : Laid f) (ht : '\n' ∉ t.toList) (hg : Laid g) :
    Laid fun l => f l ++ t ++ g l := by
  induction hf with
  | last hs => exact .lead (hs.opening ht) hg
  | next hs levels _ ih =>
      refine .congr (.next hs levels ih) fun l => ?_
      simp only [String.append_assoc]

/-- A text on lines of its own behind another one. -/
theorem break_ (hf : Laid f) (levels : Nat) (hg : Laid g) :
    Laid fun l => f l ++ "\n" ++ (l.deeper levels).indent ++ g l := by
  induction hf with
  | last hs => exact .next hs levels hg
  | next hs levels' _ ih =>
      refine .congr (.next hs levels' ih) fun l => ?_
      simp only [String.append_assoc]

theorem enter (hf : Laid f) : Laid fun l => f l.enter := by
  induction hf with
  | last hs => exact .last hs
  | next hs levels _ ih =>
      refine .congr (.next hs (levels + 1) ih) fun l => ?_
      simp only [Layout.deeper_enter]

end Laid

/-! ### The lines of an outline -/

namespace Text

theorem lines_append_of_not_mem {cs rest line : List Char} {others : List (List Char)}
    (h : '\n' ∉ cs) (hrest : lines rest = line :: others) :
    lines (cs ++ rest) = (cs ++ line) :: others := by
  induction cs with
  | nil => exact hrest
  | cons c cs ih =>
      rw [List.mem_cons, not_or] at h
      rw [List.cons_append, lines, if_neg (Ne.symm h.1), ih h.2]
      rfl

/-- A text that ends with exactly one line feed, with neither an empty line nor a blank at the end of
one, and no space at its beginning. -/
structure Tidy (cs : List Char) : Prop where
  ends : ∃ before c, cs = before ++ [c, '\n'] ∧ c ≠ '\n'
  lines : ∀ line ∈ lines cs, ∃ before c, line = before ++ [c, '\n'] ∧ isBlank c = false
  first : cs.head? ≠ some ' '

def pushIn (spaces : Nat) (cs : List Char) : List Char :=
  match lines cs with
  | [] => []
  | first :: others => first ++ others.flatMap fun line => List.replicate spaces ' ' ++ line

def leading (line : List Char) : Nat :=
  (line.takeWhile (· = ' ')).length

/-- The text with as many spaces in front of each line as its levels take at another width, where
a level is two spaces now. -/
def widen (width : Nat) (cs : List Char) : List Char :=
  (lines cs).flatMap fun line =>
    List.replicate (width * (leading line / 2)) ' ' ++ line.drop (leading line)

end Text

/-- A line of an outline below the first. -/
structure Lower where
  levels : Nat
  words : String

def Lower.chars (l : Layout) (line : Lower) : List Char :=
  (l.deeper line.levels).indent.toList ++ (line.words.toList ++ ['\n'])

namespace Laid

variable {f : Layout → String}

/-- The lines of a text that is ended by a line feed: the same at every layout up to the spaces in
front of all but the first. -/
theorem exists_lines (hf : Laid f) : ∃ (s : String) (others : List Lower), Inline s ∧
    (∀ line ∈ others, Inline line.words) ∧ ∀ l, Text.lines (f l ++ "\n").toList = 
      (s.toList ++ ['\n']) :: others.map (Lower.chars l) := by
  induction hf with
  | @last s hs =>
      refine ⟨s, [], hs, nofun, fun l => ?_⟩
      rw [String.toList_append]
      exact Text.lines_append_newline hs.line []
  | @next s f hs levels _ ih =>
      obtain ⟨t, others, ht, hothers, hlines⟩ := ih
      refine ⟨s, ⟨levels, t⟩ :: others, hs, List.forall_mem_cons.2 ⟨ht, hothers⟩, fun l => ?_⟩
      have htext : (s ++ "\n" ++ (l.deeper levels).indent ++ f l ++ "\n").toList =
          s.toList ++ '\n' :: ((l.deeper levels).indent.toList ++ (f l ++ "\n").toList) := by
        simp
      have hspaces : '\n' ∉ (l.deeper levels).indent.toList := by simp
      rw [htext, Text.lines_append_newline hs.line,
        Text.lines_append_of_not_mem hspaces (hlines l)]
      rfl

end Laid

/-! ### What the layout does to a text -/

theorem Lower.chars_eq (l : Layout) (line : Lower) :
    line.chars l = List.replicate ((l.depth + line.levels) * l.indentWidth) ' ' ++
      (line.words.toList ++ ['\n']) := by
  rw [chars, Layout.toList_indent]
  rfl

theorem Lower.chars_depth (line : Lower) (depth width : Nat) :
    line.chars ⟨depth, width⟩ =
      List.replicate (width * depth) ' ' ++ line.chars ⟨0, width⟩ := by
  have hspaces : List.replicate ((depth + line.levels) * width) ' ' =
      List.replicate (width * depth) ' ' ++ List.replicate ((0 + line.levels) * width) ' ' := by
    rw [List.replicate_append_replicate, Nat.zero_add, Nat.add_mul, Nat.mul_comm depth]
  simp only [chars_eq, hspaces, List.append_assoc]

theorem leading_of_inline {s : String} (hs : Inline s) (spaces : Nat) :
    Text.leading (List.replicate spaces ' ' ++ (s.toList ++ ['\n'])) = spaces := by
  obtain ⟨c, cs, hcs⟩ := List.exists_cons_of_ne_nil hs.toList_ne_nil
  have hc : c ≠ ' ' := by
    rintro rfl
    exact absurd (hs.first ' ' (by simp [hcs])) (by decide)
  simp [Text.leading, hcs, hc]

theorem Lower.leading_chars {line : Lower} (h : Inline line.words) (l : Layout) :
    Text.leading (line.chars l) = (l.depth + line.levels) * l.indentWidth := by
  rw [chars_eq, leading_of_inline h]

/-- A line at another width, from the line where a level is two spaces. -/
theorem Lower.chars_width {line : Lower} (h : Inline line.words) (depth width : Nat) :
    line.chars ⟨depth, width⟩ =
      List.replicate (width * (Text.leading (line.chars ⟨depth, 2⟩) / 2)) ' ' ++
        (line.chars ⟨depth, 2⟩).drop (Text.leading (line.chars ⟨depth, 2⟩)) := by
  rw [leading_chars h, chars_eq, chars_eq, List.drop_left' List.length_replicate,
    Nat.mul_div_cancel _ Nat.two_pos, Nat.mul_comm]

namespace Text

/-- Lines that all end with a line feed behind some other character, one behind the other. -/
theorem exists_ends {ls : List (List Char)} (hne : ls ≠ [])
    (h : ∀ line ∈ ls, ∃ before c, line = before ++ [c, '\n'] ∧ isBlank c = false) :
    ∃ before c, ls.flatten = before ++ [c, '\n'] ∧ c ≠ '\n' := by
  obtain ⟨front, line, rfl⟩ := (List.eq_nil_or_concat ls).resolve_left hne
  obtain ⟨before, c, rfl, hc⟩ := h line (by simp)
  refine ⟨front.flatten ++ before, c, by simp, ?_⟩
  rintro rfl
  exact absurd hc (by decide)

end Text

namespace Laid

variable {f : Layout → String}

/-- The text has no empty line and no blank at the end of one, at any layout. -/
theorem tidy (hf : Laid f) (l : Layout) : Text.Tidy (f l ++ "\n").toList := by
  obtain ⟨s, others, hs, hothers, hlines⟩ := hf.exists_lines
  have hall : ∀ line ∈ Text.lines (f l ++ "\n").toList,
      ∃ before c, line = before ++ [c, '\n'] ∧ Text.isBlank c = false := by
    rw [hlines, List.forall_mem_cons, List.forall_mem_map]
    refine ⟨?_, fun line hline => ?_⟩
    · obtain ⟨cs, c, hcs, hc⟩ := hs.last
      exact ⟨cs, c, by simp [hcs], hc⟩
    · obtain ⟨cs, c, hcs, hc⟩ := (hothers line hline).last
      exact ⟨(l.deeper line.levels).indent.toList ++ cs, c, by simp [Lower.chars, hcs], hc⟩
  have htext := Text.flatten_lines (f l ++ "\n").toList
  refine ⟨?_, hall, fun hspace => ?_⟩
  · have hends := Text.exists_ends (by rw [hlines]; exact List.cons_ne_nil _ _) hall
    rwa [htext] at hends
  · obtain ⟨c, cs, hcs⟩ := List.exists_cons_of_ne_nil hs.toList_ne_nil
    rw [← htext, hlines, hcs] at hspace
    have hblank := hs.first c (by simp [hcs])
    rw [Option.some.inj hspace] at hblank
    exact absurd hblank (by decide)

/-- At a greater depth all lines but the first are pushed in. -/
theorem pushIn (hf : Laid f) (depth width : Nat) :
    (f ⟨depth, width⟩ ++ "\n").toList =
      Text.pushIn (width * depth) (f ⟨0, width⟩ ++ "\n").toList := by
  obtain ⟨s, others, -, -, hlines⟩ := hf.exists_lines
  rw [Text.pushIn, hlines, ← Text.flatten_lines (f ⟨depth, width⟩ ++ "\n").toList, hlines]
  simp only [List.flatten_cons, List.flatMap_map, ← Lower.chars_depth]
  rfl

/-- At another width each line keeps its levels. -/
theorem widen (hf : Laid f) (depth width : Nat) :
    (f ⟨depth, width⟩ ++ "\n").toList = Text.widen width (f ⟨depth, 2⟩ ++ "\n").toList ∧
      ∀ line ∈ Text.lines (f ⟨depth, 2⟩ ++ "\n").toList, 2 ∣ Text.leading line := by
  obtain ⟨s, others, hs, hothers, hlines⟩ := hf.exists_lines
  have hfirst : Text.leading (s.toList ++ ['\n']) = 0 := leading_of_inline hs 0
  constructor
  · have hwidth := List.map_congr_left fun line hline =>
      Lower.chars_width (hothers line hline) depth width
    rw [Text.widen, hlines, ← Text.flatten_lines (f ⟨depth, width⟩ ++ "\n").toList, hlines,
      List.flatMap_cons, hfirst, List.flatMap_map, List.flatten_cons, List.flatMap, ← hwidth]
    rfl
  · rw [hlines, List.forall_mem_cons, List.forall_mem_map, hfirst]
    refine ⟨Nat.dvd_zero 2, fun line hline => ?_⟩
    rw [Lower.leading_chars (hothers line hline)]
    exact Nat.dvd_mul_left 2 _

end Laid

end ScriptFrontend
