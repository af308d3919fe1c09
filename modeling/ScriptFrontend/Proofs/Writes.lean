import ScriptFrontend.Proofs.Lexes
import ScriptFrontend.Proofs.Spelling
import ScriptFrontend.Syntax.Render

/-!
Texts that write lexemes.

A text writes some lexemes if the scanner reads them back from it, whatever text follows.  Words and
numbers only do so before a text that is apart from them, so there are two judgments, and rules that
put a longer text together from the left.
-/

namespace ScriptFrontend

/-- The text reads as the lexemes, whatever follows it. -/
def Writes (s : String) (v : List Lexeme) : Prop :=
  ∀ (rest : List Char) (w : List Lexeme), Lexes rest w → Lexes (s.toList ++ rest) (v ++ w)

/-- The text reads as the lexemes before everything that is apart from it. -/
def WritesApart (s : String) (v : List Lexeme) : Prop :=
  ∀ (rest : List Char) (w : List Lexeme), Rule.Apart rest → Lexes rest w →
    Lexes (s.toList ++ rest) (v ++ w)

def Starts (p : Char → Prop) (s : String) : Prop :=
  ∃ c ∈ s.toList.head?, p c

theorem Starts.append {p : Char → Prop} {s : String} (h : Starts p s) (t : String) :
    Starts p (s ++ t) := by
  obtain ⟨c, hc, hp⟩ := h
  refine ⟨c, ?_, hp⟩
  rw [String.toList_append, List.head?_append, hc]
  rfl

def Detached (s : String) : Prop :=
  Starts (fun c => Rule.isWordPart c = false ∧ c ≠ '.') s

theorem Detached.apart {s : String} (h : Detached s) (rest : List Char) :
    Rule.Apart (s.toList ++ rest) := by
  obtain ⟨c, hc, hpart, hdot⟩ := h
  obtain ⟨cs, hcs⟩ := List.head?_eq_some_iff.1 hc
  rw [hcs]
  exact Rule.apart_cons hpart hdot

theorem Detached.append {s : String} (h : Detached s) (t : String) : Detached (s ++ t) :=
  Starts.append h t

theorem Lexeme.Proper.starts {word : String} (h : (Lexeme.name word).Proper) :
    Starts (fun c => Rule.isWordStart c) word := by
  obtain ⟨⟨c, cs, hcs, hc, -⟩, -⟩ := h
  exact ⟨c, by rw [hcs]; rfl, hc⟩

theorem detached_blank : Detached " " :=
  ⟨' ', rfl, rfl, by decide⟩

theorem detached_newline : Detached "\n" :=
  ⟨'\n', rfl, rfl, by decide⟩

/-- Points and ellipses excepted, no mark goes on with a word or a number. -/
theorem detached_mark {m : Mark} (hd : m ≠ .dot) (he : m ≠ .ellipsis) : Detached m.spelling := by
  cases m <;> first | exact ⟨_, rfl, rfl, by decide⟩ | contradiction

variable {s t : String} {v w : List Lexeme}

namespace Writes

theorem of_eq (h : Writes s v) (he : v = w) : Writes s w :=
  he ▸ h

theorem empty : Writes "" [] :=
  fun _ _ h => h

theorem append (hs : Writes s v) (ht : Writes t w) : Writes (s ++ t) (v ++ w) := by
  intro rest u h
  rw [String.toList_append, List.append_assoc, List.append_assoc]
  exact hs _ _ (ht _ _ h)

theorem append_apart (hs : Writes s v) (ht : WritesApart t w) : WritesApart (s ++ t) (v ++ w) := by
  intro rest u hr h
  rw [String.toList_append, List.append_assoc, List.append_assoc]
  exact hs _ _ (ht _ _ hr h)

theorem blank : Writes " " [] :=
  fun _ _ h => .blank rfl h

theorem newline : Writes "\n" [] :=
  fun _ _ h => .blank rfl h

theorem flagged {l : Lexeme} (h : Writes s [l]) (flag : Bool) :
    Writes (ScriptFrontend.flagged flag s) (Lexeme.flag flag l) := by
  cases flag with
  | true => exact h
  | false => exact empty

theorem join {α : Type} {text : α → String} {lexemes : α → List Lexeme} {xs : List α}
    (h : ∀ x ∈ xs, Writes (text x) (lexemes x)) :
    Writes (String.join (xs.map text)) (xs.map lexemes).flatten := by
  induction xs with
  | nil => exact empty
  | cons x xs ih =>
      rw [List.forall_mem_cons] at h
      rw [List.map_cons, String.join_cons, List.map_cons, List.flatten_cons]
      exact h.1.append (ih h.2)

theorem indent (l : Layout) : Writes l.indent [] := by
  intro rest u h
  rw [Layout.toList_indent]
  exact h.blanks (l.depth * l.indentWidth)

theorem mark (m : Mark) (hm : m.extensions = []) : Writes m.spelling [.mark m] := by
  refine fun _ _ h => .mark m (fun c _ => ?_) h
  rw [hm]
  exact List.not_mem_nil

/-- A mark that another character would go on with is kept from it by a blank. -/
theorem mark_blank (m : Mark) : Writes (m.spelling ++ " ") [.mark m] := by
  intro rest u h
  rw [String.toList_append, List.append_assoc]
  refine .mark m (fun c hc => ?_) (.blank rfl h)
  cases hc
  cases m <;> decide

theorem keyword_blank (k : Keyword) : Writes (k.spelling ++ " ") [.keyword k] := by
  intro rest u h
  rw [String.toList_append, List.append_assoc]
  exact .keyword k (detached_blank.apart rest) (.blank rfl h)

theorem keyword_newline (k : Keyword) : Writes (k.spelling ++ "\n") [.keyword k] := by
  intro rest u h
  rw [String.toList_append, List.append_assoc]
  exact .keyword k (detached_newline.apart rest) (.blank rfl h)

/-- An operator with a blank behind it. -/
theorem fixed_blank {k : Kind} (hk : k.Fixed) : Writes (k.name ++ " ") [k.lexeme] := by
  cases k with
  | mark m =>
      rw [Kind.name_mark]
      exact mark_blank m
  | keyword k => exact keyword_blank k
  | endOfInput | number | text | identifier => exact hk.elim

theorem text (value : String) :
    Writes ("\"" ++ String.ofList (Text.Escape.encode value.toList) ++ "\"") [.text value] := by
  intro rest u h
  have hinside := String.toList_ofList (l := Text.Escape.encode value.toList)
  rw [String.toList_append, String.toList_append, hinside, List.append_assoc, List.append_assoc]
  exact .text value h

end Writes

namespace WritesApart

theorem of_writes (h : Writes s v) : WritesApart s v :=
  fun _ _ _ hw => h _ _ hw

theorem append (hs : WritesApart s v) (hd : Detached t) (ht : Writes t w) :
    Writes (s ++ t) (v ++ w) := by
  intro rest u h
  rw [String.toList_append, List.append_assoc, List.append_assoc]
  exact hs _ _ (hd.apart rest) (ht _ _ h)

theorem append_apart (hs : WritesApart s v) (hd : Detached t) (ht : WritesApart t w) :
    WritesApart (s ++ t) (v ++ w) := by
  intro rest u hr h
  rw [String.toList_append, List.append_assoc, List.append_assoc]
  exact hs _ _ (hd.apart rest) (ht _ _ hr h)

theorem append_mark (hs : WritesApart s v) (m : Mark) (hd : m ≠ .dot ∧ m ≠ .ellipsis)
    (hm : m.extensions = []) : Writes (s ++ m.spelling) (v ++ [.mark m]) :=
  hs.append (detached_mark hd.1 hd.2) (.mark m hm)

theorem append_blank (hs : WritesApart s v) : Writes (s ++ " ") v := by
  have h := hs.append detached_blank .blank
  rwa [List.append_nil] at h

theorem append_newline (hs : WritesApart s v) : Writes (s ++ "\n") v := by
  have h := hs.append detached_newline .newline
  rwa [List.append_nil] at h

theorem name {word : String} (h : (Lexeme.name word).Proper) : WritesApart word [.name word] :=
  fun _ _ hr hw => .name h hr hw

theorem keyword (k : Keyword) : WritesApart k.spelling [.keyword k] :=
  fun _ _ hr hw => .keyword k hr hw

theorem number {digits : String} (h : (Lexeme.number digits).Proper) :
    WritesApart digits [.number digits] :=
  fun _ _ hr hw => .number h hr hw

/-- A point may stand even behind a number if a word follows it: it begins no fraction. -/
theorem append_dot (hs : WritesApart s v) (ht : WritesApart t w)
    (h : Starts (fun c => Rule.isWordStart c) t) :
    WritesApart (s ++ "." ++ t) (v ++ .mark .dot :: w) := by
  intro rest u hr hu
  obtain ⟨c, hc, hstart⟩ := h
  obtain ⟨cs, hcs⟩ := List.head?_eq_some_iff.1 hc
  have hdot : Lexes ('.' :: (t.toList ++ rest)) (.mark .dot :: (w ++ u)) := by
    refine .mark .dot (fun d hd => ?_) (ht _ _ hr hu)
    rw [hcs] at hd
    cases hd
    intro hd
    cases List.mem_singleton.1 hd
    cases hstart
  have hapart : Rule.Apart ('.' :: (t.toList ++ rest)) := by
    refine ⟨rfl, ?_⟩
    rw [hcs, List.cons_append, Rule.fraction, if_neg]
    exact fun hdigit => Rule.not_isWordStart_of_isDigit hdigit hstart
  rw [String.toList_append, String.toList_append, List.append_assoc, List.append_assoc,
    List.append_assoc]
  exact hs _ _ hapart hdot

/-! ### Parts with a separator -/

theorem intercalate {α : Type} {text : α → String} {lexemes : α → List Lexeme} {separator : String}
    {m : Mark} (hd : Detached separator) (hm : Writes separator [.mark m]) {xs : List α}
    (h : ∀ x ∈ xs, WritesApart (text x) (lexemes x)) :
    WritesApart (separator.intercalate (xs.map text))
      ([Lexeme.mark m].intercalate (xs.map lexemes)) := by
  induction xs with
  | nil => exact of_writes .empty
  | cons x xs ih =>
      rw [List.forall_mem_cons] at h
      cases xs with
      | nil => simpa using h.1
      | cons y ys =>
          simp only [List.map_cons, String.intercalate_cons_cons, List.intercalate_cons_cons]
          exact (h.1.append hd hm).append_apart (ih h.2)

theorem qualified {names : List String} (h : ∀ name ∈ names, (Lexeme.name name).Proper) :
    WritesApart (qualified names) (Lexeme.names .dot names) := by
  induction names with
  | nil => exact of_writes .empty
  | cons first names ih =>
      rw [List.forall_mem_cons] at h
      cases names with
      | nil =>
          rw [ScriptFrontend.qualified, String.intercalate_singleton]
          exact name h.1
      | cons second names =>
          have hstart : Starts (fun c => Rule.isWordStart c) (".".intercalate (second :: names)) := by
            have hsecond := (h.2 second (List.mem_cons_self ..)).starts
            cases names with
            | nil => rwa [String.intercalate_singleton]
            | cons third names =>
                rw [String.intercalate_cons_cons]
                exact (hsecond.append _).append _
          rw [ScriptFrontend.qualified, String.intercalate_cons_cons]
          exact (name h.1).append_dot (ih h.2) hstart

theorem names {names : List String} {separator : String} {m : Mark} (hd : Detached separator)
    (hm : Writes separator [.mark m]) (h : ∀ name ∈ names, (Lexeme.name name).Proper) :
    WritesApart (separator.intercalate names) (Lexeme.names m names) := by
  have := intercalate hd hm fun name hname => WritesApart.name (h name hname)
  rwa [List.map_id'] at this

end WritesApart

end ScriptFrontend
