import ScriptFrontend.Proofs.Phases
import ScriptFrontend.Proofs.Place
import ScriptFrontend.Proofs.Shape
import ScriptFrontend.Syntax.Render

/-!
String literals, from the value to the text and back.

The inside of a literal is read in pieces: a character, or a backslash with the character behind it.
The pieces say both where a literal ends and what it stands for, so the search for the closing
quotation mark and the unescaping cannot disagree.  Writing a value chooses one piece for each of its
characters, which makes the round trip a case of reading.
-/

namespace ScriptFrontend

namespace Text.Escape

/-- What the inside of a literal is read in. -/
inductive Piece
  | plain (c : Char) (hquote : c ≠ '"') (hback : c ≠ '\\')
  | escape (e : Char) (he : e ≠ '\n')

namespace Piece

def chars : Piece → List Char
  | plain c _ _ => [c]
  | escape e _ => ['\\', e]

/-- A backslash goes with its character, or stays with it if the two have no meaning. -/
def value : Piece → List Char
  | plain c _ _ => [c]
  | escape e _ =>
    match meaning? e with
    | some c => [c]
    | none => ['\\', e]

def write (c : Char) : Piece :=
  match h : letter? c with
  | some e => escape e (ne_newline_of_letter? h)
  | none => plain c (ne_quote_of_letter? h) (ne_backslash_of_letter? h)

@[simp] theorem value_write (c : Char) : (write c).value = [c] := by
  unfold write
  split
  next e h => simp [value, meaning?_of_letter? h]
  next h => rfl

def literal (ps : List Piece) : List Char :=
  '"' :: (ps.flatMap chars ++ ['"'])

theorem encode_eq_flatMap (cs : List Char) : encode cs = cs.flatMap fun c => (write c).chars := by
  induction cs with
  | nil => rfl
  | cons c cs ih =>
      rw [encode, List.flatMap_cons, ih, write]
      split <;> split <;> simp_all [chars]

theorem inside (ps : List Piece) : Inside (ps.flatMap chars) := by
  induction ps with
  | nil => exact .nil
  | cons p ps ih =>
      cases p with
      | plain c hquote hback => exact .plain hquote hback ih
      | escape e he => exact .escape he ih

theorem exists_of_inside {cs : List Char} (h : Inside cs) :
    ∃ ps : List Piece, cs = ps.flatMap chars := by
  induction h with
  | nil => exact ⟨[], rfl⟩
  | plain hquote hback _ ih =>
      obtain ⟨ps, rfl⟩ := ih
      exact ⟨plain _ hquote hback :: ps, rfl⟩
  | escape he _ ih =>
      obtain ⟨ps, rfl⟩ := ih
      exact ⟨escape _ he :: ps, rfl⟩

end Piece

/-- The unescaping as long as there is a character behind every backslash that it comes to. -/
def decode? : List Char → Option (List Char)
  | [] => some []
  | ['\\'] => none
  | '\\' :: e :: cs =>
    match meaning? e with
    | some c => (decode? cs).map (c :: ·)
    | none => (decode? cs).map ('\\' :: e :: ·)
  | c :: cs => (decode? cs).map (c :: ·)

theorem decode_of_decode? {cs v : List Char} (h : decode? cs = some v) : decode cs = v := by
  fun_induction decode? cs generalizing v with
  | case1 => cases h; rfl
  | case2 => cases h
  | case3 e cs c hc ih =>
      obtain ⟨u, hu, rfl⟩ := Option.map_eq_some_iff.1 h
      simp [decode, hc, ih hu]
  | case4 e cs hc ih =>
      obtain ⟨u, hu, rfl⟩ := Option.map_eq_some_iff.1 h
      simp [decode, hc, ih hu]
  | case5 c cs hlast hback ih =>
      obtain ⟨u, hu, rfl⟩ := Option.map_eq_some_iff.1 h
      rw [decode.eq_3 _ _ hback, ih hu]

/-- Inside a literal there is a character behind every backslash, and the value is that of the
pieces. -/
theorem decode?_pieces (ps : List Piece) :
    decode? (ps.flatMap Piece.chars) = some (ps.flatMap Piece.value) := by
  induction ps with
  | nil => rfl
  | cons p ps ih =>
      rw [List.flatMap_cons, List.flatMap_cons]
      cases p with
      | plain c hquote hback =>
          simp only [Piece.chars, Piece.value, List.singleton_append]
          rw [decode?.eq_4 _ _ (fun hc _ => hback hc) (fun _ _ hc _ => hback hc), ih]
          rfl
      | escape e he =>
          simp only [Piece.chars, Piece.value, List.cons_append, List.nil_append, decode?]
          split <;> simp [ih]

/-- The characters that are never written as they are and could not be seen if they were. -/
def unseen : List Char :=
  ['\n', '\t', '\r', '\x00']

theorem not_mem_encode {c : Char} (hc : c ∈ unseen) (cs : List Char) : c ∉ encode cs := by
  have hletter : (letter? c).isSome ∧ meaning? c = none ∧ c ≠ '\\' := by
    simp only [unseen, List.mem_cons, List.not_mem_nil, or_false] at hc
    rcases hc with rfl | rfl | rfl | rfl <;> decide
  obtain ⟨hsome, hnone, hback⟩ := hletter
  rw [Piece.encode_eq_flatMap, List.mem_flatMap]
  rintro ⟨d, -, hd⟩
  unfold Piece.write at hd
  split at hd
  next e h =>
    rcases List.mem_cons.1 hd with rfl | hd
    · exact hback rfl
    · rw [List.mem_singleton.1 hd, meaning?_of_letter? h] at hnone
      cases hnone
  next h =>
    rw [List.mem_singleton.1 hd, h] at hsome
    cases hsome

end Text.Escape

open Text.Escape

namespace Rule

variable {cs : List Char}

/-- At a quotation mark there is a literal or nothing. -/
theorem first?_quote_eq_none (h : closing? cs = none) : first? ('"' :: cs) = none := by
  rw [first?, List.findSome?_eq_none_iff]
  intro r _
  cases r with
  | text => simp [reach?, h]
  | mark m => cases m <;> rfl
  | _ => rfl

theorem first?_literal (ps : List Piece) (rest : List Char) :
    first? (Piece.literal ps ++ rest) = some (.text, (Piece.literal ps).length) := by
  have h := first?_text (closing?_inside (Piece.inside ps) rest)
  have hlength : (ps.flatMap Piece.chars).length + 2 = (Piece.literal ps).length := by
    simp [Piece.literal]
  rw [hlength] at h
  simpa [Piece.literal] using h

/-- There is a literal exactly if pieces lead to another quotation mark. -/
theorem first?_quote_iff :
    (∃ n, first? ('"' :: cs) = some (.text, n)) ↔
      ∃ ps rest, '"' :: cs = Piece.literal ps ++ rest := by
  constructor
  · rintro ⟨n, h⟩
    cases hclosing : closing? cs with
    | none =>
        rw [first?_quote_eq_none hclosing] at h
        cases h
    | some m =>
        obtain ⟨inside, rest, rfl, hinside, -⟩ := inside_of_closing? hclosing
        obtain ⟨ps, rfl⟩ := Piece.exists_of_inside hinside
        exact ⟨ps, rest, by simp [Piece.literal]⟩
  · rintro ⟨ps, rest, h⟩
    exact ⟨_, h ▸ first?_literal ps rest⟩

end Rule

def Text.Escape.Piece.token (ps : List Piece) (file : String) : Token :=
  ⟨.text, String.ofList (ps.flatMap value), ⟨.first file, .behind (literal ps) file⟩⟩

theorem Literal.render_text (v : String) :
    (Literal.text v).render = String.ofList (Piece.literal (v.toList.map Piece.write)) := by
  rw [← String.toList_inj]
  simp [render, Piece.literal, Piece.encode_eq_flatMap, List.flatMap_map]

namespace Scanner

/-- A literal is taken whole and makes the token with the value of its pieces. -/
theorem tokens_literal (ps : List Piece) (rest : List Char) (file : String) :
    tokens ⟨.first file, Piece.literal ps ++ rest⟩ =
      (tokens ⟨.behind (Piece.literal ps) file, rest⟩).map (Piece.token ps file :: ·) := by
  have hskip : (Scanner.mk (.first file) (Piece.literal ps ++ rest)).skip (Piece.literal ps).length =
      ⟨.behind (Piece.literal ps) file, rest⟩ := by
    simp only [skip, List.take_left, List.drop_left, Position.after_first]
  have htoken : (Scanner.mk (.first file) (Piece.literal ps ++ rest)).token? .text
      (Piece.literal ps).length = some (Piece.token ps file) := by
    have hdecode := decode_of_decode? (decode?_pieces ps)
    rw [token?, hskip, List.take_left, Rule.token?, Piece.literal, List.tail_cons,
      List.dropLast_concat, hdecode]
    rfl
  rw [tokens_some (by simp [Piece.literal]) (Rule.first?_literal ps rest), hskip, htoken]
  rfl

end Scanner

/-- The canonical text of a string is read back as the string and nothing else. -/
theorem tokenize_render_text (v file : String) :
    tokenize (Literal.text v).render file =
      .ok [⟨.text, v, ⟨.first file, .behind (Literal.text v).render.toList file⟩⟩,
        .endOfInput (.behind (Literal.text v).render.toList file)] := by
  have hvalue : (v.toList.map Piece.write).flatMap Piece.value = v.toList := by
    simp [List.flatMap_map]
  have htokens := Scanner.tokens_literal (v.toList.map Piece.write) [] file
  have hend : Scanner.tokens ⟨.behind (Piece.literal (v.toList.map Piece.write)) file, []⟩ = _ :=
    Scanner.tokens_nil rfl
  rw [List.append_nil, hend] at htokens
  rw [tokenize_eq_ok_iff, Scanner.ofSource, Literal.render_text, String.toList_ofList, htokens,
    Piece.token, hvalue, String.ofList_toList]
  rfl

theorem not_mem_render_text {c : Char} (hc : c ∈ unseen) (v : String) :
    c ∉ (Literal.text v).render.toList := by
  have hquote : c ≠ '"' := by
    rintro rfl
    exact absurd hc (by decide)
  simpa [Literal.render, hquote] using not_mem_encode hc v.toList

/-- Without a closing quotation mark the scanner stops at the opening one. -/
theorem tokenize_quote_unclosed {cs : List Char} (h : closing? cs = none) (file : String) :
    tokenize (String.ofList ('"' :: cs)) file =
      .error ⟨.unrecognised "\"", .first file, some (String.ofList ('"' :: cs))⟩ := by
  rw [tokenize, Scanner.ofSource, String.toList_ofList,
    Scanner.tokens_none (List.cons_ne_nil _ _) (Rule.first?_quote_eq_none h)]
  rfl

/-- String literals are a lossless codec.  A string is written without an unseen character and read
back as itself.  A literal stands at a quotation mark exactly if pieces lead from it to another one;
it ends there, no backslash of it is the last character in front of that, and its value is that of
the pieces.  Where they lead to none, the scanner fails at the quotation mark. -/
theorem text_codec (v file : String) (cs : List Char) :
    ((∀ c ∈ unseen, c ∉ (Literal.text v).render.toList) ∧
      tokenize (Literal.text v).render file =
        .ok [⟨.text, v, ⟨.first file, .behind (Literal.text v).render.toList file⟩⟩,
          .endOfInput (.behind (Literal.text v).render.toList file)]) ∧
    ((∃ n, Rule.first? ('"' :: cs) = some (.text, n)) ↔
      ∃ ps rest, '"' :: cs = Piece.literal ps ++ rest) ∧
    (∀ ps rest, '"' :: cs = Piece.literal ps ++ rest →
      decode? (Piece.literal ps).tail.dropLast = some (ps.flatMap Piece.value) ∧
      tokenize (String.ofList ('"' :: cs)) file =
        ((Scanner.tokens ⟨.behind (Piece.literal ps) file, rest⟩).map
          (Piece.token ps file :: ·)).mapError (·.withSource (String.ofList ('"' :: cs)))) ∧
    ((¬ ∃ ps rest, '"' :: cs = Piece.literal ps ++ rest) →
      tokenize (String.ofList ('"' :: cs)) file =
        .error ⟨.unrecognised "\"", .first file, some (String.ofList ('"' :: cs))⟩) := by
  refine ⟨⟨fun c hc => not_mem_render_text hc v, tokenize_render_text v file⟩,
    Rule.first?_quote_iff, fun ps rest h => ⟨?_, ?_⟩, fun h => ?_⟩
  · rw [Piece.literal, List.tail_cons, List.dropLast_concat]
    exact decode?_pieces ps
  · rw [h, tokenize, Scanner.ofSource, String.toList_ofList, Scanner.tokens_literal]
  · refine tokenize_quote_unclosed ?_ file
    cases hclosing : closing? cs with
    | none => rfl
    | some n => exact absurd (Rule.first?_quote_iff.1 ⟨_, Rule.first?_text hclosing⟩) h

end ScriptFrontend
