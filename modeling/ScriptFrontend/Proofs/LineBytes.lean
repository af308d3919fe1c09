import Mathlib.Data.List.Induction
import ScriptFrontend.Proofs.Lines

/-!
The line of a byte.

A text is looked up character by character, but a place in it is a number of bytes and may be inside a
character.  Here the line of a place is told from the bytes of the text alone.  The obligation is that
no other character has the byte of the line feed in it, so that the byte cuts the bytes of a text into
the lines that the line feed cuts the characters into.
-/

namespace ScriptFrontend.Text

def bytes (text : String) : List UInt8 :=
  text.toByteArray.data.toList

def lineFeed : UInt8 :=
  10

def behindLast (bs : List UInt8) : List UInt8 :=
  (bs.reverse.takeWhile (· ≠ lineFeed)).reverse

def throughFirst : List UInt8 → List UInt8
  | [] => []
  | b :: bs => if b = lineFeed then [b] else b :: throughFirst bs

section

variable {cs before after : List Char} {c : Char} {k : Nat} {bs ds : List UInt8}

theorem bytes_ofList (cs : List Char) :
    bytes (.ofList cs) = cs.flatMap String.utf8EncodeChar := by
  simp [bytes, List.utf8Encode]

theorem bytes_eq_flatMap (text : String) :
    bytes text = text.toList.flatMap String.utf8EncodeChar := by
  rw [← bytes_ofList, String.ofList_toList]

theorem length_flatMap_encode (cs : List Char) :
    (cs.flatMap String.utf8EncodeChar).length = byteLength cs := by
  induction cs with
  | nil => rfl
  | cons c cs ih => simp [byteLength, ih]

/-! ### The byte of the line feed -/

theorem lineFeed_eq_ofNat_iff {n : Nat} (hn : n < 256) : lineFeed = UInt8.ofNat n ↔ n = 10 := by
  rw [← UInt8.toNat_inj, UInt8.toNat_ofNat', Nat.mod_eq_of_lt hn]
  exact eq_comm

/-- The bytes of a character that takes more than one are all too great. -/
theorem lineFeed_mem_encode_iff : lineFeed ∈ String.utf8EncodeChar c ↔ c = '\n' := by
  have hc : c = '\n' ↔ c.val.toNat = 10 := by
    rw [Char.ext_iff, ← UInt32.toNat_inj]
    rfl
  rw [hc, String.utf8EncodeChar]
  generalize c.val.toNat = v
  have hbyte (n : Nat) (h : 128 ≤ n ∧ n < 256) : lineFeed ≠ UInt8.ofNat n := by
    rw [Ne, lineFeed_eq_ofNat_iff h.2]
    omega
  split
  · have hv : v < 256 := by omega
    rw [List.mem_singleton, lineFeed_eq_ofNat_iff hv]
  · have hne : v ≠ 10 := by omega
    have htail (n : Nat) : lineFeed ≠ UInt8.ofNat (n % 64 + 128) := hbyte _ (by omega)
    have htwo : lineFeed ≠ UInt8.ofNat (v / 64 % 32 + 192) := hbyte _ (by omega)
    have hthree : lineFeed ≠ UInt8.ofNat (v / 4096 % 16 + 224) := hbyte _ (by omega)
    have hfour : lineFeed ≠ UInt8.ofNat (v / 262144 % 8 + 240) := hbyte _ (by omega)
    split
    · simp only [List.mem_cons, htwo, htail, List.not_mem_nil, or_self, hne]
    · split
      · simp only [List.mem_cons, hthree, htail, List.not_mem_nil, or_self, hne]
      · simp only [List.mem_cons, hfour, htail, List.not_mem_nil, or_self, hne]

theorem encode_newline : String.utf8EncodeChar '\n' = [lineFeed] := by
  decide

/-- A character has no line feed in front of a place inside it. -/
theorem lineFeed_not_mem_take (hk : k < c.utf8Size) :
    lineFeed ∉ (String.utf8EncodeChar c).take k := by
  intro hmem
  obtain rfl := lineFeed_mem_encode_iff.1 (List.mem_of_mem_take hmem)
  have hzero : k = 0 := Nat.lt_one_iff.1 hk
  simp [hzero] at hmem

theorem count_lineFeed (cs : List Char) :
    (cs.flatMap String.utf8EncodeChar).count lineFeed = cs.count '\n' := by
  induction cs with
  | nil => rfl
  | cons c cs ih =>
      rw [List.flatMap_cons, List.count_append, ih]
      by_cases hc : c = '\n'
      · subst hc
        simp [encode_newline, Nat.add_comm]
      · have hnone : (String.utf8EncodeChar c).count lineFeed = 0 := by
          rw [List.count_eq_zero, lineFeed_mem_encode_iff]
          exact hc
        simp [hnone, hc]

/-! ### Lines of bytes -/

theorem behindLast_append (h : lineFeed ∉ ds) : behindLast (bs ++ ds) = behindLast bs ++ ds := by
  have hkeep : ∀ b ∈ ds.reverse, decide (b ≠ lineFeed) = true := by
    intro b hb
    have hmem : b ∈ ds := List.mem_reverse.1 hb
    simpa using ne_of_mem_of_not_mem hmem h
  rw [behindLast, List.reverse_append, List.takeWhile_append_of_pos hkeep, List.reverse_append,
    List.reverse_reverse]
  rfl

theorem throughFirst_append (h : lineFeed ∉ bs) :
    throughFirst (bs ++ ds) = bs ++ throughFirst ds := by
  induction bs with
  | nil => rfl
  | cons b bs ih =>
      rw [List.mem_cons, not_or] at h
      rw [List.cons_append, throughFirst, if_neg (Ne.symm h.1), ih h.2]
      rfl

theorem behindLast_flatMap (cs : List Char) :
    behindLast (cs.flatMap String.utf8EncodeChar) =
      (lastLine cs).flatMap String.utf8EncodeChar := by
  -- on the last character, which is where a line is begun or continued
  induction cs using List.reverseRecOn with
  | nil => rfl
  | append_singleton cs c ih =>
      rw [List.flatMap_append, List.flatMap_singleton]
      by_cases hc : c = '\n'
      · subst hc
        rw [encode_newline, lastLine_append_newline_append]
        simp [behindLast]
      · have hmem : lineFeed ∉ String.utf8EncodeChar c := by
          rwa [lineFeed_mem_encode_iff]
        have hkeep : '\n' ∉ [c] := by simpa using Ne.symm hc
        rw [behindLast_append hmem, ih, lastLine_append cs hkeep, List.flatMap_append,
          List.flatMap_singleton]

theorem throughFirst_flatMap (cs : List Char) :
    throughFirst (cs.flatMap String.utf8EncodeChar) =
      (firstLine cs).flatMap String.utf8EncodeChar := by
  induction cs with
  | nil => rfl
  | cons c cs ih =>
      rw [List.flatMap_cons, firstLine]
      by_cases hc : c = '\n'
      · subst hc
        rw [encode_newline, if_pos rfl, List.flatMap_singleton, encode_newline]
        rfl
      · have hmem : lineFeed ∉ String.utf8EncodeChar c := by
          rwa [lineFeed_mem_encode_iff]
        rw [if_neg hc, throughFirst_append hmem, ih, List.flatMap_cons]

/-! ### Places -/

/-- A place that is not behind the end is in front of a character or inside one. -/
theorem exists_withinNext {offset : Nat} (h : offset ≤ byteLength cs) :
    ∃ before after k, cs = before ++ after ∧ offset = byteLength before + k ∧
      WithinNext k after := by
  induction cs generalizing offset with
  | nil =>
      have hzero : offset = 0 := Nat.le_zero.1 h
      exact ⟨[], [], 0, rfl, hzero, .inl rfl⟩
  | cons c cs ih =>
      by_cases hlt : offset < c.utf8Size
      · exact ⟨[], c :: cs, offset, rfl, (Nat.zero_add _).symm, .inr ⟨c, cs, rfl, hlt⟩⟩
      · rw [byteLength] at h
        have hle : offset - c.utf8Size ≤ byteLength cs := by omega
        obtain ⟨before, after, k, rfl, hoffset, hk⟩ := ih hle
        refine ⟨c :: before, after, k, rfl, ?_, hk⟩
        rw [byteLength]
        omega

/-- The bytes on both sides of a place: whole characters and the part of one that has no line feed
in it, and then the rest. -/
theorem WithinNext.split (hk : WithinNext k after) (before : List Char) :
    ∃ part rest, after.flatMap String.utf8EncodeChar = part ++ rest ∧ lineFeed ∉ part ∧
      part.length = k ∧
      ((before ++ after).flatMap String.utf8EncodeChar).take (byteLength before + k) =
        before.flatMap String.utf8EncodeChar ++ part ∧
      ((before ++ after).flatMap String.utf8EncodeChar).drop (byteLength before + k) = rest := by
  let part := (after.flatMap String.utf8EncodeChar).take k
  let rest := (after.flatMap String.utf8EncodeChar).drop k
  have hlength := length_flatMap_encode before
  refine ⟨part, rest, (List.take_append_drop k _).symm, ?_, ?_, ?_, ?_⟩
  · rcases hk with rfl | ⟨c, cs, rfl, hlt⟩
    · simp [part]
    · have htake : part = (String.utf8EncodeChar c).take k := by
        have hle : k ≤ (String.utf8EncodeChar c).length := by
          rw [String.length_utf8EncodeChar]
          omega
        simp only [part, List.flatMap_cons, List.take_append_of_le_length hle]
      rw [htake]
      exact lineFeed_not_mem_take hlt
  · have hle : k ≤ (after.flatMap String.utf8EncodeChar).length := by
      rw [length_flatMap_encode]
      rcases hk with rfl | ⟨c, cs, rfl, hlt⟩
      · omega
      · rw [byteLength]
        omega
    exact List.length_take_of_le hle
  · rw [List.flatMap_append, ← hlength, List.take_length_add_append]
  · rw [List.flatMap_append, ← hlength, List.drop_length_add_append]

end

/-- The line of a place is told from the bytes: behind the end there is none, and otherwise its number
is that of the line feeds in front of the place, it starts behind the last of them, and it goes on
through the next one or to the end. -/
theorem lineAt?_bytes (content : String) (offset : Nat) :
    match lineAt? content.toList offset with
    | none => (bytes content).length < offset
    | some place =>
      offset ≤ (bytes content).length ∧
        place.number = 1 + ((bytes content).take offset).count lineFeed ∧
        place.offset = (behindLast ((bytes content).take offset)).length ∧
        bytes (.ofList place.text) =
          behindLast ((bytes content).take offset) ++
            throughFirst ((bytes content).drop offset) := by
  have hlength : (bytes content).length = byteLength content.toList := by
    rw [bytes_eq_flatMap, length_flatMap_encode]
  by_cases hle : offset ≤ byteLength content.toList
  · -- The place may be inside a character.  The part in front of the place has no line feed, so it
    -- belongs to the line whichever side it is counted on.
    obtain ⟨before, after, k, hcontent, rfl, hk⟩ := exists_withinNext hle
    obtain ⟨part, rest, hafter, hpart, hpartLength, htake, hdrop⟩ := hk.split before
    have hfirst : throughFirst (part ++ rest) =
        (firstLine after).flatMap String.utf8EncodeChar := by
      rw [← hafter, throughFirst_flatMap]
    rw [hlength, bytes_eq_flatMap, hcontent, htake, hdrop, lineAt?_append hk]
    simp only
    refine ⟨hcontent ▸ hle, ?_, ?_, ?_⟩
    · rw [List.count_append, count_lineFeed, List.count_eq_zero_of_not_mem hpart, Nat.add_zero]
    · rw [behindLast_append hpart, behindLast_flatMap, List.length_append, length_flatMap_encode,
        hpartLength]
    · rw [bytes_ofList, List.flatMap_append, behindLast_append hpart, behindLast_flatMap, ← hfirst,
        throughFirst_append hpart, List.append_assoc]
  · have hlt : byteLength content.toList < offset := Nat.lt_of_not_le hle
    rw [lineAt?_eq_none_iff.2 hlt, hlength]
    exact hlt

/-- Inside the only character of the first line, and behind its line feed. -/
example :
    lineAt? "é\n".toList 1 = some ⟨1, ['é', '\n'], 1⟩ ∧ lineAt? "é\n".toList 3 = some ⟨2, [], 0⟩ := by
  decide

end ScriptFrontend.Text
