import Mathlib.Algebra.Group.Nat.Defs
import Mathlib.Data.List.Induction
import ScriptFrontend.Proofs.FirstRule
import ScriptFrontend.Text.Decimal

/-!
Numerals and the numbers that they denote.

A text denotes a whole number if it is the decimal of the number behind any number of zeros.  Every
text of digits denotes exactly one number, however long it is, and the value that is read from left
to right is that number.  So a text is read as a word exactly if it denotes one.  A numeral with a
fraction denotes nothing.
-/

namespace ScriptFrontend.Text.Decimal

variable {cs ds : List Char} {c : Char} {n : Nat}

/-- The text is the decimal of the number, with any number of zeros in front of it. -/
def Denotes (cs : List Char) (n : Nat) : Prop :=
  ∃ zeros, cs = List.replicate zeros '0' ++ (toString n).toList

theorem value_append (cs ds : List Char) :
    value (cs ++ ds) = 10 ^ ds.length * value cs + value ds := by
  simp only [value, ← Nat.ofDigitChars_eq_foldl]
  rw [Nat.ofDigitChars_append, Nat.ofDigitChars_eq_ofDigitChars_zero]

/-- A text denotes one number at most, which is its value. -/
theorem Denotes.value_eq (h : Denotes cs n) : value cs = n := by
  obtain ⟨zeros, rfl⟩ := h
  have hzeros : value (List.replicate zeros '0') = 0 := by
    rw [value, ← Nat.ofDigitChars_eq_foldl, Nat.ofDigitChars_replicate_zero, Nat.mul_zero]
  rw [value_append, hzeros, Nat.mul_zero, Nat.zero_add, Nat.toString_eq_ofList_toDigits,
    String.toList_ofList, value_toDigits]

theorem Denotes.ne_nil (h : Denotes cs n) : cs ≠ [] := by
  obtain ⟨zeros, rfl⟩ := h
  exact List.append_ne_nil_of_right_ne_nil _ (toList_toString_ne_nil n)

theorem Denotes.isDigit (h : Denotes cs n) : ∀ c ∈ cs, c.isDigit := by
  obtain ⟨zeros, rfl⟩ := h
  rw [List.forall_mem_append]
  refine ⟨fun c hc => ?_, fun c => isDigit_of_mem_toString⟩
  rw [List.eq_of_mem_replicate hc]
  rfl

/-- A digit is the decimal of its value. -/
theorem toList_toString_of_isDigit (hc : c.isDigit) : (toString (value [c])).toList = [c] := by
  rw [Rule.isDigit_iff] at hc
  have hvalue : value [c] = c.toNat - 48 := by
    simp [value]
  have hlt : c.toNat - 48 < 10 := by omega
  rw [hvalue, Nat.toString_eq_ofList_toDigits, String.toList_ofList, Nat.toDigits_of_lt_base hlt]
  have hchar : (c.toNat - 48).digitChar = c := by
    rw [← Char.toNat_inj, Nat.toNat_digitChar_of_lt_ten hlt]
    omega
  rw [hchar]

/-- Digits denote their value.  One more digit stands behind the decimal of the value so far, unless
that is zero: then its zero is one more of those in front. -/
theorem denotes_value (hne : cs ≠ []) (h : ∀ c ∈ cs, c.isDigit) : Denotes cs (value cs) := by
  induction cs using List.reverseRecOn with
  | nil => exact (hne rfl).elim
  | append_singleton cs c ih =>
      rw [List.forall_mem_append, List.forall_mem_singleton] at h
      have hdigit := toList_toString_of_isDigit h.2
      have hlt : value [c] < 10 := by
        have hc := Rule.isDigit_iff.1 h.2
        simp [value]
        omega
      by_cases hcs : cs = []
      · subst hcs
        exact ⟨0, hdigit.symm⟩
      · obtain ⟨zeros, hzeros⟩ := ih hcs h.1
        rw [value_append, List.length_singleton, Nat.pow_one]
        rcases Nat.eq_zero_or_pos (value cs) with hzero | hpos
        · rw [hzero] at hzeros
          rw [hzero, Nat.mul_zero, Nat.zero_add]
          refine ⟨zeros + 1, ?_⟩
          rw [hdigit, hzeros, List.replicate_succ']
          rfl
        · refine ⟨zeros, ?_⟩
          have happend := Nat.toDigits_append_toDigits (b := 10) (by decide) hpos hlt
          simp only [Nat.toString_eq_ofList_toDigits, String.toList_ofList] at hzeros hdigit ⊢
          rw [← happend, hdigit, ← List.append_assoc, ← hzeros]

theorem digits?_eq_some_iff :
    digits? cs = some ds ↔ (cs = ds ∨ cs = '+' :: ds) ∧ ds ≠ [] ∧ ∀ c ∈ ds, c.isDigit := by
  constructor
  · intro h
    have hpart : ∃ es, (cs = es ∨ cs = '+' :: es) ∧ digits? cs =
        if es ≠ [] ∧ es.all Char.isDigit then some es else none := by
      by_cases hplus : ∃ es, cs = '+' :: es
      · obtain ⟨es, rfl⟩ := hplus
        exact ⟨es, .inr rfl, rfl⟩
      · refine ⟨cs, .inl rfl, ?_⟩
        rw [digits?]
        exact fun es h => hplus ⟨es, h⟩
    obtain ⟨es, hes, heq⟩ := hpart
    rw [heq, Option.ite_none_right_eq_some] at h
    obtain ⟨⟨hne, hall⟩, hds⟩ := h
    cases hds
    exact ⟨hes, hne, List.all_eq_true.1 hall⟩
  · rintro ⟨rfl | rfl, hne, hall⟩
    · exact digits?_of_all hne hall
    · exact if_pos ⟨hne, List.all_eq_true.2 hall⟩

/-- Digits are read as the word that is their value. -/
theorem word?_eq_some_iff_value {n : UInt32} :
    word? cs = some n ↔ ∃ ds, digits? cs = some ds ∧ value ds = n.toNat := by
  rw [word?, Option.bind_eq_bind, Option.bind_eq_some_iff]
  refine exists_congr fun ds => and_congr_right fun _ => ?_
  show (if h : value ds < UInt32.size then some (UInt32.ofNatLT _ h) else none) = some n ↔ _
  split
  next hlt =>
    rw [Option.some.injEq, ← UInt32.toNat_inj]
    rfl
  next hlarge =>
    have hn : n.toNat < UInt32.size := n.toNat_lt
    refine ⟨fun h => ?_, fun hvalue => absurd (hvalue ▸ hn) hlarge⟩
    cases h

/-- A text is read as the word that its digits denote; a plus sign may stand in front of them. -/
theorem word?_eq_some_iff {n : UInt32} :
    word? cs = some n ↔ ∃ ds, (cs = ds ∨ cs = '+' :: ds) ∧ Denotes ds n.toNat := by
  rw [word?_eq_some_iff_value]
  refine exists_congr fun ds => ?_
  rw [digits?_eq_some_iff, and_assoc]
  refine and_congr_right fun _ => ⟨?_, fun h => ⟨⟨h.ne_nil, h.isDigit⟩, h.value_eq⟩⟩
  rintro ⟨⟨hne, hall⟩, hvalue⟩
  exact hvalue ▸ denotes_value hne hall

/-! ### Numerals -/

/-- A numeral is read as the word that it denotes. -/
theorem word?_numeral {n : UInt32} (h : Rule.IsNumeral cs) :
    word? cs = some n ↔ Denotes cs n.toNat := by
  rw [word?_eq_some_iff]
  constructor
  · rintro ⟨ds, rfl | rfl, hds⟩
    · exact hds
    · obtain ⟨c, _, _, heq, hc, -⟩ := h
      cases heq
      cases hc
  · exact fun h => ⟨cs, .inl rfl, h⟩

/-- A numeral denotes a number exactly if it has no fraction. -/
theorem exists_denotes_iff (h : Rule.IsNumeral cs) : (∃ n, Denotes cs n) ↔ '.' ∉ cs := by
  constructor
  · rintro ⟨n, hn⟩ hpoint
    cases hn.isDigit _ hpoint
  · intro hpoint
    obtain ⟨c, ds, fs, rfl, hc, hds, rfl | ⟨e, gs, rfl, -⟩⟩ := h
    · rw [List.append_nil]
      exact ⟨_, denotes_value (List.cons_ne_nil c ds) (List.forall_mem_cons.2 ⟨hc, hds⟩)⟩
    · simp at hpoint

/-- The greatest word, behind two zeros. -/
example : word? "004294967295".toList = some 4294967295 ∧ word? "4294967296".toList = none := by
  decide

end ScriptFrontend.Text.Decimal
