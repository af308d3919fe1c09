/-!
Whole numbers written in decimal, as far as they fit a word of 32 bits.
-/

namespace ScriptFrontend.Text.Decimal

def value (digits : List Char) : Nat :=
  digits.foldl (fun n c => 10 * n + (c.toNat - '0'.toNat)) 0

/-- The digits of a number that may start with a plus sign. -/
def digits? (cs : List Char) : Option (List Char) :=
  let ds :=
    match cs with
    | '+' :: ds => ds
    | ds => ds
  if ds ≠ [] ∧ ds.all Char.isDigit then some ds else none

/-- The number that a text stands for; none if it is no whole number or takes more than a word. -/
def word? (cs : List Char) : Option UInt32 := do
  let n := value (← digits? cs)
  if h : n < UInt32.size then some (UInt32.ofNatLT n h) else none

theorem value_toDigits (n : Nat) : value (Nat.toDigits 10 n) = n := by
  rw [value, ← Nat.ofDigitChars_eq_foldl]
  exact Nat.ofDigitChars_ten_toDigits

theorem digits?_of_all {cs : List Char} (hne : cs ≠ []) (h : ∀ c ∈ cs, c.isDigit) :
    digits? cs = some cs := by
  cases cs with
  | nil => exact (hne rfl).elim
  | cons c cs =>
    have hc : c ≠ '+' := by
      rintro rfl
      cases h '+' (List.mem_cons_self ..)
    rw [digits?]
    · exact if_pos ⟨hne, List.all_eq_true.2 h⟩
    · exact fun ds hds => hc (List.cons.inj hds).1

theorem isDigit_of_mem_toString {n : Nat} {c : Char} (h : c ∈ (toString n).toList) :
    c.isDigit := by
  rw [Nat.toString_eq_ofList_toDigits, String.toList_ofList] at h
  exact Nat.isDigit_of_mem_toDigits (by decide) (by decide) h

theorem toList_toString_ne_nil (n : Nat) : (toString n).toList ≠ [] := by
  rw [Nat.toString_eq_ofList_toDigits, String.toList_ofList]
  exact Nat.toDigits_ne_nil

/-- The digits of a word are read back as the word. -/
theorem word?_toString (n : UInt32) : word? (toString n.toNat).toList = some n := by
  have hdigits := digits?_of_all (toList_toString_ne_nil n.toNat) fun _ => isDigit_of_mem_toString
  have hvalue : value (toString n.toNat).toList = n.toNat := by
    rw [Nat.toString_eq_ofList_toDigits, String.toList_ofList, value_toDigits]
  simp only [word?, hdigits, hvalue, Option.bind_eq_bind, Option.bind_some]
  rw [dif_pos n.toNat_lt]
  exact congrArg some (UInt32.toNat_inj.1 rfl)

end ScriptFrontend.Text.Decimal
