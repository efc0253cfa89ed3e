import Mathlib.Tactic.Common

/-!
# Names with a number

A name followed by the decimal digits of a number, with nothing between the two. Two such names are
the same exactly if one of the names ends in digits that the other one's number starts with
(`numbered_eq_iff`), which numbers of one digit never do (`not_digits_suffix_of_lt_ten`).
-/

namespace Numbered

theorem toList_toString (n : Nat) : (toString n).toList = Nat.toDigits 10 n := by
  rw [Nat.toString_eq_ofList_toDigits, String.toList_ofList]

theorem toString_inj {m n : Nat} (h : toString m = toString n) : m = n := by
  have hd := congrArg (fun s : String => Nat.ofDigitChars 10 s.toList 0) h
  simpa [toList_toString] using hd

/-- The number that is read off digits is at least that of its last ones. -/
theorem le_of_digits_suffix {m n : Nat} {t : List Char}
    (h : Nat.toDigits 10 n = t ++ Nat.toDigits 10 m) : m ≤ n := by
  have hd := congrArg (fun cs => Nat.ofDigitChars 10 cs 0) h
  simp only [Nat.ofDigitChars_append, Nat.ofDigitChars_ten_toDigits] at hd
  rw [Nat.ofDigitChars_eq_ofDigitChars_zero, Nat.ofDigitChars_ten_toDigits] at hd
  omega

/-- The longer number has the digits of the shorter one at its end, the name that goes with the
shorter one the digits that are left. -/
theorem numbered_eq_iff {a b : String} {m n : Nat} (hmn : m < n) :
    a ++ toString m = b ++ toString n ↔
      ∃ t, t ≠ "" ∧ toString n = t ++ toString m ∧ a = b ++ t := by
  constructor
  · intro h
    have hl := congrArg String.toList h
    rw [String.toList_append, String.toList_append, List.append_eq_append_iff] at hl
    rcases hl with ⟨t, -, ht⟩ | ⟨t, ha, ht⟩
    · rw [toList_toString, toList_toString] at ht
      have := le_of_digits_suffix ht
      omega
    · refine ⟨String.ofList t, fun hnil => ?_, ?_, ?_⟩
      · obtain rfl : t = [] := by simpa using hnil
        rw [List.nil_append, String.toList_inj] at ht
        have := toString_inj ht
        omega
      · rw [← String.toList_inj, String.toList_append, String.toList_ofList, ht]
      · rw [← String.toList_inj, String.toList_append, String.toList_ofList, ha]
  · intro h
    obtain ⟨t, -, ht, rfl⟩ := h
    rw [ht, String.append_assoc]

/-- A number of one digit does not end in another one's. -/
theorem not_digits_suffix_of_lt_ten {m n : Nat} (hn : n < 10) {t : String} (hne : t ≠ "") :
    toString n ≠ t ++ toString m := by
  intro h
  have hl := congrArg (fun s : String => s.toList.length) h
  simp only [String.toList_append, List.length_append, toList_toString] at hl
  have h1 : (Nat.toDigits 10 n).length = 1 := by
    rw [Nat.toDigits_of_lt_base hn]
    rfl
  have h2 : 0 < (Nat.toDigits 10 m).length := Nat.length_toDigits_pos
  have h3 : 0 < t.toList.length := List.length_pos_iff.2 fun hnil => hne (by simpa using hnil)
  omega

end Numbered
