import Mathlib.Data.List.Basic

/-!
# Numerals

A number is determined by its digits, in every base up to sixteen (`toDigits_injective`).  It is
also determined by a text that ends with a separator and the number, whatever stands before the
separator (`append_cons_inj_right`); the decimal digits contain no such separator
(`not_mem_toDigits`).
-/

namespace Numerals

variable {b n m : ℕ}

/-- The sixteen digits are different characters. -/
lemma digitChar_inj (hn : n < 16) (hm : m < 16) (h : n.digitChar = m.digitChar) : n = m := by
  have hall : ∀ i j : Fin 16, i.val.digitChar = j.val.digitChar → i.val = j.val := by decide
  exact hall ⟨n, hn⟩ ⟨m, hm⟩ h

/-- One digit is fewer than the digits of a larger number. -/
lemma toDigits_ne_singleton (hb : 1 < b) (hn : b ≤ n) (c : Char) : Nat.toDigits b n ≠ [c] := by
  intro h
  have hlength := congrArg List.length h
  have hpos := @Nat.length_toDigits_pos b (n / b)
  rw [Nat.toDigits_of_base_le hb hn, List.length_append] at hlength
  simp only [List.length_singleton] at hlength
  omega

/-- A number is determined by its digits. -/
theorem toDigits_injective (hb : 1 < b) (hb' : b ≤ 16) : Function.Injective (Nat.toDigits b) := by
  intro n
  induction n using Nat.strongRecOn with
  | ind n ih =>
    intro m h
    rcases Nat.lt_or_ge n b with hn | hn <;> rcases Nat.lt_or_ge m b with hm | hm
    · rw [Nat.toDigits_of_lt_base hn, Nat.toDigits_of_lt_base hm] at h
      exact digitChar_inj (by omega) (by omega) (List.singleton_inj.mp h)
    · rw [Nat.toDigits_of_lt_base hn] at h
      exact absurd h.symm (toDigits_ne_singleton hb hm _)
    · rw [Nat.toDigits_of_lt_base hm] at h
      exact absurd h (toDigits_ne_singleton hb hn _)
    · rw [Nat.toDigits_of_base_le hb hn, Nat.toDigits_of_base_le hb hm] at h
      obtain ⟨hinit, hlast⟩ := List.append_inj' h rfl
      have hdiv : n / b = m / b := ih (n / b) (Nat.div_lt_self (by omega) hb) hinit
      have hn' : n % b < b := Nat.mod_lt n (by omega)
      have hm' : m % b < b := Nat.mod_lt m (by omega)
      have hmod : n % b = m % b :=
        digitChar_inj (by omega) (by omega) (List.singleton_inj.mp hlast)
      rw [← Nat.div_add_mod n b, ← Nat.div_add_mod m b, hdiv, hmod]

/-- Decimal digits contain nothing else. -/
lemma not_mem_toDigits {c : Char} (hc : c.isDigit = false) (n : ℕ) : c ∉ Nat.toDigits 10 n := by
  intro hmem
  have hdigit := Nat.isDigit_of_mem_toDigits (by decide) (by decide) hmem
  exact absurd (hc.symm.trans hdigit) (by decide)

/-- What follows the last separator, and what precedes it, are determined by the text. -/
lemma append_cons_inj_right {α : Type*} {c : α} {xs ys ds es : List α} (hds : c ∉ ds) (hes : c ∉ es)
    (h : xs ++ c :: ds = ys ++ c :: es) : xs = ys ∧ ds = es := by
  rcases List.append_eq_append_iff.mp h with ⟨zs, rfl, hzs⟩ | ⟨zs, rfl, hzs⟩
  · cases zs with
    | nil => exact ⟨(List.append_nil xs).symm, List.cons_inj_right c |>.mp hzs⟩
    | cons z zs =>
      -- the separator would occur among the digits
      obtain ⟨-, rfl⟩ := List.cons.inj hzs
      exact absurd (by simp) hds
  · cases zs with
    | nil => exact ⟨List.append_nil ys, (List.cons_inj_right c |>.mp hzs).symm⟩
    | cons z zs =>
      obtain ⟨-, rfl⟩ := List.cons.inj hzs
      exact absurd (by simp) hes

end Numerals
