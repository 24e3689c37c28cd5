import Mathlib.Tactic.Linarith
import Mathlib.Tactic.LinearCombination
import Mathlib.Tactic.Positivity
import Mathlib.Tactic.Ring
import InstaX.Foundation.FixedWidth

/-!
# Double-width products and quotients

A machine multiplies two words to a double word, and divides a double word by a word.  This file
compares these with the operations on single words that are wider than the operands, and hold
something else above them.

The unsigned and the signed product of two words differ by a multiple of the modulus
(`toNat_mul_toNat`).  With it, the wide product (`dvd_sub_iff`), the unsigned quotient
(`div_mod_eq_iff`) and the signed quotient (`tdiv_tmod_eq_iff`) of a word `h * 2 ^ w + a` are those
of the double word exactly if the upper part `h` solves one equation.
-/

namespace DoubleWidth

variable {w : ℕ}

/-! ## Signed and unsigned readings -/

/-- One for a negative integer: how many moduli its unsigned reading is above it. -/
def wraps (z : ℤ) : ℤ := if z < 0 then 1 else 0

/-- The unsigned reading of a word. -/
lemma toNat_eq_toInt_add (x : BitVec w) : (x.toNat : ℤ) = x.toInt + wraps x.toInt * 2 ^ w := by
  have hlt : (x.toNat : ℤ) < 2 ^ w := by exact_mod_cast x.isLt
  rw [wraps, BitVec.toInt_eq_msb_cond]
  cases x.msb with
  | true => simp [hlt]
  | false => simp

/-- How much the unsigned product of two words exceeds the signed one, in units of the modulus. -/
def signExcess (x y : BitVec w) : ℤ := wraps x.toInt * y.toNat + wraps y.toInt * x.toInt

/-- The unsigned product, from the signed one. -/
lemma toNat_mul_toNat (x y : BitVec w) :
    (x.toNat : ℤ) * y.toNat = x.toInt * y.toInt + signExcess x y * 2 ^ w := by
  have hy := toNat_eq_toInt_add y
  calc (x.toNat : ℤ) * y.toNat
      = x.toInt * y.toNat + wraps x.toInt * y.toNat * 2 ^ w := by rw [toNat_eq_toInt_add x]; ring
    _ = x.toInt * (y.toInt + wraps y.toInt * 2 ^ w) + wraps x.toInt * y.toNat * 2 ^ w := by
        rw [← hy]
    _ = x.toInt * y.toInt + signExcess x y * 2 ^ w := by rw [signExcess]; ring

/-- The size of a word and of its unsigned reading: together at most the modulus. -/
lemma natAbs_toInt_le (x : BitVec w) :
    (x.toInt.natAbs : ℤ) ≤ x.toNat ∧ (x.toNat : ℤ) + x.toInt.natAbs ≤ 2 ^ w := by
  have hlo := BitVec.two_mul_toInt_lt (x := x)
  have hhi := BitVec.le_two_mul_toInt (x := x)
  have heq := toNat_eq_toInt_add x
  unfold wraps at heq
  split_ifs at heq <;> omega

/-- A number below the modulus is read back from a word. -/
lemma toNat_ofInt_of_lt {z : ℤ} (h0 : 0 ≤ z) (hlt : z < 2 ^ w) :
    ((BitVec.ofInt w z).toNat : ℤ) = z := by
  rw [BitVec.toNat_ofInt]
  push_cast
  rw [Int.emod_eq_of_lt h0 hlt]
  omega

/-- A word that is not zero has bits. -/
lemma width_pos_of_ne_zero {b : BitVec w} (hb : b ≠ 0) : 0 < w := by
  by_contra hw
  obtain rfl : w = 0 := by omega
  exact hb (Subsingleton.elim b 0)

/-- A remainder is smaller than the word it was divided by. -/
lemma natAbs_tmod_lt (z : ℤ) {b : BitVec w} (hb : b ≠ 0) :
    (z.tmod b.toInt).natAbs < b.toInt.natAbs := by
  have hne : b.toInt ≠ 0 := fun h => hb (BitVec.toInt_inj.mp (by simpa using h))
  rw [Int.natAbs_tmod]
  exact Nat.mod_lt _ (Int.natAbs_pos.mpr hne)

/-- So it is read back from a word. -/
lemma toInt_ofInt_tmod (z : ℤ) {b : BitVec w} (hb : b ≠ 0) :
    (BitVec.ofInt w (z.tmod b.toInt)).toInt = z.tmod b.toInt := by
  have hw := width_pos_of_ne_zero hb
  have hpow : (2 : ℤ) ^ w = 2 * 2 ^ (w - 1) := by rw [← pow_succ', Nat.sub_add_cancel hw]
  have habs := natAbs_tmod_lt z hb
  have hle := natAbs_toInt_le b
  exact BitVec.toInt_ofInt_eq_self hw (by omega) (by omega)

/-! ## Products -/

/-- The signed product of two words is at most a quarter of the range of a double word. -/
lemma four_mul_abs_mul_le (a b : BitVec w) : 4 * |a.toInt * b.toInt| ≤ 2 ^ w * 2 ^ w := by
  have ha := natAbs_toInt_le a
  have hb := natAbs_toInt_le b
  have hmul : (2 * |a.toInt|) * (2 * |b.toInt|) ≤ 2 ^ w * 2 ^ w := by
    rw [Int.abs_eq_natAbs, Int.abs_eq_natAbs]
    exact mul_le_mul (by omega) (by omega) (by omega) (by positivity)
  rw [abs_mul]
  linarith

/-- An integer vanishes in a word exactly if the modulus divides it. -/
lemma ofInt_eq_zero_iff (z : ℤ) : BitVec.ofInt w z = 0 ↔ (2 : ℤ) ^ w ∣ z := by
  have hpos : (0 : ℤ) < 2 ^ w := by positivity
  have hnonneg := Int.emod_nonneg z hpos.ne'
  rw [← BitVec.toNat_inj, BitVec.toNat_ofInt, Int.dvd_iff_emod_eq_zero]
  push_cast
  simp only [BitVec.ofNat_eq_ofNat, BitVec.toNat_ofNat, Nat.zero_mod]
  omega

/-- The high half of a signed product is zero exactly if the low half reads as the product. -/
lemma ofInt_div_eq_zero_iff (a b : BitVec w) :
    BitVec.ofInt w (a.toInt * b.toInt / 2 ^ w) = 0 ↔
      0 ≤ a.toInt * b.toInt ∧ a.toInt * b.toInt < 2 ^ w := by
  have hpos : (0 : ℤ) < 2 ^ w := by positivity
  have hsize := four_mul_abs_mul_le a b
  set z := a.toInt * b.toInt with hz
  obtain ⟨hlo, hhi⟩ : -(2 ^ w * 2 ^ w) ≤ 4 * z ∧ 4 * z ≤ 2 ^ w * 2 ^ w := by
    have := abs_le.mp (le_refl |z|)
    constructor <;> linarith
  rw [ofInt_eq_zero_iff]
  constructor
  · rintro ⟨k, hk⟩
    have hle := Int.ediv_mul_le z hpos.ne'
    have hlt := Int.lt_ediv_add_one_mul_self z hpos
    rw [hk] at hle hlt
    -- a double word is too small for another multiple of the modulus
    obtain rfl : k = 0 := by
      rcases lt_trichotomy k 0 with hneg | rfl | hposk
      · nlinarith
      · rfl
      · nlinarith
    constructor <;> linarith
  · rintro ⟨h0, hlt⟩
    rw [Int.ediv_eq_zero_of_lt h0 hlt]
    exact dvd_zero _

/-- The product of the word `h * 2 ^ w + a` and `b` is the signed product of `a` and `b`, below
`k * 2 ^ w`, in a word of width `n`. -/
lemma dvd_sub_iff {n : ℕ} (hn : w ≤ n) (h k : ℤ) (a b : BitVec w) :
    (2 : ℤ) ^ n ∣ (h * 2 ^ w + a.toNat) * b.toNat - (k * 2 ^ w + a.toInt * b.toInt) ↔
      2 ^ (n - w) ∣ h * b.toNat - k + signExcess a b := by
  have hsplit : (h * 2 ^ w + a.toNat) * b.toNat - (k * 2 ^ w + a.toInt * b.toInt) =
      2 ^ w * (h * b.toNat - k + signExcess a b) := by
    linear_combination toNat_mul_toNat a b
  have hpow : (2 : ℤ) ^ n = 2 ^ w * 2 ^ (n - w) := by rw [← pow_add, Nat.add_sub_cancel' hn]
  rw [hsplit, hpow]
  exact mul_dvd_mul_iff_left (by positivity)

/-! ## Quotients -/

/-- Quotient and remainder of `h * M + a` are those of `d * M + a`, below `k * M` and `l * M`. -/
lemma div_mod_eq_iff {M h a d k l b q r : ℕ} (hb : b < M) (hr : r < b)
    (hdiv : q * b + r = d * M + a) :
    (h * M + a) / b = k * M + q ∧ (h * M + a) % b = l * M + r ↔ l = 0 ∧ h = k * b + d := by
  have hM : 0 < M := by omega
  have hrem : l * M + r < b ↔ l = 0 := by
    constructor
    · intro hlt
      by_contra hl
      have hle := Nat.le_mul_of_pos_left M (Nat.pos_of_ne_zero hl)
      omega
    · rintro rfl
      omega
  have hsum : r + b * (k * M + q) = h * M + a ↔ h = k * b + d := by
    have heq : r + b * (k * M + q) = (k * b + d) * M + a := by
      linear_combination hdiv
    rw [heq, Nat.add_right_cancel_iff, Nat.mul_left_inj hM.ne', eq_comm]
  rw [Nat.div_mod_unique (by omega), hrem]
  constructor
  · rintro ⟨heq, rfl⟩
    exact ⟨rfl, hsum.mp (by simpa using heq)⟩
  · rintro ⟨rfl, heq⟩
    exact ⟨by simpa using hsum.mpr heq, rfl⟩

/-- A remainder of the signed operand that is read at a wider word, above `l * 2 ^ w`, is one of the
unsigned operand exactly if it is the same number. -/
lemma natAbs_lt_iff {b r : BitVec w} (hr : r.toInt.natAbs < b.toInt.natAbs) (l : ℤ) :
    ((l * 2 ^ w + r.toNat).natAbs : ℤ) < b.toNat ↔ l = -wraps r.toInt := by
  obtain ⟨hle, hsum⟩ := natAbs_toInt_le b
  have hread : l * 2 ^ w + r.toNat = r.toInt + (l + wraps r.toInt) * 2 ^ w := by
    linear_combination toNat_eq_toInt_add r
  rw [hread]
  constructor
  · intro hlt
    by_contra hl
    have hne : l + wraps r.toInt ≠ 0 := by omega
    have hbig : (2 : ℤ) ^ w ≤ |(l + wraps r.toInt) * 2 ^ w| := by
      rw [abs_mul, abs_of_pos (by positivity : (0 : ℤ) < 2 ^ w)]
      exact le_mul_of_one_le_left (by positivity) (Int.one_le_abs hne)
    rw [Int.abs_eq_natAbs] at hbig
    omega
  · rintro rfl
    simp only [neg_add_cancel, zero_mul, add_zero]
    omega

/-- Quotient and remainder of `h * 2 ^ w + a` by the unsigned operand are those of the double word
`d * 2 ^ w + a` by the signed one, above `k * 2 ^ w` and `l * 2 ^ w`. -/
lemma tdiv_tmod_eq_iff {h a d k l : ℤ} {b q r : BitVec w} (hr : r.toInt.natAbs < b.toInt.natAbs)
    (hdiv : q.toInt * b.toInt + r.toInt = d * 2 ^ w + a) :
    (h * 2 ^ w + a).tdiv b.toNat = k * 2 ^ w + q.toNat ∧
        (h * 2 ^ w + a).tmod b.toNat = l * 2 ^ w + r.toNat ↔
      l = -wraps r.toInt ∧ (0 ≤ h * 2 ^ w + a → 0 ≤ r.toInt) ∧ (h * 2 ^ w + a < 0 → r.toInt ≤ 0) ∧
        h = k * b.toNat + d + signExcess q b := by
  have hb : (b.toNat : ℤ) ≠ 0 := by
    have := natAbs_toInt_le b
    omega
  have hread : l = -wraps r.toInt → l * 2 ^ w + r.toNat = r.toInt := by
    rintro rfl
    linear_combination toNat_eq_toInt_add r
  have hsum : r.toInt + b.toNat * (k * 2 ^ w + q.toNat) = h * 2 ^ w + a ↔
      h = k * b.toNat + d + signExcess q b := by
    have heq : r.toInt + b.toNat * (k * 2 ^ w + q.toNat) =
        (k * b.toNat + d + signExcess q b) * 2 ^ w + a := by
      linear_combination hdiv + toNat_mul_toNat q b
    rw [heq, add_left_inj, mul_left_inj' (by positivity), eq_comm]
  have hproper := natAbs_lt_iff hr l
  rcases lt_or_ge (h * 2 ^ w + a) 0 with hneg | hpos
  · rw [Int.tdiv_tmod_unique' hneg.le hb]
    constructor
    · rintro ⟨heq, hlo, hhi⟩
      have hl := hproper.mp (by omega)
      rw [hread hl] at heq hhi
      exact ⟨hl, fun h0 => absurd hneg (not_lt.mpr h0), fun _ => hhi, hsum.mp heq⟩
    · rintro ⟨hl, -, hsign, heq⟩
      have hlt := hproper.mpr hl
      rw [hread hl] at hlt ⊢
      exact ⟨hsum.mpr heq, by omega, hsign hneg⟩
  · rw [Int.tdiv_tmod_unique hpos hb]
    constructor
    · rintro ⟨heq, hlo, hhi⟩
      have hl := hproper.mp (by omega)
      rw [hread hl] at heq hlo
      exact ⟨hl, fun _ => hlo, fun h0 => absurd h0 (not_lt.mpr hpos), hsum.mp heq⟩
    · rintro ⟨hl, hsign, -, heq⟩
      have hlt := hproper.mpr hl
      rw [hread hl] at hlt ⊢
      exact ⟨hsum.mpr heq, hsign hpos, by omega⟩

end DoubleWidth
