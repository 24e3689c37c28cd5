import Mathlib.Data.BitVec
import Mathlib.Data.Nat.ModEq

/-!
# Rounding to a power of two and walking in strides

Two idioms of code that works on pages.  The mask `value & ~(alignment - 1)` rounds a word down to a
multiple of a power of two, and adding `alignment - 1` first rounds it up; the rounding up wraps to
zero in the last stretch of the word (`toNat_alignDown`, `toNat_alignUp`, `alignUp_eq_zero`); in one
equation, it is the rounding of natural numbers modulo the word (`toNat_alignUp_eq_ceilTo`).  The
loop `for (i = first; i <= last; i += step)` that leaves before its variable wraps visits exactly
the members of the residue class of `first` between the two bounds (`strideAll_eq_true_iff`).
-/

namespace Rounding

variable {w k : ℕ}

/-- Round `value` down to a multiple of `alignment` (a power of two). -/
def alignDown (value alignment : BitVec w) : BitVec w := value &&& ~~~(alignment - 1)

/-- Round `value` up to a multiple of `alignment` (a power of two). -/
def alignUp (value alignment : BitVec w) : BitVec w :=
  alignDown (value + alignment - 1) alignment

/-! ## Rounding down -/

/-- The mask of a power of two has the bits below it. -/
lemma toNat_twoPow_sub_one (hk : k < w) : (BitVec.twoPow w k - 1).toNat = 2 ^ k - 1 := by
  have hlt : 2 ^ k < 2 ^ w := Nat.pow_lt_pow_right Nat.one_lt_two hk
  have hpos : 0 < 2 ^ k := Nat.two_pow_pos k
  have hone : (1 : BitVec w).toNat = 1 := BitVec.toNat_one (by omega)
  rw [BitVec.toNat_sub_of_le, BitVec.toNat_twoPow_of_lt hk, hone]
  rw [BitVec.le_def, BitVec.toNat_twoPow_of_lt hk, hone]
  exact hpos

/-- Rounding down takes the remainder away. -/
lemma toNat_alignDown (hk : k < w) (v : BitVec w) :
    (alignDown v (BitVec.twoPow w k)).toNat = v.toNat - v.toNat % 2 ^ k := by
  set mask := BitVec.twoPow w k - 1 with hmask
  have hlow : (v &&& mask).toNat = v.toNat % 2 ^ k := by
    rw [BitVec.toNat_and, toNat_twoPow_sub_one hk, Nat.and_two_pow_sub_one_eq_mod]
  have hdisjoint : (v &&& ~~~mask) &&& (v &&& mask) = 0 := by
    ext i hi
    simp only [BitVec.getElem_and, BitVec.getElem_not]
    cases mask[i] <;> simp
  have hsplit : (v &&& ~~~mask) ||| (v &&& mask) = v := by
    ext i hi
    simp only [BitVec.getElem_or, BitVec.getElem_and, BitVec.getElem_not]
    cases mask[i] <;> simp
  have hsum : (v &&& ~~~mask).toNat + (v &&& mask).toNat = v.toNat := by
    rw [← BitVec.toNat_add_of_and_eq_zero hdisjoint, BitVec.add_eq_or_of_and_eq_zero _ _ hdisjoint,
      hsplit]
  rw [alignDown, ← hmask]
  omega

/-- Rounding down does not go up. -/
lemma alignDown_le (hk : k < w) (v : BitVec w) :
    (alignDown v (BitVec.twoPow w k)).toNat ≤ v.toNat := by
  rw [toNat_alignDown hk]
  exact Nat.sub_le _ _

/-- A rounded word is a multiple. -/
lemma dvd_alignDown (hk : k < w) (v : BitVec w) :
    2 ^ k ∣ (alignDown v (BitVec.twoPow w k)).toNat := by
  rw [toNat_alignDown hk]
  exact Nat.dvd_sub_mod _

/-! ## Rounding up -/

/-- Below the last stretch of the word, rounding up is the rounding of natural numbers. -/
lemma toNat_alignUp (hk : k < w) {v : BitVec w} (hv : v.toNat + 2 ^ k ≤ 2 ^ w) :
    (alignUp v (BitVec.twoPow w k)).toNat =
      (v.toNat + 2 ^ k - 1) - (v.toNat + 2 ^ k - 1) % 2 ^ k := by
  have hpos : 0 < 2 ^ k := Nat.two_pow_pos k
  have hadd : (v + BitVec.twoPow w k - 1).toNat = v.toNat + 2 ^ k - 1 := by
    rw [add_sub_assoc, BitVec.toNat_add, toNat_twoPow_sub_one hk, Nat.mod_eq_of_lt (by omega)]
    omega
  rw [alignUp, toNat_alignDown hk, hadd]

/-- In the last stretch of the word, rounding up wraps to zero. -/
lemma alignUp_eq_zero (hk : k < w) {v : BitVec w} (hv : 2 ^ w < v.toNat + 2 ^ k) :
    alignUp v (BitVec.twoPow w k) = 0 := by
  have hlt : v.toNat < 2 ^ w := v.isLt
  have hpow : 2 ^ k < 2 ^ w := Nat.pow_lt_pow_right Nat.one_lt_two hk
  have hadd : (v + BitVec.twoPow w k - 1).toNat = v.toNat + (2 ^ k - 1) - 2 ^ w := by
    rw [add_sub_assoc, BitVec.toNat_add, toNat_twoPow_sub_one hk, Nat.mod_eq_sub_mod (by omega),
      Nat.mod_eq_of_lt (by omega)]
  apply BitVec.eq_of_toNat_eq
  rw [alignUp, toNat_alignDown hk, hadd, Nat.mod_eq_of_lt (by omega)]
  simp

/-- Zero is aligned. -/
@[simp] lemma alignUp_zero (alignment : BitVec w) : alignUp 0 alignment = 0 := by
  simp [alignUp, alignDown]

/-- Rounding up does not fall below the word, unless it wraps. -/
lemma le_alignUp_or_eq_zero (hk : k < w) (v : BitVec w) :
    v.toNat ≤ (alignUp v (BitVec.twoPow w k)).toNat ∨ alignUp v (BitVec.twoPow w k) = 0 := by
  by_cases hv : v.toNat + 2 ^ k ≤ 2 ^ w
  · have hpos : 0 < 2 ^ k := Nat.two_pow_pos k
    have hmod := Nat.mod_lt (v.toNat + 2 ^ k - 1) hpos
    left
    rw [toNat_alignUp hk hv]
    omega
  · exact Or.inr (alignUp_eq_zero hk (by omega))

/-! ## Rounding of natural numbers -/

/-- The least multiple of `p` that is not below `n`. -/
def ceilTo (p n : ℕ) : ℕ := (n + p - 1) / p * p

section CeilTo

variable {p m n : ℕ}

/-- The next multiple is a multiple. -/
lemma dvd_ceilTo (p n : ℕ) : p ∣ ceilTo p n := Nat.dvd_mul_left _ _

/-- The next multiple by a remainder. -/
lemma ceilTo_eq (p n : ℕ) : ceilTo p n = (n + p - 1) - (n + p - 1) % p := by
  have hdiv := Nat.div_add_mod' (n + p - 1) p
  unfold ceilTo
  omega

/-- The next multiple is not below the number. -/
lemma le_ceilTo (hp : 0 < p) (n : ℕ) : n ≤ ceilTo p n := by
  have hmod := Nat.mod_lt (n + p - 1) hp
  rw [ceilTo_eq]
  omega

/-- It is less than one step above the number. -/
lemma ceilTo_lt_add (hp : 0 < p) (n : ℕ) : ceilTo p n < n + p := by
  rw [ceilTo_eq]
  omega

/-- The rounded number is below a multiple exactly if the number is. -/
lemma ceilTo_le_iff (hp : 0 < p) (hm : p ∣ m) : ceilTo p n ≤ m ↔ n ≤ m := by
  refine ⟨(le_ceilTo hp n).trans, fun hle => ?_⟩
  by_contra hlt
  have hgap := Nat.le_of_dvd (by omega) (Nat.dvd_sub (dvd_ceilTo p n) hm)
  have hup := ceilTo_lt_add hp n
  omega

/-- A multiple is its own next multiple. -/
lemma ceilTo_of_dvd (hp : 0 < p) (h : p ∣ n) : ceilTo p n = n :=
  le_antisymm ((ceilTo_le_iff hp h).mpr le_rfl) (le_ceilTo hp n)

/-- Rounding up a word is the rounding of its value, modulo the size of the word. -/
lemma toNat_alignUp_eq_ceilTo (hk : k < w) (v : BitVec w) :
    (alignUp v (BitVec.twoPow w k)).toNat = ceilTo (2 ^ k) v.toNat % 2 ^ w := by
  have hpos : 0 < 2 ^ k := Nat.two_pow_pos k
  have hdvd : 2 ^ k ∣ 2 ^ w := Nat.pow_dvd_pow 2 hk.le
  have hup := ceilTo_lt_add hpos v.toNat
  have hle : ceilTo (2 ^ k) v.toNat ≤ 2 ^ w := (ceilTo_le_iff hpos hdvd).mpr v.isLt.le
  by_cases hv : v.toNat + 2 ^ k ≤ 2 ^ w
  · rw [toNat_alignUp hk hv, ← ceilTo_eq, Nat.mod_eq_of_lt (by omega)]
  · have hge : 2 ^ w ≤ ceilTo (2 ^ k) v.toNat := by
      by_contra hlt
      have hgap := Nat.le_of_dvd (by omega) (Nat.dvd_sub hdvd (dvd_ceilTo (2 ^ k) v.toNat))
      have hself := le_ceilTo hpos v.toNat
      omega
    rw [alignUp_eq_zero hk (by omega), le_antisymm hle hge, Nat.mod_self]
    simp

end CeilTo

/-! ## Strides -/

/-- `for (i = first; i <= last; i += step) if (!good(i)) return false;`, left before `i` wraps, as
long as the fuel lasts. -/
def strideAll (good : BitVec w → Bool) (step last : BitVec w) : ℕ → BitVec w → Bool
  | 0, _ => false
  | fuel + 1, i =>
      if i ≤ last then
        if good i then
          if i + step < i then true else strideAll good step last fuel (i + step)
        else false
      else true

/-- With fuel for the rest of the word, the loop checks every member of the residue class of its
variable up to the bound. -/
theorem strideAll_eq_true_iff {good : BitVec w → Bool} {step last : BitVec w}
    (hstep : 0 < step.toNat) {fuel : ℕ} {i : BitVec w}
    (hfuel : 2 ^ w ≤ i.toNat + fuel * step.toNat) :
    strideAll good step last fuel i = true ↔ ∀ p : BitVec w, i.toNat ≤ p.toNat →
      p.toNat ≤ last.toNat → i.toNat ≡ p.toNat [MOD step.toNat] → good p = true := by
  induction fuel generalizing i with
  | zero =>
    have := i.isLt
    omega
  | succ fuel ih =>
    have hadd : (i + step).toNat = (i.toNat + step.toNat) % 2 ^ w := BitVec.toNat_add i step
    have hi : i.toNat < 2 ^ w := i.isLt
    have hs : step.toNat < 2 ^ w := step.isLt
    unfold strideAll
    split_ifs with hle hgood hwrap
    · -- the sum wraps: no member of the class lies above `i`
      have hover : 2 ^ w ≤ i.toNat + step.toNat := by
        by_contra hlt
        rw [Nat.mod_eq_of_lt (by omega)] at hadd
        rw [BitVec.lt_def] at hwrap
        omega
      refine iff_of_true rfl fun p hip _ hmod => ?_
      rcases Nat.eq_or_lt_of_le hip with heq | hlt
      · rwa [← BitVec.eq_of_toNat_eq heq]
      · have := Nat.ModEq.add_le_of_lt hmod hlt
        have := p.isLt
        omega
    · have hnext : (i + step).toNat = i.toNat + step.toNat := by
        rw [hadd, Nat.mod_eq_of_lt]
        by_contra hover
        rw [Nat.mod_eq_sub_mod (by omega), Nat.mod_eq_of_lt (by omega)] at hadd
        rw [BitVec.lt_def] at hwrap
        omega
      have hrest : 2 ^ w ≤ (i + step).toNat + fuel * step.toNat := by
        rw [Nat.succ_mul] at hfuel
        omega
      rw [ih hrest, hnext]
      constructor
      · intro h p hip hpl hmod
        rcases Nat.eq_or_lt_of_le hip with heq | hlt
        · rwa [← BitVec.eq_of_toNat_eq heq]
        · exact h p (Nat.ModEq.add_le_of_lt hmod hlt) hpl (Nat.add_modEq_right.trans hmod)
      · intro h p hip hpl hmod
        exact h p (by omega) hpl (Nat.add_modEq_right.symm.trans hmod)
    · refine iff_of_false (by simp) fun h => hgood (h i le_rfl (BitVec.le_def.mp hle) rfl)
    · refine iff_of_true rfl fun p hip hpl _ => ?_
      rw [BitVec.le_def] at hle
      omega

end Rounding
