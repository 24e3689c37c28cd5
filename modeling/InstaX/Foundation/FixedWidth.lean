import Mathlib.Data.BitVec

/-!
# Carry and overflow of fixed-width arithmetic

A fixed-width result `r` stands for an exact integer `z`; the operation carried out of the unsigned
range when `r` read as a natural number is not `z`, and out of the signed range when `r` read in
two's complement is not `z`.  This file compares these two notions with the tests that can be made
on the wrapped words alone: comparisons of the result with an operand (`ult_add_eq`,
`ult_sub_eq`) and comparisons of sign bits (`signedOverflow_add_eq`, `signedOverflow_sub_eq`).
-/

namespace FixedWidth

variable {w : ℕ}

/-- The exact value `z` is not the unsigned reading of the word `r`. -/
def unsignedOverflow (r : BitVec w) (z : ℤ) : Bool := decide ((r.toNat : ℤ) ≠ z)

/-- The exact value `z` is not the two's complement reading of the word `r`. -/
def signedOverflow (r : BitVec w) (z : ℤ) : Bool := decide (r.toInt ≠ z)

/-! ## Unsigned carry and borrow -/

/-- The wrapped sum lies below a summand exactly when the addition carried. -/
lemma ult_add_eq (a b : BitVec w) :
    (a + b).ult a = unsignedOverflow (a + b) ((a.toNat : ℤ) + b.toNat) := by
  have ha : a.toNat < 2 ^ w := a.isLt
  have hb : b.toNat < 2 ^ w := b.isLt
  rw [BitVec.ult_eq_decide, unsignedOverflow, decide_eq_decide, BitVec.toNat_add]
  by_cases hc : a.toNat + b.toNat < 2 ^ w
  · rw [Nat.mod_eq_of_lt hc]
    omega
  · have hmod : (a.toNat + b.toNat) % 2 ^ w = a.toNat + b.toNat - 2 ^ w := by
      rw [Nat.mod_eq_sub_mod (by omega), Nat.mod_eq_of_lt (by omega)]
    omega

/-- An addition carries exactly when the exact sum is out of range. -/
lemma unsignedOverflow_add_eq (a b : BitVec w) :
    unsignedOverflow (a + b) ((a.toNat : ℤ) + b.toNat) = decide (2 ^ w ≤ a.toNat + b.toNat) := by
  have ha : a.toNat < 2 ^ w := a.isLt
  rw [unsignedOverflow, decide_eq_decide, BitVec.toNat_add]
  by_cases hc : a.toNat + b.toNat < 2 ^ w
  · rw [Nat.mod_eq_of_lt hc]
    omega
  · have hmod := Nat.mod_lt (a.toNat + b.toNat) (Nat.two_pow_pos w)
    omega

/-- The wrapped difference is the exact one, or one modulus above it. -/
private lemma toNat_sub_eq_or (a b : BitVec w) :
    (b.toNat ≤ a.toNat ∧ (a - b).toNat = a.toNat - b.toNat) ∨
      (a.toNat < b.toNat ∧ (a - b).toNat = 2 ^ w - b.toNat + a.toNat) := by
  have ha : a.toNat < 2 ^ w := a.isLt
  rcases le_or_gt b.toNat a.toNat with hle | hlt
  · exact Or.inl ⟨hle, BitVec.toNat_sub_of_le hle⟩
  · refine Or.inr ⟨hlt, ?_⟩
    rw [BitVec.toNat_sub, Nat.mod_eq_of_lt (by omega)]

/-- The wrapped difference lies above the minuend exactly when the subtraction borrowed. -/
lemma ult_sub_eq (a b : BitVec w) :
    a.ult (a - b) = unsignedOverflow (a - b) ((a.toNat : ℤ) - b.toNat) := by
  have hb : b.toNat < 2 ^ w := b.isLt
  have hsub := toNat_sub_eq_or a b
  rw [BitVec.ult_eq_decide, unsignedOverflow, decide_eq_decide]
  omega

/-- A subtraction borrows exactly when the minuend is the smaller word. -/
lemma unsignedOverflow_sub_eq_ult (a b : BitVec w) :
    unsignedOverflow (a - b) ((a.toNat : ℤ) - b.toNat) = a.ult b := by
  have hb : b.toNat < 2 ^ w := b.isLt
  have hsub := toNat_sub_eq_or a b
  rw [BitVec.ult_eq_decide, unsignedOverflow, decide_eq_decide]
  omega

/-! ## Signed overflow -/

/-- The sign bit of the balanced residue of `z` modulo `2 ^ w`, for `z` one wrap away from the
signed range: the residue is `z` itself or differs from it by one modulus. -/
private lemma bmod_eq_or {z : ℤ} {h : ℕ} (hlo : -(3 * (h : ℤ)) ≤ z) (hhi : z < 3 * h) :
    (-(h : ℤ) ≤ z ∧ z < h ∧ z.bmod (2 * h) = z) ∨
      (z < -h ∧ z.bmod (2 * h) = z + 2 * h) ∨ ((h : ℤ) ≤ z ∧ z.bmod (2 * h) = z - 2 * h) := by
  rcases lt_or_ge z (-(h : ℤ)) with hz | hz
  · refine Or.inr (Or.inl ⟨hz, ?_⟩)
    rw [← Int.add_bmod_right]
    push_cast
    exact Int.bmod_eq_of_le (by push_cast; omega) (by push_cast; omega)
  · rcases lt_or_ge z (h : ℤ) with hz' | hz'
    · exact Or.inl ⟨hz, hz', Int.bmod_eq_of_le (by push_cast; omega) (by push_cast; omega)⟩
    · refine Or.inr (Or.inr ⟨hz', ?_⟩)
      rw [← Int.sub_bmod_right]
      push_cast
      exact Int.bmod_eq_of_le (by push_cast; omega) (by push_cast; omega)

/-- The half range of a positive width, with the bounds of the signed reading. -/
private lemma exists_half (hw : 0 < w) :
    ∃ h : ℕ, 0 < h ∧ 2 ^ w = 2 * h ∧ ∀ a : BitVec w, -(h : ℤ) ≤ a.toInt ∧ a.toInt < h := by
  refine ⟨2 ^ (w - 1), Nat.two_pow_pos _, ?_, fun a => ?_⟩
  · rw [← pow_succ', Nat.sub_add_cancel hw]
  · have hlo := BitVec.le_toInt a
    have hhi := BitVec.toInt_lt (x := a)
    push_cast
    exact ⟨hlo, hhi⟩

/-- An addition leaves the signed range exactly when the summands have one sign and the wrapped
sum has the other. -/
lemma signedOverflow_add_eq (hw : 0 < w) (a b : BitVec w) :
    signedOverflow (a + b) (a.toInt + b.toInt) = (a.msb == b.msb && (a + b).msb != a.msb) := by
  obtain ⟨h, hh, hpow, hrange⟩ := exists_half hw
  have ha := hrange a
  have hb := hrange b
  rw [signedOverflow, BitVec.msb_eq_toInt, BitVec.msb_eq_toInt, BitVec.msb_eq_toInt,
    BitVec.toInt_add, hpow, Bool.eq_iff_iff]
  simp only [bne, beq_iff_eq, decide_eq_true_eq, Bool.and_eq_true, Bool.not_eq_true',
    decide_eq_decide, beq_eq_false_iff_ne, ne_eq]
  rcases bmod_eq_or (z := a.toInt + b.toInt) (h := h) (by omega) (by omega) with
    ⟨h1, h2, hb'⟩ | ⟨h1, hb'⟩ | ⟨h1, hb'⟩ <;> rw [hb'] <;> omega

/-- A subtraction leaves the signed range exactly when the operands have different signs and the
wrapped difference does not have the sign of the minuend. -/
lemma signedOverflow_sub_eq (hw : 0 < w) (a b : BitVec w) :
    signedOverflow (a - b) (a.toInt - b.toInt) = (a.msb != b.msb && (a - b).msb != a.msb) := by
  obtain ⟨h, hh, hpow, hrange⟩ := exists_half hw
  have ha := hrange a
  have hb := hrange b
  rw [signedOverflow, BitVec.msb_eq_toInt, BitVec.msb_eq_toInt, BitVec.msb_eq_toInt,
    BitVec.toInt_sub, hpow, Bool.eq_iff_iff]
  simp only [bne, decide_eq_true_eq, Bool.and_eq_true, Bool.not_eq_true',
    decide_eq_decide, beq_eq_false_iff_ne, ne_eq]
  rcases bmod_eq_or (z := a.toInt - b.toInt) (h := h) (by omega) (by omega) with
    ⟨h1, h2, hb'⟩ | ⟨h1, hb'⟩ | ⟨h1, hb'⟩ <;> rw [hb'] <;> omega

/-- Adding one leaves the signed range exactly when a non-negative word becomes negative. -/
lemma signedOverflow_add_one_eq (hw : 0 < w) (a : BitVec w) :
    signedOverflow (a + 1) (a.toInt + 1) = (!a.msb && (a + 1).msb) := by
  obtain ⟨h, hh, hpow, hrange⟩ := exists_half hw
  have ha := hrange a
  have hone : (a + 1).toInt = (a.toInt + 1).bmod (2 * h) := by
    rw [← hpow, BitVec.toInt_add, show ((1 : BitVec w).toInt) = (1 : ℤ).bmod (2 ^ w) from
      BitVec.toInt_ofInt (n := w) 1, Int.add_bmod_bmod]
  rw [signedOverflow, BitVec.msb_eq_toInt, BitVec.msb_eq_toInt, hone, Bool.eq_iff_iff]
  simp only [decide_eq_true_eq, Bool.and_eq_true, Bool.not_eq_true', decide_eq_false_iff_not]
  rcases bmod_eq_or (z := a.toInt + 1) (h := h) (by omega) (by omega) with
    ⟨h1, h2, hb'⟩ | ⟨h1, hb'⟩ | ⟨h1, hb'⟩ <;> rw [hb'] <;> omega

/-- Subtracting one leaves the signed range exactly when a negative word becomes non-negative. -/
lemma signedOverflow_sub_one_eq (hw : 0 < w) (a : BitVec w) :
    signedOverflow (a - 1) (a.toInt - 1) = (a.msb && !(a - 1).msb) := by
  obtain ⟨h, hh, hpow, hrange⟩ := exists_half hw
  have ha := hrange a
  have hone : (a - 1).toInt = (a.toInt - 1).bmod (2 * h) := by
    rw [← hpow, BitVec.toInt_sub, show ((1 : BitVec w).toInt) = (1 : ℤ).bmod (2 ^ w) from
      BitVec.toInt_ofInt (n := w) 1, Int.sub_bmod_bmod]
  rw [signedOverflow, BitVec.msb_eq_toInt, BitVec.msb_eq_toInt, hone, Bool.eq_iff_iff]
  simp only [decide_eq_true_eq, Bool.and_eq_true, Bool.not_eq_true', decide_eq_false_iff_not]
  rcases bmod_eq_or (z := a.toInt - 1) (h := h) (by omega) (by omega) with
    ⟨h1, h2, hb'⟩ | ⟨h1, hb'⟩ | ⟨h1, hb'⟩ <;> rw [hb'] <;> omega

/-- The sign of a wrapped difference, corrected by its overflow, is the signed order. -/
lemma msb_xor_signedOverflow_sub (hw : 0 < w) (a b : BitVec w) :
    ((a - b).msb ^^ signedOverflow (a - b) (a.toInt - b.toInt)) = a.slt b := by
  obtain ⟨h, hh, hpow, hrange⟩ := exists_half hw
  have ha := hrange a
  have hb := hrange b
  rw [signedOverflow, BitVec.msb_eq_toInt, BitVec.toInt_sub, hpow, BitVec.slt_eq_decide,
    Bool.eq_iff_iff]
  simp only [Bool.xor_iff_ne, ne_eq, decide_eq_decide, decide_eq_true_eq]
  rcases bmod_eq_or (z := a.toInt - b.toInt) (h := h) (by omega) (by omega) with
    ⟨h1, h2, hb'⟩ | ⟨h1, hb'⟩ | ⟨h1, hb'⟩ <;> rw [hb'] <;> omega

/-- A wrapped difference vanishes exactly when the operands agree. -/
lemma sub_beq_zero (a b : BitVec w) : (a - b == 0) = (a == b) := by
  rw [Bool.eq_iff_iff, beq_iff_eq, beq_iff_eq]
  exact sub_eq_zero

/-! ## Comparisons with zero and with an operand -/

/-- Comparing with zero for `slt` reads the sign bit. -/
lemma slt_zero_eq_msb (x : BitVec w) : x.slt 0 = x.msb := by
  rw [Bool.eq_iff_iff]
  exact BitVec.slt_zero_iff_msb_cond

/-- Comparing with zero for `sge` reads the complement of the sign bit. -/
lemma zero_sle_eq_not_msb (x : BitVec w) : BitVec.sle 0 x = !x.msb := by
  rw [BitVec.sle_eq_not_slt, slt_zero_eq_msb]

/-- The value `z` lies on the side of zero of `a`, and closer to zero. -/
def MovesInward (a z : ℤ) : Prop := (0 ≤ z ∧ z < a) ∨ (a < z ∧ z < 0)

instance (a z : ℤ) : Decidable (MovesInward a z) := instDecidableOr

/-- A word one wrap away from `a` is compared with `a` instead of with zero.  Both comparisons tell
a change of sign, and they differ exactly when the exact value moves towards zero. -/
lemma overflow_tests_eq_iff {a r : BitVec w} {z : ℤ} (hr : r.toInt = z.bmod (2 ^ w))
    (hlo : -2 ^ w ≤ 2 * (z - a.toInt)) (hhi : 2 * (z - a.toInt) ≤ 2 ^ w) :
    (!a.msb && r.msb || a.msb && !r.msb) = (!a.msb && r.slt a || a.msb && a.slt r) ↔
      ¬ MovesInward a.toInt z := by
  rcases Nat.eq_zero_or_pos w with rfl | hw
  · have ha : a.toInt = 0 := by simp [BitVec.eq_nil a]
    have hz : z = 0 := by
      rw [ha] at hlo hhi
      omega
    simp [BitVec.eq_nil a, BitVec.eq_nil r, MovesInward, hz]
  · obtain ⟨h, hh, hpow, hrange⟩ := exists_half hw
    have ha := hrange a
    have hpow' : (2 : ℤ) ^ w = 2 * h := by exact_mod_cast hpow
    rw [hpow'] at hlo hhi
    rw [hpow] at hr
    rw [BitVec.msb_eq_toInt, BitVec.msb_eq_toInt, BitVec.slt_eq_decide, BitVec.slt_eq_decide,
      MovesInward, Bool.eq_iff_iff]
    simp only [Bool.or_eq_true, Bool.and_eq_true, Bool.not_eq_true', decide_eq_false_iff_not,
      decide_eq_true_eq]
    rcases bmod_eq_or (z := z) (h := h) (by omega) (by omega) with
      ⟨h1, h2, hb⟩ | ⟨h1, hb⟩ | ⟨h1, hb⟩ <;> rw [hb] at hr <;> omega

/-! ## Orders -/

/-- The unsigned order, from its strict part and equality. -/
lemma ult_or_beq (a b : BitVec w) : (a.ult b || a == b) = a.ule b := by
  rw [BitVec.ult_eq_decide, BitVec.ule_eq_decide, Bool.eq_iff_iff]
  simp only [Bool.or_eq_true, decide_eq_true_eq, beq_iff_eq, ← BitVec.toNat_inj]
  omega

/-- The signed order, from its strict part and equality. -/
lemma beq_or_slt (a b : BitVec w) : (a == b || a.slt b) = a.sle b := by
  rw [BitVec.slt_eq_decide, BitVec.sle_eq_decide, Bool.eq_iff_iff]
  simp only [Bool.or_eq_true, decide_eq_true_eq, beq_iff_eq, ← BitVec.toInt_inj]
  omega

/-! ## Truncation -/

/-- A word survives a truncation exactly when it is in the narrow range. -/
lemma setWidth_setWidth_eq_iff {n k : ℕ} (hk : k ≤ n) (x : BitVec n) :
    (x.setWidth k).setWidth n = x ↔ x.toNat < 2 ^ k := by
  have hmod : x.toNat % 2 ^ k < 2 ^ k := Nat.mod_lt _ (Nat.two_pow_pos k)
  have hpow : 2 ^ k ≤ 2 ^ n := Nat.pow_le_pow_right (by decide) hk
  rw [← BitVec.toNat_inj, BitVec.toNat_setWidth, BitVec.toNat_setWidth,
    Nat.mod_eq_of_lt (hmod.trans_le hpow)]
  constructor
  · intro h
    rw [← h]
    exact hmod
  · exact fun h => Nat.mod_eq_of_lt h

/-! ## Bit fields -/

/-- The word `x` with the `w` bits from `off` on replaced by those of `v`. -/
def insertBits {n : ℕ} (x : BitVec n) (off : ℕ) (v : BitVec w) : BitVec n :=
  x &&& ~~~((BitVec.allOnes w).setWidth n <<< off) ||| v.setWidth n <<< off

/-- The bits of a word with a field replaced. -/
lemma getLsbD_insertBits {n : ℕ} (x : BitVec n) (off : ℕ) (v : BitVec w) {i : ℕ} (hi : i < n) :
    (insertBits x off v).getLsbD i =
      if off ≤ i ∧ i < off + w then v.getLsbD (i - off) else x.getLsbD i := by
  simp only [insertBits, BitVec.getLsbD_or, BitVec.getLsbD_and, BitVec.getLsbD_not,
    BitVec.getLsbD_shiftLeft, BitVec.getLsbD_setWidth, BitVec.getLsbD_allOnes]
  by_cases hlo : off ≤ i
  · by_cases hhi : i < off + w
    · simp [hi, hlo, hhi, show ¬ i < off by omega, show i - off < n by omega,
        show i - off < w by omega]
    · have hv : v.getLsbD (i - off) = false := BitVec.getLsbD_of_ge v _ (by omega)
      simp [hi, hlo, hhi, hv, show ¬ i - off < w by omega]
  · simp [hi, hlo, show i < off by omega]

/-- A field that was written is read back. -/
lemma setWidth_insertBits_zero {n : ℕ} (x : BitVec n) (v : BitVec w) (hw : w ≤ n) :
    (insertBits x 0 v).setWidth w = v := by
  refine BitVec.eq_of_getLsbD_eq fun i hi => ?_
  rw [BitVec.getLsbD_setWidth, getLsbD_insertBits _ _ _ (by omega)]
  simp [hi]

/-- A word with its first field replaced, as a number. -/
lemma toNat_insertBits_zero {n : ℕ} (x : BitVec n) (v : BitVec w) (hw : w ≤ n) :
    (insertBits x 0 v).toNat = x.toNat / 2 ^ w * 2 ^ w + v.toNat := by
  refine Nat.eq_of_testBit_eq fun i => ?_
  rw [mul_comm, Nat.testBit_two_pow_mul_add _ v.isLt, BitVec.testBit_toNat]
  by_cases hi : i < n
  · rw [getLsbD_insertBits x 0 v hi]
    split_ifs with h h' h'
    · simp [BitVec.testBit_toNat]
    · omega
    · omega
    · rw [Nat.testBit_div_two_pow, Nat.sub_add_cancel (by omega), BitVec.testBit_toNat]
  · have hx : x.toNat.testBit i = false := BitVec.getLsbD_of_ge x i (by omega)
    rw [BitVec.getLsbD_of_ge _ _ (by omega), if_neg (by omega), Nat.testBit_div_two_pow,
      Nat.sub_add_cancel (by omega), hx]

/-- The last write of a field counts. -/
lemma insertBits_insertBits {n : ℕ} (x : BitVec n) (off : ℕ) (u v : BitVec w) :
    insertBits (insertBits x off u) off v = insertBits x off v := by
  refine BitVec.eq_of_getLsbD_eq fun i hi => ?_
  rw [getLsbD_insertBits _ _ _ hi, getLsbD_insertBits _ _ _ hi, getLsbD_insertBits _ _ _ hi]
  split_ifs <;> rfl

/-- Writing one field at the start of a word or another right after it makes no difference exactly
when both places already hold the values. -/
lemma insertBits_zero_eq_iff {n : ℕ} (x : BitVec n) (u v : BitVec w) (hw : 2 * w ≤ n) :
    insertBits x 0 u = insertBits x w v ↔ x.setWidth w = u ∧ (x >>> w).setWidth w = v := by
  constructor
  · intro h
    have hbit : ∀ i < n, (insertBits x 0 u).getLsbD i = (insertBits x w v).getLsbD i :=
      fun i _ => by rw [h]
    constructor <;> refine BitVec.eq_of_getLsbD_eq fun i hi => ?_
    · have := hbit i (by omega)
      rw [getLsbD_insertBits _ _ _ (by omega), getLsbD_insertBits _ _ _ (by omega),
        if_pos (by omega), if_neg (by omega)] at this
      simpa [BitVec.getLsbD_setWidth, hi] using this.symm
    · have := hbit (w + i) (by omega)
      rw [getLsbD_insertBits _ _ _ (by omega), getLsbD_insertBits _ _ _ (by omega),
        if_neg (by omega), if_pos (by omega), Nat.add_sub_cancel_left] at this
      simpa [BitVec.getLsbD_setWidth, BitVec.getLsbD_ushiftRight, hi] using this
  · rintro ⟨hlow, hhigh⟩
    refine BitVec.eq_of_getLsbD_eq fun i hi => ?_
    rw [getLsbD_insertBits _ _ _ hi, getLsbD_insertBits _ _ _ hi]
    by_cases h₁ : i < w
    · rw [if_pos (by omega), if_neg (by omega), ← hlow]
      simp [h₁]
    · by_cases h₂ : i < w + w
      · rw [if_neg (by omega), if_pos (by omega), ← hhigh]
        simp [BitVec.getLsbD_ushiftRight, show i - w < w by omega, show w + (i - w) = i by omega]
      · rw [if_neg (by omega), if_neg (by omega)]

end FixedWidth
