import InstaX.Foundation.ByteStore
import InstaX.Foundation.Rounding

/-!
# The pages that meet a range

Code that works on whole pages rounds the start of a range down and its end up, and takes the
distance of the two as the length.  With fixed-width sums this is the set of pages that meet the
range, except where a rounding or the distance wraps.  `mem_hull_iff` is the intended case,
`mem_hull_iff_of_wraps` a range that goes around the end of the address space, and
`alignDown_eq_of_mem_hull` a range that is turned around inside one page.
-/

namespace Rounding

open ByteStore

variable {w k : ℕ}

/-! ## The page of an address -/

/-- Distinct multiples are a page apart. -/
lemma add_le_of_dvd_of_lt {p m n : ℕ} (hm : p ∣ m) (hn : p ∣ n) (hlt : m < n) : m + p ≤ n := by
  obtain ⟨a, rfl⟩ := hm
  obtain ⟨b, rfl⟩ := hn
  have hab : a + 1 ≤ b := Nat.lt_of_mul_lt_mul_left hlt
  calc p * a + p = p * (a + 1) := by rw [Nat.mul_succ]
    _ ≤ p * b := Nat.mul_le_mul_left p hab

/-- An address lies in its page. -/
lemma lt_alignDown_add (hk : k < w) (v : BitVec w) :
    v.toNat < (alignDown v (BitVec.twoPow w k)).toNat + 2 ^ k := by
  have hmod := Nat.mod_lt v.toNat (Nat.two_pow_pos k)
  rw [toNat_alignDown hk]
  omega

/-- The start of a page is the only multiple from which an address is less than a page away. -/
lemma alignDown_eq_iff (hk : k < w) {v m : BitVec w} :
    alignDown v (BitVec.twoPow w k) = m ↔
      2 ^ k ∣ m.toNat ∧ m.toNat ≤ v.toNat ∧ v.toNat < m.toNat + 2 ^ k := by
  constructor
  · rintro rfl
    exact ⟨dvd_alignDown hk v, alignDown_le hk v, lt_alignDown_add hk v⟩
  · rintro ⟨hdvd, hle, hlt⟩
    apply BitVec.eq_of_toNat_eq
    have hdvd' := dvd_alignDown hk v
    have hle' := alignDown_le hk v
    have hlt' := lt_alignDown_add hk v
    rcases Nat.lt_trichotomy (alignDown v (BitVec.twoPow w k)).toNat m.toNat with h | h | h
    · have := add_le_of_dvd_of_lt hdvd' hdvd h
      omega
    · exact h
    · have := add_le_of_dvd_of_lt hdvd hdvd' h
      omega

/-- The start of a page is on its page. -/
lemma alignDown_alignDown (hk : k < w) (v : BitVec w) :
    alignDown (alignDown v (BitVec.twoPow w k)) (BitVec.twoPow w k) =
      alignDown v (BitVec.twoPow w k) :=
  (alignDown_eq_iff hk).mpr
    ⟨dvd_alignDown hk v, le_rfl, Nat.lt_add_of_pos_right (Nat.two_pow_pos k)⟩

/-- Moving by whole pages moves the page. -/
lemma alignDown_add (hk : k < w) (v : BitVec w) {c : BitVec w} (hc : 2 ^ k ∣ c.toNat) :
    alignDown (v + c) (BitVec.twoPow w k) = alignDown v (BitVec.twoPow w k) + c := by
  have hdvd := dvd_alignDown hk v
  have hle := alignDown_le hk v
  have hlt := lt_alignDown_add hk v
  have hw : 2 ^ k ∣ 2 ^ w := Nat.pow_dvd_pow 2 hk.le
  have hv : v.toNat < 2 ^ w := v.isLt
  have hcw : c.toNat < 2 ^ w := c.isLt
  generalize alignDown v (BitVec.twoPow w k) = m at hdvd hle hlt
  have hpage : m.toNat + 2 ^ k ≤ 2 ^ w := add_le_of_dvd_of_lt hdvd hw (by omega)
  rw [alignDown_eq_iff hk, BitVec.toNat_add, BitVec.toNat_add]
  rcases Nat.lt_or_ge (m.toNat + c.toNat) (2 ^ w) with hsum | hsum
  · have hsum' : m.toNat + c.toNat + 2 ^ k ≤ 2 ^ w :=
      add_le_of_dvd_of_lt (Nat.dvd_add hdvd hc) hw hsum
    rw [Nat.mod_eq_of_lt hsum, Nat.mod_eq_of_lt (by omega)]
    exact ⟨Nat.dvd_add hdvd hc, by omega, by omega⟩
  · rw [Nat.mod_eq_sub_mod hsum, Nat.mod_eq_of_lt (by omega), Nat.mod_eq_sub_mod (by omega),
      Nat.mod_eq_of_lt (by omega)]
    exact ⟨Nat.dvd_sub (Nat.dvd_add hdvd hc) hw, by omega, by omega⟩

/-- Two addresses are on one page after a move by whole pages exactly if they were before. -/
lemma alignDown_add_eq_iff (hk : k < w) {u v c : BitVec w} (hc : 2 ^ k ∣ c.toNat) :
    alignDown (u + c) (BitVec.twoPow w k) = alignDown (v + c) (BitVec.twoPow w k) ↔
      alignDown u (BitVec.twoPow w k) = alignDown v (BitVec.twoPow w k) := by
  rw [alignDown_add hk u hc, alignDown_add hk v hc]
  exact add_left_inj c

/-! ## Rounding up -/

/-- A rounding up that is not zero is the next multiple. -/
lemma alignUp_bounds (hk : k < w) {v : BitVec w} (hne : alignUp v (BitVec.twoPow w k) ≠ 0) :
    2 ^ k ∣ (alignUp v (BitVec.twoPow w k)).toNat ∧
      v.toNat ≤ (alignUp v (BitVec.twoPow w k)).toNat ∧
      (alignUp v (BitVec.twoPow w k)).toNat < v.toNat + 2 ^ k := by
  have hfits : v.toNat + 2 ^ k ≤ 2 ^ w := by
    by_contra h
    exact hne (alignUp_eq_zero hk (by omega))
  have hpos := Nat.two_pow_pos k
  have hmod := Nat.mod_lt (v.toNat + 2 ^ k - 1) hpos
  rw [toNat_alignUp hk hfits]
  exact ⟨Nat.dvd_sub_mod _, by omega, by omega⟩

/-- A rounding up is zero only at zero or on the last page. -/
lemma alignUp_eq_zero_iff (hk : k < w) {v : BitVec w} :
    alignUp v (BitVec.twoPow w k) = 0 ↔ v = 0 ∨ 2 ^ w < v.toNat + 2 ^ k := by
  constructor
  · intro h
    rcases Nat.lt_or_ge (2 ^ w) (v.toNat + 2 ^ k) with hlt | hle
    · exact Or.inr hlt
    · left
      have hpos := Nat.two_pow_pos k
      have hmod := Nat.mod_lt (v.toNat + 2 ^ k - 1) hpos
      have hval := toNat_alignUp hk hle
      have hzero : (0 : BitVec w).toNat = 0 := by simp
      rw [h] at hval
      apply BitVec.eq_of_toNat_eq
      omega
  · rintro (rfl | hlt)
    · exact alignUp_zero _
    · exact alignUp_eq_zero hk hlt

/-! ## The hull of a range -/

/-- What code takes for the pages of `[s, e)`. -/
def hull (k : ℕ) (s e : BitVec w) : Set (BitVec w) :=
  span (alignDown s (BitVec.twoPow w k))
    (alignUp e (BitVec.twoPow w k) - alignDown s (BitVec.twoPow w k)).toNat

variable {s e x : BitVec w}

/-- The range itself lies on its pages; an end that is zero is the end of the address space. -/
lemma mem_hull_of_le (hk : k < w)
    (hne : alignUp e (BitVec.twoPow w k) - alignDown s (BitVec.twoPow w k) ≠ 0)
    (hlo : s.toNat ≤ x.toNat) (hhi : x.toNat < e.toNat ∨ e = 0) : x ∈ hull k s e := by
  have hstart := alignDown_le hk s
  have hend : x.toNat < (alignUp e (BitVec.twoPow w k)).toNat ∨
      alignUp e (BitVec.twoPow w k) = 0 := by
    rcases hhi with hlt | rfl
    · exact (le_alignUp_or_eq_zero hk e).imp_left hlt.trans_le
    · exact Or.inr (alignUp_zero _)
  unfold hull
  set low := alignDown s (BitVec.twoPow w k)
  set high := alignUp e (BitVec.twoPow w k)
  have hxlt : x.toNat < 2 ^ w := x.isLt
  have hlow : (x - low).toNat = x.toNat - low.toNat :=
    BitVec.toNat_sub_of_le (BitVec.le_def.mpr (hstart.trans hlo))
  rw [mem_span, hlow]
  rcases hend with hlt | hzero
  · rw [BitVec.toNat_sub_of_le (BitVec.le_def.mpr (hstart.trans (hlo.trans hlt.le)))]
    omega
  · have hpos : 0 < low.toNat := by
      rw [hzero, zero_sub, neg_ne_zero] at hne
      exact Nat.pos_of_ne_zero fun h0 => hne (BitVec.eq_of_toNat_eq h0)
    rw [hzero, zero_sub, BitVec.toNat_neg, Nat.mod_eq_of_lt (by omega)]
    omega

/-- An address that is not below the page of `s` is on that page, or its page starts behind `s`. -/
lemma alignDown_eq_or_le (hk : k < w) (h : (alignDown s (BitVec.twoPow w k)).toNat ≤ x.toNat) :
    alignDown x (BitVec.twoPow w k) = alignDown s (BitVec.twoPow w k) ∨
      s.toNat ≤ (alignDown x (BitVec.twoPow w k)).toNat := by
  have hs := lt_alignDown_add hk s
  have hx := lt_alignDown_add hk x
  rcases Nat.lt_trichotomy (alignDown x (BitVec.twoPow w k)).toNat
    (alignDown s (BitVec.twoPow w k)).toNat with hlt | heq | hgt
  · have := add_le_of_dvd_of_lt (dvd_alignDown hk x) (dvd_alignDown hk s) hlt
    omega
  · exact Or.inl (BitVec.eq_of_toNat_eq heq)
  · have := add_le_of_dvd_of_lt (dvd_alignDown hk s) (dvd_alignDown hk x) hgt
    exact Or.inr (by omega)

/-- Addresses on one page as an address that is not below `s` are not below the page of `s`. -/
lemma alignDown_le_of_le (hk : k < w) {y : BitVec w} (hy : s.toNat ≤ y.toNat)
    (hpage : alignDown y (BitVec.twoPow w k) = alignDown x (BitVec.twoPow w k)) :
    (alignDown s (BitVec.twoPow w k)).toNat ≤ x.toNat := by
  have hle := alignDown_le hk s
  have hx := alignDown_le hk x
  have hlt := lt_alignDown_add hk y
  rw [hpage] at hlt
  by_contra h
  have := add_le_of_dvd_of_lt (dvd_alignDown hk x) (dvd_alignDown hk s) (by omega)
  omega

/-- Below the rounding up of `e`, pages start below `e`. -/
lemma alignDown_lt_iff (hk : k < w) (hne : alignUp e (BitVec.twoPow w k) ≠ 0) :
    (alignDown x (BitVec.twoPow w k)).toNat < e.toNat ↔
      x.toNat < (alignUp e (BitVec.twoPow w k)).toNat := by
  obtain ⟨hdvd, hle, hlt⟩ := alignUp_bounds hk hne
  have hx := alignDown_le hk x
  have hx' := lt_alignDown_add hk x
  constructor
  · intro h
    have := add_le_of_dvd_of_lt (dvd_alignDown hk x) hdvd (by omega)
    omega
  · intro h
    have := add_le_of_dvd_of_lt (dvd_alignDown hk x) hdvd (by omega)
    omega

/-- On the last page, pages start below every address of the page. -/
lemma alignDown_lt_of_last (hk : k < w) (he : 2 ^ w < e.toNat + 2 ^ k) :
    (alignDown x (BitVec.twoPow w k)).toNat < e.toNat := by
  have hx : x.toNat < 2 ^ w := x.isLt
  have hle := alignDown_le hk x
  have := add_le_of_dvd_of_lt (dvd_alignDown hk x) (Nat.pow_dvd_pow 2 hk.le) (by omega)
  omega

/-- The hull of a range in order, unless it comes out empty: the pages that meet the range. -/
lemma mem_hull_iff (hk : k < w) (hse : s.toNat < e.toNat)
    (hne : alignUp e (BitVec.twoPow w k) ≠ alignDown s (BitVec.twoPow w k)) :
    x ∈ hull k s e ↔ ∃ y ∈ interval s e,
      alignDown y (BitVec.twoPow w k) = alignDown x (BitVec.twoPow w k) := by
  have hs := alignDown_le hk s
  have hx := alignDown_le hk x
  have hzero : (0 : BitVec w).toNat = 0 := by simp
  unfold hull
  by_cases hup : alignUp e (BitVec.twoPow w k) = 0
  · -- the rounding up wraps: the hull reaches to the end of the address space
    have hlast : 2 ^ w < e.toNat + 2 ^ k := by
      refine ((alignUp_eq_zero_iff hk).mp hup).resolve_left ?_
      rintro rfl
      omega
    rw [hup] at hne ⊢
    have hpos : (alignDown s (BitVec.twoPow w k)).toNat ≠ 0 := fun h0 =>
      hne (BitVec.eq_of_toNat_eq (hzero.trans h0.symm))
    rw [mem_span_sub_of_lt (by omega)]
    constructor
    · intro h
      rcases alignDown_eq_or_le hk (h.resolve_right (by omega)) with heq | hle
      · exact ⟨s, ⟨le_rfl, hse⟩, heq.symm⟩
      · exact ⟨_, ⟨hle, alignDown_lt_of_last hk hlast⟩, alignDown_alignDown hk x⟩
    · rintro ⟨y, ⟨hy, -⟩, hpage⟩
      exact Or.inl (alignDown_le_of_le hk hy hpage)
  · have hup' := alignUp_bounds hk hup
    rw [span_sub (by omega), mem_interval]
    constructor
    · rintro ⟨hlo, hhi⟩
      rcases alignDown_eq_or_le hk hlo with heq | hle
      · exact ⟨s, ⟨le_rfl, hse⟩, heq.symm⟩
      · exact ⟨_, ⟨hle, (alignDown_lt_iff hk hup).mpr hhi⟩, alignDown_alignDown hk x⟩
    · rintro ⟨y, ⟨hlo, hhi⟩, hpage⟩
      refine ⟨alignDown_le_of_le hk hlo hpage, (alignDown_lt_iff hk hup).mp ?_⟩
      have hy := alignDown_le hk y
      rw [← hpage]
      omega

/-- The hull of a range that goes around the end of the address space, and so do its rounded
bounds: the pages that meet the range. -/
lemma mem_hull_iff_of_wraps (hk : k < w) (hes : e.toNat < s.toNat)
    (hup : alignUp e (BitVec.twoPow w k) ≠ 0)
    (hlt : (alignUp e (BitVec.twoPow w k)).toNat < (alignDown s (BitVec.twoPow w k)).toNat) :
    x ∈ hull k s e ↔ ∃ y ∈ span s (e - s).toNat,
      alignDown y (BitVec.twoPow w k) = alignDown x (BitVec.twoPow w k) := by
  have hs := alignDown_le hk s
  rw [hull, mem_span_sub_of_lt hlt]
  constructor
  · rintro (hlo | hhi)
    · rcases alignDown_eq_or_le hk hlo with heq | hle
      · exact ⟨s, (mem_span_sub_of_lt hes).mpr (Or.inl le_rfl), heq.symm⟩
      · exact ⟨_, (mem_span_sub_of_lt hes).mpr (Or.inl hle), alignDown_alignDown hk x⟩
    · exact ⟨_, (mem_span_sub_of_lt hes).mpr (Or.inr ((alignDown_lt_iff hk hup).mpr hhi)),
        alignDown_alignDown hk x⟩
  · rintro ⟨y, hy, hpage⟩
    rcases (mem_span_sub_of_lt hes).mp hy with hlo | hhi
    · exact Or.inl (alignDown_le_of_le hk hlo hpage)
    · right
      have hy' := alignDown_le hk y
      rw [← alignDown_lt_iff hk hup, ← hpage]
      omega

/-- A range whose bounds are turned around, while their roundings are not, lies inside the page of
its start. -/
lemma alignDown_eq_of_mem_hull (hk : k < w) (hes : e.toNat ≤ s.toNat) (he : e ≠ 0)
    (hround : alignUp e (BitVec.twoPow w k) = 0 ∨
      (alignDown s (BitVec.twoPow w k)).toNat < (alignUp e (BitVec.twoPow w k)).toNat)
    (hx : x ∈ hull k s e) :
    alignDown x (BitVec.twoPow w k) = alignDown s (BitVec.twoPow w k) := by
  have hzero : (0 : BitVec w).toNat = 0 := by simp
  unfold hull at hx
  by_cases hup : alignUp e (BitVec.twoPow w k) = 0
  · have hlast := ((alignUp_eq_zero_iff hk).mp hup).resolve_left he
    rw [hup] at hx
    rcases Nat.eq_zero_or_pos (alignDown s (BitVec.twoPow w k)).toNat with h0 | hpos
    · rw [span_sub (by omega), mem_interval] at hx
      omega
    · rw [mem_span_sub_of_lt (by omega)] at hx
      refine (alignDown_eq_or_le hk (hx.resolve_right (by omega))).resolve_right ?_
      have := alignDown_lt_of_last (x := x) hk hlast
      omega
  · have hlt := hround.resolve_left hup
    rw [span_sub hlt.le, mem_interval] at hx
    refine (alignDown_eq_or_le hk hx.1).resolve_right ?_
    have := (alignDown_lt_iff hk hup).mpr hx.2
    omega

end Rounding
