import InstaX.Runtime.ImageContents
import InstaX.Runtime.Reservation

/-!
# What the reservation covers

The constructor rounds the bounds of the image to host pages and reserves the pages between them, or
else a window that starts at the rounded lower bound.  The sums are words: an upper bound in the
last page of the address space rounds to zero, a span of at least half of it has a double that
wraps, and a window can reach beyond `2 ^ 64`.  In all three cases the constructor returns with a
reservation that does not cover the image, and in no others (`construct_covers_iff`).
-/

namespace InstaX

open Throwing Rounding ByteStore

namespace GuestMemory

/-- The reservation covers the image, and the size of the window is the distance of its bounds. -/
structure CoversImage (m : GuestMemory) (imageLow imageHigh : U64) : Prop where
  low : m.reservedLow.toNat ≤ imageLow.toNat
  high : imageHigh.toNat ≤ m.reservedHigh.toNat
  size : (m.reservedHigh.toNat : ℤ) - m.reservedLow.toNat = m.windowSize.toNat

/-! ## The bounds as natural numbers -/

/-- The lower bound of the image, rounded down to a host page. -/
def hostPageBelow (k : HostKernel) (imageLow : U64) : ℕ :=
  imageLow.toNat - imageLow.toNat % 2 ^ k.pageBits

/-- The number of bytes of the image's host pages. -/
def imageSpan (k : HostKernel) (imageLow imageHigh : U64) : ℕ :=
  k.roundUpPage imageHigh.toNat - hostPageBelow k imageLow

/-- The number of bytes the fallback needs: what was asked for, rounded to host pages, if that is
enough and does not wrap, and else twice the image. -/
def fallBackBytes (k : HostKernel) (imageLow imageHigh fallBackWindowSize : U64) : ℕ :=
  if k.roundUpPage fallBackWindowSize.toNat < 2 ^ 64 ∧
      imageSpan k imageLow imageHigh ≤ k.roundUpPage fallBackWindowSize.toNat then
    k.roundUpPage fallBackWindowSize.toNat
  else 2 * imageSpan k imageLow imageHigh

/-- The host gives out the host pages of the image themselves. -/
def GrantsImage (k : HostKernel) (h : Host) (imageLow imageHigh : U64) : Prop :=
  k.place h (alignDown imageLow k.pageSize)
    (alignUp imageHigh k.pageSize - alignDown imageLow k.pageSize) .fixedNoReplace =
      some (alignDown imageLow k.pageSize)

/-- The image ends below the last host page of the address space, and the fallback, if it comes to
that, below its end. -/
def ReservationFits (k : HostKernel) (h : Host) (imageLow imageHigh fallBackWindowSize : U64) :
    Prop :=
  k.roundUpPage imageHigh.toNat < 2 ^ 64 ∧ (¬ GrantsImage k h imageLow imageHigh →
    hostPageBelow k imageLow + fallBackBytes k imageLow imageHigh fallBackWindowSize < 2 ^ 64)

section Bounds

variable {k : HostKernel} {imageLow imageHigh fallBack v : U64}

/-- The start of a host page is a multiple of its size. -/
lemma dvd_hostPageBelow (k : HostKernel) (v : U64) : 2 ^ k.pageBits ∣ hostPageBelow k v :=
  Nat.dvd_sub_mod _

/-- So is a number that is rounded up. -/
lemma dvd_roundUpPage (k : HostKernel) (n : ℕ) : 2 ^ k.pageBits ∣ k.roundUpPage n :=
  dvd_ceilTo _ _

/-- Rounding down gives the start of the host page. -/
lemma toNat_alignDown_pageSize (k : HostKernel) (v : U64) :
    (alignDown v k.pageSize).toNat = hostPageBelow k v :=
  toNat_alignDown k.pageBits_lt v

/-- Rounding up wraps at the end of the address space. -/
lemma toNat_alignUp_pageSize (k : HostKernel) (v : U64) :
    (alignUp v k.pageSize).toNat = k.roundUpPage v.toNat % 2 ^ 64 :=
  toNat_alignUp_eq_ceilTo k.pageBits_lt v

/-- The page size divides the address space. -/
lemma pageSize_dvd (k : HostKernel) : 2 ^ k.pageBits ∣ 2 ^ 64 := Nat.pow_dvd_pow 2 k.pageBits_lt.le

/-- The start of the page is not above the address. -/
lemma hostPageBelow_le (k : HostKernel) (v : U64) : hostPageBelow k v ≤ v.toNat := Nat.sub_le _ _

/-- Rounding up does not go down. -/
lemma le_roundUpPage (k : HostKernel) (n : ℕ) : n ≤ k.roundUpPage n :=
  le_ceilTo (Nat.two_pow_pos _) n

/-- Rounding up stays in the address space or ends at its end. -/
lemma roundUpPage_le (k : HostKernel) (v : U64) : k.roundUpPage v.toNat ≤ 2 ^ 64 :=
  (ceilTo_le_iff (Nat.two_pow_pos _) (pageSize_dvd k)).mpr v.isLt.le

/-- A multiple of the page size below `2 ^ 64` keeps a page away from it. -/
lemma add_pageSize_le {n : ℕ} (hdvd : 2 ^ k.pageBits ∣ n) (hlt : n < 2 ^ 64) :
    n + 2 ^ k.pageBits ≤ 2 ^ 64 := by
  have hgap := Nat.le_of_dvd (by omega) (Nat.dvd_sub (pageSize_dvd k) hdvd)
  omega

/-- The image's last page is the first one that reaches its end. -/
lemma roundUpPage_lt_add (k : HostKernel) (n : ℕ) : k.roundUpPage n < n + 2 ^ k.pageBits :=
  ceilTo_lt_add (Nat.two_pow_pos _) n

/-- The image span goes from the page of its start to that of its end. -/
lemma imageSpan_pos (horder : imageLow.toNat < imageHigh.toNat) :
    0 < imageSpan k imageLow imageHigh ∧
      hostPageBelow k imageLow + imageSpan k imageLow imageHigh =
        k.roundUpPage imageHigh.toNat := by
  have hlow := hostPageBelow_le k imageLow
  have hhigh := le_roundUpPage k imageHigh.toNat
  unfold imageSpan
  omega

/-- The number of bytes of the probed range, unless its end wraps. -/
lemma toNat_probeSize (horder : imageLow.toNat < imageHigh.toNat)
    (hhigh : k.roundUpPage imageHigh.toNat < 2 ^ 64) :
    (alignUp imageHigh k.pageSize - alignDown imageLow k.pageSize).toNat =
      imageSpan k imageLow imageHigh := by
  have hspan := imageSpan_pos (k := k) horder
  have hup := toNat_alignUp_pageSize k imageHigh
  have hdown := toNat_alignDown_pageSize k imageLow
  rw [Nat.mod_eq_of_lt hhigh] at hup
  rw [BitVec.toNat_sub_of_le (BitVec.le_def.mpr (by omega)), hup, hdown]
  omega

/-- An even number of pages, modulo the word, is rounded already. -/
lemma toNat_alignUp_double (hdvd : 2 ^ k.pageBits ∣ v.toNat) :
    (alignUp (v * 2) k.pageSize).toNat = 2 * v.toNat % 2 ^ 64 := by
  have htwo : (v * 2).toNat = 2 * v.toNat % 2 ^ 64 := by
    rw [BitVec.toNat_mul, mul_comm]
    rfl
  have hdouble : 2 ^ k.pageBits ∣ 2 * v.toNat % 2 ^ 64 :=
    (Nat.dvd_mod_iff (pageSize_dvd k)).mpr (Dvd.dvd.mul_left hdvd 2)
  have hlt : 2 * v.toNat % 2 ^ 64 < 2 ^ 64 := Nat.mod_lt _ (by omega)
  rw [toNat_alignUp_pageSize, htwo, HostKernel.roundUpPage, ← ceilTo,
    ceilTo_of_dvd (Nat.two_pow_pos _) hdouble, Nat.mod_eq_of_lt hlt]

end Bounds

/-! ## The two paths -/

section Paths

variable {k : HostKernel} {h h' : Host} {m : GuestMemory} {imageLow imageHigh fallBack : U64}

/-- The size of the window that the fallback asks for. -/
def windowSizeOf (k : HostKernel) (imageLow imageHigh fallBack : U64) : U64 :=
  if alignUp fallBack k.pageSize < alignUp imageHigh k.pageSize - alignDown imageLow k.pageSize then
    alignUp ((alignUp imageHigh k.pageSize - alignDown imageLow k.pageSize) * 2) k.pageSize
  else alignUp fallBack k.pageSize

/-- What the constructor returns: the host pages of the image, or a window that is not empty. -/
lemma construct_cases (hrun : (construct k imageLow imageHigh fallBack).run h = .ok m h') :
    GrantsImage k h imageLow imageHigh ∧
      m.reservedLow = alignDown imageLow k.pageSize ∧
        m.reservedHigh = alignUp imageHigh k.pageSize ∧
      m.windowSize = alignUp imageHigh k.pageSize - alignDown imageLow k.pageSize ∨
    ¬ GrantsImage k h imageLow imageHigh ∧ windowSizeOf k imageLow imageHigh fallBack ≠ 0 ∧
      m.reservedLow = alignDown imageLow k.pageSize ∧
      m.reservedHigh = alignDown imageLow k.pageSize + windowSizeOf k imageLow imageHigh fallBack ∧
      m.windowSize = windowSizeOf k imageLow imageHigh fallBack := by
  have hget : (get : Prog Host Host).run h = .ok h h := rfl
  have hgrant : (k.mmap h (alignDown imageLow k.pageSize)
      (alignUp imageHigh k.pageSize - alignDown imageLow k.pageSize) PROT_NONE .fixedNoReplace).1 =
        some (alignDown imageLow k.pageSize) ↔ GrantsImage k h imageLow imageHigh := by
    unfold HostKernel.mmap GrantsImage
    cases k.place h (alignDown imageLow k.pageSize)
      (alignUp imageHigh k.pageSize - alignDown imageLow k.pageSize) .fixedNoReplace <;> rfl
  have hwindowSize : (if alignUp fallBack k.pageSize <
      alignUp imageHigh k.pageSize - alignDown imageLow k.pageSize then
        alignUp ((alignUp imageHigh k.pageSize - alignDown imageLow k.pageSize) * 2) k.pageSize
      else alignUp fallBack k.pageSize) = windowSizeOf k imageLow imageHigh fallBack := rfl
  unfold construct at hrun
  dsimp only at hrun
  rw [hwindowSize] at hrun
  split_ifs at hrun with hsize
  · cases hrun
  · rw [run_bind_of_ok hget] at hrun
    by_cases hgranted : GrantsImage k h imageLow imageHigh
    · rw [if_pos (hgrant.mpr hgranted)] at hrun
      cases hrun
      exact Or.inl ⟨hgranted, rfl, rfl, rfl⟩
    · rw [if_neg fun hmap => hgranted (hgrant.mp hmap), run_bind_eq_ok_iff] at hrun
      obtain ⟨_, h₀, -, hwindow⟩ := hrun
      obtain ⟨base, hplace, rfl⟩ := eq_of_reserveWindow hwindow
      refine Or.inr ⟨hgranted, ?_, rfl, rfl, rfl⟩
      intro hzero
      rw [hzero, k.place_zero] at hplace
      cases hplace

/-- The size of the window as a number: what the fallback needs, modulo the word. -/
lemma toNat_windowSizeOf (horder : imageLow.toNat < imageHigh.toNat)
    (hhigh : k.roundUpPage imageHigh.toNat < 2 ^ 64) :
    (windowSizeOf k imageLow imageHigh fallBack).toNat =
      fallBackBytes k imageLow imageHigh fallBack % 2 ^ 64 := by
  have hspan := imageSpan_pos (k := k) horder
  have hprobe := toNat_probeSize horder hhigh
  have hup := toNat_alignUp_pageSize k fallBack
  have hle := roundUpPage_le k fallBack
  have hdvd : 2 ^ k.pageBits ∣
      (alignUp imageHigh k.pageSize - alignDown imageLow k.pageSize).toNat := by
    rw [hprobe]
    exact Nat.dvd_sub (dvd_roundUpPage _ _) (dvd_hostPageBelow _ _)
  unfold windowSizeOf fallBackBytes
  rw [← hprobe]
  by_cases hfits : k.roundUpPage fallBack.toNat < 2 ^ 64
  · rw [Nat.mod_eq_of_lt hfits] at hup
    by_cases hsmall : alignUp fallBack k.pageSize <
        alignUp imageHigh k.pageSize - alignDown imageLow k.pageSize
    · have hnot := BitVec.lt_def.mp hsmall
      rw [if_pos hsmall, if_neg (by omega), toNat_alignUp_double hdvd]
    · rw [BitVec.lt_def] at hsmall
      rw [if_neg (by rwa [BitVec.lt_def]), if_pos ⟨hfits, by omega⟩, hup, Nat.mod_eq_of_lt hfits]
  · have hzero : (alignUp fallBack k.pageSize).toNat = 0 := by
      rw [hup, le_antisymm hle (not_lt.mp hfits), Nat.mod_self]
    have hsmall : alignUp fallBack k.pageSize <
        alignUp imageHigh k.pageSize - alignDown imageLow k.pageSize := by
      rw [BitVec.lt_def]
      omega
    rw [if_pos hsmall, if_neg fun hboth => hfits hboth.1, toNat_alignUp_double hdvd]

/-- A window consists of host pages. -/
lemma dvd_windowSizeOf (k : HostKernel) (imageLow imageHigh fallBack : U64) :
    2 ^ k.pageBits ∣ (windowSizeOf k imageLow imageHigh fallBack).toNat := by
  unfold windowSizeOf
  split_ifs
  · exact dvd_alignDown k.pageBits_lt _
  · exact dvd_alignDown k.pageBits_lt _

/-- The fallback has room for the image. -/
lemma imageSpan_le_fallBackBytes (k : HostKernel) (imageLow imageHigh fallBack : U64) :
    imageSpan k imageLow imageHigh ≤ fallBackBytes k imageLow imageHigh fallBack := by
  unfold fallBackBytes
  split_ifs with hfits
  · exact hfits.2
  · omega

/-- A double that wraps is too small for the image. -/
lemma lt_of_fallBackBytes_wraps (horder : imageLow.toNat < imageHigh.toNat)
    (hhigh : k.roundUpPage imageHigh.toNat < 2 ^ 64)
    (hwraps : 2 ^ 64 ≤ fallBackBytes k imageLow imageHigh fallBack) :
    hostPageBelow k imageLow + fallBackBytes k imageLow imageHigh fallBack % 2 ^ 64 <
      imageHigh.toNat := by
  obtain ⟨hpos, hspan⟩ := imageSpan_pos (k := k) horder
  have hroom := add_pageSize_le (dvd_roundUpPage k imageHigh.toNat) hhigh
  have hlast := roundUpPage_lt_add k imageHigh.toNat
  have hdouble : fallBackBytes k imageLow imageHigh fallBack =
    2 * imageSpan k imageLow imageHigh := by
    unfold fallBackBytes at hwraps ⊢
    split_ifs at hwraps ⊢ with hfits
    · omega
    · rfl
  rw [hdouble] at hwraps ⊢
  rw [Nat.mod_eq_sub_mod hwraps, Nat.mod_eq_of_lt (by omega)]
  omega

/-- Whenever the constructor returns, the reservation covers the image, exactly if the image ends
below the last host page and the fallback, where it was needed, fits below `2 ^ 64`. -/
theorem construct_covers_iff (horder : imageLow < imageHigh)
    (hrun : (construct k imageLow imageHigh fallBack).run h = .ok m h') :
    m.CoversImage imageLow imageHigh ↔ ReservationFits k h imageLow imageHigh fallBack := by
  rw [BitVec.lt_def] at horder
  have hbelow := hostPageBelow_le k imageLow
  have hup := toNat_alignUp_pageSize k imageHigh
  have hdown := toNat_alignDown_pageSize k imageLow
  have hself := le_roundUpPage k imageHigh.toNat
  have hle := roundUpPage_le k imageHigh
  obtain ⟨hpos, hspan⟩ := imageSpan_pos (k := k) horder
  rcases construct_cases hrun with ⟨hgranted, hlo, hhi, hsize⟩ |
    ⟨hrefused, hnonempty, hlo, hhi, hsize⟩
  · -- the host pages of the image themselves
    rw [ReservationFits, and_iff_left fun hnot => absurd hgranted hnot]
    constructor
    · intro hcovers
      have hhigh := hcovers.high
      rw [hhi, hup] at hhigh
      by_contra hwraps
      rw [le_antisymm hle (not_lt.mp hwraps), Nat.mod_self] at hhigh
      omega
    · intro hfits
      rw [Nat.mod_eq_of_lt hfits] at hup
      refine ⟨by rw [hlo, hdown]; exact hbelow, by rw [hhi, hup]; exact hself, ?_⟩
      rw [hlo, hhi, hsize, toNat_probeSize horder hfits, hup, hdown]
      omega
  · -- a window
    rw [ReservationFits, imp_iff_right hrefused]
    have hwindow : m.reservedHigh.toNat = (hostPageBelow k imageLow +
        (windowSizeOf k imageLow imageHigh fallBack).toNat) % 2 ^ 64 := by
      rw [hhi, BitVec.toNat_add, hdown]
    constructor
    · intro hcovers
      have hhigh := hcovers.high
      have hdist := hcovers.size
      rw [hlo, hsize, hdown] at hdist
      have hend : m.reservedHigh.toNat = hostPageBelow k imageLow +
          (windowSizeOf k imageLow imageHigh fallBack).toNat := by omega
      have hlt := m.reservedHigh.isLt
      have hpages : 2 ^ k.pageBits ∣ m.reservedHigh.toNat := by
        rw [hend]
        exact Nat.dvd_add (dvd_hostPageBelow _ _) (dvd_windowSizeOf _ _ _ _)
      have hrounded : k.roundUpPage imageHigh.toNat < 2 ^ 64 :=
        ((ceilTo_le_iff (Nat.two_pow_pos _) hpages).mpr hhigh).trans_lt hlt
      refine ⟨hrounded, ?_⟩
      rw [toNat_windowSizeOf horder hrounded] at hend
      by_contra hover
      by_cases hwraps : 2 ^ 64 ≤ fallBackBytes k imageLow imageHigh fallBack
      · have := lt_of_fallBackBytes_wraps horder hrounded hwraps
        omega
      · rw [Nat.mod_eq_of_lt (not_le.mp hwraps)] at hend
        omega
    · rintro ⟨hrounded, hfits⟩
      have hroom := imageSpan_le_fallBackBytes k imageLow imageHigh fallBack
      have hbytes : (windowSizeOf k imageLow imageHigh fallBack).toNat =
          fallBackBytes k imageLow imageHigh fallBack := by
        rw [toNat_windowSizeOf horder hrounded, Nat.mod_eq_of_lt (by omega)]
      rw [hbytes, Nat.mod_eq_of_lt hfits] at hwindow
      refine ⟨by rw [hlo, hdown]; exact hbelow, by omega, ?_⟩
      rw [hwindow, hlo, hsize, hdown, hbytes]
      omega

/-- An image of two pages, reserved through the fallback. -/
theorem construct_covers_iff_window :
    (construct smallPages 0x400000 0x402000 0x10000).run emptyHost = .ok windowMemory windowHost ∧
      (windowMemory.CoversImage 0x400000 0x402000 ↔
        ReservationFits smallPages emptyHost 0x400000 0x402000 0x10000) := by
  have hrun : (construct smallPages 0x400000 0x402000 0x10000).run emptyHost =
      .ok windowMemory windowHost := run_construct_window (Or.inl rfl)
  exact ⟨hrun, construct_covers_iff (by decide) hrun⟩

/-- An image at the addresses of an operating system kernel: the host refuses them, and a window of
four gigabytes from there on ends beyond `2 ^ 64`. -/
theorem construct_misses_highImage : ∃ m h',
    (construct smallPages 0xffffffff80000000 0xffffffff80002000 0x100000000).run emptyHost =
      .ok m h' ∧
    ¬ m.CoversImage 0xffffffff80000000 0xffffffff80002000 := by
  have hfree : isFree emptyHost 0x70000000 0x100000000 = true := by
    simp [isFree, emptyHost]
  have hplace : smallPages.place emptyHost 0 0x100000000 .anywhere = some 0x70000000 := by
    rw [smallPages, windowKernel]
    dsimp only
    rw [if_neg (by decide), if_neg (by decide), if_pos ⟨rfl, hfree⟩]
  have hlow : alignDown 0xffffffff80000000 smallPages.pageSize = 0xffffffff80000000 := by decide
  refine ⟨_, _, run_construct_of_refused hlow rfl (by decide) (by decide) (by decide)
    windowKernel_refuses hplace, fun h => ?_⟩
  exact absurd h.high (by decide)

end Paths

end GuestMemory

end InstaX
