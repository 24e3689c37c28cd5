import InstaX.Runtime.GuestMemory

/-!
# When guest accesses are checked correctly

`isMapped` is meant to say whether every byte of a range lies in a recorded region.  It walks the
pages from the range's first page to the rounding up of its last byte, with all sums modulo `2 ^
64`.  Against a list of well-formed regions, `isMapped_iff` states what the walk visits.  Three
things make it differ from its purpose: a region that ends at `2 ^ 64` is never found, the page
after the last byte is asked for too unless that byte begins a page, and a rounding or a sum that
wraps leaves few pages to visit or none.

`complete_iff` says for which ranges of recorded bytes the accesses succeed, and `sound_iff` for
which ranges a successful access stays inside the recorded regions.
-/

namespace InstaX

open Throwing Rounding ByteStore

/-! ## Recorded regions -/

namespace GuestRegion

/-- One past the last byte, as a natural number. -/
def hi (r : GuestRegion) : ℕ := r.guestAddr.toNat + r.length.toNat

/-- A region of whole pages that is not empty and does not wrap. -/
structure WellFormed (r : GuestRegion) : Prop where
  page_start : 4096 ∣ r.guestAddr.toNat
  page_length : 4096 ∣ r.length.toNat
  nonempty : 0 < r.length.toNat
  hi_le : r.hi ≤ 2 ^ 64

end GuestRegion

namespace GuestMemory

/-- All recorded regions are well formed. -/
def WellFormed (m : GuestMemory) : Prop := ∀ r ∈ m.regions, r.WellFormed

/-- The byte at `b` lies in a recorded region. -/
def Recorded (m : GuestMemory) (b : ℕ) : Prop :=
  ∃ r ∈ m.regions, r.guestAddr.toNat ≤ b ∧ b < r.hi

/-- The byte at `b` lies in a recorded region that ends below `2 ^ 64`. -/
def Found (m : GuestMemory) (b : ℕ) : Prop :=
  ∃ r ∈ m.regions, r.guestAddr.toNat ≤ b ∧ b < r.hi ∧ r.hi < 2 ^ 64

instance (m : GuestMemory) (b : ℕ) : Decidable (m.Found b) :=
  inferInstanceAs (Decidable (∃ r ∈ m.regions, r.guestAddr.toNat ≤ b ∧ b < r.hi ∧ r.hi < 2 ^ 64))

/-- Every byte of `[a, a + n)` lies in a recorded region, and the range does not wrap. -/
def RecordedRange (m : GuestMemory) (a n : U64) : Prop :=
  a.toNat + n.toNat ≤ 2 ^ 64 ∧ ∀ b, a.toNat ≤ b → b < a.toNat + n.toNat → m.Recorded b

variable {m : GuestMemory}

/-- What the walk finds is recorded. -/
lemma Found.recorded {b : ℕ} (h : m.Found b) : m.Recorded b := by
  obtain ⟨r, hr, hlo, hhi, -⟩ := h
  exact ⟨r, hr, hlo, hhi⟩

/-- Regions consist of whole pages. -/
lemma found_congr (hm : m.WellFormed) {b c : ℕ} (hpage : b / 4096 = c / 4096) (h : m.Found b) :
    m.Found c := by
  obtain ⟨r, hr, hlo, hhi, hend⟩ := h
  have hstart := (hm r hr).page_start
  have hlength := (hm r hr).page_length
  unfold GuestRegion.hi at hhi
  refine ⟨r, hr, by omega, by rw [GuestRegion.hi]; omega, hend⟩

/-- No region that ends below `2 ^ 64` reaches into the last page. -/
lemma not_found_last_page (hm : m.WellFormed) {b : ℕ} (hb : 2 ^ 64 - 4096 ≤ b) : ¬ m.Found b := by
  rintro ⟨r, hr, hlo, hhi, hend⟩
  have hstart := (hm r hr).page_start
  have hlength := (hm r hr).page_length
  unfold GuestRegion.hi at hhi hend
  omega

/-- A lookup succeeds exactly in the regions that end below `2 ^ 64`. -/
lemma findRegion_isSome_iff (hm : m.WellFormed) (p : U64) :
    (m.findRegion p).isSome = true ↔ m.Found p.toNat := by
  rw [findRegion, List.find?_isSome, Found]
  refine exists_congr fun r => and_congr_right fun hr => ?_
  have hhi := (hm r hr).hi_le
  have hpos := (hm r hr).nonempty
  have hlt : p.toNat < 2 ^ 64 := p.isLt
  rw [decide_eq_true_eq, BitVec.le_def, BitVec.lt_def, BitVec.toNat_add]
  unfold GuestRegion.hi at hhi ⊢
  by_cases hend : r.guestAddr.toNat + r.length.toNat = 2 ^ 64
  · rw [hend, Nat.mod_self]
    omega
  · rw [Nat.mod_eq_of_lt (by omega)]
    omega

/-! ## What the page walk visits -/

/-- The guest page size as a power of two. -/
lemma guestPageSize_eq : GUEST_PAGE_SIZE = BitVec.twoPow 64 12 := by
  decide

/-- Rounding down to a page subtracts the remainder. -/
lemma toNat_guestPageAlignDown (a : U64) :
    (guestPageAlignDown a).toNat = a.toNat - a.toNat % 4096 := by
  rw [guestPageAlignDown, guestPageSize_eq, toNat_alignDown (by omega)]
  rfl

/-- Rounding up to a page adds what is missing. -/
lemma toNat_guestPageAlignUp {a : U64} (ha : a.toNat ≤ 2 ^ 64 - 4096) :
    (guestPageAlignUp a).toNat = a.toNat + 4095 - (a.toNat + 4095) % 4096 := by
  rw [guestPageAlignUp, guestPageSize_eq, toNat_alignUp (by omega) (by omega)]
  rfl

/-- On the last page rounding up wraps to zero. -/
lemma guestPageAlignUp_eq_zero {a : U64} (ha : 2 ^ 64 - 4096 < a.toNat) :
    guestPageAlignUp a = 0 := by
  rw [guestPageAlignUp, guestPageSize_eq, alignUp_eq_zero (by omega) (by omega)]

/-- Rounding up to a guest page gives a multiple of the page size. -/
lemma dvd_guestPageAlignUp (v : U64) : 4096 ∣ (guestPageAlignUp v).toNat := by
  rw [guestPageAlignUp, guestPageSize_eq]
  exact dvd_alignDown (w := 64) (k := 12) (by omega) _

/-- The start of a page is not moved by rounding down. -/
lemma guestPageAlignDown_of_dvd {a : U64} (ha : 4096 ∣ a.toNat) : guestPageAlignDown a = a := by
  apply BitVec.eq_of_toNat_eq
  rw [toNat_guestPageAlignDown]
  omega

/-- The start of a page is not moved by rounding up. -/
lemma guestPageAlignUp_of_dvd {a : U64} (ha : 4096 ∣ a.toNat) : guestPageAlignUp a = a := by
  apply BitVec.eq_of_toNat_eq
  rw [toNat_guestPageAlignUp (by omega)]
  omega

/-- The last byte of a range, as the code computes it. -/
lemma toNat_last {a n : U64} (hn : 0 < n.toNat) :
    (a + n - 1).toNat = (a.toNat + n.toNat - 1) % 2 ^ 64 := by
  have hone : (1 : U64).toNat = 1 := rfl
  have hsub : (n - 1).toNat = n.toNat - 1 := by
    rw [BitVec.toNat_sub_of_le (by rw [BitVec.le_def, hone]; exact hn), hone]
  rw [add_sub_assoc, BitVec.toNat_add, hsub, Nat.add_sub_assoc hn]

/-- The walk looks up every page between its two bounds. -/
lemma isMapped_iff_findRegion {a n : U64} (hn : 0 < n.toNat) :
    m.isMapped a n = true ↔ ∀ p : U64, 4096 ∣ p.toNat → a.toNat < p.toNat + 4096 →
      p.toNat ≤ (guestPageAlignUp (a + n - 1)).toNat → (m.findRegion p).isSome = true := by
  have hne : n ≠ 0 := by
    rintro rfl
    simp at hn
  have hfirst := toNat_guestPageAlignDown a
  have hstep : GUEST_PAGE_SIZE.toNat = 4096 := rfl
  rw [isMapped, if_neg hne, strideAll_eq_true_iff (by decide) (by rw [hstep]; omega), hstep]
  refine forall_congr' fun p => ?_
  rw [Nat.ModEq]
  constructor
  · intro h hp ha hlast
    exact h (by omega) hlast (by omega)
  · intro h hge hle hmod
    exact h (by omega) (by omega) hle

/-- With well-formed regions the walk asks for the regions that end below `2 ^ 64`. -/
lemma isMapped_iff_walk (hm : m.WellFormed) {a n : U64} (hn : 0 < n.toNat) :
    m.isMapped a n = true ↔ ∀ p, 4096 ∣ p → a.toNat < p + 4096 →
      p ≤ (guestPageAlignUp (a + n - 1)).toNat → m.Found p := by
  rw [isMapped_iff_findRegion hn]
  constructor
  · intro h p hp ha hlast
    have hlt := (guestPageAlignUp (a + n - 1)).isLt
    have hval : (BitVec.ofNat 64 p).toNat = p := by
      rw [BitVec.toNat_ofNat, Nat.mod_eq_of_lt (by omega)]
    have hfound := h (BitVec.ofNat 64 p) (by rwa [hval]) (by rwa [hval]) (by rwa [hval])
    rwa [findRegion_isSome_iff hm, hval] at hfound
  · intro h p hp ha hlast
    exact (findRegion_isSome_iff hm p).mpr (h p.toNat hp ha hlast)

/-- The walk of a range whose last byte is not above the last page's start. -/
lemma isMapped_iff_of_le (hm : m.WellFormed) {a n : U64} (hn : 0 < n.toNat)
    (hlast : a.toNat + n.toNat - 1 ≤ 2 ^ 64 - 4096) :
    m.isMapped a n = true ↔ ∀ p, 4096 ∣ p → a.toNat < p + 4096 →
      p < a.toNat + n.toNat - 1 + 4096 → m.Found p := by
  have hsum : (a + n - 1).toNat = a.toNat + n.toNat - 1 := by
    rw [toNat_last hn, Nat.mod_eq_of_lt (by omega)]
  have hround := toNat_guestPageAlignUp (a := a + n - 1) (by omega)
  rw [isMapped_iff_walk hm hn]
  refine forall_congr' fun p => forall_congr' fun hp => forall_congr' fun _ => ?_
  rw [hround, hsum]
  exact imp_congr_left (by omega)

/-- A range that ends in the last page: the rounding up wraps to zero. -/
lemma isMapped_iff_of_last_page (hm : m.WellFormed) {a n : U64} (hn : 0 < n.toNat)
    (hlast : 2 ^ 64 - 4096 < a.toNat + n.toNat - 1) (hfits : a.toNat + n.toNat ≤ 2 ^ 64) :
    m.isMapped a n = true ↔ (a.toNat < 4096 → m.Found 0) := by
  have hsum : (a + n - 1).toNat = a.toNat + n.toNat - 1 := by
    rw [toNat_last hn, Nat.mod_eq_of_lt (by omega)]
  rw [isMapped_iff_walk hm hn, guestPageAlignUp_eq_zero (by omega)]
  constructor
  · intro h ha
    exact h 0 (by omega) (by omega) (by simp)
  · intro h p hp ha hle
    obtain rfl : p = 0 := by simpa using hle
    exact h (by omega)

/-- A range that wraps: the walk ends with the page of the wrapped last byte, rounded up. -/
lemma isMapped_iff_of_wraps (hm : m.WellFormed) {a n : U64} (hn : 0 < n.toNat)
    (hwraps : 2 ^ 64 < a.toNat + n.toNat) :
    m.isMapped a n = true ↔ ∀ p, 4096 ∣ p → a.toNat < p + 4096 →
      p < a.toNat + n.toNat - 1 - 2 ^ 64 + 4096 →
      a.toNat + n.toNat - 1 - 2 ^ 64 ≤ 2 ^ 64 - 4096 → m.Found p := by
  have ha : a.toNat < 2 ^ 64 := a.isLt
  have hn' : n.toNat < 2 ^ 64 := n.isLt
  have hsum : (a + n - 1).toNat = a.toNat + n.toNat - 1 - 2 ^ 64 := by
    rw [toNat_last hn, Nat.mod_eq_sub_mod (by omega), Nat.mod_eq_of_lt (by omega)]
  rw [isMapped_iff_walk hm hn]
  refine forall_congr' fun p => forall_congr' fun hp => forall_congr' fun hap => ?_
  by_cases hround : (a + n - 1).toNat ≤ 2 ^ 64 - 4096
  · rw [toNat_guestPageAlignUp hround, hsum]
    constructor
    · intro h hle _
      exact h (by omega)
    · intro h hle
      exact h (by omega) (by omega)
  · rw [guestPageAlignUp_eq_zero (by omega)]
    constructor
    · intro _ _ h
      omega
    · intro _ hle
      have hzero : (0 : U64).toNat = 0 := rfl
      omega

/-! ## Accesses that return -/

variable {w w' : World}

/-- `toHost` returns exactly on an address that passes `isMapped`. -/
lemma run_toHost_eq_ok_iff {a x : U64} :
    (toHost a).run w = .ok x w' ↔
      w.mem.isMapped a 1 = true ∧ x = a + w.mem.hostOffset ∧ w' = w := by
  rw [toHost, EStateM.run_bind]
  change (if w.mem.isMapped a 1 = true then pure (a + w.mem.hostOffset) else throw _ :
    Prog World U64).run w = .ok x w' ↔ _
  by_cases h : w.mem.isMapped a 1 = true
  · rw [if_pos h, EStateM.run_pure, EStateM.Result.ok.injEq]
    exact ⟨fun ⟨hx, hw⟩ => ⟨h, hx.symm, hw.symm⟩, fun ⟨_, hx, hw⟩ => ⟨hx.symm, hw.symm⟩⟩
  · rw [if_neg h, run_throw]
    exact iff_of_false (by simp) fun h' => h h'.1

/-- A range has a host address exactly if it and its first byte pass `isMapped`. -/
lemma run_toHostRange_eq_ok_iff {function : String} {a n x : U64} :
    (toHostRange function a n).run w = .ok x w' ↔
      (w.mem.isMapped a n = true ∧ w.mem.isMapped a 1 = true) ∧
        x = a + w.mem.hostOffset ∧ w' = w := by
  rw [toHostRange, EStateM.run_bind]
  change (if w.mem.isMapped a n = true then toHost a else throw _ : Prog World U64).run w =
    .ok x w' ↔ _
  by_cases h : w.mem.isMapped a n = true
  · rw [if_pos h, run_toHost_eq_ok_iff]
    tauto
  · rw [if_neg h, run_throw]
    exact iff_of_false (by simp) fun h' => h h'.1.1

/-- The check that `write`, `read` and `zero` make. -/
def Accessible (m : GuestMemory) (a n : U64) : Prop :=
  n ≠ 0 → m.isMapped a n = true ∧ m.isMapped a 1 = true

/-- The shape of the three accesses: nothing to do on an empty range, else a check and an
effect. -/
private lemma run_access_eq_ok_iff {α : Type} {function : String} {a n : U64}
    {f : U64 → Prog World α} {d x y : α} {g : World} (hzero : n = 0 → g = w ∧ y = d)
    (hf : (f (a + w.mem.hostOffset)).run w = .ok y g) :
    (if n = 0 then pure d else toHostRange function a n >>= f).run w = .ok x w' ↔
      w.mem.Accessible a n ∧ x = y ∧ w' = g := by
  unfold Accessible
  split_ifs with hn
  · obtain ⟨rfl, rfl⟩ := hzero hn
    rw [EStateM.run_pure, EStateM.Result.ok.injEq]
    exact ⟨fun ⟨hx, hw⟩ => ⟨fun h => absurd hn h, hx.symm, hw.symm⟩,
      fun ⟨_, hx, hw⟩ => ⟨hx.symm, hw.symm⟩⟩
  · rw [run_bind_eq_ok_iff]
    constructor
    · rintro ⟨p, s, hrange, hrun⟩
      obtain ⟨hmapped, rfl, rfl⟩ := run_toHostRange_eq_ok_iff.mp hrange
      obtain ⟨hx, hw⟩ := EStateM.Result.ok.inj (hf.symm.trans hrun)
      exact ⟨fun _ => hmapped, hx.symm, hw.symm⟩
    · rintro ⟨hmapped, rfl, rfl⟩
      exact ⟨_, _, run_toHostRange_eq_ok_iff.mpr ⟨hmapped hn, rfl, rfl⟩, hf⟩

/-- A write that returns copied its bytes to the host addresses of the range. -/
theorem run_write_eq_ok_iff {a n : U64} {src : ℕ → Byte} {x : Unit} :
    (write a src n).run w = .ok x w' ↔ w.mem.Accessible a n ∧
      w' = { w with host := w.host.memcpy (a + w.mem.hostOffset) src n } := by
  have h : (write a src n).run w = .ok x w' ↔ w.mem.Accessible a n ∧ x = ⟨⟩ ∧
      w' = { w with host := w.host.memcpy (a + w.mem.hostOffset) src n } := by
    unfold write
    refine run_access_eq_ok_iff (fun hn => ?_) rfl
    subst hn
    exact ⟨rfl, rfl⟩
  rw [h, and_iff_right rfl]

/-- Clearing that returns cleared the host addresses of the range. -/
theorem run_zero_eq_ok_iff {a n : U64} {x : Unit} :
    (zero a n).run w = .ok x w' ↔ w.mem.Accessible a n ∧
      w' = { w with host := w.host.memset (a + w.mem.hostOffset) 0 n } := by
  have h : (zero a n).run w = .ok x w' ↔ w.mem.Accessible a n ∧ x = ⟨⟩ ∧
      w' = { w with host := w.host.memset (a + w.mem.hostOffset) 0 n } := by
    unfold zero
    refine run_access_eq_ok_iff (fun hn => ?_) rfl
    subst hn
    exact ⟨rfl, rfl⟩
  rw [h, and_iff_right rfl]

/-- A read that returns gives the bytes at the host addresses of the range. -/
theorem run_read_eq_ok_iff {a n : U64} {bytes : List Byte} :
    (read a n).run w = .ok bytes w' ↔ w.mem.Accessible a n ∧
      bytes = w.host.load (a + w.mem.hostOffset) n.toNat ∧ w' = w := by
  unfold read
  refine run_access_eq_ok_iff (fun hn => ?_) rfl
  subst hn
  exact ⟨rfl, rfl⟩

/-! ## Completeness -/

/-- Every access to a range succeeds: the check, the three accesses to the whole range, and the
translation of every single byte. -/
structure CompleteOn (w : World) (a n : U64) : Prop where
  isMapped : w.mem.isMapped a n = true
  write : ∀ src, Returns (write a src n) w
  read : Returns (read a n) w
  zero : Returns (zero a n) w
  toHost : ∀ i < n.toNat, Returns (toHost (a + BitVec.ofNat 64 i)) w

/-- The ranges of recorded bytes on which the accesses succeed: those inside the last page without
its first byte, and those whose bytes are all recorded by regions that end below `2 ^ 64`, unless
the last byte does not begin a page and the page after it is not so recorded. -/
def CompleteWhen (m : GuestMemory) (a n : U64) : Prop :=
  2 ^ 64 - 4096 < a.toNat ∨
    (∀ b, a.toNat ≤ b → b < a.toNat + n.toNat → m.Found b) ∧
      (4096 ∣ a.toNat + n.toNat - 1 ∨ m.Found (a.toNat + n.toNat - 1 + 4096))

/-- An address has a host address exactly if it passes `isMapped`. -/
lemma returns_toHost {a : U64} : Returns (toHost a) w ↔ w.mem.isMapped a 1 = true := by
  simp [Returns, run_toHost_eq_ok_iff]

/-- A write returns exactly on an accessible range. -/
lemma returns_write {a n : U64} {src : ℕ → Byte} :
    Returns (write a src n) w ↔ w.mem.Accessible a n := by
  simp [Returns, run_write_eq_ok_iff]

/-- So does clearing. -/
lemma returns_zero {a n : U64} : Returns (zero a n) w ↔ w.mem.Accessible a n := by
  simp [Returns, run_zero_eq_ok_iff]

/-- So does a read. -/
lemma returns_read {a n : U64} : Returns (read a n) w ↔ w.mem.Accessible a n := by
  simp [Returns, run_read_eq_ok_iff]

/-- Completeness is about `isMapped` of the range and of its bytes. -/
lemma completeOn_iff {a n : U64} (hn : 0 < n.toNat) :
    CompleteOn w a n ↔ w.mem.isMapped a n = true ∧
      ∀ i < n.toNat, w.mem.isMapped (a + BitVec.ofNat 64 i) 1 = true := by
  constructor
  · intro h
    exact ⟨h.isMapped, fun i hi => returns_toHost.mp (h.toHost i hi)⟩
  · rintro ⟨hrange, hbytes⟩
    have hfirst : w.mem.isMapped a 1 = true := by
      simpa using hbytes 0 hn
    exact ⟨hrange, fun _ => returns_write.mpr fun _ => ⟨hrange, hfirst⟩,
      returns_read.mpr fun _ => ⟨hrange, hfirst⟩, returns_zero.mpr fun _ => ⟨hrange, hfirst⟩,
      fun i hi => returns_toHost.mpr (hbytes i hi)⟩

/-- A byte that can be translated is recorded by a region that ends below `2 ^ 64`, and so is the
page after it unless it begins a page. -/
lemma found_of_isMapped_one (hm : m.WellFormed) {a : U64} (ha : a.toNat ≤ 2 ^ 64 - 4096)
    (h : m.isMapped a 1 = true) :
    m.Found a.toNat ∧ (4096 ∣ a.toNat ∨ m.Found (a.toNat + 4096)) := by
  have hone : (1 : U64).toNat = 1 := rfl
  rw [isMapped_iff_of_le hm (by rw [hone]; omega) (by rw [hone]; omega), hone] at h
  refine ⟨found_congr hm (by omega) (h (a.toNat - a.toNat % 4096) (by omega) (by omega) (by omega)),
    ?_⟩
  by_cases hdvd : 4096 ∣ a.toNat
  · exact Or.inl hdvd
  · exact Or.inr (found_congr hm (by omega)
      (h (a.toNat - a.toNat % 4096 + 4096) (by omega) (by omega) (by omega)))

/-- The walk succeeds on a range that meets the second condition of completeness. -/
lemma isMapped_of_found (hm : m.WellFormed) {a n : U64} (hn : 0 < n.toNat)
    (hbytes : ∀ b, a.toNat ≤ b → b < a.toNat + n.toNat → m.Found b)
    (hnext : 4096 ∣ a.toNat + n.toNat - 1 ∨ m.Found (a.toNat + n.toNat - 1 + 4096)) :
    m.isMapped a n = true := by
  have hlast : a.toNat + n.toNat - 1 < 2 ^ 64 - 4096 := by
    by_contra hge
    exact not_found_last_page hm (by omega) (hbytes (a.toNat + n.toNat - 1) (by omega) (by omega))
  rw [isMapped_iff_of_le hm hn (by omega)]
  intro p hp hap hpl
  rcases le_or_gt p (a.toNat + n.toNat - 1) with hle | hgt
  · exact found_congr hm (by omega) (hbytes (max a.toNat p) (by omega) (by omega))
  · rcases hnext with hdvd | hfound
    · omega
    · exact found_congr hm (by omega) hfound

/-- If every byte of a range below the last page can be translated, the range meets the second
condition of completeness. -/
lemma found_of_forall_isMapped (hm : m.WellFormed) {a n : U64} (hn : 0 < n.toNat)
    (hlast : a.toNat + n.toNat ≤ 2 ^ 64 - 4096)
    (h : ∀ i < n.toNat, m.isMapped (a + BitVec.ofNat 64 i) 1 = true) :
    (∀ b, a.toNat ≤ b → b < a.toNat + n.toNat → m.Found b) ∧
      (4096 ∣ a.toNat + n.toNat - 1 ∨ m.Found (a.toNat + n.toNat - 1 + 4096)) := by
  have hfound : ∀ i < n.toNat, m.Found (a.toNat + i) ∧
      (4096 ∣ a.toNat + i ∨ m.Found (a.toNat + i + 4096)) := by
    intro i hi
    have hval : (a + BitVec.ofNat 64 i).toNat = a.toNat + i := toNat_add_ofNat (by omega)
    rw [← hval]
    exact found_of_isMapped_one hm (by omega) (h i hi)
  refine ⟨fun b hab hb => ?_, ?_⟩
  · rw [← Nat.add_sub_cancel' hab]
    exact (hfound (b - a.toNat) (by omega)).1
  · rw [Nat.add_sub_assoc hn]
    exact (hfound (n.toNat - 1) (by omega)).2

/-- Every byte of a range that meets the second condition of completeness can be translated: the
page after it is that of a later byte of the range or the one after the last byte. -/
lemma isMapped_one_of_found (hm : m.WellFormed) {a n : U64} (hfits : a.toNat + n.toNat ≤ 2 ^ 64)
    (hbytes : ∀ b, a.toNat ≤ b → b < a.toNat + n.toNat → m.Found b)
    (hnext : 4096 ∣ a.toNat + n.toNat - 1 ∨ m.Found (a.toNat + n.toNat - 1 + 4096)) {i : ℕ}
    (hi : i < n.toNat) : m.isMapped (a + BitVec.ofNat 64 i) 1 = true := by
  have hone : (1 : U64).toNat = 1 := rfl
  have hval : (a + BitVec.ofNat 64 i).toNat = a.toNat + i := toNat_add_ofNat (by omega)
  refine isMapped_of_found hm (by rw [hone]; omega) (fun b hab hb => ?_) ?_
  · exact hbytes b (by omega) (by rw [hone] at hb; omega)
  · rw [hval, hone, Nat.add_sub_cancel]
    rcases lt_trichotomy ((a.toNat + n.toNat - 1) / 4096) ((a.toNat + i) / 4096 + 1) with
      hlt | heq | hgt
    · rcases hnext with hdvd | hfound
      · exact Or.inl (by omega)
      · exact Or.inr (found_congr hm (by omega) hfound)
    · exact Or.inr (found_congr hm (by omega)
        (hbytes (a.toNat + n.toNat - 1) (by omega) (by omega)))
    · exact Or.inr (hbytes _ (by omega) (by omega))

/-- The code is complete on a range exactly under the condition. -/
lemma completeOn_iff_completeWhen (hm : w.mem.WellFormed) {a n : U64} (hn : 0 < n.toNat)
    (hfits : a.toNat + n.toNat ≤ 2 ^ 64) : CompleteOn w a n ↔ w.mem.CompleteWhen a n := by
  have hbyte : ∀ i < n.toNat, (a + BitVec.ofNat 64 i).toNat = a.toNat + i := fun i hi =>
    toNat_add_ofNat (by omega)
  have hone : (1 : U64).toNat = 1 := rfl
  rw [completeOn_iff hn, CompleteWhen]
  constructor
  · rintro ⟨-, hbytes⟩
    rw [or_iff_not_imp_left, not_lt]
    intro ha
    refine found_of_forall_isMapped hm hn ?_ hbytes
    -- the start of the last page cannot be translated, so the range ends before it
    by_contra hgt
    have hi : 2 ^ 64 - 4096 - a.toNat < n.toNat := by omega
    have hfound := found_of_isMapped_one hm (by rw [hbyte _ hi]; omega) (hbytes _ hi)
    rw [hbyte _ hi] at hfound
    exact not_found_last_page hm (by omega) hfound.1
  · rintro (ha | ⟨hbytes, hnext⟩)
    · -- nothing is visited
      refine ⟨(isMapped_iff_of_last_page hm hn (by omega) hfits).mpr fun h => by omega, ?_⟩
      intro i hi
      have hval := hbyte i hi
      exact (isMapped_iff_of_last_page hm (by rw [hone]; omega) (by rw [hone]; omega)
        (by rw [hone]; omega)).mpr fun h => by omega
    · exact ⟨isMapped_of_found hm hn hbytes hnext, fun i hi =>
        isMapped_one_of_found hm hfits hbytes hnext hi⟩

/-- All accesses to a range of recorded bytes succeed exactly when the range lies in the last page
without its first byte, or its bytes are recorded by regions that end below `2 ^ 64` and so is the
page after its last byte, unless that byte begins a page. -/
theorem complete_iff (hm : w.mem.WellFormed) {a n : U64} (hn : 0 < n.toNat) :
    (w.mem.RecordedRange a n → CompleteOn w a n) ↔
      (w.mem.RecordedRange a n → w.mem.CompleteWhen a n) :=
  imp_congr_right fun hrec => completeOn_iff_completeWhen hm hn hrec.1

/-- The pages `[0x1000, 0x3000)`, and a host whose memory is zero. -/
def twoPages : World where
  mem := ⟨0, 0x1000, 0x3000, 0x1000, 0x4000, [⟨0x1000, 0x2000, kProtRead, "data"⟩]⟩
  host := ⟨fun _ => 0, fun _ => none⟩

/-- The two pages are well formed. -/
lemma wellFormed_twoPages : twoPages.mem.WellFormed := by
  intro r hr
  obtain rfl := List.mem_singleton.mp hr
  exact ⟨by decide, by decide, by decide, by decide⟩

/-- The first of the two pages is accessible. -/
theorem complete_iff_twoPages :
    (twoPages.mem.RecordedRange 0x1000 0x1000 → CompleteOn twoPages 0x1000 0x1000) ↔
      (twoPages.mem.RecordedRange 0x1000 0x1000 → twoPages.mem.CompleteWhen 0x1000 0x1000) :=
  complete_iff wellFormed_twoPages (by decide)

/-- The second of the two pages is recorded, but `isMapped` asks for a third one. -/
theorem not_complete_last_page :
    twoPages.mem.WellFormed ∧ twoPages.mem.RecordedRange 0x2000 0x1000 ∧
      ¬ CompleteOn twoPages 0x2000 0x1000 := by
  refine ⟨wellFormed_twoPages, ⟨by decide, fun b hlo hhi => ?_⟩, fun h => ?_⟩
  · exact ⟨_, List.mem_singleton.mpr rfl, le_trans (by decide) hlo, hhi.trans_le (by decide)⟩
  · have hnext : twoPages.mem.Found 0x3000 :=
      (isMapped_iff_of_le wellFormed_twoPages (by decide) (by decide)).mp h.isMapped 0x3000
        (by decide) (by decide) (by decide)
    exact absurd hnext (by decide)

/-! ## Soundness -/

/-- A host address that holds a recorded guest byte. -/
def Backed (m : GuestMemory) (x : U64) : Prop :=
  ∃ b : U64, m.Recorded b.toNat ∧ x = b + m.hostOffset

/-- A successful check means that the range is recorded, and an access that returns only touches
host bytes behind recorded guest bytes: those from the translated address on. -/
structure SoundOn (w : World) (a n : U64) : Prop where
  isMapped : w.mem.isMapped a n = true → w.mem.RecordedRange a n
  write : ∀ src, Returns (write a src n) w →
    ∀ x ∈ span (a + w.mem.hostOffset) n.toNat, w.mem.Backed x
  read : Returns (read a n) w → ∀ x ∈ span (a + w.mem.hostOffset) n.toNat, w.mem.Backed x
  zero : Returns (zero a n) w → ∀ x ∈ span (a + w.mem.hostOffset) n.toNat, w.mem.Backed x
  toHost : n = 1 → Returns (toHost a) w →
    ∀ x ∈ span (a + w.mem.hostOffset) n.toNat, w.mem.Backed x

/-- The ranges on which a successful check can be trusted: those whose last byte is not above the
start of the last page; those that end in the last page, if all their bytes are recorded or the
first page is visited and not found; and those that wrap, if a page from that of `a` up to the
rounding of the wrapped last byte is not found, and that rounding does not wrap in turn. -/
def SoundWhen (m : GuestMemory) (a n : U64) : Prop :=
  let last := a.toNat + n.toNat - 1
  if last ≤ 2 ^ 64 - 4096 then True
  else if last < 2 ^ 64 then m.RecordedRange a n ∨ a.toNat < 4096 ∧ ¬ m.Found 0
  else ∃ p, 4096 ∣ p ∧ a.toNat < p + 4096 ∧ p < last - 2 ^ 64 + 4096 ∧
    last - 2 ^ 64 ≤ 2 ^ 64 - 4096 ∧ ¬ m.Found p

/-- Soundness is about `isMapped` of the range. -/
lemma soundOn_iff {a n : U64} (hn : 0 < n.toNat) :
    SoundOn w a n ↔ (w.mem.isMapped a n = true → w.mem.RecordedRange a n) := by
  refine ⟨SoundOn.isMapped, fun h => ?_⟩
  have hne : n ≠ 0 := by
    rintro rfl
    exact absurd hn (by decide)
  have hbacked : w.mem.isMapped a n = true →
      ∀ x ∈ span (a + w.mem.hostOffset) n.toNat, w.mem.Backed x := by
    intro hmapped x hx
    obtain ⟨hfits, hrec⟩ := h hmapped
    rw [← sub_add_cancel x w.mem.hostOffset, add_mem_span_add, mem_span_iff hfits] at hx
    exact ⟨x - w.mem.hostOffset, hrec _ hx.1 hx.2, (sub_add_cancel _ _).symm⟩
  refine ⟨h, fun src hret => hbacked (returns_write.mp hret hne).1,
    fun hret => hbacked (returns_read.mp hret hne).1,
    fun hret => hbacked (returns_zero.mp hret hne).1, ?_⟩
  rintro rfl hret
  exact hbacked (returns_toHost.mp hret)

/-- A successful check can be trusted exactly on the ranges of `SoundWhen`. -/
theorem sound_iff (hm : w.mem.WellFormed) {a n : U64} (hn : 0 < n.toNat) :
    SoundOn w a n ↔ w.mem.SoundWhen a n := by
  have ha : a.toNat < 2 ^ 64 := a.isLt
  rw [soundOn_iff hn, SoundWhen]
  split_ifs with hlow hfits
  · -- every byte's page is visited
    refine iff_of_true (fun h => ⟨by omega, fun b hab hb => ?_⟩) trivial
    rw [isMapped_iff_of_le hm hn hlow] at h
    exact (found_congr hm (by omega)
      (h (b - b % 4096) (by omega) (by omega) (by omega))).recorded
  · rw [isMapped_iff_of_last_page hm hn (by omega) (by omega)]
    constructor
    · intro h
      by_contra hnot
      rw [not_or, not_and, not_not] at hnot
      exact hnot.1 (h hnot.2)
    · rintro (hrec | ⟨hfirst, hnot⟩) h
      · exact hrec
      · exact absurd (h hfirst) hnot
  · rw [isMapped_iff_of_wraps hm hn (by omega)]
    constructor
    · intro h
      by_contra hnot
      have hrange : w.mem.RecordedRange a n := by
        refine h fun p hp hap hpl hround => ?_
        by_contra hfound
        exact hnot ⟨p, hp, hap, hpl, hround, hfound⟩
      have := hrange.1
      omega
    · rintro ⟨p, hp, hap, hpl, hround, hfound⟩ h
      exact absurd (h p hp hap hpl hround) hfound

/-- The first page and part of the second. -/
theorem sound_iff_twoPages :
    SoundOn twoPages 0x1000 0x1800 ↔ twoPages.mem.SoundWhen 0x1000 0x1800 :=
  sound_iff wellFormed_twoPages (by decide)

/-- No byte of the last page is recorded, but a range inside it is accepted. -/
theorem not_sound_last_byte :
    twoPages.mem.WellFormed ∧ twoPages.mem.isMapped 0xffffffffffffffff 1 = true ∧
      ¬ twoPages.mem.Recorded 0xffffffffffffffff ∧ ¬ SoundOn twoPages 0xffffffffffffffff 1 := by
  have hmapped : twoPages.mem.isMapped 0xffffffffffffffff 1 = true :=
    (isMapped_iff_of_last_page wellFormed_twoPages (by decide) (by decide) (by decide)).mpr
      fun h => absurd h (by decide)
  have hnot : ¬ twoPages.mem.Recorded 0xffffffffffffffff := by
    rintro ⟨r, hr, -, hhi⟩
    obtain rfl := List.mem_singleton.mp hr
    exact absurd hhi (by decide)
  exact ⟨wellFormed_twoPages, hmapped, hnot,
    fun h => hnot ((h.isMapped hmapped).2 _ (by decide) (by decide))⟩

end GuestMemory

end InstaX
