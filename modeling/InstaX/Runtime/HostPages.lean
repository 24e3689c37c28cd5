import InstaX.Foundation.PageHull
import InstaX.Runtime.Permissions
import InstaX.Runtime.Reservation

/-!
# Guest pages on larger host pages

Guest memory is kept by pages of 4 KiB, the host works on its own pages, and each call rounds its
range outward to them.  On a host with larger pages, guest pages that have nothing to do with each
other can share a host page.  Mapping one of them with `MAP_FIXED` then clears the others
(`map_preserves_iff`), and protecting one of them protects the others (`hostAllows_of_run`).  On
every host, `protect` hands over its whole rounded range, also the part of it that is not recorded
(`protect_onBackedPages_iff`).
-/

namespace InstaX

open Throwing Rounding ByteStore History

namespace HostKernel

/-- Where the host chooses the address of a mapping, it chooses the start of a page. -/
def PageAligned (k : HostKernel) : Prop :=
  ∀ h addr length r, k.place h addr length .anywhere = some r → 2 ^ k.pageBits ∣ r.toNat

/-- `mprotect` succeeds and reaches every page of its range. -/
def Protects (k : HostKernel) : Prop :=
  ∀ h addr length prot, length.toNat ≤ k.reach h addr length prot

end HostKernel

/-- The kernel that maps every range where it is asked to also protects it. -/
lemma ElfMapper.protects_fixedKernel : ElfMapper.fixedKernel.Protects := fun _ _ _ _ => le_rfl

namespace GuestMemory

variable {k : HostKernel} {w w' : World} {a n start end' : U64} {guestProt : CInt} {name : String}

/-! ## Mapping next to recorded bytes -/

/-- A mapping preserves the recorded bytes exactly if those on the host pages of its range are zero
already. -/
theorem map_preserves_iff {u : Unit} (hrun : (map k a n guestProt name).run w = .ok u w') :
    (∀ r ∈ w.mem.regions, ∀ x ∈ r.bytes, w'.bytes x = w.bytes x) ↔
      (n ≠ 0 → ∀ r ∈ w.mem.regions, ∀ x ∈ r.bytes,
        x ∈ hull k.pageBits (guestPageAlignDown a) (guestPageAlignUp (a + n)) → w.bytes x = 0) := by
  rcases mapsPages_of_run_map hrun with ⟨hn, rfl⟩ | ⟨hn, hmaps⟩
  · exact iff_of_true (fun _ _ _ _ => rfl) fun hne => absurd hn hne
  · have hpatched := hmaps.patched
    constructor
    · intro h _ r hr x hx hhull
      rw [← h r hr x hx]
      exact hpatched.eqOn hhull
    · intro h r hr x hx
      by_cases hhull : x ∈ hull k.pageBits (guestPageAlignDown a) (guestPageAlignUp (a + n))
      · rw [h hn r hr x hx hhull]
        exact hpatched.eqOn hhull
      · exact hpatched.frame hhull

/-- Host pages of 16 KiB. -/
def largePages : HostKernel := windowKernel 14 (by decide) 0x70000000

/-- A page that holds a byte 7.  On host pages of 4 KiB, mapping the next page keeps the byte, which
is not on the host page of the new range; mapping the same page again clears it. -/
theorem map_preserves_iff_beside : ∃ w off on,
    Run (CallLeaves smallPages) ⟨windowMemory, windowHost⟩
      [.map 0x400000 0x1000 3 "data", .write 0x400000 (fun _ => 7) 1] w ∧
    w.mem.regions = [⟨0x400000, 0x1000, 3, "data"⟩] ∧ w.bytes 0x400000 = 7 ∧
    (map smallPages 0x401000 0x1000 3 "next").run w = .ok ⟨⟩ off ∧
    (∀ r ∈ w.mem.regions, ∀ x ∈ r.bytes, off.bytes x = w.bytes x) ∧
    (map smallPages 0x400000 0x1000 3 "same").run w = .ok ⟨⟩ on ∧
    ¬ ∀ r ∈ w.mem.regions, ∀ x ∈ r.bytes, on.bytes x = w.bytes x := by
  obtain ⟨w₁, w, off, on, hmap, hwrite, hregions, hbyte, hoff, hon⟩ : ∃ w₁ w off on,
      CallReturns smallPages ⟨windowMemory, windowHost⟩ (.map 0x400000 0x1000 3 "data") w₁ ∧
      CallReturns smallPages w₁ (.write 0x400000 (fun _ => 7) 1) w ∧
      w.mem.regions = [⟨0x400000, 0x1000, 3, "data"⟩] ∧ w.bytes 0x400000 = 7 ∧
      (map smallPages 0x401000 0x1000 3 "next").run w = .ok ⟨⟩ off ∧
      (map smallPages 0x400000 0x1000 3 "same").run w = .ok ⟨⟩ on :=
    ⟨_, _, _, _, rfl, rfl, rfl, rfl, rfl, rfl⟩
  have hrun : Run (CallLeaves smallPages) ⟨windowMemory, windowHost⟩
      [.map 0x400000 0x1000 3 "data", .write 0x400000 (fun _ => 7) 1] w :=
    (Run.nil.snoc (Or.inl ⟨_, hmap⟩)).snoc (Or.inl ⟨_, hwrite⟩)
  refine ⟨w, off, on, hrun, hregions, hbyte, hoff, (map_preserves_iff hoff).mpr ?_, hon,
    fun h => ?_⟩
  · -- the byte lies below the host pages of the new range
    intro _ r hr x hx hhull
    rw [hregions] at hr
    obtain rfl := List.mem_singleton.mp hr
    have hpages : hull smallPages.pageBits (guestPageAlignDown 0x401000)
        (guestPageAlignUp (0x401000 + 0x1000)) = span 0x401000 0x1000 := rfl
    have hend : (⟨0x400000, 0x1000, 3, "data"⟩ : GuestRegion).hi = 0x401000 := by decide
    have hlo : (0x401000 : U64).toNat = 0x401000 := rfl
    rw [GuestRegion.mem_bytes_iff (by decide), hend] at hx
    rw [hpages, mem_span_iff (by decide), hlo] at hhull
    omega
  · have hmem : (0x400000 : U64) ∈ (⟨0x400000, 0x1000, 3, "data"⟩ : GuestRegion).bytes :=
      mem_span.mpr (by decide)
    have hhull : (0x400000 : U64) ∈ hull smallPages.pageBits (guestPageAlignDown 0x400000)
        (guestPageAlignUp (0x400000 + 0x1000)) := mem_span.mpr (by decide)
    have hzero := (map_preserves_iff hon).mp h (by decide) _
      (by rw [hregions]; exact List.mem_singleton_self _) _ hmem hhull
    rw [hbyte] at hzero
    exact absurd hzero (by decide)

/-- Two guest pages on one host page of 16 KiB: mapping the second clears what was written to the
first. -/
theorem map_clears_neighbour : ∃ w w',
    (construct largePages 0x400000 0x402000 0x10000).run emptyHost =
      .ok windowMemory windowHost ∧
    Run (CallLeaves largePages) ⟨windowMemory, windowHost⟩
      [.map 0x400000 0x1000 3 "data", .write 0x400000 (fun _ => 7) 1] w ∧
    CallReturns largePages w (.map 0x401000 0x1000 3 "more") w' ∧
    (∀ r ∈ w.mem.regions, Disjoint r.bytes (pages 0x401000 0x1000)) ∧
    ¬ ∀ r ∈ w.mem.regions, ∀ x ∈ r.bytes, w'.bytes x = w.bytes x := by
  obtain ⟨w₁, w₂, w₃, hmap, hwrite, hmore, hregions, hbefore, hafter⟩ : ∃ w₁ w₂ w₃,
      CallReturns largePages ⟨windowMemory, windowHost⟩ (.map 0x400000 0x1000 3 "data") w₁ ∧
      CallReturns largePages w₁ (.write 0x400000 (fun _ => 7) 1) w₂ ∧
      CallReturns largePages w₂ (.map 0x401000 0x1000 3 "more") w₃ ∧
      w₂.mem.regions = [⟨0x400000, 0x1000, 3, "data"⟩] ∧
      w₂.bytes 0x400000 = 7 ∧ w₃.bytes 0x400000 = 0 :=
    ⟨_, _, _, rfl, rfl, rfl, rfl, rfl, rfl⟩
  refine ⟨w₂, w₃, run_construct_window (Or.inr rfl),
    (Run.nil.snoc (Or.inl ⟨_, hmap⟩)).snoc (Or.inl ⟨_, hwrite⟩), hmore, ?_, fun h => ?_⟩
  · intro r hr
    rw [hregions] at hr
    obtain rfl := List.mem_singleton.mp hr
    rw [Set.disjoint_left, pages_eq_interval (by decide) (by decide)]
    intro x hx hin
    rw [GuestRegion.mem_bytes_iff (by decide)] at hx
    have hhi : (⟨0x400000, 0x1000, 3, "data"⟩ : GuestRegion).hi = 0x401000 := by decide
    have hlo : (guestPageAlignDown 0x401000).toNat = 0x401000 := by decide
    rw [mem_interval] at hin
    omega
  · have hmem : (0x400000 : U64) ∈ (⟨0x400000, 0x1000, 3, "data"⟩ : GuestRegion).bytes :=
      mem_span.mpr (by decide)
    have hkept := h _ (by rw [hregions]; exact List.mem_singleton_self _) _ hmem
    rw [hbefore, hafter] at hkept
    exact absurd hkept (by decide)

/-! ## The offset is a multiple of the page size -/

/-- The distance of two multiples is a multiple, with wrap. -/
lemma dvd_toNat_sub {p : ℕ} (hp : p ∣ 2 ^ 64) {u v : U64} (hu : p ∣ u.toNat) (hv : p ∣ v.toNat) :
    p ∣ (u - v).toNat := by
  rw [BitVec.toNat_sub, Nat.dvd_mod_iff hp]
  exact Nat.dvd_add (Nat.dvd_sub hp hv) hu

/-- The constructor picks an offset of whole pages. -/
lemma dvd_hostOffset_of_construct (hk : k.PageAligned) {imageLow imageHigh fallBack : U64}
    {h h' : Host} {m : GuestMemory}
    (hconstruct : (construct k imageLow imageHigh fallBack).run h = .ok m h') :
    2 ^ k.pageBits ∣ m.hostOffset.toNat := by
  by_cases hzero : m.hostOffset = 0
  · rw [hzero]
    exact dvd_zero _
  · obtain ⟨h₀, base, windowSize, hplace, rfl⟩ := eq_of_construct hconstruct hzero
    exact dvd_toNat_sub (Nat.pow_dvd_pow 2 k.pageBits_lt.le) (hk _ _ _ _ hplace)
      (dvd_alignDown k.pageBits_lt imageLow)

/-- The calls never move the window. -/
lemma hostOffset_of_leaves {c : MemoryCall} (hleaves : CallLeaves k w c w') :
    w'.mem.hostOffset = w.mem.hostOffset := by
  cases c with
  | map a n guestProt name =>
    rcases hleaves with ⟨_, hrun⟩ | ⟨_, hrun⟩
    · rcases mapsPages_of_run_map hrun with ⟨-, rfl⟩ | ⟨-, hmaps⟩
      · rfl
      · rw [hmaps.mem]
    · rw [mem_eq_of_map_throws hrun]
  | protect a n guestProt name =>
    rcases hleaves with ⟨_, hrun⟩ | ⟨_, hrun⟩
    · rcases withProtection_of_run_protect hrun with ⟨-, rfl⟩ | ⟨-, -, rfl⟩
      · rfl
      · rfl
    · rw [eq_of_protect_throws hrun]
  | write a src n => rw [(frame_of_leaves_write hleaves).1]
  | zero a n => rw [(frame_of_leaves_zero hleaves).1]

/-! ## Protecting what is not recorded -/

/-- The range that a `protect` call hands to `mprotect`, if it gets that far. -/
def handedToMprotect (k : HostKernel) (m : GuestMemory) (guestAddr length : U64) :
    Option (U64 × U64) :=
  let start := guestPageAlignDown guestAddr
  let end' := guestPageAlignUp (guestAddr + length)
  if length = 0 ∨ m.regions.all (misses start end') = true then none
  else some (alignDown start k.pageSize + m.hostOffset,
    alignUp end' k.pageSize - alignDown start k.pageSize)

/-- What `protect` does to the host is the call of `mprotect` on that range. -/
lemma host_of_leaves_protect (h : Leaves (protect k a n guestProt name) w w') :
    w'.host = match w.mem.handedToMprotect k a n with
      | some (addr, length) => (k.mprotect w.host addr length (hostProtFor guestProt)).2
      | none => w.host := by
  unfold handedToMprotect
  dsimp only
  by_cases hn : n = 0
  · rw [if_pos (Or.inl hn)]
    rw [protect, if_pos hn] at h
    rw [h.eq_of_ok rfl]
  · rw [Leaves, run_protect hn] at h
    split_ifs at h with hmisses
    · rw [if_pos (Or.inr hmisses)]
      rcases h with ⟨_, h⟩ | ⟨_, h⟩
      · cases h
      · rw [← (EStateM.Result.error.inj h).2]
    · rw [if_neg (not_or.mpr ⟨hn, hmisses⟩)]
      rcases h with ⟨_, h⟩ | ⟨_, h⟩
      · rw [← (EStateM.Result.ok.inj h).2]
        rfl
      · cases h

/-- The host page of `x` holds a byte that backs a recorded one. -/
def BackedPage (k : HostKernel) (m : GuestMemory) (x : U64) : Prop :=
  ∃ r ∈ m.regions, ∃ b ∈ r.bytes,
    alignDown (b + m.hostOffset) k.pageSize = alignDown x k.pageSize

/-- A recorded byte shares the host page of the guest address `x`. -/
def RecordedPage (k : HostKernel) (m : GuestMemory) (x : U64) : Prop :=
  ∃ r ∈ m.regions, ∃ b ∈ r.bytes, alignDown b k.pageSize = alignDown x k.pageSize

/-- When `protect` stays on pages that back recorded bytes: it does nothing, or it hands over no
bytes, or every address of its rounded range shares its host page with a recorded byte, or the
rounded range wraps but its host pages come down to that of its start. -/
def StaysOnRecordedPages (k : HostKernel) (m : GuestMemory) (guestAddr length : U64) : Prop :=
  let start := guestPageAlignDown guestAddr
  let end' := guestPageAlignUp (guestAddr + length)
  length = 0 ∨ m.regions.all (misses start end') = true ∨
    alignUp end' k.pageSize = alignDown start k.pageSize ∨
    (∀ y ∈ span start (end' - start).toNat, m.RecordedPage k y) ∨
    (end' ≤ start ∧
      (alignUp end' k.pageSize = 0 ∨ alignDown start k.pageSize < alignUp end' k.pageSize))

section Protecting

variable {m : GuestMemory}

/-- A host page backs a recorded byte exactly if the guest page holds one. -/
lemma backedPage_add_iff (hoffset : 2 ^ k.pageBits ∣ m.hostOffset.toNat) {x : U64} :
    m.BackedPage k (x + m.hostOffset) ↔ m.RecordedPage k x :=
  exists_congr fun _ => and_congr_right fun _ => exists_congr fun _ => and_congr_right fun _ =>
    alignDown_add_eq_iff k.pageBits_lt hoffset

lemma RecordedPage.congr {x y : U64} (h : m.RecordedPage k x)
    (hpage : alignDown x k.pageSize = alignDown y k.pageSize) : m.RecordedPage k y := by
  obtain ⟨r, hr, b, hb, hbx⟩ := h
  exact ⟨r, hr, b, hb, hbx.trans hpage⟩

/-- A region that meets a range which is turned around contains its start. -/
lemma mem_bytes_of_meets {r : GuestRegion} (hmeets : ¬ misses start end' r = true)
    (horder : end' ≤ start) : start ∈ r.bytes := by
  rw [misses, decide_eq_true_eq, not_or, BitVec.le_def, BitVec.le_def, not_le, not_le] at hmeets
  rw [BitVec.le_def] at horder
  have hsum : (r.guestAddr + r.length).toNat = (r.guestAddr.toNat + r.length.toNat) % 2 ^ 64 :=
    BitVec.toNat_add _ _
  have hmod := Nat.mod_le (r.guestAddr.toNat + r.length.toNat) (2 ^ 64)
  rw [GuestRegion.bytes, mem_span, BitVec.toNat_sub_of_le (BitVec.le_def.mpr (by omega))]
  omega

/-- Every page of the hull of a range that meets a region is recorded exactly under one of three
conditions. -/
lemma recordedPage_hull_iff (hmeets : ∃ r ∈ m.regions, ¬ misses start end' r = true) :
    (∀ x ∈ hull k.pageBits start end', m.RecordedPage k x) ↔
      alignUp end' k.pageSize = alignDown start k.pageSize ∨
      (∀ y ∈ span start (end' - start).toNat, m.RecordedPage k y) ∨
      (end' ≤ start ∧
        (alignUp end' k.pageSize = 0 ∨ alignDown start k.pageSize < alignUp end' k.pageSize)) := by
  have hk := k.pageBits_lt
  obtain ⟨r, hr, hmeetsr⟩ := hmeets
  rw [BitVec.le_def, BitVec.lt_def]
  by_cases hempty : alignUp end' k.pageSize = alignDown start k.pageSize
  · refine iff_of_true (fun x hx => ?_) (Or.inl hempty)
    have hnone : hull k.pageBits start end' = ∅ := by
      unfold hull
      rw [show BitVec.twoPow 64 k.pageBits = k.pageSize from rfl, hempty, sub_self]
      exact span_zero _
    rw [hnone] at hx
    exact absurd hx (Set.notMem_empty x)
  rw [or_iff_right hempty]
  rcases Nat.lt_or_ge start.toNat end'.toNat with hlt | hge
  · -- the range is in order
    rw [or_iff_left fun h => absurd h.1 (by omega), span_sub hlt.le]
    constructor
    · intro h y hy
      exact h y ((mem_hull_iff hk hlt hempty).mpr ⟨y, hy, rfl⟩)
    · intro h x hx
      obtain ⟨y, hy, hpage⟩ := (mem_hull_iff hk hlt hempty).mp hx
      exact (h y hy).congr hpage
  · have hstart : m.RecordedPage k start :=
      ⟨r, hr, start, mem_bytes_of_meets hmeetsr (BitVec.le_def.mpr hge), rfl⟩
    have hne : end' ≠ 0 := by
      rintro rfl
      exact hmeetsr (decide_eq_true (Or.inr (BitVec.le_def.mpr (Nat.zero_le _))))
    by_cases hround : alignUp end' k.pageSize = 0 ∨
        (alignDown start k.pageSize).toNat < (alignUp end' k.pageSize).toNat
    · -- the hull is the page of the start
      refine iff_of_true (fun x hx => ?_) (Or.inr ⟨hge, hround⟩)
      exact hstart.congr (alignDown_eq_of_mem_hull hk hge hne hround hx).symm
    · -- the hull goes around the end of the address space
      rw [or_iff_left fun h => hround h.2]
      rw [not_or, not_lt] at hround
      have hlt : (alignUp end' k.pageSize).toNat < (alignDown start k.pageSize).toNat :=
        lt_of_le_of_ne hround.2 fun h => hempty (BitVec.eq_of_toNat_eq h)
      have hes : end'.toNat < start.toNat := by
        have hup := (alignUp_bounds hk hround.1).2.1
        have hdown := alignDown_le hk start
        unfold HostKernel.pageSize at hlt
        omega
      constructor
      · intro h y hy
        exact h y ((mem_hull_iff_of_wraps hk hes hround.1 hlt).mpr ⟨y, hy, rfl⟩)
      · intro h x hx
        obtain ⟨y, hy, hpage⟩ := (mem_hull_iff_of_wraps hk hes hround.1 hlt).mp hx
        exact (h y hy).congr hpage

/-- Every host page that a `protect` call hands to `mprotect` backs a recorded byte exactly if the
call stays on recorded pages: in every state that a run of calls reaches. -/
theorem protect_onBackedPages_iff (hk : k.PageAligned) {imageLow imageHigh fallBack : U64}
    {h h' : Host} {calls : List MemoryCall}
    (hconstruct : (construct k imageLow imageHigh fallBack).run h = .ok m h')
    (hrun : Run (CallLeaves k) ⟨m, h'⟩ calls w) :
    (∀ addr length, w.mem.handedToMprotect k a n = some (addr, length) →
      ∀ x ∈ span addr length.toNat, w.mem.BackedPage k x) ↔ w.mem.StaysOnRecordedPages k a n := by
  have hoffset : 2 ^ k.pageBits ∣ w.mem.hostOffset.toNat := by
    refine hrun.invariant (I := fun _ w => 2 ^ k.pageBits ∣ w.mem.hostOffset.toNat)
      (dvd_hostOffset_of_construct hk hconstruct) fun _ _ _ _ hdvd hstep => ?_
    rwa [hostOffset_of_leaves hstep]
  unfold handedToMprotect StaysOnRecordedPages
  dsimp only
  split_ifs with hnothing
  · refine iff_of_true (fun _ _ hnone => absurd hnone (by simp)) ?_
    rcases hnothing with hn | hmisses
    · exact Or.inl hn
    · exact Or.inr (Or.inl hmisses)
  · obtain ⟨hn, hmisses⟩ := not_or.mp hnothing
    have hmeets : ∃ r ∈ w.mem.regions,
        ¬ misses (guestPageAlignDown a) (guestPageAlignUp (a + n)) r = true := by
      rw [List.all_eq_true, not_forall₂] at hmisses
      simpa using hmisses
    rw [or_iff_right hn, or_iff_right hmisses, ← recordedPage_hull_iff hmeets]
    constructor
    · intro hbacked x hx
      rw [← backedPage_add_iff hoffset]
      exact hbacked _ _ rfl _ ((add_mem_span_add _).mpr hx)
    · intro hrecorded addr length hsome x hx
      obtain ⟨rfl, rfl⟩ := Prod.mk.inj (Option.some.inj hsome)
      rw [← sub_add_cancel x w.mem.hostOffset, add_mem_span_add] at hx
      rw [← sub_add_cancel x w.mem.hostOffset, backedPage_add_iff hoffset]
      exact hrecorded _ hx

end Protecting

/-- The host with small pages maps whole pages. -/
lemma pageAligned_smallPages : smallPages.PageAligned := by
  intro h addr length r hr
  unfold smallPages windowKernel at hr
  dsimp only at hr
  split_ifs at hr with hzero hfixed hfree
  · cases hfixed
  · obtain rfl := Option.some.inj hr
    decide

/-- A mapped page of the reservation, protected as it was mapped. -/
theorem protect_onBackedPages_iff_first : ∃ w,
    Run (CallLeaves smallPages) ⟨windowMemory, windowHost⟩ [.map 0x400000 0x1000 3 "data"] w ∧
    ((∀ addr length, w.mem.handedToMprotect smallPages 0x400000 0x1000 = some (addr, length) →
      ∀ x ∈ span addr length.toNat, w.mem.BackedPage smallPages x) ↔
      w.mem.StaysOnRecordedPages smallPages 0x400000 0x1000) := by
  obtain ⟨w, hmap⟩ : ∃ w, (map smallPages 0x400000 0x1000 3 "data").run
    ⟨windowMemory, windowHost⟩ = .ok ⟨⟩ w := ⟨_, rfl⟩
  have hrun : Run (CallLeaves smallPages) ⟨windowMemory, windowHost⟩
      [.map 0x400000 0x1000 3 "data"] w := Run.nil.snoc (Or.inl ⟨_, hmap⟩)
  exact ⟨w, hrun, protect_onBackedPages_iff pageAligned_smallPages
    (run_construct_window (Or.inl rfl)) hrun⟩

/-- The last page of the reservation is mapped, and a `protect` runs one page past it: `mprotect` is
called on the page behind the window, too. -/
theorem protect_past_window : ∃ w,
    (construct smallPages 0x400000 0x402000 0x10000).run emptyHost = .ok windowMemory windowHost ∧
    Run (CallLeaves smallPages) ⟨windowMemory, windowHost⟩ [.map 0x40f000 0x1000 3 "data"] w ∧
    (∃ w', (protect smallPages 0x40f000 0x2000 1 "").run w = .ok ⟨⟩ w' ∧
      w'.host = (smallPages.mprotect w.host 0x7000f000 0x2000 (hostProtFor 1)).2) ∧
    ¬ ∀ addr length, w.mem.handedToMprotect smallPages 0x40f000 0x2000 = some (addr, length) →
      ∀ x ∈ span addr length.toNat, w.mem.BackedPage smallPages x := by
  obtain ⟨w₁, w₂, hmap, hprotect, hregions, hoffset, hhanded⟩ : ∃ w₁ w₂,
      (map smallPages 0x40f000 0x1000 3 "data").run ⟨windowMemory, windowHost⟩ = .ok ⟨⟩ w₁ ∧
      (protect smallPages 0x40f000 0x2000 1 "").run w₁ = .ok ⟨⟩ w₂ ∧
      w₁.mem.regions = [⟨0x40f000, 0x1000, 3, "data"⟩] ∧
      w₁.mem.hostOffset = 0x6fc00000 ∧
      w₁.mem.handedToMprotect smallPages 0x40f000 0x2000 = some (0x7000f000, 0x2000) :=
    ⟨_, _, rfl, rfl, rfl, rfl, rfl⟩
  refine ⟨w₁, run_construct_window (Or.inl rfl), Run.nil.snoc (Or.inl ⟨_, hmap⟩),
    ⟨w₂, hprotect, ?_⟩, fun h => ?_⟩
  · rw [host_of_leaves_protect (Or.inl ⟨_, hprotect⟩), hhanded]
  obtain ⟨r, hr, b, hb, hpage⟩ := h _ _ hhanded 0x70010000 (mem_span.mpr (by decide))
  rw [hregions] at hr
  obtain rfl := List.mem_singleton.mp hr
  rw [GuestRegion.mem_bytes_iff (by decide)] at hb
  have hhi : (⟨0x40f000, 0x1000, 3, "data"⟩ : GuestRegion).hi = 0x410000 := by decide
  have hsum : (b + w₁.mem.hostOffset).toNat = b.toNat + 0x6fc00000 := by
    rw [hoffset, BitVec.toNat_add, Nat.mod_eq_of_lt]
    · rfl
    · have hval : (0x6fc00000 : U64).toNat = 0x6fc00000 := rfl
      omega
  have htarget : alignDown (0x70010000 : U64) smallPages.pageSize = 0x70010000 := by decide
  have hle := alignDown_le smallPages.pageBits_lt (b + w₁.mem.hostOffset)
  rw [htarget] at hpage
  have hlow : (0x70010000 : U64).toNat ≤ (b + w₁.mem.hostOffset).toNat := by
    rw [← hpage]
    exact hle
  have hval : (0x70010000 : U64).toNat = 0x70010000 := rfl
  omega

/-! ## Host permissions under guest permissions -/

/-- The host protection lets the guest do what its permission says: read unless it is `kProtNone`,
write if it includes `kProtWrite`. -/
def HostAllows (hostProt : Option CInt) (guestProt : CInt) : Prop :=
  (guestProt ≠ kProtNone → ∃ q, hostProt = some q ∧ q &&& PROT_READ ≠ 0) ∧
    (guestProt &&& kProtWrite ≠ 0 → ∃ q, hostProt = some q ∧ q &&& PROT_WRITE ≠ 0)

/-- The host needs no more for `p` than for `q`. -/
def NeedsNoMore (p q : CInt) : Prop :=
  (p ≠ kProtNone → q ≠ kProtNone) ∧ (p &&& kProtWrite ≠ 0 → q &&& kProtWrite ≠ 0)

/-- A page that may be read and written allows everything. -/
lemma hostAllows_readWrite (guestProt : CInt) :
    HostAllows (some (PROT_READ ||| PROT_WRITE)) guestProt :=
  ⟨fun _ => ⟨_, rfl, by decide⟩, fun _ => ⟨_, rfl, by decide⟩⟩

/-- The host protection for `q` allows what needs no more than `q`. -/
lemma hostAllows_hostProtFor {p q : CInt} (h : NeedsNoMore p q) :
    HostAllows (some (hostProtFor q)) p := by
  have hzero : kProtNone &&& kProtWrite = 0 := by decide
  refine ⟨fun hp => ⟨_, rfl, ?_⟩, fun hp => ⟨_, rfl, ?_⟩⟩
  · rw [hostProtFor, if_neg (h.1 hp)]
    split_ifs <;> decide
  · have hq := h.2 hp
    have hne : q ≠ kProtNone := by
      rintro rfl
      exact hq hzero
    rw [hostProtFor, if_neg hne, if_pos hq]
    decide

/-- The host protection after a change of guest permissions. -/
lemma prot_withProtection (hk : k.Protects) (x : U64) :
    (x ∈ hull k.pageBits start end' →
      (withProtection k start end' guestProt name w).host.prot (x + w.mem.hostOffset) =
        some (hostProtFor guestProt)) ∧
    (x ∉ hull k.pageBits start end' →
      (withProtection k start end' guestProt name w).host.prot (x + w.mem.hostOffset) =
        w.host.prot (x + w.mem.hostOffset)) := by
  unfold withProtection HostKernel.mprotect
  dsimp only
  rw [min_eq_right (hk _ _ _ _)]
  constructor
  · intro hx
    exact store_of_mem ((add_mem_span_add _).mpr hx)
  · intro hx
    exact store_of_notMem fun h => hx ((add_mem_span_add _).mp h)

/-- The host protection after a mapping. -/
lemma MapsPages.prot (h : MapsPages k start end' guestProt name w w') (x : U64) :
    (x ∈ hull k.pageBits start end' →
      w'.host.prot (x + w.mem.hostOffset) = some (PROT_READ ||| PROT_WRITE)) ∧
    (x ∉ hull k.pageBits start end' →
      w'.host.prot (x + w.mem.hostOffset) = w.host.prot (x + w.mem.hostOffset)) := by
  rw [h.host]
  unfold Host.commit
  dsimp only
  constructor
  · intro hx
    exact store_of_mem ((add_mem_span_add _).mpr hx)
  · intro hx
    exact store_of_notMem fun h => hx ((add_mem_span_add _).mp h)

/-- Giving a mapping back frees what was free before. -/
lemma prot_release_commit {h : Host} {r length : U64} {prot : CInt}
    (hfree : ∀ x ∈ span r length.toNat, h.prot x = none) :
    ((h.commit r length prot).release r length).prot = h.prot := by
  funext x
  unfold Host.release Host.commit
  dsimp only
  by_cases hx : x ∈ span r length.toNat
  · exact (store_of_mem hx).trans (hfree x hx).symm
  · exact (store_of_notMem hx).trans (store_of_notMem hx)

/-- A mapping that throws leaves the host protection alone. -/
lemma prot_of_map_throws {e : Exn} (h : (map k a n guestProt name).run w = .error e w') :
    w'.host.prot = w.host.prot := by
  rcases map_throws_cases h with rfl | ⟨desired, length, flag, hgot, rfl⟩
  · rfl
  · unfold HostKernel.mmap at hgot ⊢
    cases hplace : k.place w.host desired length flag with
    | none => rfl
    | some r =>
      rw [hplace] at hgot
      have hflag : flag ≠ .fixed := by
        rintro rfl
        exact hgot (congrArg some (k.place_fixed _ _ _ _ hplace))
      exact prot_release_commit (k.place_free _ _ _ _ _ hflag hplace)

/-- The host protects every recorded byte at least as its guest permission needs. -/
structure HostBacks (w : World) : Prop where
  consistent : ∃ f, w.mem.Consistent f
  allows : ∀ r ∈ w.mem.regions, ∀ x ∈ r.bytes,
    HostAllows (w.host.prot (x + w.mem.hostOffset)) r.prot

/-- A mapping on free pages. -/
lemma HostBacks.map (h : HostBacks w) (hn : n ≠ 0) (hfits : a.toNat + n.toNat ≤ 2 ^ 64 - 4096)
    (hapart : ∀ x ∈ pages a n, ¬ w.mem.Recorded x.toNat)
    (hmaps : MapsPages k (guestPageAlignDown a) (guestPageAlignUp (a + n)) guestProt name w w') :
    HostBacks w' := by
  obtain ⟨f, hf⟩ := h.consistent
  have hbounds := rounded_bounds hn hfits
  have hle : (guestPageAlignDown a).toNat ≤ (guestPageAlignUp (a + n)).toNat := by omega
  have hoffset : w'.mem.hostOffset = w.mem.hostOffset := by
    rw [hmaps.mem]
  refine ⟨⟨_, hf.map hn hfits hapart hmaps⟩, fun r hr x hx => ?_⟩
  rw [hoffset]
  by_cases hhull : x ∈ hull k.pageBits (guestPageAlignDown a) (guestPageAlignUp (a + n))
  · rw [(hmaps.prot x).1 hhull]
    exact hostAllows_readWrite _
  · rw [(hmaps.prot x).2 hhull]
    rw [hmaps.mem, List.mem_append, List.mem_singleton] at hr
    rcases hr with hr | rfl
    · exact h.allows r hr x hx
    · have hin : x ∈ span (guestPageAlignDown a)
          (guestPageAlignUp (a + n) - guestPageAlignDown a).toNat := hx
      rw [span_sub hle] at hin
      refine absurd ((mem_hull_iff k.pageBits_lt (by omega) fun heq => ?_).mpr ⟨x, hin, rfl⟩) hhull
      exact hmaps.nonempty (sub_eq_zero.mpr heq)

/-- A range that ends before the last host page: its hull is the host pages of its guest pages. -/
lemma mem_hull_iff_pages (hn : n ≠ 0) (hfits : a.toNat + n.toNat ≤ 2 ^ 64 - 2 ^ k.pageBits)
    {x : U64} : x ∈ hull k.pageBits (guestPageAlignDown a) (guestPageAlignUp (a + n)) ↔
      ∃ y ∈ pages a n, alignDown y k.pageSize = alignDown x k.pageSize := by
  have hk := k.pageBits_lt
  have hpow : 2 ^ k.pageBits < 2 ^ 64 := Nat.pow_lt_pow_right (by decide) hk
  have hpage : 2 ^ 12 ≤ 2 ^ k.pageBits := Nat.pow_le_pow_right (by decide) k.guestPage_le
  have hfits' : a.toNat + n.toNat ≤ 2 ^ 64 - 4096 := by omega
  have hbounds := rounded_bounds hn hfits'
  have hle : (guestPageAlignUp (a + n)).toNat ≤ 2 ^ 64 - 2 ^ k.pageBits := by
    by_contra hgt
    have hdvd : 4096 ∣ 2 ^ 64 - 2 ^ k.pageBits :=
      Nat.dvd_sub (by decide) (Nat.pow_dvd_pow 2 k.guestPage_le)
    have := add_le_of_dvd_of_lt hdvd hbounds.2.1 (by omega)
    omega
  -- so the rounding up to host pages does not wrap
  have hne : alignUp (guestPageAlignUp (a + n)) k.pageSize ≠ 0 := by
    intro h0
    rcases (alignUp_eq_zero_iff hk).mp h0 with hzero | hlast
    · have hval : (guestPageAlignUp (a + n)).toNat = 0 := by
        rw [hzero]
        rfl
      omega
    · omega
  rw [pages_eq_interval hn hfits']
  refine mem_hull_iff hk (by omega) fun heq => ?_
  have hup := (alignUp_bounds hk hne).2.1
  have hdown := alignDown_le hk (guestPageAlignDown a)
  rw [heq] at hup
  omega

/-- On host pages of 4 KiB, the pages that a call rounds its range to are pages of the range. -/
lemma hull_subset_pages {a n : U64} (hn : n ≠ 0) :
    hull 12 (guestPageAlignDown a) (guestPageAlignUp (a + n)) ⊆ pages a n := by
  have hpos := toNat_pos hn
  have hup := dvd_guestPageAlignUp (a + n)
  have hdown : alignDown (guestPageAlignDown a) (BitVec.twoPow 64 12) = guestPageAlignDown a := by
    apply BitVec.eq_of_toNat_eq
    rw [← guestPageSize_eq]
    change (guestPageAlignDown (guestPageAlignDown a)).toNat = _
    rw [toNat_guestPageAlignDown, toNat_guestPageAlignDown]
    omega
  have hround : alignUp (guestPageAlignUp (a + n)) (BitVec.twoPow 64 12) =
      guestPageAlignUp (a + n) := by
    apply BitVec.eq_of_toNat_eq
    rw [← guestPageSize_eq]
    change (guestPageAlignUp (guestPageAlignUp (a + n))).toNat = _
    rw [toNat_guestPageAlignUp (by omega)]
    omega
  intro x hx
  rw [hull, hdown, hround, mem_span, BitVec.toNat_sub, BitVec.toNat_sub,
    toNat_guestPageAlignDown] at hx
  by_cases hpage : x.toNat / 4096 = a.toNat / 4096
  · exact ⟨a, by rw [mem_span, sub_self]; exact hpos, hpage⟩
  · -- the first byte of the page of `x` is in the range
    refine ⟨guestPageAlignDown x, ?_, by rw [toNat_guestPageAlignDown]; omega⟩
    have hsum : (a + n).toNat = (a.toNat + n.toNat) % 2 ^ 64 := BitVec.toNat_add _ _
    rw [mem_span, BitVec.toNat_sub, toNat_guestPageAlignDown]
    rcases Nat.lt_or_ge (2 ^ 64 - 4096) (a + n).toNat with hlast | hle
    · rw [guestPageAlignUp_eq_zero hlast] at hx
      have hzero : (0 : U64).toNat = 0 := rfl
      rw [hzero] at hx
      omega
    · rw [toNat_guestPageAlignUp hle] at hx
      omega

/-- A change of permissions. -/
lemma HostBacks.protect (hk : k.Protects) (h : HostBacks w) (hn : n ≠ 0)
    (hfits : a.toNat + n.toNat ≤ 2 ^ 64 - 2 ^ k.pageBits)
    (hshared : ∀ r ∈ w.mem.regions, ∀ x ∈ r.bytes, x ∉ pages a n →
      (∃ y ∈ pages a n, alignDown y k.pageSize = alignDown x k.pageSize) →
        NeedsNoMore r.prot guestProt) :
    HostBacks (withProtection k (guestPageAlignDown a) (guestPageAlignUp (a + n)) guestProt name
      w) := by
  obtain ⟨f, hf⟩ := h.consistent
  have hpage : 2 ^ 12 ≤ 2 ^ k.pageBits := Nat.pow_le_pow_right (by decide) k.guestPage_le
  have hfits' : a.toNat + n.toNat ≤ 2 ^ 64 - 4096 := by omega
  have hbounds := rounded_bounds hn hfits'
  have hpages := pages_eq_interval hn hfits'
  refine ⟨⟨_, hf.protect hn hfits'⟩, fun t ht x hx => ?_⟩
  rw [withProtection, (List.perm_insertionSort _ _).mem_iff] at ht
  obtain ⟨r, hr, htr⟩ := List.mem_flatMap.mp ht
  obtain ⟨hsub, hside⟩ :=
    (splits_splitRegion (hf.wellFormed r hr).2 (by omega)).sound t htr
  change HostAllows ((withProtection k (guestPageAlignDown a) (guestPageAlignUp (a + n)) guestProt
    name w).host.prot (x + w.mem.hostOffset)) t.prot
  by_cases hhull : x ∈ hull k.pageBits (guestPageAlignDown a) (guestPageAlignUp (a + n))
  · rw [(prot_withProtection hk x).1 hhull]
    apply hostAllows_hostProtFor
    rcases hside with ⟨-, hval⟩ | ⟨hout, hval⟩
    · rw [hval]
      exact ⟨id, id⟩
    · rw [hval]
      refine hshared r hr x (hsub hx) ?_ ((mem_hull_iff_pages hn hfits).mp hhull)
      rw [hpages]
      exact Set.disjoint_left.mp hout hx
  · rw [(prot_withProtection hk x).2 hhull]
    rcases hside with ⟨hin, -⟩ | ⟨-, hval⟩
    · refine absurd ((mem_hull_iff_pages hn hfits).mpr ⟨x, ?_, rfl⟩) hhull
      rw [hpages]
      exact hin hx
    · rw [hval]
      exact h.allows r hr x (hsub hx)

end GuestMemory

/-- A mapping is apart from the recorded bytes and ends below the last page.  A `protect` ends below
the last host page, and the recorded bytes outside its pages that share a host page with one of them
need no more than the new permission does. -/
def MemoryCall.KeepsHostAccess (k : HostKernel) (m : GuestMemory) : MemoryCall → Prop
  | map guestAddr length _ _ => length = 0 ∨ guestAddr.toNat + length.toNat ≤ 2 ^ 64 - 4096 ∧
      ∀ x ∈ GuestMemory.pages guestAddr length, ¬ m.Recorded x.toNat
  | protect guestAddr length guestProt _ =>
      length = 0 ∨ guestAddr.toNat + length.toNat ≤ 2 ^ 64 - 2 ^ k.pageBits ∧
        ∀ r ∈ m.regions, ∀ x ∈ r.bytes, x ∉ GuestMemory.pages guestAddr length →
          (∃ y ∈ GuestMemory.pages guestAddr length,
            alignDown y k.pageSize = alignDown x k.pageSize) →
          GuestMemory.NeedsNoMore r.prot guestProt
  | write .. => True
  | zero .. => True

namespace GuestMemory

variable {k : HostKernel} {w w' : World} {calls : List MemoryCall}

/-- A call that returns or throws and keeps the host access. -/
def AccessCallLeaves (k : HostKernel) (w : World) (c : MemoryCall) (w' : World) : Prop :=
  c.KeepsHostAccess k w.mem ∧ CallLeaves k w c w'

/-- What one call keeps, whether it returns or throws. -/
theorem HostBacks.step (hk : k.Protects) {c : MemoryCall} (h : HostBacks w)
    (hc : c.KeepsHostAccess k w.mem) (hleaves : CallLeaves k w c w') : HostBacks w' := by
  -- the same regions on a host with the same protection
  have hsame : w'.mem = w.mem → w'.host.prot = w.host.prot → HostBacks w' := by
    intro hmem hprot
    refine ⟨hmem ▸ h.consistent, ?_⟩
    rw [hmem, hprot]
    exact h.allows
  cases c with
  | map a n guestProt name =>
    rcases hleaves with ⟨_, hrun⟩ | ⟨_, hrun⟩
    · rcases mapsPages_of_run_map hrun with ⟨-, rfl⟩ | ⟨hn, hmaps⟩
      · exact h
      · obtain ⟨hfits, hapart⟩ := hc.resolve_left hn
        exact h.map hn hfits hapart hmaps
    · exact hsame (mem_eq_of_map_throws hrun) (prot_of_map_throws hrun)
  | protect a n guestProt name =>
    rcases hleaves with ⟨_, hrun⟩ | ⟨_, hrun⟩
    · rcases withProtection_of_run_protect hrun with ⟨-, rfl⟩ | ⟨hn, -, rfl⟩
      · exact h
      · obtain ⟨hfits, hshared⟩ := hc.resolve_left hn
        exact h.protect hk hn hfits hshared
    · rw [eq_of_protect_throws hrun]
      exact h
  | write a src n =>
    obtain ⟨hmem, hprot⟩ := frame_of_leaves_write hleaves
    exact hsame hmem hprot
  | zero a n =>
    obtain ⟨hmem, hprot⟩ := frame_of_leaves_zero hleaves
    exact hsame hmem hprot

/-- After every run of calls that keep the host access, whether they return or throw, the host lets
the guest do on every recorded byte what its permission says. -/
theorem hostAllows_of_run (hk : k.Protects) (hstart : w.mem.regions = [])
    (hrun : Run (AccessCallLeaves k) w calls w') : ∀ r ∈ w'.mem.regions, ∀ x ∈ r.bytes,
      HostAllows (w'.host.prot (x + w'.mem.hostOffset)) r.prot := by
  have hbacks : HostBacks w := by
    refine ⟨⟨_, Consistent.of_regions_eq_nil hstart⟩, ?_⟩
    rw [hstart]
    exact fun _ hr => absurd hr List.not_mem_nil
  exact (hrun.invariant (I := fun _ w => HostBacks w) hbacks
    fun _ _ _ _ h hstep => h.step hk hstep.1 hstep.2).allows

/-- A page that becomes writable. -/
theorem hostAllows_of_run_writable : ∃ w', Run (AccessCallLeaves smallPages)
      ⟨windowMemory, windowHost⟩
      [.map 0x400000 0x1000 1 "data", .protect 0x400000 0x1000 3 ""] w' ∧
    ∀ r ∈ w'.mem.regions, ∀ x ∈ r.bytes,
      HostAllows (w'.host.prot (x + w'.mem.hostOffset)) r.prot := by
  obtain ⟨w₁, w₂, hmap, hprotect, hregions⟩ : ∃ w₁ w₂,
      (map smallPages 0x400000 0x1000 1 "data").run ⟨windowMemory, windowHost⟩ = .ok ⟨⟩ w₁ ∧
      (protect smallPages 0x400000 0x1000 3 "").run w₁ = .ok ⟨⟩ w₂ ∧
      w₁.mem.regions = [⟨0x400000, 0x1000, 1, "data"⟩] := ⟨_, _, rfl, rfl, rfl⟩
  have hfirst : AccessCallLeaves smallPages ⟨windowMemory, windowHost⟩
      (.map 0x400000 0x1000 1 "data") w₁ :=
    ⟨Or.inr ⟨by decide, fun _ _ ⟨_, hr, _⟩ => absurd hr List.not_mem_nil⟩, Or.inl ⟨_, hmap⟩⟩
  have hsecond : AccessCallLeaves smallPages w₁ (.protect 0x400000 0x1000 3 "") w₂ := by
    refine ⟨Or.inr ⟨by decide, fun r hr x _ _ _ => ?_⟩, Or.inl ⟨_, hprotect⟩⟩
    rw [hregions] at hr
    obtain rfl := List.mem_singleton.mp hr
    exact ⟨fun _ => by decide, fun _ => by decide⟩
  have hrun := (Run.nil.snoc hfirst).snoc hsecond
  exact ⟨w₂, hrun, hostAllows_of_run (fun _ _ _ _ => le_rfl) rfl hrun⟩

/-- A writable page and a read-only one on one host page of 16 KiB: the protection of the second
takes the write access from the first. -/
theorem protect_takes_write : ∃ w',
    (construct largePages 0x400000 0x402000 0x10000).run emptyHost = .ok windowMemory windowHost ∧
    largePages.Protects ∧
    Run (CallReturns largePages) ⟨windowMemory, windowHost⟩
      [.map 0x400000 0x1000 3 "data", .map 0x401000 0x1000 1 "text",
        .protect 0x401000 0x1000 1 ""] w' ∧
    ¬ ∀ r ∈ w'.mem.regions, ∀ x ∈ r.bytes,
      HostAllows (w'.host.prot (x + w'.mem.hostOffset)) r.prot := by
  obtain ⟨w₁, w₂, w₃, hdata, htext, hprotect, hregion, hprot⟩ : ∃ w₁ w₂ w₃,
      CallReturns largePages ⟨windowMemory, windowHost⟩ (.map 0x400000 0x1000 3 "data") w₁ ∧
      CallReturns largePages w₁ (.map 0x401000 0x1000 1 "text") w₂ ∧
      CallReturns largePages w₂ (.protect 0x401000 0x1000 1 "") w₃ ∧
      (⟨0x400000, 0x1000, 3, "data"⟩ : GuestRegion) ∈ w₃.mem.regions ∧
      w₃.host.prot (0x400000 + w₃.mem.hostOffset) = some PROT_READ :=
    ⟨_, _, _, rfl, rfl, rfl, by decide +kernel, by decide +kernel⟩
  refine ⟨w₃, run_construct_window (Or.inr rfl), fun _ _ _ _ => le_rfl,
    ((Run.nil.snoc hdata).snoc htext).snoc hprotect, fun h => ?_⟩
  have hmem : (0x400000 : U64) ∈ (⟨0x400000, 0x1000, 3, "data"⟩ : GuestRegion).bytes :=
    mem_span.mpr (by decide)
  have hallows := h _ hregion _ hmem
  rw [hprot] at hallows
  obtain ⟨q, hq, hwrite⟩ := hallows.2 (by decide)
  obtain rfl := Option.some.inj hq
  exact hwrite (by decide)

end GuestMemory

end InstaX
