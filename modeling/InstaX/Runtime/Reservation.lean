import InstaX.Foundation.History
import InstaX.Runtime.MemoryCalls

/-!
# The reserved window

When the host refuses the addresses of the image, the constructor reserves a window elsewhere, and
every guest address is translated by one offset.  The reserved guest addresses are then a hard
boundary: what lies outside them has no host address in the window.  `map` checks its rounded range
against the boundary, with a guard against wrapping sums; `protect` only splits what is recorded,
but has no such guard.  A rounded range that wraps and meets a region on both ends is recorded as a
region that covers almost the whole address space (`protect_leaves_window`).  Without such calls the
regions stay inside the boundary after every run, whether its calls return or throw
(`translates_of_run`).
-/

namespace InstaX

open Throwing Rounding ByteStore History

namespace GuestMemory

/-! ## What the constructor reserves -/

section Construct

variable {k : HostKernel} {h h' : Host} {m : GuestMemory}

/-- A window that is reserved is placed by the host. -/
lemma eq_of_reserveWindow {probeLow windowSize : U64}
    (hrun : (reserveWindow k probeLow windowSize).run h = .ok m h') :
    ∃ base, k.place h 0 windowSize .anywhere = some base ∧
      m = ⟨base - probeLow, base, windowSize, probeLow, probeLow + windowSize, []⟩ := by
  have hget : (get : Prog Host Host).run h = .ok h h := rfl
  rw [reserveWindow, run_bind_of_ok hget, HostKernel.mmap] at hrun
  cases hplace : k.place h 0 windowSize .anywhere with
  | some base =>
    rw [hplace] at hrun
    exact ⟨base, rfl, (EStateM.Result.ok.inj hrun).1.symm⟩
  | none =>
    rw [hplace] at hrun
    cases hrun

/-- A guest memory with an offset has a window where the host placed it, and nothing is recorded. -/
lemma eq_of_construct {imageLow imageHigh fallBack : U64}
    (hrun : (construct k imageLow imageHigh fallBack).run h = .ok m h')
      (hbiased : m.hostOffset ≠ 0) :
    ∃ h₀ base windowSize, k.place h₀ 0 windowSize .anywhere = some base ∧
      m = ⟨base - alignDown imageLow k.pageSize, base, windowSize, alignDown imageLow k.pageSize,
        alignDown imageLow k.pageSize + windowSize, []⟩ := by
  have hget : (get : Prog Host Host).run h = .ok h h := rfl
  unfold construct at hrun
  dsimp only at hrun
  generalize (if alignUp fallBack k.pageSize <
    alignUp imageHigh k.pageSize - alignDown imageLow k.pageSize then _ else _) = windowSize at hrun
  split_ifs at hrun with hsize
  · cases hrun
  · rw [run_bind_of_ok hget] at hrun
    split_ifs at hrun
    · -- the image's own addresses need no offset
      cases hrun
      exact absurd rfl hbiased
    · rw [run_bind_eq_ok_iff] at hrun
      obtain ⟨_, h₀, -, hwindow⟩ := hrun
      exact ⟨h₀, (eq_of_reserveWindow hwindow).imp fun base hbase => ⟨windowSize, hbase⟩⟩

end Construct

/-! ## Inside the boundary -/

/-- A window whose host addresses do not wrap, and recorded regions inside its guest addresses. -/
structure InWindow (m : GuestMemory) : Prop where
  hostOffset_eq : m.hostOffset = m.windowBase - m.reservedLow
  reservedHigh_eq : m.reservedHigh = m.reservedLow + m.windowSize
  biased : m.hostOffset ≠ 0
  window : m.windowBase.toNat + m.windowSize.toNat ≤ 2 ^ 64
  /-- The regions lie between the reserved bounds. -/
  regions : ∀ r ∈ m.regions, m.reservedLow.toNat ≤ r.guestAddr.toNat ∧ r.hi ≤ m.reservedHigh.toNat

namespace InWindow

variable {k : HostKernel} {m : GuestMemory} {w w' : World}

/-- A region of a window does not wrap. -/
lemma hi_lt (h : m.InWindow) {r : GuestRegion} (hr : r ∈ m.regions) : r.hi < 2 ^ 64 :=
  (h.regions r hr).2.trans_lt m.reservedHigh.isLt

/-- The distance of a recorded byte from the start of the reservation. -/
lemma lt_windowSize (h : m.InWindow) {r : GuestRegion} (hr : r ∈ m.regions) {x : U64}
    (hx : x ∈ r.bytes) : (x - m.reservedLow).toNat < m.windowSize.toNat := by
  obtain ⟨hlow, hhigh⟩ := h.regions r hr
  rw [GuestRegion.mem_bytes_iff (h.hi_lt hr).le] at hx
  have hsum : m.reservedHigh.toNat = (m.reservedLow.toNat + m.windowSize.toNat) % 2 ^ 64 := by
    rw [h.reservedHigh_eq, BitVec.toNat_add]
  have hmod := Nat.mod_le (m.reservedLow.toNat + m.windowSize.toNat) (2 ^ 64)
  rw [BitVec.toNat_sub_of_le (BitVec.le_def.mpr (by omega))]
  omega

/-- The host address of a recorded byte lies in the window. -/
lemma mem_window (h : m.InWindow) {r : GuestRegion} (hr : r ∈ m.regions) {x : U64}
    (hx : x ∈ r.bytes) : m.windowBase.toNat ≤ (x + m.hostOffset).toNat ∧
      (x + m.hostOffset).toNat < m.windowBase.toNat + m.windowSize.toNat := by
  have hlt := h.lt_windowSize hr hx
  have hwindow := h.window
  rw [h.hostOffset_eq, add_sub_left_comm, BitVec.toNat_add, Nat.mod_eq_of_lt (by omega)]
  omega

/-! ## What the calls keep -/

/-- New regions inside the boundary keep the regions in the window. -/
lemma of_regions {regions : List GuestRegion} (h : m.InWindow)
    (hregions : ∀ r ∈ regions, m.reservedLow.toNat ≤ r.guestAddr.toNat ∧
      r.hi ≤ m.reservedHigh.toNat) : InWindow { m with regions := regions } :=
  ⟨h.hostOffset_eq, h.reservedHigh_eq, h.biased, h.window, hregions⟩

/-- The bounds test of `map` covers its rounded range. -/
lemma of_isAddressable (h : m.InWindow) {start end' : U64}
    (haddr : m.isAddressable start (end' - start) = true) :
    m.reservedLow.toNat ≤ start.toNat ∧
      start.toNat ≤ end'.toNat ∧ end'.toNat ≤ m.reservedHigh.toNat := by
  have hidentity : ¬ m.isIdentity = true := by
    rw [isIdentity, beq_iff_eq]
    exact h.biased
  rw [isAddressable, if_neg hidentity] at haddr
  split_ifs at haddr with hlow hwrap
  rw [add_sub_cancel] at hwrap haddr
  rw [BitVec.lt_def] at hlow hwrap
  rw [decide_eq_true_eq, BitVec.le_def] at haddr
  omega

/-- Mapping stays in the window. -/
lemma map {start end' : U64} {guestProt : CInt} {name : String} (h : w.mem.InWindow)
    (hmaps : MapsPages k start end' guestProt name w w') : w'.mem.InWindow := by
  obtain ⟨hlow, hle, hhigh⟩ := h.of_isAddressable hmaps.addressable
  rw [hmaps.mem]
  refine h.of_regions fun r hr => ?_
  rw [List.mem_append, List.mem_singleton] at hr
  rcases hr with hr | rfl
  · exact h.regions r hr
  · exact ⟨hlow, (hi_mk_sub hle).trans_le hhigh⟩

/-- Splitting regions keeps them inside the boundary, if the range is not turned around. -/
lemma withProtection {start end' : U64} {guestProt : CInt} {name : String} (h : w.mem.InWindow)
    (horder : start.toNat ≤ end'.toNat) :
    (withProtection k start end' guestProt name w).mem.InWindow := by
  refine h.of_regions fun t ht => ?_
  rw [(List.perm_insertionSort _ _).mem_iff] at ht
  obtain ⟨r, hr, htr⟩ := List.mem_flatMap.mp ht
  obtain ⟨hlow, hhigh⟩ := h.regions r hr
  rcases splitRegion_cases (h.hi_lt hr) horder htr with ⟨rfl, -⟩ | hpart | hpart | hpart
  · exact ⟨hlow, hhigh⟩
  · omega
  · omega
  · omega

end InWindow

end GuestMemory

/-! ## Runs -/

namespace MemoryCall

/-- A `protect` whose rounded end lies below its rounded start, and which meets a region. -/
def WrapsOnto (m : GuestMemory) : MemoryCall → Prop
  | protect guestAddr length _ _ =>
      let start := GuestMemory.guestPageAlignDown guestAddr
      let end' := GuestMemory.guestPageAlignUp (guestAddr + length)
      start > end' ∧ ∃ r ∈ m.regions, ¬ GuestMemory.misses start end' r = true
  | map .. => False
  | write .. => False
  | zero .. => False

end MemoryCall

namespace GuestMemory

variable {k : HostKernel} {w w' : World}

/-- A call that returns or throws, and does not wrap around onto a region. -/
def UnwrappedCallLeaves (k : HostKernel) (w : World) (c : MemoryCall) (w' : World) : Prop :=
  ¬ c.WrapsOnto w.mem ∧ CallLeaves k w c w'

/-- What one call keeps, whether it returns or throws. -/
theorem InWindow.step {c : MemoryCall} (h : w.mem.InWindow) (hc : ¬ c.WrapsOnto w.mem)
    (hleaves : CallLeaves k w c w') : w'.mem.InWindow := by
  cases c with
  | map a n guestProt name =>
    rcases hleaves with ⟨_, hrun⟩ | ⟨_, hrun⟩
    · rcases mapsPages_of_run_map hrun with ⟨-, rfl⟩ | ⟨-, hmaps⟩
      · exact h
      · exact h.map hmaps
    · rwa [mem_eq_of_map_throws hrun]
  | protect a n guestProt name =>
    rcases hleaves with ⟨_, hrun⟩ | ⟨_, hrun⟩
    · rcases withProtection_of_run_protect hrun with ⟨-, rfl⟩ | ⟨-, hmeets, rfl⟩
      · exact h
      · exact h.withProtection (not_lt.mp fun hlt => hc ⟨BitVec.lt_def.mpr hlt, hmeets⟩)
    · rwa [eq_of_protect_throws hrun]
  | write a src n => rwa [(frame_of_leaves_write hleaves).1]
  | zero a n => rwa [(frame_of_leaves_zero hleaves).1]

/-- The recorded regions lie inside the reservation, and their bytes correspond to host bytes of the
window one to one. -/
structure Translates (m : GuestMemory) : Prop where
  regions : ∀ r ∈ m.regions, m.reservedLow.toNat ≤ r.guestAddr.toNat ∧ r.hi ≤ m.reservedHigh.toNat
  window : ∀ r ∈ m.regions, ∀ x ∈ r.bytes, m.windowBase.toNat ≤ (x + m.hostOffset).toNat ∧
    (x + m.hostOffset).toNat < m.windowBase.toNat + m.windowSize.toNat
  injective : ∀ x y, x + m.hostOffset = y + m.hostOffset → x = y
  toGuest : ∀ x, m.toGuest (x + m.hostOffset) = x

/-- What is in the window is translated into the reservation. -/
lemma InWindow.translates {m : GuestMemory} (h : m.InWindow) : m.Translates where
  regions := h.regions
  window := fun _ hr _ hx => h.mem_window hr hx
  injective := fun _ _ hxy => add_right_cancel hxy
  toGuest := fun x => add_sub_cancel_right x m.hostOffset

/-- A new memory is in its window. -/
lemma inWindow_of_construct {imageLow imageHigh fallBack : U64} {h h' : Host} {m : GuestMemory}
    (hconstruct : (construct k imageLow imageHigh fallBack).run h = .ok m h')
    (hbiased : m.hostOffset ≠ 0) (hwindow : m.windowBase.toNat + m.windowSize.toNat ≤ 2 ^ 64) :
    m.InWindow := by
  obtain ⟨h₀, base, windowSize, -, rfl⟩ := eq_of_construct hconstruct hbiased
  exact ⟨rfl, rfl, hbiased, hwindow, fun _ hr => absurd hr List.not_mem_nil⟩

/-- After every run of calls that return or throw and do not wrap around onto a region, the recorded
regions of a biased guest memory lie inside its window. -/
theorem translates_of_run {imageLow imageHigh fallBack : U64} {h h' : Host} {m : GuestMemory}
    {calls : List MemoryCall}
    (hconstruct : (construct k imageLow imageHigh fallBack).run h = .ok m h')
    (hbiased : m.hostOffset ≠ 0) (hwindow : m.windowBase.toNat + m.windowSize.toNat ≤ 2 ^ 64)
    (hrun : Run (UnwrappedCallLeaves k) ⟨m, h'⟩ calls w) : w.mem.Translates := by
  have hstart : (World.mk m h').mem.InWindow := inWindow_of_construct hconstruct hbiased hwindow
  have hw := hrun.invariant (I := fun _ w => w.mem.InWindow) hstart
    fun _ _ _ _ hin hstep => hin.step hstep.1 hstep.2
  exact hw.translates

/-! ## A host with a window -/

/-- Is nothing mapped in the range? -/
def isFree (h : Host) (addr length : U64) : Bool :=
  (List.range length.toNat).all fun i => (h.prot (addr + BitVec.ofNat 64 i)).isNone

/-- The host has mapped no byte of a free range. -/
lemma isFree_eq_true {h : Host} {addr length x : U64} (hfree : isFree h addr length = true)
    (hx : x ∈ span addr length.toNat) : h.prot x = none := by
  obtain ⟨i, hi, rfl⟩ := (mem_span_iff_exists length.isLt.le).mp hx
  rw [isFree, List.all_eq_true] at hfree
  exact Option.isNone_iff_eq_none.mp (hfree i (List.mem_range.mpr hi))

/-- A host that maps where `MAP_FIXED` says, refuses `MAP_FIXED_NOREPLACE`, and has one place for
every other mapping. -/
def windowKernel (pageBits : ℕ) (hbits : 12 ≤ pageBits ∧ pageBits < 64) (base : U64) :
    HostKernel where
  pageBits := pageBits
  place := fun h addr length flag =>
    if length = 0 then none
    else if flag = .fixed then some addr
    else if flag = .anywhere ∧ isFree h base length = true then some base
    else none
  reach := fun _ _ length _ => length.toNat
  guestPage_le := hbits.1
  pageBits_lt := hbits.2
  place_zero := fun _ _ _ => if_pos rfl
  place_fixed := by
    intro _ _ _ _ hr
    split_ifs at hr with hzero hfixed
    · exact (Option.some.inj hr).symm
    · exact absurd rfl hfixed
  place_free := by
    intro _ _ _ flag _ hflag hr x hx
    split_ifs at hr with hzero hfree
    obtain rfl := Option.some.inj hr
    exact isFree_eq_true hfree.2 hx

/-- An address space with nothing in it. -/
def emptyHost : Host := ⟨fun _ => 0, fun _ => none⟩

/-- A window at `0x70000000` for guest addresses from `0x400000` on. -/
def windowMemory : GuestMemory :=
  ⟨0x70000000 - 0x400000, 0x70000000, 0x10000, 0x400000, 0x400000 + 0x10000, []⟩

/-- The address space in which the window is reserved. -/
def windowHost : Host := emptyHost.commit 0x70000000 0x10000 PROT_NONE

/-- On a host that refuses the addresses of the image and has a window, the constructor takes the
window. -/
lemma run_construct_of_refused {k : HostKernel} {h : Host}
    {low high fallBack base probeLow probeSize windowSize : U64}
    (hlow : alignDown low k.pageSize = probeLow)
    (hsize : alignUp high k.pageSize - probeLow = probeSize)
    (hfallBack : alignUp fallBack k.pageSize = windowSize) (hne : probeSize ≠ 0)
    (hfits : ¬ windowSize < probeSize)
    (hrefused : k.place h probeLow probeSize .fixedNoReplace = none)
    (hplace : k.place h 0 windowSize .anywhere = some base) :
    (construct k low high fallBack).run h =
      .ok ⟨base - probeLow, base, windowSize, probeLow, probeLow + windowSize, []⟩
        (h.commit base windowSize PROT_NONE) := by
  have hget : (get : Prog Host Host).run h = .ok h h := rfl
  have hset : (set h : Prog Host PUnit).run h = .ok ⟨⟩ h := rfl
  unfold construct
  dsimp only
  rw [hlow, hsize, if_neg hne, run_bind_of_ok hget, HostKernel.mmap, hrefused]
  dsimp only
  rw [if_neg (by simp), Option.map_none, Option.getD_none, run_bind_of_ok hset, hfallBack,
    if_neg hfits, reserveWindow, run_bind_of_ok hget, HostKernel.mmap, hplace]
  rfl

/-- The host of the example places nothing at a fixed address that has to be free. -/
lemma windowKernel_refuses {pageBits : ℕ} {hbits : 12 ≤ pageBits ∧ pageBits < 64}
    {base addr length : U64} {h : Host} :
    (windowKernel pageBits hbits base).place h addr length .fixedNoReplace = none := by
  simp [windowKernel]

/-- The constructor reserves the window, whether the host pages have 4 KiB or 16 KiB. -/
lemma run_construct_window {pageBits : ℕ} {hbits : 12 ≤ pageBits ∧ pageBits < 64}
    (hpages : pageBits = 12 ∨ pageBits = 14) :
    (construct (windowKernel pageBits hbits 0x70000000) 0x400000 0x402000 0x10000).run emptyHost =
      .ok windowMemory windowHost := by
  have hfree : isFree emptyHost 0x70000000 0x10000 = true := by
    simp [isFree, emptyHost]
  have hplace : (windowKernel pageBits hbits 0x70000000).place emptyHost 0 0x10000 .anywhere =
      some 0x70000000 := by
    rw [windowKernel]
    dsimp only
    rw [if_neg (by decide), if_neg (by decide), if_pos ⟨rfl, hfree⟩]
  have hlow : alignDown 0x400000 (BitVec.twoPow 64 pageBits) = (0x400000 : U64) := by
    rcases hpages with rfl | rfl <;> decide
  have hfallBack : alignUp 0x10000 (BitVec.twoPow 64 pageBits) = (0x10000 : U64) := by
    rcases hpages with rfl | rfl <;> decide
  obtain ⟨probeSize, hsize, hne, hfits⟩ : ∃ probeSize : U64,
      alignUp 0x402000 (BitVec.twoPow 64 pageBits) - 0x400000 = probeSize ∧
        probeSize ≠ 0 ∧ ¬ (0x10000 : U64) < probeSize := by
    rcases hpages with rfl | rfl
    · exact ⟨0x2000, by decide, by decide, by decide⟩
    · exact ⟨0x4000, by decide, by decide, by decide⟩
  exact run_construct_of_refused hlow hsize hfallBack hne hfits windowKernel_refuses hplace

/-- Host pages of 4 KiB. -/
def smallPages : HostKernel := windowKernel 12 (by decide) 0x70000000

/-- Two pages become read-only in the middle of four. -/
theorem translates_of_run_middle : ∃ w, Run (UnwrappedCallLeaves smallPages)
      ⟨windowMemory, windowHost⟩
      [.map 0x400000 0x4000 3 "data", .protect 0x401000 0x2000 1 ""] w ∧ w.mem.Translates := by
  obtain ⟨w₁, w₂, hmap, hprotect⟩ : ∃ w₁ w₂,
      ((MemoryCall.map 0x400000 0x4000 3 "data").run smallPages).run ⟨windowMemory, windowHost⟩ =
        .ok ⟨⟩ w₁ ∧
      ((MemoryCall.protect 0x401000 0x2000 1 "").run smallPages).run w₁ = .ok ⟨⟩ w₂ :=
    ⟨_, _, rfl, rfl⟩
  have hfirst : UnwrappedCallLeaves smallPages ⟨windowMemory, windowHost⟩
      (.map 0x400000 0x4000 3 "data") w₁ := ⟨not_false, Or.inl ⟨_, hmap⟩⟩
  have hsecond : UnwrappedCallLeaves smallPages w₁ (.protect 0x401000 0x2000 1 "") w₂ := by
    refine ⟨?_, Or.inl ⟨_, hprotect⟩⟩
    rintro ⟨hlt, -⟩
    exact absurd hlt (by decide)
  have hrun := (Run.nil.snoc hfirst).snoc hsecond
  exact ⟨w₂, hrun, translates_of_run (run_construct_window (Or.inl rfl)) (by decide)
    (by decide) hrun⟩

/-- Four pages at the start of the reservation, and a `protect` from the last of them whose length
wraps to the end of the first: it returns, and then a region leaves the window. -/
theorem protect_leaves_window :
    ∃ w, (construct smallPages 0x400000 0x402000 0x10000).run emptyHost =
      .ok windowMemory windowHost ∧ windowMemory.hostOffset ≠ 0 ∧
    windowMemory.windowBase.toNat + windowMemory.windowSize.toNat ≤ 2 ^ 64 ∧
    Run (CallLeaves smallPages) ⟨windowMemory, windowHost⟩
      [.map 0x400000 0x4000 3 "data", .protect 0x403000 0xffffffffffffe000 1 ""] w ∧
    ¬ w.mem.Translates := by
  obtain ⟨w₁, w₂, hmap, hprotect, hregion, hhigh⟩ : ∃ w₁ w₂,
      ((MemoryCall.map 0x400000 0x4000 3 "data").run smallPages).run ⟨windowMemory, windowHost⟩ =
        .ok ⟨⟩ w₁ ∧
      ((MemoryCall.protect 0x403000 0xffffffffffffe000 1 "").run smallPages).run w₁ = .ok ⟨⟩ w₂ ∧
      (⟨0x403000, 0xffffffffffffe000, 1, "data"⟩ : GuestRegion) ∈ w₂.mem.regions ∧
      w₂.mem.reservedHigh = 0x410000 :=
    ⟨_, _, rfl, rfl, by decide +kernel, rfl⟩
  refine ⟨w₂, run_construct_window (Or.inl rfl), by decide, by decide,
    (Run.nil.snoc (Or.inl ⟨_, hmap⟩)).snoc (Or.inl ⟨_, hprotect⟩), fun h => ?_⟩
  have hhi := (h.regions _ hregion).2
  rw [hhigh] at hhi
  exact absurd hhi (by decide)

end GuestMemory

end InstaX
