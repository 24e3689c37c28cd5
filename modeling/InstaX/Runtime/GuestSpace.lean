import InstaX.Foundation.AddressSpace
import InstaX.Runtime.HostFaults
import InstaX.Runtime.HostPages

/-!
# Guest memory as an address space

What `GuestMemory` is for: an address space whose mapped bytes have a content, a permission, and a
host protection.  The host protection is what counts when bytes are copied, and it is not always
that of the permission: fresh pages can be read and written, whatever permission they are mapped
with, until `protect` hands theirs to the host.

A call on the space returns with its effect, throws and does nothing, or ends the process.  The host
may refuse a mapping at will; every other call returns exactly if the space allows it
(`MemoryCall.Succeeds`) and the host lets its bytes be copied (`MemoryCall.AllowedBy`).

As long as no range comes near the end of the address space and no call meets a host page of a
recorded byte that it has nothing to do with, every run of the member functions is a run of the
space, with the same endings (`run_of_run`), and in the end the queries answer for that space
(`queries_of_run`).
-/

namespace InstaX

open Throwing Rounding ByteStore Pieces History AddressSpace GuestMemory ElfMapper

/-- What the guest may do with an address by its permission, and what the host lets be done. -/
structure Rights where
  guest : CInt
  host : CInt

/-- The guest's address space. -/
abbrev GuestSpace := Space U64 Byte Rights

namespace GuestSpace

/-- Nothing is mapped. -/
def empty : GuestSpace := fun _ => none

/-- The permissions of the guest. -/
def guestPerms (σ : GuestSpace) (x : U64) : Option CInt := (perms σ x).map Rights.guest

/-- An access to a range is allowed: its bytes are mapped, and so is the page after the one of the
last byte, unless that byte begins a page. -/
def Accepts (σ : GuestSpace) (a n : U64) : Prop :=
  n ≠ 0 → (∀ x ∈ span a n.toNat, σ x ≠ none) ∧
    (4096 ∣ (a + n - 1).toNat ∨ σ (a + n - 1 + 4096) ≠ none)

/-- The host lets the mapped bytes of a range be read. -/
def LetsRead (σ : GuestSpace) (a n : U64) : Prop :=
  ∀ x ∈ span a n.toNat, ∀ c, σ x = some c → c.2.host &&& PROT_READ ≠ 0

/-- The host lets the mapped bytes of a range be written. -/
def LetsWrite (σ : GuestSpace) (a n : U64) : Prop :=
  ∀ x ∈ span a n.toNat, ∀ c, σ x = some c → c.2.host &&& PROT_WRITE ≠ 0

/-- How a read ends. -/
def ReadEnds (σ : GuestSpace) (a n : U64) : Ending → Prop :=
  Ending.Of (σ.Accepts a n) (σ.LetsRead a n)

variable {σ : GuestSpace} {s : Set U64} {v : Byte} {r : Rights} {f : U64 → Byte} {x : U64}

/-- Exactly the mapped addresses have a permission. -/
@[simp] lemma guestPerms_eq_none_iff : guestPerms σ x = none ↔ σ x = none := by
  rw [guestPerms, Option.map_eq_none_iff, perms_eq_none_iff]

/-- Fresh addresses have the permission they are mapped with. -/
lemma guestPerms_allocate :
    guestPerms (allocate s v r σ) = assign s r.guest (guestPerms σ) := by
  funext x
  rw [guestPerms, perms_allocate]
  by_cases hx : x ∈ s
  · rw [assign_of_mem hx, assign_of_mem hx, Option.map_some]
  · rw [assign_of_notMem hx, assign_of_notMem hx, guestPerms]

/-- Mapped addresses get the new permission. -/
lemma guestPerms_protect :
    guestPerms (AddressSpace.protect s r σ) = reassign s r.guest (guestPerms σ) := by
  funext x
  rw [guestPerms, perms_protect]
  by_cases hx : x ∈ s
  · rw [reassign_of_mem hx, reassign_of_mem hx, guestPerms, Option.map_map, Option.map_map]
    rfl
  · rw [reassign_of_notMem hx, reassign_of_notMem hx, guestPerms]

/-- A change of contents changes no permission. -/
lemma guestPerms_fill : guestPerms (AddressSpace.fill s f σ) = guestPerms σ := by
  funext x
  rw [guestPerms, perms_fill, guestPerms]

end GuestSpace

namespace MemoryCall

/-- What a call does to the space. -/
noncomputable def apply : MemoryCall → GuestSpace → GuestSpace
  | map guestAddr length guestProt _ =>
      allocate (pages guestAddr length) 0 ⟨guestProt, PROT_READ ||| PROT_WRITE⟩
  | protect guestAddr length guestProt _ =>
      AddressSpace.protect (pages guestAddr length) ⟨guestProt, hostProtFor guestProt⟩
  | write guestAddr src n => fill (span guestAddr n.toNat) fun x => src (x - guestAddr).toNat
  | zero guestAddr n => fill (span guestAddr n.toNat) fun _ => 0

/-- When the space allows a call. -/
def Succeeds (σ : GuestSpace) : MemoryCall → Prop
  | map .. => True
  | protect guestAddr length _ _ => length = 0 ∨ ∃ x ∈ pages guestAddr length, σ x ≠ none
  | write guestAddr _ n => σ.Accepts guestAddr n
  | zero guestAddr n => σ.Accepts guestAddr n

/-- When the host lets the bytes of a call be copied. -/
def AllowedBy (σ : GuestSpace) : MemoryCall → Prop
  | map .. => True
  | protect .. => True
  | write guestAddr _ n => σ.LetsWrite guestAddr n
  | zero guestAddr n => σ.LetsWrite guestAddr n

/-- What is left of the space after a call with an ending. -/
noncomputable def after (σ : GuestSpace) (c : MemoryCall) : Ending → Option GuestSpace
  | .returned => some (c.apply σ)
  | .threw => some σ
  | .killed => none

/-- The range of a call ends before the last page, and that of a change of permissions before the
last host page.  A mapping meets no host page of a recorded byte, and a change of permissions none
of a recorded byte outside its range. -/
def KeepsPagesApart (k : HostKernel) (m : GuestMemory) : MemoryCall → Prop
  | map guestAddr length _ _ => length = 0 ∨ guestAddr.toNat + length.toNat ≤ 2 ^ 64 - 4096 ∧
      ∀ x ∈ hull k.pageBits (guestPageAlignDown guestAddr) (guestPageAlignUp (guestAddr + length)),
        ¬ m.Recorded x.toNat
  | protect guestAddr length _ _ =>
      length = 0 ∨ guestAddr.toNat + length.toNat ≤ 2 ^ 64 - 2 ^ k.pageBits ∧
        ∀ x ∈ hull k.pageBits (guestPageAlignDown guestAddr)
          (guestPageAlignUp (guestAddr + length)),
          m.Recorded x.toNat → x ∈ pages guestAddr length
  | write guestAddr _ n => n = 0 ∨ guestAddr.toNat + n.toNat ≤ 2 ^ 64 - 4096
  | zero guestAddr n => n = 0 ∨ guestAddr.toNat + n.toNat ≤ 2 ^ 64 - 4096

end MemoryCall

namespace GuestSpace

/-- The steps of the space: a call with its ending.  A mapping may also be refused. -/
inductive Step : Option GuestSpace → MemoryCall × Ending → Option GuestSpace → Prop where
  | call {σ : GuestSpace} {c : MemoryCall} {ending : Ending}
      (h : Ending.Of (c.Succeeds σ) (c.AllowedBy σ) ending) :
      Step (some σ) (c, ending) (c.after σ ending)
  | refused (σ : GuestSpace) (guestAddr length : U64) (guestProt : CInt) (name : String) :
      Step (some σ) (.map guestAddr length guestProt name, .threw) (some σ)

end GuestSpace

/-- The guest memory shows the space: the regions represent its permissions, the bytes are its
contents, and the host protects the mapped addresses as it says. -/
structure World.Shows (w : World) (σ : GuestSpace) : Prop where
  consistent : w.mem.Consistent σ.guestPerms
  bytes : AddressSpace.Shows w.bytes σ
  host : ∀ x c, σ x = some c → w.host.prot (x + w.mem.hostOffset) = some c.2.host

namespace World.Shows

variable {k : HostKernel} {w w' : World} {σ : GuestSpace} {a n : U64}

/-- A new guest memory shows the empty space. -/
lemma of_regions_eq_nil (h : w.mem.regions = []) : w.Shows GuestSpace.empty where
  consistent := Consistent.of_regions_eq_nil h
  bytes := AddressSpace.Shows.empty _
  host := fun _ _ hx => by cases hx

/-- The host knows that the mapped addresses are in use. -/
lemma inUse (h : w.Shows σ) {x : U64} (hx : σ x ≠ none) :
    w.host.prot (x + w.mem.hostOffset) ≠ none := by
  obtain ⟨c, hc⟩ := Option.ne_none_iff_exists'.mp hx
  rw [h.host x c hc]
  exact Option.some_ne_none _

/-- The recorded bytes are the mapped ones. -/
lemma recorded_iff (h : w.Shows σ) (x : U64) : w.mem.Recorded x.toNat ↔ σ x ≠ none := by
  rw [h.consistent.recorded_iff, Ne, GuestSpace.guestPerms_eq_none_iff]

/-- A lookup finds the mapped bytes. -/
lemma found_iff (h : w.Shows σ) (x : U64) : w.mem.Found x.toNat ↔ σ x ≠ none := by
  rw [← h.recorded_iff]
  refine ⟨Found.recorded, ?_⟩
  rintro ⟨r, hr, hlo, hhi⟩
  exact ⟨r, hr, hlo, hhi, (h.consistent.wellFormed r hr).2⟩

/-- Its regions consist of whole pages. -/
lemma wellFormed (h : w.Shows σ) : w.mem.WellFormed := fun r hr => (h.consistent.wellFormed r hr).1

/-! ## Accesses -/

/-- What the space asks for, as lookups. -/
lemma accepts_iff_found (h : w.Shows σ) (hn : n ≠ 0) (hfits : a.toNat + n.toNat ≤ 2 ^ 64 - 4096) :
    σ.Accepts a n ↔ (∀ b, a.toNat ≤ b → b < a.toNat + n.toNat → w.mem.Found b) ∧
      (4096 ∣ a.toNat + n.toNat - 1 ∨ w.mem.Found (a.toNat + n.toNat - 1 + 4096)) := by
  have hpos := toNat_pos hn
  have hlast : (a + n - 1).toNat = a.toNat + n.toNat - 1 := by
    rw [toNat_last hpos, Nat.mod_eq_of_lt (by omega)]
  have hnext : (a + n - 1 + 4096).toNat = a.toNat + n.toNat - 1 + 4096 := by
    have hpage : (4096 : U64).toNat = 4096 := rfl
    rw [BitVec.toNat_add, hlast, hpage, Nat.mod_eq_of_lt (by omega)]
  rw [GuestSpace.Accepts, ← h.found_iff, hlast, hnext, imp_iff_right hn]
  refine and_congr_left fun _ => ⟨fun hbytes b hab hb => ?_, fun hbytes x hx => ?_⟩
  · have hval : (BitVec.ofNat 64 b).toNat = b := Nat.mod_eq_of_lt (by omega)
    rw [← hval, h.found_iff]
    exact hbytes _ ((mem_span_iff (by omega)).mpr (by omega))
  · obtain ⟨hlo, hhi⟩ := (mem_span_iff (by omega)).mp hx
    exact (h.found_iff x).mp (hbytes _ hlo hhi)

/-- `isMapped` asks for what the space asks for. -/
lemma isMapped_iff (h : w.Shows σ) (hn : n ≠ 0) (hfits : a.toNat + n.toNat ≤ 2 ^ 64 - 4096) :
    w.mem.isMapped a n = true ↔ σ.Accepts a n := by
  have hpos := toNat_pos hn
  rw [h.accepts_iff_found hn hfits]
  refine ⟨fun hmapped => ?_, fun hfound => isMapped_of_found h.wellFormed hpos hfound.1 hfound.2⟩
  rw [isMapped_iff_of_le h.wellFormed hpos (by omega)] at hmapped
  -- the page of a byte, and the page after the one of the last byte
  have hpage : ∀ b, a.toNat < b + 4096 → b / 4096 * 4096 < a.toNat + n.toNat - 1 + 4096 →
      a.toNat < b / 4096 * 4096 + 4096 → w.mem.Found b := fun b _ hhi hlo =>
    found_congr h.wellFormed (by omega) (hmapped (b / 4096 * 4096) (Nat.dvd_mul_left _ _) hlo hhi)
  refine ⟨fun b hab hb => hpage b (by omega) (by omega) (by omega), ?_⟩
  exact or_iff_not_imp_left.mpr fun hnot => hpage _ (by omega) (by omega) (by omega)

/-- An access passes its checks exactly if the space allows it. -/
lemma accessible_iff (h : w.Shows σ) (hfits : n = 0 ∨ a.toNat + n.toNat ≤ 2 ^ 64 - 4096) :
    w.mem.Accessible a n ↔ σ.Accepts a n := by
  by_cases hn : n = 0
  · exact iff_of_true (fun hne => absurd hn hne) fun hne => absurd hn hne
  · have hfits' := hfits.resolve_left hn
    rw [Accessible, imp_iff_right hn, h.isMapped_iff hn hfits', and_iff_left_iff_imp]
    intro haccepts
    obtain ⟨hbytes, hnext⟩ := (h.accepts_iff_found hn hfits').mp haccepts
    have hfirst := isMapped_one_of_found h.wellFormed (by omega) hbytes hnext (toNat_pos hn)
    rwa [show BitVec.ofNat 64 0 = 0 from rfl, add_zero] at hfirst

/-- The host lets the bytes of an accepted range be read exactly if the space says so. -/
lemma letsRead_iff (h : w.Shows σ) (haccepts : σ.Accepts a n) :
    w.LetsRead a n ↔ σ.LetsRead a n := by
  refine forall₂_congr fun x hx => ?_
  have hn : n ≠ 0 := by
    rintro rfl
    exact absurd (mem_span.mp hx) (Nat.not_lt_zero _)
  obtain ⟨c, hc⟩ := Option.ne_none_iff_exists'.mp ((haccepts hn).1 x hx)
  rw [World.HostReadable, h.host x c hc, hc]
  simp

/-- The host lets the bytes of an accepted range be written exactly if the space says so. -/
lemma letsWrite_iff (h : w.Shows σ) (haccepts : σ.Accepts a n) :
    w.LetsWrite a n ↔ σ.LetsWrite a n := by
  refine forall₂_congr fun x hx => ?_
  have hn : n ≠ 0 := by
    rintro rfl
    exact absurd (mem_span.mp hx) (Nat.not_lt_zero _)
  obtain ⟨c, hc⟩ := Option.ne_none_iff_exists'.mp ((haccepts hn).1 x hx)
  rw [World.HostWritable, h.host x c hc, hc]
  simp

/-! ## Steps -/

/-- A mapping apart from the mapped host pages. -/
lemma map {guestProt : CInt} {name : String} (h : w.Shows σ) (hn : n ≠ 0)
    (hfits : a.toNat + n.toNat ≤ 2 ^ 64 - 4096)
    (hapart : ∀ x ∈ hull k.pageBits (guestPageAlignDown a) (guestPageAlignUp (a + n)),
      ¬ w.mem.Recorded x.toNat)
    (hmaps : MapsPages k (guestPageAlignDown a) (guestPageAlignUp (a + n)) guestProt name w w') :
    w'.Shows (allocate (pages a n) 0 ⟨guestProt, PROT_READ ||| PROT_WRITE⟩ σ) := by
  have hpages : pages a n ⊆ hull k.pageBits (guestPageAlignDown a) (guestPageAlignUp (a + n)) := by
    rw [pages_eq_interval hn hfits]
    rintro x ⟨hlo, hhi⟩
    exact mem_hull_of_le k.pageBits_lt hmaps.nonempty hlo (Or.inl hhi)
  have hoffset : w'.mem.hostOffset = w.mem.hostOffset := by rw [hmaps.mem]
  refine ⟨?_, ?_, fun x c hc => ?_⟩
  · rw [GuestSpace.guestPerms_allocate]
    exact h.consistent.map hn hfits (fun x hx => hapart x (hpages hx)) hmaps
  · refine h.bytes.allocate hpages (fun x hx => ?_) hmaps.patched
    exact not_not.mp fun hne => hapart x hx ((h.recorded_iff x).mpr hne)
  · rw [hoffset]
    by_cases hx : x ∈ pages a n
    · rw [allocate, assign_of_mem hx] at hc
      cases hc
      exact (hmaps.prot x).1 (hpages hx)
    · rw [allocate, assign_of_notMem hx] at hc
      have hrecorded := (h.recorded_iff x).mpr (by rw [hc]; exact Option.some_ne_none c)
      rw [(hmaps.prot x).2 fun hhull => hapart x hhull hrecorded]
      exact h.host x c hc

/-- A mapping that throws maps nothing: what the host mapped elsewhere, where nothing was in use, is
given back. -/
lemma of_map_throws {guestProt : CInt} {name : String} {e : Exn} (h : w.Shows σ)
    (hrun : (GuestMemory.map k a n guestProt name).run w = .error e w') : w'.Shows σ := by
  rcases map_throws_cases hrun with rfl | ⟨desired, length, flag, hgot, rfl⟩
  · exact h
  · cases hr : k.place w.host desired length flag with
    | none =>
      have hmmap : k.mmap w.host desired length (PROT_READ ||| PROT_WRITE) flag =
        (none, w.host) := by
        rw [HostKernel.mmap, hr]
      rw [hmmap]
      exact h
    | some r =>
      have hmmap : k.mmap w.host desired length (PROT_READ ||| PROT_WRITE) flag =
          (some r, w.host.commit r length (PROT_READ ||| PROT_WRITE)) := by
        rw [HostKernel.mmap, hr]
      rw [hmmap] at hgot ⊢
      have hfixed : flag ≠ .fixed := by
        rintro rfl
        exact hgot (congrArg some (k.place_fixed _ _ _ _ hr))
      have hfree : ∀ x, σ x ≠ none → x + w.mem.hostOffset ∉ span r length.toNat := fun x hx hmem =>
        h.inUse hx (k.place_free _ _ _ _ _ hfixed hr _ hmem)
      refine ⟨h.consistent, h.bytes.congr fun x hx => ?_, fun x c hc => ?_⟩
      · exact @store_of_notMem _ _ w.host.bytes _ _ _ (fun _ => 0) (hfree x hx)
      · rw [← h.host x c hc]
        exact congrFun (prot_release_commit (k.place_free _ _ _ _ _ hfixed hr)) _

/-- A range that ends before the last host page ends before the last page. -/
lemma fits_of_host (h : a.toNat + n.toNat ≤ 2 ^ 64 - 2 ^ k.pageBits) :
    a.toNat + n.toNat ≤ 2 ^ 64 - 4096 := by
  have hpage : 2 ^ 12 ≤ 2 ^ k.pageBits := Nat.pow_le_pow_right (by decide) k.guestPage_le
  omega

/-- A change of permissions that meets no host page of another recorded byte. -/
lemma protect {guestProt : CInt} {name : String} (h : w.Shows σ) (hk : k.Protects) (hn : n ≠ 0)
    (hfits : a.toNat + n.toNat ≤ 2 ^ 64 - 2 ^ k.pageBits)
    (hapart : ∀ x ∈ hull k.pageBits (guestPageAlignDown a) (guestPageAlignUp (a + n)),
      w.mem.Recorded x.toNat → x ∈ pages a n) :
    (withProtection k (guestPageAlignDown a) (guestPageAlignUp (a + n)) guestProt name w).Shows
      (AddressSpace.protect (pages a n) ⟨guestProt, hostProtFor guestProt⟩ σ) := by
  refine ⟨?_, h.bytes.protect, fun x c hc => ?_⟩
  · rw [GuestSpace.guestPerms_protect]
    exact h.consistent.protect hn (fits_of_host hfits)
  · change (withProtection k (guestPageAlignDown a) (guestPageAlignUp (a + n)) guestProt name
      w).host.prot (x + w.mem.hostOffset) = some c.2.host
    by_cases hx : x ∈ pages a n
    · rw [protect_of_mem hx] at hc
      obtain ⟨c', -, rfl⟩ := Option.map_eq_some_iff.mp hc
      exact (prot_withProtection hk x).1 ((mem_hull_iff_pages hn hfits).mpr ⟨x, hx, rfl⟩)
    · rw [protect_of_notMem hx] at hc
      have hrecorded := (h.recorded_iff x).mpr (by rw [hc]; exact Option.some_ne_none c)
      rw [(prot_withProtection hk x).2 fun hhull => hx (hapart x hhull hrecorded)]
      exact h.host x c hc

/-- A change of contents. -/
lemma fill {s : Set U64} {f : U64 → Byte} (h : w.Shows σ) (hmem : w'.mem = w.mem)
    (hprot : w'.host.prot = w.host.prot) (hpatched : Patched s f w.bytes w'.bytes) :
    w'.Shows (AddressSpace.fill s f σ) := by
  refine ⟨?_, h.bytes.fill hpatched, fun x c hc => ?_⟩
  · rw [GuestSpace.guestPerms_fill, hmem]
    exact h.consistent
  · rw [hprot, hmem]
    obtain ⟨c', hc', hrights⟩ := exists_of_fill_eq_some hc
    rw [h.host x c' hc', hrights]

/-- Some region meets the range of a change of permissions exactly if a byte of its pages is
mapped. -/
lemma meets_iff (h : w.Shows σ) (hn : n ≠ 0) (hfits : a.toNat + n.toNat ≤ 2 ^ 64 - 4096) :
    (∃ r ∈ w.mem.regions, ¬ misses (guestPageAlignDown a) (guestPageAlignUp (a + n)) r = true) ↔
      ∃ x ∈ pages a n, σ x ≠ none := by
  have hbounds := rounded_bounds hn hfits
  rw [pages_eq_interval hn hfits]
  constructor
  · rintro ⟨r, hr, hmeets⟩
    obtain ⟨hpages, hlt⟩ := h.consistent.wellFormed r hr
    rw [misses_eq_true_iff hlt] at hmeets
    have hpos := hpages.nonempty
    have hhi : r.hi = r.guestAddr.toNat + r.length.toNat := rfl
    -- the later one of the two starts
    rcases le_total r.guestAddr.toNat (guestPageAlignDown a).toNat with hle | hle
    · refine ⟨guestPageAlignDown a, ⟨le_rfl, by omega⟩,
        (h.recorded_iff _).mp ⟨r, hr, hle, by omega⟩⟩
    · refine ⟨r.guestAddr, ⟨hle, by omega⟩, (h.recorded_iff _).mp ⟨r, hr, le_rfl, by omega⟩⟩
  · rintro ⟨x, ⟨hlo, hhi⟩, hx⟩
    obtain ⟨r, hr, hrlo, hrhi⟩ := (h.recorded_iff x).mpr hx
    refine ⟨r, hr, ?_⟩
    rw [misses_eq_true_iff (h.consistent.wellFormed r hr).2]
    omega

/-- A call that passes its checks was allowed by the space, and has its effect. -/
lemma step_of_returns {c : MemoryCall} {u : Unit} (h : w.Shows σ) (hk : k.Protects)
    (hapart : c.KeepsPagesApart k w.mem) (hrun : (c.run k).run w = .ok u w') :
    c.Succeeds σ ∧ w'.Shows (c.apply σ) := by
  cases c with
  | map a n guestProt name =>
    refine ⟨trivial, ?_⟩
    rcases mapsPages_of_run_map hrun with ⟨rfl, rfl⟩ | ⟨hn, hmaps⟩
    · rwa [MemoryCall.apply, pages_zero, allocate_empty]
    · obtain ⟨hfits, hapart⟩ := hapart.resolve_left hn
      exact h.map hn hfits hapart hmaps
  | protect a n guestProt name =>
    rcases withProtection_of_run_protect hrun with ⟨rfl, rfl⟩ | ⟨hn, hmeets, rfl⟩
    · rw [MemoryCall.apply, pages_zero, protect_empty]
      exact ⟨Or.inl rfl, h⟩
    · obtain ⟨hfits, hapart⟩ := hapart.resolve_left hn
      exact ⟨Or.inr ((h.meets_iff hn (fits_of_host hfits)).mp hmeets), h.protect hk hn hfits hapart⟩
  | write a src n =>
    obtain ⟨hmem, hpatched⟩ := patched_of_run_write hrun
    obtain ⟨haccessible, rfl⟩ := run_write_eq_ok_iff.mp hrun
    exact ⟨(h.accessible_iff hapart).mp haccessible, h.fill rfl rfl hpatched⟩
  | zero a n =>
    obtain ⟨hmem, hpatched⟩ := patched_of_run_zero hrun
    obtain ⟨haccessible, rfl⟩ := run_zero_eq_ok_iff.mp hrun
    exact ⟨(h.accessible_iff hapart).mp haccessible, h.fill rfl rfl hpatched⟩

/-- A call that throws does nothing; if it is not a mapping, the space did not allow it. -/
lemma step_of_throws {c : MemoryCall} {e : Exn} (h : w.Shows σ)
    (hapart : c.KeepsPagesApart k w.mem) (hrun : (c.run k).run w = .error e w') :
    GuestSpace.Step (some σ) (c, .threw) (some σ) ∧ w'.Shows σ := by
  cases c with
  | map a n guestProt name => exact ⟨.refused σ a n guestProt name, h.of_map_throws hrun⟩
  | protect a n guestProt name =>
    obtain rfl := eq_of_protect_throws hrun
    have hnot : ¬ (MemoryCall.protect a n guestProt name).Succeeds σ := by
      intro hsucceeds
      have hn : n ≠ 0 := by
        rintro rfl
        cases hrun
      have hfits := fits_of_host (hapart.resolve_left hn).1
      have hmeets := (h.meets_iff hn hfits).mpr (hsucceeds.resolve_left hn)
      have hall : ¬ w'.mem.regions.all
          (misses (guestPageAlignDown a) (guestPageAlignUp (a + n))) = true := by
        rw [List.all_eq_true]
        push Not
        exact hmeets
      rw [MemoryCall.run, run_protect hn, if_neg hall] at hrun
      cases hrun
    exact ⟨.call hnot, h⟩
  | write a src n =>
    obtain rfl := eq_of_write_throws hrun
    have hnot : ¬ (MemoryCall.write a src n).Succeeds σ := by
      intro hsucceeds
      obtain ⟨u, w₁, hok⟩ := returns_write.mpr ((h.accessible_iff hapart).mpr hsucceeds)
      cases hok.symm.trans hrun
    exact ⟨.call hnot, h⟩
  | zero a n =>
    obtain rfl := eq_of_zero_throws hrun
    have hnot : ¬ (MemoryCall.zero a n).Succeeds σ := by
      intro hsucceeds
      obtain ⟨u, w₁, hok⟩ := returns_zero.mpr ((h.accessible_iff hapart).mpr hsucceeds)
      cases hok.symm.trans hrun
    exact ⟨.call hnot, h⟩

/-- For a call that the space allows, the host decides as the space says. -/
lemma allowedIn_iff {c : MemoryCall} (h : w.Shows σ) (hsucceeds : c.Succeeds σ) :
    c.AllowedIn w ↔ c.AllowedBy σ := by
  cases c with
  | map a n guestProt name => exact Iff.rfl
  | protect a n guestProt name => exact Iff.rfl
  | write a src n => exact h.letsWrite_iff hsucceeds
  | zero a n => exact h.letsWrite_iff hsucceeds

end World.Shows

namespace GuestMemory

variable {k : HostKernel} {w : World} {w' : Option World} {calls : List (MemoryCall × Ending)}

/-! ## Runs -/

/-- A call ends and keeps the host pages apart.  If it is killed, no process is left. -/
inductive ApartCallEnds (k : HostKernel) : Option World → MemoryCall × Ending → Option World → Prop
  | leaves {w w' : World} {c : MemoryCall} {ending : Ending} (hapart : c.KeepsPagesApart k w.mem)
      (hends : c.Ends k w ending) (halive : ending ≠ .killed) (hleaves : Leaves (c.run k) w w') :
      ApartCallEnds k (some w) (c, ending) (some w')
  | killed {w : World} {c : MemoryCall} (hapart : c.KeepsPagesApart k w.mem)
      (hends : c.Ends k w .killed) : ApartCallEnds k (some w) (c, .killed) none

/-- Every call that keeps the host pages apart ends. -/
lemma exists_apartCallEnds {c : MemoryCall} (hapart : c.KeepsPagesApart k w.mem) :
    ∃ ending w', ApartCallEnds k (some w) (c, ending) w' := by
  obtain ⟨ending, hends, -⟩ := Ending.existsUnique_of (Returns (c.run k) w) (c.AllowedIn w)
  by_cases halive : ending = .killed
  · subst halive
    exact ⟨.killed, none, .killed hapart hends⟩
  · obtain ⟨w', hleaves⟩ := exists_leaves (c.run k) w
    exact ⟨ending, some w', .leaves hapart hends halive hleaves⟩

/-- A call on the guest memory is a call on the space, with the same ending. -/
lemma step_of_callEnds (hk : k.Protects) {v v' : Option World} {τ : Option GuestSpace}
    {e : MemoryCall × Ending} (h : Option.Rel World.Shows v τ) (hends : ApartCallEnds k v e v') :
    ∃ τ', GuestSpace.Step τ e τ' ∧ Option.Rel World.Shows v' τ' := by
  cases hends with
  | @leaves w w' c ending hapart hends halive hleaves =>
    obtain ⟨σ, hshows⟩ : ∃ σ, τ = some σ ∧ w.Shows σ := by
      cases h with
      | some hshows => exact ⟨_, rfl, hshows⟩
    obtain ⟨rfl, hshows⟩ := hshows
    rcases hleaves with ⟨u, hrun⟩ | ⟨x, hrun⟩
    · obtain ⟨hsucceeds, hshows'⟩ := hshows.step_of_returns hk hapart hrun
      have hreturned : ending = .returned := by
        cases ending with
        | returned => rfl
        | threw => exact absurd ⟨u, w', hrun⟩ hends
        | killed => exact absurd rfl halive
      subst hreturned
      have hallowed := (hshows.allowedIn_iff hsucceeds).mp hends.2
      exact ⟨some (c.apply σ), .call ⟨hsucceeds, hallowed⟩, .some hshows'⟩
    · have hthrew : ending = .threw := by
        cases ending with
        | threw => rfl
        | returned =>
          obtain ⟨u, w₁, hok⟩ := hends.1
          cases hok.symm.trans hrun
        | killed => exact absurd rfl halive
      subst hthrew
      obtain ⟨hstep, hshows'⟩ := hshows.step_of_throws hapart hrun
      exact ⟨some σ, hstep, .some hshows'⟩
  | @killed w c hapart hends =>
    obtain ⟨σ, hshows⟩ : ∃ σ, τ = some σ ∧ w.Shows σ := by
      cases h with
      | some hshows => exact ⟨_, rfl, hshows⟩
    obtain ⟨rfl, hshows⟩ := hshows
    obtain ⟨⟨u, w', hrun⟩, hnot⟩ := hends
    obtain ⟨hsucceeds, -⟩ := hshows.step_of_returns hk hapart hrun
    rw [hshows.allowedIn_iff hsucceeds] at hnot
    have hstep : GuestSpace.Step (some σ) (c, .killed) (c.after σ .killed) :=
      .call ⟨hsucceeds, hnot⟩
    exact ⟨none, hstep, .none⟩

/-- Every run of calls is a run of the space with the same endings, and the guest memory shows the
space that is reached. -/
theorem run_of_run (hk : k.Protects) (hstart : w.mem.regions = [])
    (hrun : Run (ApartCallEnds k) (some w) calls w') :
    ∃ σ, Run GuestSpace.Step (some GuestSpace.empty) calls σ ∧ Option.Rel World.Shows w' σ :=
  hrun.simulation (.some (World.Shows.of_regions_eq_nil hstart)) fun _ _ _ _ => step_of_callEnds hk

/-- Two pages are mapped and written to, the first one becomes read-only and the second one loses
all permissions, and a write behind them throws. -/
def dataCalls : List (MemoryCall × Ending) :=
  [(.map 0x400000 0x2000 3 "data", .returned), (.write 0x400010 (fun _ => 7) 2, .returned),
    (.protect 0x400000 0x1000 1 "", .returned), (.protect 0x401000 0x1000 0 "", .returned),
    (.zero 0x500000 1, .threw)]

/-- The page that became read-only is written to. -/
def overwriteCalls : List (MemoryCall × Ending) :=
  dataCalls ++ [(.write 0x400010 (fun _ => 8) 2, .killed)]

/-- The calls are made, and then the first page cannot be written, nor the second one read. -/
lemma run_dataCalls : ∃ w, Run (ApartCallEnds fixedKernel) (some reservedTwoPages) dataCalls
    (some w) ∧
    (MemoryCall.write 0x400010 (fun _ => 8) 2).Ends fixedKernel w .killed ∧
    ReadEnds w 0x401000 1 .killed := by
  -- the calls, and the host protection in front of each write
  obtain ⟨w₁, w₂, w₃, w₄, w₅, w₆, w₇, bytes, e, hmap, hlow, hhigh, hwrite, hprotect, hhide, hzero,
      hlocked, hpasses, hhidden, hreads⟩ : ∃ w₁ w₂ w₃ w₄ w₅ w₆ w₇ bytes e,
      ((MemoryCall.map 0x400000 0x2000 3 "data").run fixedKernel).run reservedTwoPages =
        .ok ⟨⟩ w₁ ∧
      w₁.host.prot (0x400010 + BitVec.ofNat 64 0 + w₁.mem.hostOffset) = some 3 ∧
      w₁.host.prot (0x400010 + BitVec.ofNat 64 1 + w₁.mem.hostOffset) = some 3 ∧
      ((MemoryCall.write 0x400010 (fun _ => 7) 2).run fixedKernel).run w₁ = .ok ⟨⟩ w₂ ∧
      ((MemoryCall.protect 0x400000 0x1000 1 "").run fixedKernel).run w₂ = .ok ⟨⟩ w₃ ∧
      ((MemoryCall.protect 0x401000 0x1000 0 "").run fixedKernel).run w₃ = .ok ⟨⟩ w₄ ∧
      ((MemoryCall.zero 0x500000 1).run fixedKernel).run w₄ = .error e w₅ ∧
      w₅.host.prot (0x400010 + w₅.mem.hostOffset) = some PROT_READ ∧
      ((MemoryCall.write 0x400010 (fun _ => 8) 2).run fixedKernel).run w₅ = .ok ⟨⟩ w₆ ∧
      w₅.host.prot (0x401000 + w₅.mem.hostOffset) = some PROT_NONE ∧
      (read 0x401000 1).run w₅ = .ok bytes w₇ :=
    ⟨_, _, _, _, _, _, _, _, _, rfl, rfl, rfl, rfl, rfl, rfl, rfl, rfl, rfl, rfl, rfl⟩
  have hapart : (MemoryCall.map 0x400000 0x2000 3 "data").KeepsPagesApart fixedKernel
      reservedTwoPages.mem := by
    refine Or.inr ⟨by decide, ?_⟩
    rintro x - ⟨r, hr, -⟩
    exact List.not_mem_nil hr
  have hlets : w₁.LetsWrite 0x400010 2 := by
    intro x hx
    obtain ⟨i, hi, rfl⟩ := (mem_span_iff_exists (by decide)).mp hx
    obtain rfl | rfl : i = 0 ∨ i = 1 := by
      have hlt : i < 2 := hi
      omega
    · exact ⟨3, hlow, by decide⟩
    · exact ⟨3, hhigh, by decide⟩
  have hinside : (MemoryCall.protect 0x400000 0x1000 1 "").KeepsPagesApart fixedKernel w₂.mem :=
    Or.inr ⟨by decide, fun x hx _ => hull_subset_pages (by decide) hx⟩
  have hfirst : ApartCallEnds fixedKernel (some reservedTwoPages)
      (.map 0x400000 0x2000 3 "data", .returned) (some w₁) :=
    .leaves hapart ⟨⟨_, _, hmap⟩, trivial⟩ nofun (Or.inl ⟨_, hmap⟩)
  have hsecond : ApartCallEnds fixedKernel (some w₁) (.write 0x400010 (fun _ => 7) 2, .returned)
      (some w₂) :=
    .leaves (Or.inr (by decide)) ⟨⟨_, _, hwrite⟩, hlets⟩ nofun (Or.inl ⟨_, hwrite⟩)
  have hthird : ApartCallEnds fixedKernel (some w₂) (.protect 0x400000 0x1000 1 "", .returned)
      (some w₃) :=
    .leaves hinside ⟨⟨_, _, hprotect⟩, trivial⟩ nofun (Or.inl ⟨_, hprotect⟩)
  have hinside' : (MemoryCall.protect 0x401000 0x1000 0 "").KeepsPagesApart fixedKernel w₃.mem :=
    Or.inr ⟨by decide, fun x hx _ => hull_subset_pages (by decide) hx⟩
  have hfourth : ApartCallEnds fixedKernel (some w₃) (.protect 0x401000 0x1000 0 "", .returned)
      (some w₄) :=
    .leaves hinside' ⟨⟨_, _, hhide⟩, trivial⟩ nofun (Or.inl ⟨_, hhide⟩)
  have hthrows : ¬ Returns ((MemoryCall.zero 0x500000 1).run fixedKernel) w₄ := by
    rintro ⟨u, w', hok⟩
    cases hok.symm.trans hzero
  have hfifth : ApartCallEnds fixedKernel (some w₄) (.zero 0x500000 1, .threw) (some w₅) :=
    .leaves (Or.inr (by decide)) hthrows nofun (Or.inr ⟨e, hzero⟩)
  refine ⟨w₅, ((((Run.nil.snoc hfirst).snoc hsecond).snoc hthird).snoc hfourth).snoc hfifth,
    ⟨⟨_, _, hpasses⟩, fun hallowed => ?_⟩, ⟨_, _, hreads⟩, fun hallowed => ?_⟩
  · obtain ⟨q, hq, hwritable⟩ := hallowed 0x400010 (mem_span.mpr (by decide))
    rw [hlocked] at hq
    cases hq
    exact absurd hwritable (by decide)
  · obtain ⟨q, hq, hreadable⟩ := hallowed 0x401000 (mem_span.mpr (by decide))
    rw [hhidden] at hq
    cases hq
    exact absurd hreadable (by decide)

/-- The space after these calls; the write to the read-only page ends the process. -/
theorem run_of_run_data :
    (∃ w σ, Run (ApartCallEnds fixedKernel) (some reservedTwoPages) dataCalls (some w) ∧
      Run GuestSpace.Step (some GuestSpace.empty) dataCalls (some σ) ∧ w.Shows σ) ∧
    Run (ApartCallEnds fixedKernel) (some reservedTwoPages) overwriteCalls none ∧
    Run GuestSpace.Step (some GuestSpace.empty) overwriteCalls none := by
  obtain ⟨w, hrun, hkilled, -⟩ := run_dataCalls
  have hoverwrite : Run (ApartCallEnds fixedKernel) (some reservedTwoPages) overwriteCalls none :=
    hrun.snoc (.killed (Or.inr (by decide)) hkilled)
  obtain ⟨τ, hτ, hrel⟩ := run_of_run protects_fixedKernel rfl hrun
  obtain ⟨τ', hτ', hrel'⟩ := run_of_run protects_fixedKernel rfl hoverwrite
  cases hrel'
  cases hrel with
  | some hshows => exact ⟨⟨w, _, hrun, hτ, hshows⟩, hoverwrite, hτ'⟩

/-- After every run of calls that the process survives the queries answer for the space that is
reached: what is mapped and with which permission, how a read ends, and the bytes it gives. -/
theorem queries_of_run (hk : k.Protects) (hstart : w.mem.regions = []) {w₁ : World}
    (hrun : Run (ApartCallEnds k) (some w) calls (some w₁)) :
    ∃ σ, Run GuestSpace.Step (some GuestSpace.empty) calls (some σ) ∧
      (∀ x, w₁.mem.protAt x = (σ.guestPerms x).getD kProtNone) ∧
      ∀ a n, n = 0 ∨ a.toNat + n.toNat ≤ 2 ^ 64 - 4096 →
        (n ≠ 0 → (w₁.mem.isMapped a n = true ↔ σ.Accepts a n)) ∧
        (∀ ending, ReadEnds w₁ a n ending ↔ σ.ReadEnds a n ending) ∧
        ∀ bytes w₂, (read a n).run w₁ = .ok bytes w₂ → w₂ = w₁ ∧ bytes.length = n.toNat ∧
          ∀ i (hi : i < bytes.length),
            (σ (a + BitVec.ofNat 64 i)).map Prod.fst = some bytes[i] := by
  obtain ⟨τ, hτ, hrel⟩ : ∃ τ, Run GuestSpace.Step (some GuestSpace.empty) calls τ ∧
      Option.Rel World.Shows (some w₁) τ :=
    hrun.simulation (.some (World.Shows.of_regions_eq_nil hstart))
      fun _ _ _ _ => step_of_callEnds hk
  obtain ⟨σ, rfl, h⟩ : ∃ σ, τ = some σ ∧ w₁.Shows σ := by
    cases hrel with
    | some hshows => exact ⟨_, rfl, hshows⟩
  refine ⟨σ, hτ, h.consistent.protAt_eq, fun a n hfits => ⟨fun hn => ?_, ?_, ?_⟩⟩
  · exact h.isMapped_iff hn (hfits.resolve_left hn)
  · have hpasses : Returns (read a n) w₁ ↔ σ.Accepts a n := by
      rw [returns_read, h.accessible_iff hfits]
    exact Ending.of_congr hpasses fun hreturns => h.letsRead_iff (hpasses.mp hreturns)
  · intro bytes w₂ hread
    obtain ⟨haccessible, rfl, rfl⟩ := run_read_eq_ok_iff.mp hread
    refine ⟨rfl, by simp [Host.load], fun i hi => ?_⟩
    have hlt : i < n.toNat := by simpa [Host.load] using hi
    have hmem : a + BitVec.ofNat 64 i ∈ span a n.toNat :=
      (mem_span_iff_exists n.isLt.le).mpr ⟨i, hlt, rfl⟩
    have hn : n ≠ 0 := by
      rintro rfl
      exact absurd hlt (Nat.not_lt_zero i)
    obtain ⟨c, hc⟩ := Option.ne_none_iff_exists'.mp
      (((h.accessible_iff hfits).mp haccessible hn).1 _ hmem)
    rw [hc, Option.map_some, ← h.bytes _ c hc]
    simp [Host.load, World.bytes, add_right_comm]

/-- The two bytes that were written are mapped and can be read; reading the second page ends the
process, which the space says too. -/
theorem queries_of_run_data : ∃ w σ, Run GuestSpace.Step (some GuestSpace.empty) dataCalls
    (some σ) ∧
    (w.mem.isMapped 0x400010 2 = true ↔ σ.Accepts 0x400010 2) ∧
    (∀ ending, ReadEnds w 0x400010 2 ending ↔ σ.ReadEnds 0x400010 2 ending) ∧
    ReadEnds w 0x401000 1 .killed ∧ σ.ReadEnds 0x401000 1 .killed := by
  obtain ⟨w, hrun, -, hkilled⟩ := run_dataCalls
  obtain ⟨σ, hσ, -, hqueries⟩ := queries_of_run protects_fixedKernel rfl hrun
  obtain ⟨hmapped, hread, -⟩ := hqueries 0x400010 2 (Or.inr (by decide))
  obtain ⟨-, hread', -⟩ := hqueries 0x401000 1 (Or.inr (by decide))
  exact ⟨w, σ, hσ, hmapped (by decide), hread, hkilled, (hread' _).mp hkilled⟩

end GuestMemory

end InstaX
