import InstaX.Foundation.History
import InstaX.Runtime.ImageContents
import InstaX.Runtime.MemoryCalls

/-!
# The permissions in force

The recorded regions are meant to be one map from guest addresses to permissions: `map` gives a
permission to the pages of its range, `protect` changes the permissions of the mapped pages of its
range, and `protAt` looks one up.  `granted` is that map, as the history of the calls makes it.

`map` appends its region without looking at the others, and a lookup takes the first region that
contains the address.  So a second mapping of a page is not seen (`map_twice`).  A rounded range
that wraps, or ends at `2 ^ 64`, is recorded under bounds that no lookup finds.  As long as every
mapping is apart from the recorded bytes and no rounded range wraps (`KeepsApart`), the regions
represent the permissions in force after every run (`protAt_of_run`).
-/

namespace InstaX

open Throwing Rounding ByteStore Pieces History GuestMemory ElfMapper

/-! ## What the calls grant -/

namespace MemoryCall

/-- The permissions after a call that returns. -/
noncomputable def grant (f : U64 → Option CInt) : MemoryCall → U64 → Option CInt
  | map guestAddr length guestProt _ => assign (pages guestAddr length) guestProt f
  | protect guestAddr length guestProt _ => reassign (pages guestAddr length) guestProt f
  | write .. => f
  | zero .. => f

/-- The permissions after a history: at each address that of the latest call that covers it. -/
noncomputable def granted (calls : List MemoryCall) : U64 → Option CInt :=
  calls.foldl grant fun _ => none

/-- The last call grants last. -/
lemma granted_concat (calls : List MemoryCall) (c : MemoryCall) :
    granted (calls ++ [c]) = c.grant (granted calls) := by
  rw [granted, List.foldl_append]
  rfl

/-- The call's rounded range does not reach the last page, and a mapping is apart from the recorded
bytes. -/
def KeepsApart (m : GuestMemory) : MemoryCall → Prop
  | map guestAddr length _ _ => length = 0 ∨ guestAddr.toNat + length.toNat ≤ 2 ^ 64 - 4096 ∧
      ∀ x ∈ pages guestAddr length, ¬ m.Recorded x.toNat
  | protect guestAddr length _ _ => length = 0 ∨ guestAddr.toNat + length.toNat ≤ 2 ^ 64 - 4096
  | write .. => True
  | zero .. => True

end MemoryCall

namespace GuestMemory

/-! ## Regions that represent the permissions -/

/-- The recorded regions represent the permissions `f`. -/
structure Consistent (m : GuestMemory) (f : U64 → Option CInt) : Prop where
  /-- Regions consist of whole pages and end below `2 ^ 64`. -/
  wellFormed : ∀ r ∈ m.regions, r.WellFormed ∧ r.hi < 2 ^ 64
  represents : Represents GuestRegion.bytes GuestRegion.prot m.regions f

namespace Consistent

variable {k : HostKernel} {m : GuestMemory} {f : U64 → Option CInt} {w w' : World}

/-- Without regions nothing is granted. -/
lemma of_regions_eq_nil (h : m.regions = []) : m.Consistent fun _ => none := by
  refine ⟨?_, ?_⟩
  · rw [h]
    exact fun _ hr => absurd hr List.not_mem_nil
  · rw [h]
    exact Represents.nil

/-- The bytes of a region are those between its ends. -/
lemma mem_bytes_iff (h : m.Consistent f) {r : GuestRegion} (hr : r ∈ m.regions) {x : U64} :
    x ∈ r.bytes ↔ r.guestAddr.toNat ≤ x.toNat ∧ x.toNat < r.hi :=
  GuestRegion.mem_bytes_iff (h.wellFormed r hr).2.le

/-- The recorded bytes are those with a permission. -/
lemma recorded_iff (h : m.Consistent f) (x : U64) : m.Recorded x.toNat ↔ f x ≠ none := by
  rw [Ne, h.represents.eq_none_iff]
  push Not
  constructor
  · rintro ⟨r, hr, hx⟩
    exact ⟨r, hr, (h.mem_bytes_iff hr).mpr hx⟩
  · rintro ⟨r, hr, hx⟩
    exact ⟨r, hr, (h.mem_bytes_iff hr).mp hx⟩

/-- A lookup finds the permission in force. -/
lemma protAt_eq (h : m.Consistent f) (x : U64) : m.protAt x = (f x).getD kProtNone := by
  have hfind : f x = (m.findRegion x).map GuestRegion.prot := by
    refine h.represents.eq_find? fun r hr => ?_
    rw [h.mem_bytes_iff hr, decide_eq_true_eq, BitVec.le_def, BitVec.lt_def,
      GuestRegion.toNat_add_length (h.wellFormed r hr).2]
  rw [protAt, hfind]
  cases m.findRegion x <;> rfl

/-- A mapping apart from the recorded bytes assigns its permission. -/
lemma map {a n : U64} {guestProt : CInt} {name : String} (h : w.mem.Consistent f) (hn : n ≠ 0)
    (hfits : a.toNat + n.toNat ≤ 2 ^ 64 - 4096)
    (hapart : ∀ x ∈ pages a n, ¬ w.mem.Recorded x.toNat)
    (hmaps : MapsPages k (guestPageAlignDown a) (guestPageAlignUp (a + n)) guestProt name w w') :
    w'.mem.Consistent (assign (pages a n) guestProt f) := by
  have hbounds := rounded_bounds hn hfits
  have hle : (guestPageAlignDown a).toNat ≤ (guestPageAlignUp (a + n)).toNat := by omega
  obtain ⟨r, hr⟩ : ∃ r : GuestRegion, r = ⟨guestPageAlignDown a,
    guestPageAlignUp (a + n) - guestPageAlignDown a, guestProt, name⟩ := ⟨_, rfl⟩
  have hlo : r.guestAddr = guestPageAlignDown a := by rw [hr]
  have hhi : r.hi = (guestPageAlignUp (a + n)).toNat := by
    rw [hr]
    exact hi_mk_sub hle
  have hbytes : r.bytes = pages a n := by
    rw [pages_eq_interval hn hfits, hr]
    exact span_sub hle
  have hprot : r.prot = guestProt := by rw [hr]
  have hregions : w'.mem.regions = w.mem.regions ++ [r] := by
    rw [hmaps.mem, hr]
  constructor
  · intro s hs
    rw [hregions, List.mem_append, List.mem_singleton] at hs
    rcases hs with hs | rfl
    · exact h.wellFormed s hs
    · have hsum : s.hi = s.guestAddr.toNat + s.length.toNat := rfl
      rw [← hlo] at hbounds
      exact ⟨⟨by omega, by omega, by omega, by omega⟩, by omega⟩
  · have hfree : ∀ x ∈ r.bytes, f x = none := by
      intro x hx
      rw [hbytes] at hx
      by_contra hne
      exact hapart x hx ((h.recorded_iff x).mpr hne)
    rw [hregions, ← hbytes, ← hprot]
    exact h.represents.append_singleton hfree

/-- A change of permissions reassigns them. -/
lemma protect {a n : U64} {guestProt : CInt} {name : String} (h : w.mem.Consistent f) (hn : n ≠ 0)
    (hfits : a.toNat + n.toNat ≤ 2 ^ 64 - 4096) :
    (withProtection k (guestPageAlignDown a) (guestPageAlignUp (a + n)) guestProt name
      w).mem.Consistent (reassign (pages a n) guestProt f) := by
  have hbounds := rounded_bounds hn hfits
  rw [pages_eq_interval hn hfits]
  set parts := splitRegion (guestPageAlignDown a) (guestPageAlignUp (a + n)) guestProt name
  have hperm : ((w.mem.regions.flatMap parts).insertionSort
      fun a b => a.guestAddr ≤ b.guestAddr).Perm (w.mem.regions.flatMap parts) :=
    List.perm_insertionSort _ _
  constructor
  · intro t ht
    obtain ⟨r, hr, htr⟩ := List.mem_flatMap.mp (hperm.mem_iff.mp ht)
    obtain ⟨hpages, hlt⟩ := h.wellFormed r hr
    exact wellFormed_of_mem_splitRegion hlt hpages hbounds.1 hbounds.2.1 (by omega) htr
  · refine (h.represents.flatMap fun r hr => ?_).perm hperm.symm
    exact splits_splitRegion (h.wellFormed r hr).2 (by omega)

/-- What one call does to the permissions. -/
theorem step {c : MemoryCall} {x : Unit} (h : w.mem.Consistent f) (hc : c.KeepsApart w.mem)
    (hrun : (c.run k).run w = .ok x w') : w'.mem.Consistent (c.grant f) := by
  cases c with
  | map a n guestProt name =>
    rcases mapsPages_of_run_map hrun with ⟨rfl, rfl⟩ | ⟨hn, hmaps⟩
    · rwa [MemoryCall.grant, pages_zero, assign_empty]
    · obtain ⟨hfits, hapart⟩ := hc.resolve_left hn
      exact h.map hn hfits hapart hmaps
  | protect a n guestProt name =>
    rcases withProtection_of_run_protect hrun with ⟨rfl, rfl⟩ | ⟨hn, -, rfl⟩
    · rwa [MemoryCall.grant, pages_zero, reassign_empty]
    · exact h.protect hn (hc.resolve_left hn)
  | write a src n =>
    obtain ⟨-, rfl⟩ := run_write_eq_ok_iff.mp hrun
    exact h
  | zero a n =>
    obtain ⟨-, rfl⟩ := run_zero_eq_ok_iff.mp hrun
    exact h

end Consistent

/-! ## Runs of calls that return -/

/-- A call that returns and keeps the mappings apart. -/
def ApartCallReturns (k : HostKernel) (w : World) (c : MemoryCall) (w' : World) : Prop :=
  c.KeepsApart w.mem ∧ CallReturns k w c w'

variable {k : HostKernel} {w w' : World} {calls : List MemoryCall}

/-- The regions represent the permissions in force after every run of calls that keep apart. -/
lemma consistent_of_run (hstart : w.mem.regions = [])
    (hrun : Run (ApartCallReturns k) w calls w') :
    w'.mem.Consistent (MemoryCall.granted calls) := by
  refine hrun.invariant (I := fun calls w => w.mem.Consistent (MemoryCall.granted calls))
    (Consistent.of_regions_eq_nil hstart) fun calls w c w' h hstep => ?_
  rw [MemoryCall.granted_concat]
  exact h.step hstep.1 hstep.2

/-- After every run of calls that keep apart, the regions are disjoint and every lookup gives the
permission of the latest call that covers the address. -/
theorem protAt_of_run (hstart : w.mem.regions = [])
    (hrun : Run (ApartCallReturns k) w calls w') :
    w'.mem.regions.Pairwise (fun r s => Disjoint r.bytes s.bytes) ∧
      ∀ a, w'.mem.protAt a = (MemoryCall.granted calls a).getD kProtNone := by
  have h := consistent_of_run hstart hrun
  exact ⟨h.represents.disjoint, h.protAt_eq⟩

/-- Two pages are mapped, and the first one becomes read-only. -/
theorem protAt_of_run_readOnly : ∃ w', Run (ApartCallReturns fixedKernel) reservedTwoPages
      [.map 0x400000 0x2000 3 "data", .protect 0x400000 0x1000 1 ""] w' ∧
    (w'.mem.regions.Pairwise fun r s => Disjoint r.bytes s.bytes) ∧
    ∀ a, w'.mem.protAt a = (MemoryCall.granted
      [.map 0x400000 0x2000 3 "data", .protect 0x400000 0x1000 1 ""] a).getD kProtNone := by
  obtain ⟨w₁, w₂, hmap, hprotect⟩ : ∃ w₁ w₂, CallReturns fixedKernel reservedTwoPages
      (.map 0x400000 0x2000 3 "data") w₁ ∧ CallReturns fixedKernel w₁
      (.protect 0x400000 0x1000 1 "") w₂ := ⟨_, _, rfl, rfl⟩
  have hapart : (MemoryCall.map 0x400000 0x2000 3 "data").KeepsApart reservedTwoPages.mem :=
    Or.inr ⟨by decide, fun _ _ ⟨_, hr, _⟩ => absurd hr List.not_mem_nil⟩
  have hrun : Run (ApartCallReturns fixedKernel) reservedTwoPages
      [.map 0x400000 0x2000 3 "data", .protect 0x400000 0x1000 1 ""] w₂ :=
    (Run.nil.snoc ⟨hapart, hmap⟩).snoc ⟨Or.inr (by decide), hprotect⟩
  exact ⟨w₂, hrun, protAt_of_run rfl hrun⟩

/-- A page is mapped with the permission to write, then mapped again without it: both calls return,
the regions overlap, and a lookup still finds the first permission. -/
theorem map_twice : ∃ w', Run (CallReturns fixedKernel) reservedTwoPages
      [.map 0x400000 0x1000 3 "data", .map 0x400000 0x1000 1 "text"] w' ∧
    ¬ (w'.mem.regions.Pairwise fun r s => Disjoint r.bytes s.bytes) ∧
    ¬ ∀ a, w'.mem.protAt a = (MemoryCall.granted
      [.map 0x400000 0x1000 3 "data", .map 0x400000 0x1000 1 "text"] a).getD kProtNone := by
  obtain ⟨w₁, w₂, hfirst, hsecond, hregions⟩ : ∃ w₁ w₂,
      CallReturns fixedKernel reservedTwoPages (.map 0x400000 0x1000 3 "data") w₁ ∧
      CallReturns fixedKernel w₁ (.map 0x400000 0x1000 1 "text") w₂ ∧
      w₂.mem.regions = [⟨0x400000, 0x1000, 3, "data"⟩, ⟨0x400000, 0x1000, 1, "text"⟩] :=
    ⟨_, _, rfl, rfl, rfl⟩
  refine ⟨w₂, (Run.nil.snoc hfirst).snoc hsecond, ?_, ?_⟩
  · rw [hregions, List.pairwise_cons]
    intro h
    have hfirst : (0x400000 : U64) ∈ span 0x400000 0x1000 := mem_span.mpr (by decide)
    exact Set.disjoint_left.mp (h.1 _ (List.mem_singleton_self _)) hfirst hfirst
  · intro h
    have hmem : (0x400000 : U64) ∈ pages 0x400000 0x1000 :=
      ⟨0x400000, mem_span.mpr (by decide), rfl⟩
    have hprot := h 0x400000
    rw [protAt, findRegion, hregions] at hprot
    simp only [MemoryCall.granted, List.foldl_cons, List.foldl_nil, MemoryCall.grant] at hprot
    rw [assign_of_mem hmem] at hprot
    exact absurd hprot (by decide)

end GuestMemory

end InstaX
