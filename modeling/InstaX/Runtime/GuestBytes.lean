import InstaX.Foundation.PageHull
import InstaX.Runtime.GuestAccess

/-!
# What the operations do to the guest's bytes

The guest sees the host's bytes through the offset of its memory.  In these terms a write and a
clearing are patches, a mapping that returns leaves zeroes on all its pages, and a change of
permissions leaves every byte alone.
-/

namespace InstaX

open Throwing Rounding ByteStore

namespace World

/-- The bytes of the guest. -/
def bytes (w : World) : U64 → Byte := fun x => w.host.bytes (x + w.mem.hostOffset)

/-- The little-endian word at a guest address. -/
def word (w : World) (a : U64) : U64 := leWord 64 (fun i => w.bytes (a + BitVec.ofNat 64 i)) 8

end World

namespace GuestMemory

variable {w w' : World}

/-- A copy to the host address of a guest address is a copy in the guest. -/
lemma bytes_memcpy (w : World) (a n : U64) (src : ℕ → Byte) :
    World.bytes { w with host := w.host.memcpy (a + w.mem.hostOffset) src n } =
      store w.bytes a n.toNat src := by
  funext x
  simp only [World.bytes, Host.memcpy, store, add_sub_add_right_eq_sub]

/-- A write that returns is a patch. -/
lemma patched_of_run_write {a n : U64} {src : ℕ → Byte} {x : Unit}
    (h : (write a src n).run w = .ok x w') : w'.mem = w.mem ∧
      Patched (span a n.toNat) (fun x => src (x - a).toNat) w.bytes w'.bytes := by
  obtain ⟨-, rfl⟩ := run_write_eq_ok_iff.mp h
  rw [bytes_memcpy]
  exact ⟨rfl, patched_store _ _ _ _⟩

/-- A clearing that returns is a patch of zeroes. -/
lemma patched_of_run_zero {a n : U64} {x : Unit} (h : (zero a n).run w = .ok x w') :
    w'.mem = w.mem ∧ Patched (span a n.toNat) (fun _ => 0) w.bytes w'.bytes := by
  obtain ⟨-, rfl⟩ := run_zero_eq_ok_iff.mp h
  rw [Host.memset, bytes_memcpy]
  exact ⟨rfl, patched_store w.bytes a n.toNat fun _ => 0⟩

/-- A word is read where all its bytes pass the check. -/
lemma run_read64_eq_ok_iff {a v : U64} :
    (read64 a).run w = .ok v w' ↔ w.mem.Accessible a 8 ∧ v = w.word a ∧ w' = w := by
  have hword : leWord 64 (fun i => (w.host.load (a + w.mem.hostOffset) 8).getD i 0) 8 =
      w.word a := by
    refine leWord_congr fun i hi => ?_
    simp [Host.load, hi, World.bytes, add_right_comm]
  rw [read64, run_bind_eq_ok_iff]
  constructor
  · rintro ⟨bytes, s, hread, hpure⟩
    obtain ⟨haccess, rfl, rfl⟩ := run_read_eq_ok_iff.mp hread
    obtain ⟨rfl, rfl⟩ := EStateM.Result.ok.inj hpure
    exact ⟨haccess, hword, rfl⟩
  · rintro ⟨haccess, rfl, rfl⟩
    refine ⟨_, _, run_read_eq_ok_iff.mpr ⟨haccess, rfl, rfl⟩, ?_⟩
    rw [EStateM.run_pure, ← hword]
    rfl

/-! ## Mapping -/

/-- What a mapping of the pages `[start, end')` that returned did. -/
structure MapsPages (k : HostKernel) (start end' : U64) (guestProt : CInt) (name : String)
    (w w' : World) : Prop where
  /-- The range has host addresses. -/
  addressable : w.mem.isAddressable start (end' - start) = true
  /-- The region is recorded last. -/
  mem : w'.mem = { w.mem with
    regions := w.mem.regions ++ [⟨start, end' - start, guestProt, name⟩] }
  /-- The host pages that meet the range are fresh. -/
  host : w'.host = w.host.commit (alignDown start k.pageSize + w.mem.hostOffset)
    (alignUp end' k.pageSize - alignDown start k.pageSize) (PROT_READ ||| PROT_WRITE)
  /-- There is such a host page. -/
  nonempty : alignUp end' k.pageSize - alignDown start k.pageSize ≠ 0

/-- A run that returns has mapped the pages. -/
lemma mapsPages_of_run {k : HostKernel} {start end' : U64} {guestProt : CInt} {name : String}
    {x : Unit} (h : (mapPages k start end' guestProt name).run w = .ok x w') :
    MapsPages k start end' guestProt name w w' := by
  rw [mapPages, run_bind_eq_ok_iff] at h
  obtain ⟨s, t, hget, h⟩ := h
  obtain ⟨rfl, rfl⟩ := EStateM.Result.ok.inj hget
  dsimp only at h
  generalize (if decide (w.mem.reservedLow ≤ start ∧ end' ≤ w.mem.reservedHigh) then MapFlag.fixed
    else MapFlag.fixedNoReplace) = flag at h
  split_ifs at h with haddr hgot
  · obtain ⟨hlength, hcommit⟩ := k.commit_of_mmap_eq_some hgot
    obtain ⟨-, rfl⟩ := EStateM.Result.ok.inj h
    exact ⟨haddr, rfl, hcommit, hlength⟩
  · cases h
  · cases h

/-- A mapping that returns did nothing, on an empty range, or mapped the pages of the range. -/
lemma mapsPages_of_run_map {k : HostKernel} {a n : U64} {guestProt : CInt} {name : String}
    {x : Unit} (h : (map k a n guestProt name).run w = .ok x w') :
    n = 0 ∧ w' = w ∨ n ≠ 0 ∧
      MapsPages k (guestPageAlignDown a) (guestPageAlignUp (a + n)) guestProt name w w' := by
  unfold map at h
  split_ifs at h with hn
  · exact Or.inl ⟨hn, (EStateM.Result.ok.inj h).2.symm⟩
  · exact Or.inr ⟨hn, mapsPages_of_run h⟩

/-- A mapping patches the guest with zeroes on the host pages of its range. -/
lemma MapsPages.patched {k : HostKernel} {start end' : U64} {guestProt : CInt} {name : String}
    (h : MapsPages k start end' guestProt name w w') :
    Patched (hull k.pageBits start end') (fun _ => 0) w.bytes w'.bytes := by
  have hoffset : w'.mem.hostOffset = w.mem.hostOffset := by
    rw [h.mem]
  have hbytes : w'.bytes = store w.bytes (alignDown start k.pageSize)
      (alignUp end' k.pageSize - alignDown start k.pageSize).toNat fun _ => 0 := by
    funext x
    rw [World.bytes, h.host, hoffset]
    simp only [World.bytes, Host.commit, store, add_sub_add_right_eq_sub]
  rw [hbytes]
  exact patched_store _ _ _ fun _ => 0

/-- After a mapping, every byte from the rounded start of the range on and below its end is zero;
an end that wrapped to zero is the end of the address space. -/
lemma MapsPages.bytes_eq_zero {k : HostKernel} {start end' : U64} {guestProt : CInt} {name : String}
    (h : MapsPages k start end' guestProt name w w') {x : U64} (hlo : start.toNat ≤ x.toNat)
    (hhi : x.toNat < end'.toNat ∨ end' = 0) : w'.bytes x = 0 :=
  h.patched.eqOn (mem_hull_of_le k.pageBits_lt h.nonempty hlo hhi)

/-- A change of permissions leaves the bytes alone. -/
lemma bytes_of_run_protect {k : HostKernel} {a n : U64} {guestProt : CInt} {name : String}
    {x : Unit} (h : (protect k a n guestProt name).run w = .ok x w') : w'.bytes = w.bytes := by
  unfold protect at h
  split_ifs at h with hn
  · rw [(EStateM.Result.ok.inj h).2]
  · rw [run_bind_eq_ok_iff] at h
    obtain ⟨s, t, hget, h⟩ := h
    obtain ⟨rfl, rfl⟩ := EStateM.Result.ok.inj hget
    split_ifs at h with hcovered
    · cases h
    · obtain ⟨-, rfl⟩ := EStateM.Result.ok.inj h
      rfl

end GuestMemory

end InstaX
