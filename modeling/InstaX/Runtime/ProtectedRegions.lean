import Mathlib.Data.List.Pairwise
import InstaX.Runtime.ImageContents
import InstaX.Runtime.MemoryCalls

/-!
# The regions after a change of permissions

`protect` rebuilds the whole list of regions: each one is kept, cut in up to three parts or given
the new permission, and the result is sorted.  On regions of whole pages that lie apart (`Apart`),
where a lookup finds the one region of an address (`Apart.findRegion_eq_some_iff`), nothing is lost
and nothing is recorded twice: the parts of a region cover it (`exists_part`), and the part an
address falls into has the new permission and name inside the range and the old ones outside
(`attributes_of_mem_splitRegion`).
-/

namespace InstaX

open Throwing Rounding ByteStore Pieces

namespace GuestMemory

/-- The regions consist of whole pages, are not empty, do not overlap, and the sum of the address
and the length of none of them wraps. -/
structure Apart (m : GuestMemory) : Prop where
  wellFormed : ∀ r ∈ m.regions, r.WellFormed ∧ r.hi < 2 ^ 64
  disjoint : m.regions.Pairwise fun r s => Disjoint r.bytes s.bytes

/-- The name of the region that a lookup of an address finds. -/
def nameAt (m : GuestMemory) (guestAddr : U64) : Option String :=
  (m.findRegion guestAddr).map GuestRegion.name

variable {k : HostKernel} {m : GuestMemory} {w : World} {a n x start end' : U64} {guestProt : CInt}
  {name : String} {r t : GuestRegion}

/-! ## Lookups -/

namespace Apart

/-- The bytes of a region are those between its ends. -/
lemma mem_bytes_iff (h : m.Apart) (hr : r ∈ m.regions) :
    x ∈ r.bytes ↔ r.guestAddr.toNat ≤ x.toNat ∧ x.toNat < r.hi :=
  GuestRegion.mem_bytes_iff (h.wellFormed r hr).2.le

/-- A byte is recorded exactly if it is in a region. -/
lemma recorded_iff (h : m.Apart) : m.Recorded x.toNat ↔ ∃ r ∈ m.regions, x ∈ r.bytes := by
  refine exists_congr fun r => and_congr_right fun hr => ?_
  rw [h.mem_bytes_iff hr]

/-- A region contains its first address. -/
lemma guestAddr_mem_bytes (h : m.Apart) (hr : r ∈ m.regions) : r.guestAddr ∈ r.bytes := by
  have hpos := (h.wellFormed r hr).1.nonempty
  rw [h.mem_bytes_iff hr, GuestRegion.hi]
  omega

/-- Two regions with a common address are one. -/
lemma eq_of_mem_bytes (h : m.Apart) (hr : r ∈ m.regions) (ht : t ∈ m.regions) (hxr : x ∈ r.bytes)
    (hxt : x ∈ t.bytes) : r = t := by
  by_contra hne
  have : Std.Symm fun r s : GuestRegion => Disjoint r.bytes s.bytes := ⟨fun _ _ hrs => hrs.symm⟩
  have hapart := h.disjoint.forall hr ht hne
  exact Set.disjoint_left.mp hapart hxr hxt

/-- A lookup finds the region of an address. -/
lemma findRegion_eq_some_iff (h : m.Apart) :
    m.findRegion x = some r ↔ r ∈ m.regions ∧ x ∈ r.bytes := by
  have hcontains : ∀ s ∈ m.regions,
      decide (s.guestAddr ≤ x ∧ x < s.guestAddr + s.length) = true ↔ x ∈ s.bytes := by
    intro s hs
    rw [h.mem_bytes_iff hs, decide_eq_true_eq, BitVec.le_def, BitVec.lt_def,
      GuestRegion.toNat_add_length (h.wellFormed s hs).2]
  constructor
  · intro hfind
    have hr := List.mem_of_find?_eq_some hfind
    rw [findRegion] at hfind
    exact ⟨hr, (hcontains r hr).mp (by simpa using List.find?_some hfind)⟩
  · rintro ⟨hr, hx⟩
    cases hfind : m.findRegion x with
    | none =>
      rw [findRegion, List.find?_eq_none] at hfind
      exact absurd ((hcontains r hr).mpr hx) (hfind r hr)
    | some s =>
      have hs := List.mem_of_find?_eq_some hfind
      rw [findRegion] at hfind
      have hxs := (hcontains s hs).mp (by simpa using List.find?_some hfind)
      rw [h.eq_of_mem_bytes hr hs hx hxs]

/-- `protAt` answers with the permission of the region. -/
lemma protAt_eq (h : m.Apart) (hr : r ∈ m.regions) (hx : x ∈ r.bytes) : m.protAt x = r.prot := by
  rw [protAt, h.findRegion_eq_some_iff.mpr ⟨hr, hx⟩]

/-- Its name is that of the region. -/
lemma nameAt_eq (h : m.Apart) (hr : r ∈ m.regions) (hx : x ∈ r.bytes) :
    m.nameAt x = some r.name := by
  rw [nameAt, h.findRegion_eq_some_iff.mpr ⟨hr, hx⟩, Option.map_some]

/-- A range misses every region when none of its bytes is recorded. -/
lemma all_misses_iff (h : m.Apart) (horder : start.toNat < end'.toNat) :
    m.regions.all (misses start end') = true ↔
      ∀ x ∈ interval start end', ¬ m.Recorded x.toNat := by
  rw [List.all_eq_true]
  constructor
  · rintro hmisses x hx ⟨r, hr, hxr⟩
    have hapart := (misses_eq_true_iff (h.wellFormed r hr).2).mp (hmisses r hr)
    rw [mem_interval] at hx
    omega
  · intro hfree r hr
    have hpos := (h.wellFormed r hr).1.nonempty
    have hhi : r.hi = r.guestAddr.toNat + r.length.toNat := rfl
    rw [misses_eq_true_iff (h.wellFormed r hr).2]
    by_contra hmeets
    -- the greater one of the two lower bounds lies in both
    rcases le_total start.toNat r.guestAddr.toNat with hle | hle
    · exact hfree r.guestAddr (by rw [mem_interval]; omega) ⟨r, hr, by omega, by omega⟩
    · exact hfree start (by rw [mem_interval]; omega) ⟨r, hr, by omega, by omega⟩

end Apart

/-! ## The parts of the regions -/

/-- The permission and the name of a part, seen from one of its bytes. -/
lemma attributes_of_mem_splitRegion (hr : r.hi < 2 ^ 64) (horder : start.toNat ≤ end'.toNat)
    (ht : t ∈ splitRegion start end' guestProt name r) (hx : x ∈ t.bytes) :
    t.prot = (if start ≤ x ∧ x < end' then guestProt else r.prot) ∧
      t.name = (if (start ≤ x ∧ x < end') ∧ ¬ name.isEmpty then name else r.name) := by
  have hle : t.hi ≤ 2 ^ 64 := by
    rcases splitRegion_cases hr horder ht with ⟨rfl, -⟩ | h | h | h <;> omega
  rw [GuestRegion.mem_bytes_iff hle] at hx
  simp only [BitVec.le_def, BitVec.lt_def]
  rcases splitRegion_cases hr horder ht with ⟨rfl, hout⟩ | ⟨hlo, hhi, hprot, -, -, hname⟩ |
    ⟨hlo, hhi, hprot, -, -, hname⟩ | ⟨hlo, hhi, hprot, -, -, hname⟩
  · rw [if_neg (by omega), if_neg (by omega)]
    exact ⟨rfl, rfl⟩
  · rw [if_neg (by omega), if_neg (by omega)]
    exact ⟨hprot, hname⟩
  · have hin : start.toNat ≤ x.toNat ∧ x.toNat < end'.toNat := by omega
    rw [if_pos hin]
    refine ⟨hprot, hname.trans ?_⟩
    by_cases hempty : name.isEmpty = true
    · rw [if_pos hempty, if_neg fun h => h.2 hempty]
    · rw [if_neg hempty, if_pos ⟨hin, hempty⟩]
  · rw [if_neg (by omega), if_neg (by omega)]
    exact ⟨hprot, hname⟩

/-- An address of a region lies in one of its parts. -/
lemma exists_part (guestProt : CInt) (name : String) (hr : r.hi < 2 ^ 64)
    (horder : start.toNat ≤ end'.toNat) (hx : x ∈ r.bytes) :
    ∃ t ∈ splitRegion start end' guestProt name r, x ∈ t.bytes :=
  (splits_splitRegion hr horder).complete x hx

/-- A part lies in its region. -/
lemma bytes_subset_of_mem_splitRegion (hr : r.hi < 2 ^ 64) (horder : start.toNat ≤ end'.toNat)
    (ht : t ∈ splitRegion start end' guestProt name r) : t.bytes ⊆ r.bytes :=
  ((splits_splitRegion hr horder).sound t ht).1

/-- The regions after the change are the parts of the regions before it. -/
lemma mem_regions_withProtection : t ∈ (withProtection k start end' guestProt name w).mem.regions ↔
    ∃ r ∈ w.mem.regions, t ∈ splitRegion start end' guestProt name r := by
  rw [withProtection, List.mem_insertionSort, List.mem_flatMap]

/-! ## The rebuilt list -/

section Rebuilt

variable (happart : w.mem.Apart) (hstart : 4096 ∣ start.toNat) (hend : 4096 ∣ end'.toNat)
  (horder : start.toNat < end'.toNat)

include happart

/-- The parts of disjoint regions are disjoint. -/
lemma pairwise_disjoint_parts (horder : start.toNat < end'.toNat) :
    (w.mem.regions.flatMap (splitRegion start end' guestProt name)).Pairwise
      fun t u => Disjoint t.bytes u.bytes := by
  rw [List.pairwise_flatMap]
  constructor
  · intro r hr
    exact (splits_splitRegion (happart.wellFormed r hr).2 horder.le).disjoint
  · refine happart.disjoint.imp_of_mem fun hr hs hdisjoint t ht u hu => ?_
    have htr := bytes_subset_of_mem_splitRegion (happart.wellFormed _ hr).2 horder.le ht
    have hus := bytes_subset_of_mem_splitRegion (happart.wellFormed _ hs).2 horder.le hu
    exact hdisjoint.mono htr hus

include hstart hend horder

/-- The rebuilt regions lie apart. -/
lemma apart_withProtection : (withProtection k start end' guestProt name w).mem.Apart := by
  constructor
  · intro t ht
    obtain ⟨r, hr, htr⟩ := mem_regions_withProtection.mp ht
    obtain ⟨hpages, hlt⟩ := happart.wellFormed r hr
    exact wellFormed_of_mem_splitRegion hlt hpages hstart hend horder htr
  · have hperm := List.perm_insertionSort (fun a b : GuestRegion => a.guestAddr ≤ b.guestAddr)
      (w.mem.regions.flatMap (splitRegion start end' guestProt name))
    rw [withProtection, hperm.pairwise_iff fun h => h.symm]
    exact pairwise_disjoint_parts happart horder

/-- The rebuilt regions are listed in the order of their addresses, and no address occurs twice. -/
lemma pairwise_lt_withProtection :
    (withProtection k start end' guestProt name w).mem.regions.Pairwise
    fun r s => r.guestAddr < s.guestAddr := by
  have hafter : (withProtection k start end' guestProt name w).mem.Apart :=
    apart_withProtection happart hstart hend horder
  have hsorted : (withProtection k start end' guestProt name w).mem.regions.Pairwise
      fun r s => r.guestAddr ≤ s.guestAddr := List.pairwise_insertionSort _ _
  refine (hsorted.and hafter.disjoint).imp_of_mem fun {r s} hr hs h => ?_
  have hne : r.guestAddr ≠ s.guestAddr := by
    intro heq
    have hmem := hafter.guestAddr_mem_bytes hs
    rw [← heq] at hmem
    exact Set.disjoint_left.mp h.2 (hafter.guestAddr_mem_bytes hr) hmem
  rw [BitVec.lt_def]
  exact lt_of_le_of_ne (BitVec.le_def.mp h.1) fun heq => hne (BitVec.eq_of_toNat_eq heq)

/-- The rebuilt regions cover the same addresses. -/
lemma recorded_withProtection_iff (x : U64) :
    (withProtection k start end' guestProt name w).mem.Recorded x.toNat ↔
      w.mem.Recorded x.toNat := by
  rw [(apart_withProtection happart hstart hend horder).recorded_iff, happart.recorded_iff]
  constructor
  · rintro ⟨t, ht, hx⟩
    obtain ⟨r, hr, htr⟩ := mem_regions_withProtection.mp ht
    exact ⟨r, hr, bytes_subset_of_mem_splitRegion (happart.wellFormed r hr).2 horder.le htr hx⟩
  · rintro ⟨r, hr, hx⟩
    obtain ⟨t, htr, hxt⟩ := exists_part guestProt name (happart.wellFormed r hr).2 horder.le hx
    exact ⟨t, mem_regions_withProtection.mpr ⟨r, hr, htr⟩, hxt⟩

/-- What lookups find after the change. -/
lemma lookup_withProtection {x : U64} (hx : w.mem.Recorded x.toNat) :
    (withProtection k start end' guestProt name w).mem.protAt x =
        (if start ≤ x ∧ x < end' then guestProt else w.mem.protAt x) ∧
      (withProtection k start end' guestProt name w).mem.nameAt x =
        (if (start ≤ x ∧ x < end') ∧ ¬ name.isEmpty then some name else w.mem.nameAt x) := by
  have hafter : (withProtection k start end' guestProt name w).mem.Apart :=
    apart_withProtection happart hstart hend horder
  obtain ⟨r, hr, hxr⟩ := happart.recorded_iff.mp hx
  have hhi := (happart.wellFormed r hr).2
  obtain ⟨t, htr, hxt⟩ := exists_part guestProt name hhi horder.le hxr
  have ht := mem_regions_withProtection (k := k).mpr ⟨r, hr, htr⟩
  obtain ⟨hprot, hname⟩ := attributes_of_mem_splitRegion hhi horder.le htr hxt
  rw [hafter.protAt_eq ht hxt, hafter.nameAt_eq ht hxt, happart.protAt_eq hr hxr,
    happart.nameAt_eq hr hxr, hprot, hname]
  refine ⟨rfl, ?_⟩
  split_ifs <;> rfl

end Rebuilt

/-! ## The call -/

/-- A change of the permissions of a range whose rounded bounds are in order.  If no byte of its
pages is recorded it throws and changes nothing.  Otherwise the regions lie apart again, their
addresses increase, they cover the same addresses, and lookups find the new permission on the pages
of the range, and the new name unless it is empty, and what they found before elsewhere. -/
theorem protect_rebuilds (happart : w.mem.Apart) (hn : n ≠ 0)
    (hrange : guestPageAlignDown a < guestPageAlignUp (a + n)) :
    ((∀ x ∈ interval (guestPageAlignDown a) (guestPageAlignUp (a + n)), ¬ w.mem.Recorded x.toNat) →
      (protect k a n guestProt name).run w =
        .error (.outOfRange "GuestMemory::protect: range is not mapped") w) ∧
    ((∃ x ∈ interval (guestPageAlignDown a) (guestPageAlignUp (a + n)), w.mem.Recorded x.toNat) →
      ∃ w', (protect k a n guestProt name).run w = .ok ⟨⟩ w' ∧ w'.mem.Apart ∧
        w'.mem.regions.Pairwise (fun r s => r.guestAddr < s.guestAddr) ∧
        (∀ x : U64, w'.mem.Recorded x.toNat ↔ w.mem.Recorded x.toNat) ∧
        ∀ x : U64, w.mem.Recorded x.toNat →
          w'.mem.protAt x = (if guestPageAlignDown a ≤ x ∧
            x < guestPageAlignUp (a + n) then guestProt
            else w.mem.protAt x) ∧
          w'.mem.nameAt x = (if (guestPageAlignDown a ≤ x ∧ x < guestPageAlignUp (a + n)) ∧
            ¬ name.isEmpty then some name else w.mem.nameAt x)) := by
  have hdown := toNat_guestPageAlignDown a
  have hstart : 4096 ∣ (guestPageAlignDown a).toNat := by omega
  have hend := dvd_guestPageAlignUp (a + n)
  rw [BitVec.lt_def] at hrange
  rw [run_protect hn]
  constructor
  · intro hfree
    rw [if_pos ((happart.all_misses_iff hrange).mpr hfree)]
  · rintro ⟨x, hx, hrecorded⟩
    rw [if_neg fun hall => (happart.all_misses_iff hrange).mp hall x hx hrecorded]
    exact ⟨_, rfl, apart_withProtection happart hstart hend hrange,
      pairwise_lt_withProtection happart hstart hend hrange,
      recorded_withProtection_iff happart hstart hend hrange,
      fun x hx => lookup_withProtection happart hstart hend hrange hx⟩

/-- Three pages of data under a page of text. -/
def dataAndText : World where
  mem := ⟨0, 0x1000, 0x4000, 0x1000, 0x5000,
    [⟨0x1000, 0x3000, kProtRead, "data"⟩, ⟨0x4000, 0x1000, kProtExec, "text"⟩]⟩
  host := ⟨fun _ => 0, fun _ => none⟩

/-- The two regions are apart. -/
lemma apart_dataAndText : dataAndText.mem.Apart := by
  constructor
  · intro r hr
    simp only [dataAndText, List.mem_cons, List.not_mem_nil, or_false] at hr
    rcases hr with rfl | rfl
    · exact ⟨⟨by decide, by decide, by decide, by decide⟩, by decide⟩
    · exact ⟨⟨by decide, by decide, by decide, by decide⟩, by decide⟩
  · apply List.pairwise_pair.mpr
    exact GuestRegion.disjoint_bytes (by decide) (by decide) (by decide)

/-- The second page of the data becomes writable, with a name of its own. -/
theorem protect_rebuilds_dataAndText : ∃ w',
    (protect ElfMapper.fixedKernel 0x2000 0x1000 3 "heap").run dataAndText = .ok ⟨⟩ w' ∧
      w'.mem.Apart ∧ w'.mem.regions.Pairwise (fun r s => r.guestAddr < s.guestAddr) ∧
      (∀ x : U64, w'.mem.Recorded x.toNat ↔ dataAndText.mem.Recorded x.toNat) ∧
      ∀ x : U64, dataAndText.mem.Recorded x.toNat →
        w'.mem.protAt x = (if guestPageAlignDown 0x2000 ≤ x ∧ x < guestPageAlignUp (0x2000 + 0x1000)
          then 3 else dataAndText.mem.protAt x) ∧
        w'.mem.nameAt x = (if (guestPageAlignDown 0x2000 ≤ x ∧
          x < guestPageAlignUp (0x2000 + 0x1000)) ∧ ¬ "heap".isEmpty then some "heap"
          else dataAndText.mem.nameAt x) := by
  have hrecorded : dataAndText.mem.Recorded (0x2000 : U64).toNat :=
    ⟨_, List.mem_cons_self, by decide, by decide⟩
  have hin : (0x2000 : U64) ∈ interval (guestPageAlignDown 0x2000)
      (guestPageAlignUp (0x2000 + 0x1000)) := mem_interval.mpr (by decide)
  exact (protect_rebuilds apart_dataAndText (by decide) (by decide)).2 ⟨_, hin, hrecorded⟩

end GuestMemory

end InstaX
