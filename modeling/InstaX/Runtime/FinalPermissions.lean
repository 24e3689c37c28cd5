import Mathlib.Data.List.Pairwise
import InstaX.Runtime.LoaderWrites
import InstaX.Runtime.Permissions

/-!
# Permissions after loading

After the relocation pass, `applyRelro` (`src/runtime/ElfMapper.cpp`) takes the write permission
away from the ranges of the `PT_GNU_RELRO` headers.  Two loops of `protect` calls then have run over
the one region that `mapImage` recorded, first over the segments and then over these ranges.  Both
are reassignments of the permissions on whole pages (`consistent_of_run_protects`), and as the pages
of the segments are apart, the permission of a byte follows (`protAt_of_applyRelro`).

`protect` rounds a range outward, so a byte that only shares a page with a RELRO range becomes
read-only as well.  The permissions are the intended ones exactly if no segment that is meant to be
more has such bytes (`finalPermissions_iff`).
-/

namespace InstaX

open Throwing Rounding ByteStore Pieces GuestMemory

namespace ElfMapper

/-- The loop body of `applyRelro`. -/
def protectRelro (k : HostKernel) (loadBias : U64) (ph : Elf64_Phdr) : Prog World Unit :=
  if ph.p_type ≠ PT_GNU_RELRO ∨ ph.p_memsz = 0 then pure ()
  else protect k (ph.p_vaddr + loadBias) ph.p_memsz kProtRead "image r-- (relro)"

/-- Take the write permission away from the ranges that only relocation writes. -/
def applyRelro (k : HostKernel) (file : ElfFile) (image : GuestElfImage) : Prog World Unit :=
  forM file.phdrs (protectRelro k image.loadBias)

end ElfMapper

/-! ## What the headers ask for -/

namespace Elf64_Phdr

/-- A `PT_GNU_RELRO` header. -/
def isRelro (ph : Elf64_Phdr) : Bool := ph.p_type == PT_GNU_RELRO

/-- The page hull of the addresses of a header, before the bias. -/
def pageHull (ph : Elf64_Phdr) : Set ℕ := {x | ∃ y ∈ ph.memRange, x / 4096 = y / 4096}

end Elf64_Phdr

/-- The address lies in a RELRO range. -/
def InRelro (file : ElfFile) (loadBias : U64) (a : U64) : Prop :=
  ∃ ph ∈ file.phdrs, ph.isRelro ∧ a ∈ span (ph.p_vaddr + loadBias) ph.p_memsz.toNat

/-- Every byte of a segment is read-only, if it lies in a RELRO range, and has the permission of its
segment otherwise. -/
def FinalPermissions (file : ElfFile) (loadBias : U64) (m : GuestMemory) : Prop :=
  ∀ ph ∈ file.phdrs, ph.isLoad → ∀ a ∈ span (ph.p_vaddr + loadBias) ph.p_memsz.toNat,
    (InRelro file loadBias a → m.protAt a = kProtRead) ∧
    (¬ InRelro file loadBias a → m.protAt a = protFromPhdrFlags ph.p_flags)

/-- Bytes of a segment that are outside the RELRO ranges, but on a page of one, belong to a
read-only segment. -/
def RelroSpares (file : ElfFile) : Prop :=
  ∀ ph ∈ file.phdrs, ph.isLoad → ∀ x ∈ ph.memRange,
    (∃ r ∈ file.phdrs, r.isRelro ∧ x ∈ r.pageHull) →
    (∀ r ∈ file.phdrs, r.isRelro → x ∉ r.memRange) → protFromPhdrFlags ph.p_flags = kProtRead

/-! ## Addresses before and after the bias -/

namespace GuestMemory

/-- The pages of a range move with it by whole pages. -/
lemma mem_pages_add {a b n x : U64} (hb : 4096 ∣ b.toNat) :
    x ∈ pages (a + b) n ↔ x - b ∈ pages a n := by
  have hpage : ∀ y : U64, x.toNat / 4096 = y.toNat / 4096 ↔
      (x - b).toNat / 4096 = (y - b).toNat / 4096 := by
    intro y
    rw [BitVec.toNat_sub, BitVec.toNat_sub]
    omega
  constructor
  · rintro ⟨y, hy, hxy⟩
    rw [← sub_add_cancel y b, add_mem_span_add] at hy
    exact ⟨y - b, hy, (hpage y).mp hxy⟩
  · rintro ⟨y, hy, hxy⟩
    refine ⟨y + b, (add_mem_span_add b).mpr hy, (hpage (y + b)).mpr ?_⟩
    rwa [add_sub_cancel_right]

end GuestMemory

namespace Elf64_Phdr

variable {ph : Elf64_Phdr} {loadBias a : U64}

/-- An address is in a mapped segment if it is in the range of its header. -/
lemma mem_span_iff_memRange (hrange : ph.p_vaddr.toNat + ph.p_memsz.toNat < 2 ^ 64) :
    a ∈ span (ph.p_vaddr + loadBias) ph.p_memsz.toNat ↔ (a - loadBias).toNat ∈ ph.memRange := by
  rw [← sub_add_cancel a loadBias, add_mem_span_add, add_sub_cancel_right]
  exact mem_span_iff hrange.le

/-- It is on a page of the segment if it is in the page hull of the header. -/
lemma mem_pages_iff_pageHull (hbias : 4096 ∣ loadBias.toNat)
    (hrange : ph.p_vaddr.toNat + ph.p_memsz.toNat < 2 ^ 64) :
    a ∈ pages (ph.p_vaddr + loadBias) ph.p_memsz ↔ (a - loadBias).toNat ∈ ph.pageHull := by
  rw [mem_pages_add hbias]
  constructor
  · rintro ⟨y, hy, hay⟩
    exact ⟨y.toNat, (mem_span_iff hrange.le).mp hy, hay⟩
  · rintro ⟨y, hy, hay⟩
    have hlt : y < 2 ^ 64 := hy.2.trans hrange
    have hval : (BitVec.ofNat 64 y).toNat = y := Nat.mod_eq_of_lt hlt
    refine ⟨BitVec.ofNat 64 y, (mem_span_iff hrange.le).mpr ?_, by rw [hval, hay]⟩
    rw [hval]
    exact hy

end Elf64_Phdr

/-! ## The rounded bounds of the image -/

section Bounds

variable {b n v low high : U64}

/-- If the biased bounds of the image are in order, every biased segment lies between them. -/
lemma segment_inside (hb : 4096 ∣ b.toNat)
    (hinside : low.toNat ≤ v.toNat ∧ (v + n).toNat ≤ high.toNat)
    (hrange : v.toNat + n.toNat < 2 ^ 64)
    (hlt : (guestPageAlignDown low + b).toNat < (guestPageAlignUp high + b).toNat) :
    (guestPageAlignDown low + b).toNat ≤ (v + b).toNat ∧
      (v + b).toNat + n.toNat ≤ (guestPageAlignUp high + b).toNat := by
  obtain ⟨hlow, hhigh⟩ := hinside
  rw [BitVec.toNat_add, Nat.mod_eq_of_lt hrange] at hhigh
  rw [BitVec.toNat_add, toNat_guestPageAlignDown] at hlt ⊢
  rw [BitVec.toNat_add] at hlt ⊢
  rw [BitVec.toNat_add]
  rcases Nat.lt_or_ge (2 ^ 64 - 4096) high.toNat with hlast | hle
  · have hzero : (guestPageAlignUp high).toNat = 0 := by
      rw [guestPageAlignUp_eq_zero hlast]
      rfl
    rw [hzero] at hlt ⊢
    omega
  · rw [toNat_guestPageAlignUp hle] at hlt ⊢
    omega

/-- If they are not, because the bias carries the image over the end of the address space, the
region of the image ends before every segment or starts behind it. -/
lemma segment_misses (hb : 4096 ∣ b.toNat)
    (hinside : low.toNat ≤ v.toNat ∧ (v + n).toNat ≤ high.toNat)
    (hrange : v.toNat + n.toNat < 2 ^ 64) (hn : n ≠ 0)
    (hle : (guestPageAlignUp high + b).toNat ≤ (guestPageAlignDown low + b).toNat) :
    (guestPageAlignUp high + b).toNat ≤ (guestPageAlignDown (v + b)).toNat ∨
      (guestPageAlignUp (v + b + n)).toNat ≤ (guestPageAlignDown low + b).toNat := by
  obtain ⟨hlow, hhigh⟩ := hinside
  have hpos := toNat_pos hn
  have hsum : (v + n).toNat = v.toNat + n.toNat := by
    rw [BitVec.toNat_add, Nat.mod_eq_of_lt hrange]
  rw [hsum] at hhigh
  -- a rounding up wraps to zero on the last page
  have hup : ∀ x : U64, (guestPageAlignUp x).toNat = 0 ∧ 2 ^ 64 - 4096 < x.toNat ∨
      (guestPageAlignUp x).toNat = (x.toNat + 4095) / 4096 * 4096 ∧ x.toNat ≤ 2 ^ 64 - 4096 := by
    intro x
    rcases Nat.lt_or_ge (2 ^ 64 - 4096) x.toNat with hlast | hle
    · rw [guestPageAlignUp_eq_zero hlast]
      exact Or.inl ⟨rfl, hlast⟩
    · rw [toNat_guestPageAlignUp hle]
      exact Or.inr (by omega)
  have hend := hup (v + b + n)
  have hhigh' := hup high
  rw [add_right_comm, BitVec.toNat_add, hsum] at hend
  rw [add_right_comm]
  rw [BitVec.toNat_add, BitVec.toNat_add, toNat_guestPageAlignDown] at hle ⊢
  rw [toNat_guestPageAlignDown, BitVec.toNat_add]
  omega

end Bounds

/-! ## Loops of permission changes -/

namespace ElfMapper

section Loops

variable {k : HostKernel} {loadBias : U64} {skip : Elf64_Phdr → Prop} [DecidablePred skip]
  {prot : Elf64_Phdr → CInt} {label : Elf64_Phdr → String} {w w' : World} {l : List Elf64_Phdr}
  {u : Unit}

/-- What a loop over the headers asks for: the pages of each, with its permission. -/
def protections (loadBias : U64) (skip : Elf64_Phdr → Prop) [DecidablePred skip]
    (prot : Elf64_Phdr → CInt) (l : List Elf64_Phdr) : List (Set U64 × CInt) :=
  (l.filter fun ph => ¬ skip ph).map fun ph =>
    (pages (ph.p_vaddr + loadBias) ph.p_memsz, prot ph)

/-- A protection is that of a header which is not skipped. -/
lemma mem_protections {p : Set U64 × CInt} : p ∈ protections loadBias skip prot l ↔
    ∃ ph ∈ l, ¬ skip ph ∧ (pages (ph.p_vaddr + loadBias) ph.p_memsz, prot ph) = p := by
  simp only [protections, List.mem_map, List.mem_filter, decide_eq_true_eq, and_assoc]

/-- A loop of `protect` calls reassigns the permissions, range after range. -/
lemma consistent_of_run_protects {f : U64 → Option CInt} (h : w.mem.Consistent f)
    (hfits : ∀ ph ∈ l, ¬ skip ph → ph.p_memsz ≠ 0 ∧
      (ph.p_vaddr + loadBias).toNat + ph.p_memsz.toNat ≤ 2 ^ 64 - 4096)
    (hrun : (forM l fun ph => if skip ph then pure () else
      protect k (ph.p_vaddr + loadBias) ph.p_memsz (prot ph) (label ph)).run w = .ok u w') :
    w'.mem.Consistent (reassignAll (protections loadBias skip prot l) f) := by
  induction l generalizing w f with
  | nil =>
    obtain ⟨-, rfl⟩ := EStateM.Result.ok.inj hrun
    exact h
  | cons q l ih =>
    rw [List.forM_cons, run_bind_eq_ok_iff] at hrun
    obtain ⟨_, w₁, hhead, htail⟩ := hrun
    have hfits' := fun ph hph => hfits ph (List.mem_cons_of_mem q hph)
    by_cases hskip : skip q
    · rw [if_pos hskip] at hhead
      obtain ⟨-, rfl⟩ := EStateM.Result.ok.inj hhead
      rw [protections, List.filter_cons_of_neg (by simpa using hskip)]
      exact ih h hfits' htail
    · rw [if_neg hskip] at hhead
      obtain ⟨hne, hfit⟩ := hfits q List.mem_cons_self hskip
      obtain ⟨hzero, -⟩ | ⟨-, -, rfl⟩ := withProtection_of_run_protect hhead
      · exact absurd hzero hne
      · rw [protections, List.filter_cons_of_pos (by simpa using hskip), List.map_cons,
          reassignAll_cons]
        exact ih (h.protect hne hfit) hfits' htail

/-- A loop whose every range misses the recorded regions throws, if it makes a call at all. -/
lemma not_run_protects_of_misses
    (hmisses : ∀ ph ∈ l, ¬ skip ph → ph.p_memsz ≠ 0 ∧ ∀ r ∈ w.mem.regions,
      misses (guestPageAlignDown (ph.p_vaddr + loadBias))
        (guestPageAlignUp (ph.p_vaddr + loadBias + ph.p_memsz)) r = true)
    (hcall : ∃ ph ∈ l, ¬ skip ph) :
    ¬ (forM l fun ph => if skip ph then pure () else
      protect k (ph.p_vaddr + loadBias) ph.p_memsz (prot ph) (label ph)).run w = .ok u w' := by
  intro hrun
  induction l with
  | nil =>
    obtain ⟨ph, hph, -⟩ := hcall
    exact absurd hph List.not_mem_nil
  | cons q l ih =>
    rw [List.forM_cons, run_bind_eq_ok_iff] at hrun
    obtain ⟨_, w₁, hhead, htail⟩ := hrun
    by_cases hskip : skip q
    · rw [if_pos hskip] at hhead
      obtain ⟨-, rfl⟩ := EStateM.Result.ok.inj hhead
      obtain ⟨ph, hph, hcall⟩ := hcall
      have hph' : ph ∈ l := (List.mem_cons.mp hph).resolve_left fun heq => hcall (heq ▸ hskip)
      exact ih (fun p hp => hmisses p (List.mem_cons_of_mem q hp)) ⟨ph, hph', hcall⟩ htail
    · rw [if_neg hskip] at hhead
      obtain ⟨hne, hall⟩ := hmisses q List.mem_cons_self hskip
      obtain ⟨hzero, -⟩ | ⟨-, ⟨r, hr, hmeets⟩, -⟩ := withProtection_of_run_protect hhead
      · exact hne hzero
      · exact hmeets (hall r hr)

end Loops

end ElfMapper

/-! ## After mapping -/

namespace ElfMapper

section Loading

variable {k : HostKernel} {file : ElfFile} {loadBias : U64} {w w₁ w₂ w' : World}
  {image : GuestElfImage} {u : Unit}

/-- The headers that the permission loop of `mapImage` passes over. -/
def SkippedSegment (ph : Elf64_Phdr) : Prop := ph.p_type ≠ PT_LOAD ∨ ph.p_memsz = 0

instance : DecidablePred SkippedSegment := fun _ => inferInstanceAs (Decidable (_ ∨ _))

/-- The headers that `applyRelro` passes over. -/
def SkippedRelro (ph : Elf64_Phdr) : Prop := ph.p_type ≠ PT_GNU_RELRO ∨ ph.p_memsz = 0

instance : DecidablePred SkippedRelro := fun _ => inferInstanceAs (Decidable (_ ∨ _))

/-- The `PT_LOAD` headers with memory are not skipped. -/
lemma not_skippedSegment_iff {ph : Elf64_Phdr} :
    ¬ SkippedSegment ph ↔ ph.isLoad = true ∧ ph.p_memsz ≠ 0 := by
  rw [SkippedSegment, not_or, not_not, Elf64_Phdr.isLoad, beq_iff_eq]

/-- The RELRO headers with memory are not skipped. -/
lemma not_skippedRelro_iff {ph : Elf64_Phdr} :
    ¬ SkippedRelro ph ↔ ph.isRelro = true ∧ ph.p_memsz ≠ 0 := by
  rw [SkippedRelro, not_or, not_not, Elf64_Phdr.isRelro, beq_iff_eq]

/-- The region of a mapping of whole pages in an empty memory. -/
lemma region_of_run_map {low high : U64} {guestProt : CInt} {name : String}
    (hstart : w.mem.regions = []) (hlow : 4096 ∣ low.toNat) (hhigh : 4096 ∣ high.toNat)
    (hmap : (map k low (high - low) guestProt name).run w = .ok u w₁) :
    ∀ r ∈ w₁.mem.regions, r.guestAddr = low ∧ r.guestAddr + r.length = high := by
  intro r hr
  rcases mapsPages_of_run_map hmap with ⟨-, rfl⟩ | ⟨-, hmaps⟩
  · rw [hstart] at hr
    exact absurd hr List.not_mem_nil
  · rw [add_sub_cancel, guestPageAlignDown_of_dvd hlow, guestPageAlignUp_of_dvd hhigh] at hmaps
    rw [hmaps.mem, hstart, List.nil_append, List.mem_singleton] at hr
    rw [hr, add_sub_cancel]
    exact ⟨rfl, rfl⟩

/-- Such a mapping, of a range in order, assigns its permission. -/
lemma consistent_of_run_map {low high : U64} {guestProt : CInt} {name : String}
    (hstart : w.mem.regions = []) (hhigh : 4096 ∣ high.toNat) (hlt : low.toNat < high.toNat)
    (hmap : (map k low (high - low) guestProt name).run w = .ok u w₁) :
    w₁.mem.Consistent (assign (pages low (high - low)) guestProt fun _ => none) := by
  have hlength : (high - low).toNat = high.toNat - low.toNat :=
    BitVec.toNat_sub_of_le (BitVec.le_def.mpr hlt.le)
  have hempty : ∀ x ∈ pages low (high - low), ¬ w.mem.Recorded x.toNat := by
    rintro x - ⟨r, hr, -⟩
    rw [hstart] at hr
    exact absurd hr List.not_mem_nil
  rcases mapsPages_of_run_map hmap with ⟨hzero, -⟩ | ⟨hne, hmaps⟩
  · rw [sub_eq_zero] at hzero
    exact absurd (congrArg BitVec.toNat hzero) hlt.ne'
  · exact (Consistent.of_regions_eq_nil hstart).map hne (by omega) hempty hmaps

/-- What `mapImage` leaves in an empty memory: whole pages that hold the segments, with the
permission of the image reassigned on the pages of the segments. -/
structure ImageMapped (file : ElfFile) (loadBias : U64) (image : GuestElfImage) (m : GuestMemory) :
    Prop where
  page_low : 4096 ∣ image.loadLow.toNat
  page_high : 4096 ∣ image.loadHigh.toNat
  low_lt : image.loadLow.toNat < image.loadHigh.toNat
  inside : ∀ ph ∈ file.phdrs, ph.isLoad → image.loadLow.toNat ≤ (ph.p_vaddr + loadBias).toNat ∧
    (ph.p_vaddr + loadBias).toNat + ph.p_memsz.toNat ≤ image.loadHigh.toNat
  consistent : m.Consistent (reassignAll (protections loadBias SkippedSegment
    (fun ph => protFromPhdrFlags ph.p_flags) file.phdrs)
    (assign (interval image.loadLow image.loadHigh) (kProtRead ||| kProtWrite) fun _ => none))

/-- The segments end below the last page. -/
lemma ImageMapped.fits {m : GuestMemory} (h : ImageMapped file loadBias image m) {ph : Elf64_Phdr}
    (hph : ph ∈ file.phdrs) (hload : ph.isLoad) :
    (ph.p_vaddr + loadBias).toNat + ph.p_memsz.toNat ≤ 2 ^ 64 - 4096 := by
  have hinside := h.inside ph hph hload
  have hpage := h.page_high
  omega

/-- If there is a segment at all, the bounds of the image do not wrap: otherwise the permission loop
would not find the segment. -/
lemma imageMapped_of_run_mapImage (hstart : w.mem.regions = []) (hbias : 4096 ∣ loadBias.toNat)
    (hrange : ∀ ph ∈ file.phdrs, ph.isLoad → ph.p_vaddr.toNat + ph.p_memsz.toNat < 2 ^ 64)
    (hsegment : ∃ ph ∈ file.phdrs, ¬ SkippedSegment ph)
    (hrun : (mapImage k file loadBias).run w = .ok image w₁) :
    ImageMapped file loadBias image w₁.mem := by
  obtain ⟨bounds, s₁, s₂, hspan, hmap, hcopy, hprotect, -, himageLow, himageHigh, -⟩ :=
    stages_of_run_mapImage hrun
  obtain ⟨-, rfl⟩ := run_computeLoadSpan_eq_ok hspan
  obtain ⟨hmem, -⟩ := frame_of_run_copySegments hcopy
  obtain ⟨-, -, hall, -⟩ := foldl_spanStep file.phdrs (false, 0xffffffffffffffff, 0)
  dsimp only at hmap himageLow himageHigh
  generalize file.phdrs.foldl spanStep (false, 0xffffffffffffffff, 0) =
    s at hall hmap himageLow himageHigh
  -- the biased bounds are starts of pages
  have hlow : 4096 ∣ (guestPageAlignDown s.2.1 + loadBias).toNat := by
    rw [BitVec.toNat_add, toNat_guestPageAlignDown]
    omega
  have hhigh : 4096 ∣ (guestPageAlignUp s.2.2 + loadBias).toNat := by
    have := dvd_guestPageAlignUp s.2.2
    rw [BitVec.toNat_add]
    omega
  rcases Nat.lt_or_ge (guestPageAlignDown s.2.1 + loadBias).toNat
    (guestPageAlignUp s.2.2 + loadBias).toNat with hlt | hle
  · have hinside := fun ph hph hload =>
      segment_inside hbias (hall ph hph hload) (hrange ph hph hload) hlt
    have hmapped := consistent_of_run_map hstart hhigh hlt hmap
    have hlength := toNat_pos (fun hzero => hlt.ne' (congrArg BitVec.toNat (sub_eq_zero.mp hzero)))
    rw [← hmem, pages_eq_interval (fun hzero =>
      by rw [hzero] at hlength; exact absurd hlength (by decide))
      (by rw [BitVec.toNat_sub_of_le (BitVec.le_def.mpr hlt.le)]; omega), add_sub_cancel,
      guestPageAlignDown_of_dvd hlow, guestPageAlignUp_of_dvd hhigh] at hmapped
    rw [← himageLow, ← himageHigh] at *
    refine ⟨hlow, hhigh, hlt, hinside, consistent_of_run_protects hmapped ?_ hprotect⟩
    intro ph hph hcall
    obtain ⟨hload, hn⟩ := not_skippedSegment_iff.mp hcall
    have hbounds := hinside ph hph hload
    exact ⟨hn, by omega⟩
  · -- the region of the image misses every segment
    refine absurd hprotect (not_run_protects_of_misses (fun ph hph hcall => ?_) hsegment)
    obtain ⟨hload, hn⟩ := not_skippedSegment_iff.mp hcall
    refine ⟨hn, fun r hr => ?_⟩
    rw [hmem] at hr
    obtain ⟨hfirst, hend⟩ := region_of_run_map hstart hlow hhigh hmap r hr
    rw [misses, hend, hfirst, decide_eq_true_eq, BitVec.le_def, BitVec.le_def]
    exact segment_misses hbias (hall ph hph hload) (hrange ph hph hload) hn hle

/-- What `mapImage` leaves in an empty memory, if there is a segment at all: the biased segments do
not wrap, and the permissions are those of the image, reassigned on the pages of the segments. -/
lemma consistent_of_run_mapImage (hstart : w.mem.regions = []) (hbias : 4096 ∣ loadBias.toNat)
    (hrange : ∀ ph ∈ file.phdrs, ph.isLoad → ph.p_vaddr.toNat + ph.p_memsz.toNat < 2 ^ 64)
    (hsegment : ∃ ph ∈ file.phdrs, ¬ SkippedSegment ph)
    (hrun : (mapImage k file loadBias).run w = .ok image w₁) :
    (∀ ph ∈ file.phdrs, ph.isLoad →
      (ph.p_vaddr + loadBias).toNat + ph.p_memsz.toNat ≤ 2 ^ 64 - 4096) ∧
    ∃ f : U64 → Option CInt,
      (∀ ph ∈ file.phdrs, ph.isLoad → ∀ a ∈ pages (ph.p_vaddr + loadBias) ph.p_memsz,
        f a = some (kProtRead ||| kProtWrite)) ∧
      w₁.mem.Consistent (reassignAll (protections loadBias SkippedSegment
        (fun ph => protFromPhdrFlags ph.p_flags) file.phdrs) f) := by
  have h := imageMapped_of_run_mapImage hstart hbias hrange hsegment hrun
  refine ⟨fun ph hph hload => h.fits hph hload, _, fun ph hph hload a ha => ?_, h.consistent⟩
  obtain ⟨hlo, hhi⟩ := h.inside ph hph hload
  have hlow := h.page_low
  have hhigh := h.page_high
  refine assign_of_mem ?_
  obtain ⟨y, hy, hpage⟩ := ha
  rw [mem_span_iff (by omega)] at hy
  rw [mem_interval]
  omega

/-- `mapImage` reports the bias it was given. -/
lemma loadBias_of_run_mapImage (hrun : (mapImage k file loadBias).run w = .ok image w₁) :
    image.loadBias = loadBias := by
  obtain ⟨_, _, _, hstages⟩ := stages_of_run_mapImage hrun
  exact hstages.bias

/-! ## After `applyRelro` -/

section Relro

variable (hstart : w.mem.regions = []) (hbias : 4096 ∣ loadBias.toNat)
  (hrange : ∀ ph ∈ file.phdrs, ph.isLoad → ph.p_vaddr.toNat + ph.p_memsz.toNat < 2 ^ 64)
  (hdisjoint : (file.phdrs.filter Elf64_Phdr.isLoad).Pairwise fun p q =>
    Disjoint p.pageHull q.pageHull)
  (hrelro : ∀ r ∈ file.phdrs, r.isRelro → ∃ ph ∈ file.phdrs, ph.isLoad ∧ r.memRange ⊆ ph.memRange)
  (hmap : (mapImage k file loadBias).run w = .ok image w₁) (hmem : w₂.mem = w₁.mem)
  (hrun : (applyRelro k file image).run w₂ = .ok u w')

include hbias hrange hdisjoint in
/-- On the pages of a segment, the permission loop of `mapImage` gives the permission of the
segment. -/
lemma reassignAll_segments {f : U64 → Option CInt} {ph : Elf64_Phdr} (hph : ph ∈ file.phdrs)
    (hload : ph.isLoad) {a : U64} (ha : a ∈ pages (ph.p_vaddr + loadBias) ph.p_memsz)
    (hf : ∃ q, f a = some q) :
    reassignAll (protections loadBias SkippedSegment (fun ph => protFromPhdrFlags ph.p_flags)
      file.phdrs) f a = some (protFromPhdrFlags ph.p_flags) := by
  obtain ⟨q, hq⟩ := hf
  have hn : ph.p_memsz ≠ 0 := by
    intro hzero
    rw [hzero, pages_zero] at ha
    exact ha
  have hcall : ¬ SkippedSegment ph := not_skippedSegment_iff.mpr ⟨hload, hn⟩
  rw [reassignAll_of_mem ?_ ⟨_, mem_protections.mpr ⟨ph, hph, hcall, rfl⟩, ha⟩, hq, Option.map_some]
  intro p hp hap
  obtain ⟨s, hs, hscall, rfl⟩ := mem_protections.mp hp
  obtain ⟨hsload, -⟩ := not_skippedSegment_iff.mp hscall
  -- two segments with a common page are one
  by_contra hne
  have hsymm : Std.Symm fun p q : Elf64_Phdr => Disjoint p.pageHull q.pageHull :=
    ⟨fun _ _ h => h.symm⟩
  have hapart := hdisjoint.forall (List.mem_filter.mpr ⟨hs, hsload⟩)
    (List.mem_filter.mpr ⟨hph, hload⟩) fun heq => hne (by rw [heq])
  rw [Elf64_Phdr.mem_pages_iff_pageHull hbias (hrange _ hph hload)] at ha
  rw [Elf64_Phdr.mem_pages_iff_pageHull hbias (hrange _ hs hsload)] at hap
  exact Set.disjoint_left.mp hapart hap ha

include hrelro in
/-- A RELRO range with bytes lies in a segment. -/
lemma relro_inside {r : Elf64_Phdr} (hr : r ∈ file.phdrs) (hisRelro : r.isRelro)
    (hn : r.p_memsz ≠ 0) : ∃ ph ∈ file.phdrs, ph.isLoad ∧
      ph.p_vaddr.toNat ≤ r.p_vaddr.toNat ∧
      r.p_vaddr.toNat + r.p_memsz.toNat ≤ ph.p_vaddr.toNat + ph.p_memsz.toNat := by
  obtain ⟨ph, hph, hload, hsub⟩ := hrelro r hr hisRelro
  have hpos := toNat_pos hn
  have hfirst : r.p_vaddr.toNat ∈ r.memRange := ⟨le_rfl, by omega⟩
  have hlast : r.p_vaddr.toNat + r.p_memsz.toNat - 1 ∈ r.memRange := ⟨by omega, by omega⟩
  obtain ⟨hlo, -⟩ := hsub hfirst
  obtain ⟨-, hhi⟩ := hsub hlast
  exact ⟨ph, hph, hload, hlo, by omega⟩

include hrange hrelro in
/-- The RELRO ranges do not wrap. -/
lemma relro_range {r : Elf64_Phdr} (hr : r ∈ file.phdrs) (hisRelro : r.isRelro) :
    r.p_vaddr.toNat + r.p_memsz.toNat < 2 ^ 64 := by
  by_cases hn : r.p_memsz = 0
  · rw [hn]
    exact r.p_vaddr.isLt
  · obtain ⟨ph, hph, hload, -, hhi⟩ := relro_inside hrelro hr hisRelro hn
    exact hhi.trans_lt (hrange ph hph hload)

include hrange hrelro in
/-- Under the bias the RELRO ranges do not wrap if the segments do not. -/
lemma relro_fits (hfits : ∀ ph ∈ file.phdrs, ph.isLoad →
      (ph.p_vaddr + loadBias).toNat + ph.p_memsz.toNat ≤ 2 ^ 64 - 4096) :
    ∀ r ∈ file.phdrs, ¬ SkippedRelro r → r.p_memsz ≠ 0 ∧
      (r.p_vaddr + loadBias).toNat + r.p_memsz.toNat ≤ 2 ^ 64 - 4096 := by
  intro r hr hcall
  obtain ⟨hisRelro, hn⟩ := not_skippedRelro_iff.mp hcall
  obtain ⟨ph, hph, hload, hlo, hhi⟩ := relro_inside hrelro hr hisRelro hn
  have hsegment := hfits ph hph hload
  have hbelow := hrange ph hph hload
  refine ⟨hn, ?_⟩
  rw [BitVec.toNat_add] at hsegment ⊢
  omega

include hstart hbias hrange hdisjoint hrelro hmap hmem hrun in
/-- The permission of every byte of a segment, after both loops: read-only on the pages of the RELRO
ranges, and that of its segment elsewhere. -/
theorem protAt_of_applyRelro (ph : Elf64_Phdr) (hph : ph ∈ file.phdrs) (hload : ph.isLoad) (a : U64)
    (ha : a ∈ span (ph.p_vaddr + loadBias) ph.p_memsz.toNat) :
    ((∃ r ∈ file.phdrs, r.isRelro ∧ a ∈ pages (r.p_vaddr + loadBias) r.p_memsz) →
      w'.mem.protAt a = kProtRead) ∧
    ((∀ r ∈ file.phdrs, r.isRelro → a ∉ pages (r.p_vaddr + loadBias) r.p_memsz) →
      w'.mem.protAt a = protFromPhdrFlags ph.p_flags) := by
  have hpage : a ∈ pages (ph.p_vaddr + loadBias) ph.p_memsz := ⟨a, ha, rfl⟩
  have hn : ph.p_memsz ≠ 0 := by
    intro hzero
    rw [hzero, pages_zero] at hpage
    exact hpage
  obtain ⟨hfits, f, hf, hmapped⟩ := consistent_of_run_mapImage hstart hbias hrange
    ⟨ph, hph, not_skippedSegment_iff.mpr ⟨hload, hn⟩⟩ hmap
  rw [← hmem] at hmapped
  rw [applyRelro, loadBias_of_run_mapImage hmap] at hrun
  have hfinal : w'.mem.Consistent (reassignAll (protections loadBias SkippedRelro
      (fun _ => kProtRead) file.phdrs) _) :=
    consistent_of_run_protects hmapped (relro_fits hrange hrelro hfits) hrun
  have hsegment := reassignAll_segments hbias hrange hdisjoint hph hload hpage
    ⟨_, hf ph hph hload a hpage⟩
  rw [hfinal.protAt_eq]
  constructor
  · rintro ⟨r, hr, hisRelro, har⟩
    have hcall : ¬ SkippedRelro r := by
      refine not_skippedRelro_iff.mpr ⟨hisRelro, fun hzero => ?_⟩
      rw [hzero, pages_zero] at har
      exact har
    rw [reassignAll_of_mem (v := kProtRead) ?_ ⟨_, mem_protections.mpr ⟨r, hr, hcall, rfl⟩, har⟩,
      hsegment]
    · rfl
    · intro p hp _
      obtain ⟨s, -, -, rfl⟩ := mem_protections.mp hp
      rfl
  · intro hnone
    rw [reassignAll_of_forall_notMem, hsegment, Option.getD_some]
    intro p hp hap
    obtain ⟨s, hs, hcall, rfl⟩ := mem_protections.mp hp
    exact hnone s hs (not_skippedRelro_iff.mp hcall).1 hap

include hstart hbias hrange hdisjoint hrelro hmap hmem hrun in
/-- For segments on pages of their own and RELRO ranges inside segments: after the mapping in an
empty memory and `applyRelro`, with whatever writes in between, the permissions are the intended
ones exactly if the bytes next to the RELRO ranges were read-only anyway. -/
theorem finalPermissions_iff : FinalPermissions file loadBias w'.mem ↔ RelroSpares file := by
  have hvalue :=
    protAt_of_applyRelro hstart hbias hrange hdisjoint hrelro hmap hmem hrun
  constructor
  · intro hperm ph hph hload x hx ⟨r, hr, hisRelro, hxr⟩ hnot
    -- the address of the byte
    have hlt : x < 2 ^ 64 := hx.2.trans (hrange ph hph hload)
    obtain ⟨a, rfl⟩ : ∃ a : U64, (a - loadBias).toNat = x :=
      ⟨BitVec.ofNat 64 x + loadBias, by rw [add_sub_cancel_right]; exact Nat.mod_eq_of_lt hlt⟩
    rw [← Elf64_Phdr.mem_span_iff_memRange (hrange ph hph hload)] at hx
    rw [← Elf64_Phdr.mem_pages_iff_pageHull hbias (relro_range hrange hrelro hr hisRelro)] at hxr
    rw [← (hperm ph hph hload a hx).2, (hvalue ph hph hload a hx).1 ⟨r, hr, hisRelro, hxr⟩]
    rintro ⟨s, hs, hsRelro, has⟩
    rw [Elf64_Phdr.mem_span_iff_memRange (relro_range hrange hrelro hs hsRelro)] at has
    exact hnot s hs hsRelro has
  · intro hspares ph hph hload a ha
    obtain ⟨hon, hoff⟩ := hvalue ph hph hload a ha
    constructor
    · rintro ⟨r, hr, hisRelro, har⟩
      exact hon ⟨r, hr, hisRelro, a, har, rfl⟩
    · intro hnot
      by_cases hpage : ∃ r ∈ file.phdrs, r.isRelro ∧ a ∈ pages (r.p_vaddr + loadBias) r.p_memsz
      · rw [hon hpage]
        obtain ⟨r, hr, hisRelro, har⟩ := hpage
        rw [Elf64_Phdr.mem_span_iff_memRange (hrange ph hph hload)] at ha
        rw [Elf64_Phdr.mem_pages_iff_pageHull hbias (relro_range hrange hrelro hr hisRelro)] at har
        refine (hspares ph hph hload _ ha ⟨r, hr, hisRelro, har⟩ fun s hs hsRelro has => ?_).symm
        rw [← Elf64_Phdr.mem_span_iff_memRange (relro_range hrange hrelro hs hsRelro)] at has
        exact hnot ⟨s, hs, hsRelro, has⟩
      · exact hoff fun r hr hisRelro har => hpage ⟨r, hr, hisRelro, har⟩

end Relro

end Loading

/-- A file with data on two pages, of which the first bytes are only written by relocation. -/
def relroFile (relroSize : U64) : ElfFile where
  path := []
  bytes := []
  ehdr := { e_type := ET_EXEC, e_entry := 0x400000, e_phoff := 64, e_phentsize := 56, e_phnum := 2 }
  phdrs := [
    { p_type := PT_LOAD, p_flags := PF_R ||| PF_W, p_offset := 0, p_vaddr := 0x400000,
      p_filesz := 0, p_memsz := 0x1001 },
    { p_type := PT_GNU_RELRO, p_flags := PF_R, p_offset := 0, p_vaddr := 0x400000,
      p_filesz := 0, p_memsz := relroSize }]

/-- The segments of the file do not wrap. -/
lemma range_relroFile (relroSize : U64) : ∀ ph ∈ (relroFile relroSize).phdrs, ph.isLoad →
    ph.p_vaddr.toNat + ph.p_memsz.toNat < 2 ^ 64 := by
  intro ph hph hload
  rcases List.mem_pair.mp hph with rfl | rfl
  · decide
  · cases hload

/-- They are on pages of their own. -/
lemma disjoint_relroFile (relroSize : U64) :
    ((relroFile relroSize).phdrs.filter Elf64_Phdr.isLoad).Pairwise fun p q =>
      Disjoint p.pageHull q.pageHull :=
  List.pairwise_singleton _ _

/-- The RELRO range is in one of them. -/
lemma relro_relroFile {relroSize : U64} (hsize : relroSize.toNat ≤ 0x1001) :
    ∀ r ∈ (relroFile relroSize).phdrs, r.isRelro →
      ∃ ph ∈ (relroFile relroSize).phdrs, ph.isLoad ∧ r.memRange ⊆ ph.memRange := by
  intro r hr hisRelro
  rcases List.mem_pair.mp hr with rfl | rfl
  · cases hisRelro
  · refine ⟨_, List.mem_cons_self, rfl, fun x hx => ?_⟩
    obtain ⟨hlo, hhi⟩ := hx
    exact ⟨hlo, hhi.trans_le (Nat.add_le_add_left hsize _)⟩

/-- The equivalence for a RELRO range of one page. -/
theorem finalPermissions_iff_relroFile : ∃ image w₁ u w',
    (mapImage fixedKernel (relroFile 0x1000) 0).run reservedTwoPages = .ok image w₁ ∧
    (applyRelro fixedKernel (relroFile 0x1000) image).run w₁ = .ok u w' ∧
    (FinalPermissions (relroFile 0x1000) 0 w'.mem ↔ RelroSpares (relroFile 0x1000)) := by
  have hreturns : Returns (do
      let image ← mapImage fixedKernel (relroFile 0x1000) 0
      applyRelro fixedKernel (relroFile 0x1000) image) reservedTwoPages := by decide +kernel
  obtain ⟨u, w', hrun⟩ := hreturns
  obtain ⟨image, w₁, hmap, hrelro⟩ := run_bind_eq_ok_iff.mp hrun
  exact ⟨image, w₁, u, w', hmap, hrelro, finalPermissions_iff rfl (by decide)
    (range_relroFile _) (disjoint_relroFile _) (relro_relroFile (by decide)) hmap rfl hrelro⟩

/-- Half a page of RELRO takes the write permission of the other half. -/
theorem relro_takes_write : ∃ image w₁ u w',
    (mapImage fixedKernel (relroFile 0x800) 0).run reservedTwoPages = .ok image w₁ ∧
    (applyRelro fixedKernel (relroFile 0x800) image).run w₁ = .ok u w' ∧
    reservedTwoPages.mem.regions = [] ∧
    (∀ ph ∈ (relroFile 0x800).phdrs, ph.isLoad →
      ph.p_vaddr.toNat + ph.p_memsz.toNat < 2 ^ 64) ∧
    ((relroFile 0x800).phdrs.filter Elf64_Phdr.isLoad).Pairwise
      (fun p q => Disjoint p.pageHull q.pageHull) ∧
    (∀ r ∈ (relroFile 0x800).phdrs, r.isRelro →
      ∃ ph ∈ (relroFile 0x800).phdrs, ph.isLoad ∧ r.memRange ⊆ ph.memRange) ∧
    ¬ FinalPermissions (relroFile 0x800) 0 w'.mem := by
  -- the whole run, evaluated
  have hcheck : (match (do
        let image ← mapImage fixedKernel (relroFile 0x800) 0
        applyRelro fixedKernel (relroFile 0x800) image).run reservedTwoPages with
      | .ok _ w' => decide (w'.mem.protAt 0x400800 = kProtRead)
      | .error _ _ => false) = true := by decide +kernel
  cases hrun : (do
      let image ← mapImage fixedKernel (relroFile 0x800) 0
      applyRelro fixedKernel (relroFile 0x800) image).run reservedTwoPages with
  | error e w' =>
    rw [hrun] at hcheck
    cases hcheck
  | ok u w' =>
    rw [hrun] at hcheck
    obtain ⟨image, w₁, hmap, hrelro⟩ := run_bind_eq_ok_iff.mp hrun
    refine ⟨image, w₁, u, w', hmap, hrelro, rfl, range_relroFile _, disjoint_relroFile _,
      relro_relroFile (by decide), fun h => ?_⟩
    have hsegment := (h _ List.mem_cons_self rfl 0x400800 (mem_span.mpr (by decide))).2
    have hnot : ¬ InRelro (relroFile 0x800) 0 0x400800 := by
      rintro ⟨r, hr, hisRelro, hin⟩
      rcases List.mem_pair.mp hr with rfl | rfl
      · cases hisRelro
      · exact absurd (mem_span.mp hin) (by decide)
    rw [of_decide_eq_true hcheck] at hsegment
    exact absurd (hsegment hnot) (by decide)

end ElfMapper

end InstaX
