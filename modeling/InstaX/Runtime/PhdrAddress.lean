import InstaX.Runtime.ElfReader
import InstaX.Runtime.ImageContents

/-!
# The program header table in memory

`mapImage` reports where the guest finds the program headers of the file.  It looks for a segment
whose file bytes contain the start of the table, and not for one that contains the table.  Where the
segment ends inside the table, the guest reads on in whatever follows in memory, and the report is
right only if that happens to be the rest of the table (`holdsHeaders_iff`).
-/

namespace InstaX

open Throwing Rounding ByteStore GuestMemory

namespace ElfMapper

variable {k : HostKernel} {file : ElfFile} {loadBias : U64} {w w' : World} {image : GuestElfImage}

/-! ## The memory after `mapImage` -/

/-- The biased bounds of the image. -/
def imageBounds (file : ElfFile) (loadBias : U64) : U64 × U64 :=
  let s := file.phdrs.foldl spanStep (false, 0xffffffffffffffff, 0)
  (guestPageAlignDown s.2.1 + loadBias, guestPageAlignUp s.2.2 + loadBias)

/-- The address lies on a host page that the mapping of the image refreshes. -/
def IsFresh (k : HostKernel) (file : ElfFile) (loadBias x : U64) : Prop :=
  (imageBounds file loadBias).2 - (imageBounds file loadBias).1 ≠ 0 ∧
    x ∈ hull k.pageBits (guestPageAlignDown (imageBounds file loadBias).1)
      (guestPageAlignUp (imageBounds file loadBias).2)

instance (k : HostKernel) (file : ElfFile) (loadBias x : U64) :
    Decidable (IsFresh k file loadBias x) :=
  inferInstanceAs (Decidable (_ ∧ (_ : U64).toNat < _))

/-- The byte at an address after the mapping of a file over the bytes `f`: in a segment that of the
segment, on the other pages of the image zero, and elsewhere what it was. -/
def placedByte (k : HostKernel) (file : ElfFile) (loadBias : U64) (f : U64 → Byte)
    (x : U64) : Byte :=
  match (file.phdrs.filter Elf64_Phdr.isLoad).find? fun ph =>
      decide ((x - (ph.p_vaddr + loadBias)).toNat < ph.p_memsz.toNat) with
  | some ph => (segmentPatch file loadBias ph).2 x
  | none => if IsFresh k file loadBias x then 0 else f x

/-- The mapping clears the pages of the image. -/
lemma bytes_of_run_mapSpan {w₁ : World} {bounds : U64 × U64}
    (hspan : (computeLoadSpan file).run w = .ok bounds w) {prot : CInt} {name : String}
    (hmap : (map k (bounds.1 + loadBias) (bounds.2 + loadBias - (bounds.1 + loadBias)) prot
      name).run w = .ok () w₁) (x : U64) :
    w₁.bytes x = if IsFresh k file loadBias x then 0 else w.bytes x := by
  obtain ⟨-, rfl⟩ := run_computeLoadSpan_eq_ok hspan
  rcases mapsPages_of_run_map hmap with ⟨hempty, rfl⟩ | ⟨hne, hmaps⟩
  · rw [if_neg]
    rintro ⟨hne, -⟩
    exact hne hempty
  · rw [add_sub_cancel] at hmaps
    have hpatched := hmaps.patched
    by_cases hfresh : IsFresh k file loadBias x
    · rw [if_pos hfresh]
      exact hpatched.eqOn hfresh.2
    · rw [if_neg hfresh]
      exact hpatched.frame fun hx => hfresh ⟨hne, hx⟩

section Mapped

variable
  (hdisjoint : (file.phdrs.filter Elf64_Phdr.isLoad).Pairwise fun p q =>
    Disjoint p.memRange q.memRange)
  (hsize : ∀ ph ∈ file.phdrs, ph.isLoad → ph.p_filesz.toNat ≤ ph.p_memsz.toNat)
  (hfits : ∀ ph ∈ file.phdrs, ph.isLoad → ph.p_vaddr.toNat + ph.p_memsz.toNat < 2 ^ 64)
  (hrun : (mapImage k file loadBias).run w = .ok image w')

include hdisjoint hsize hfits hrun

/-- The segments have their patches after `mapImage`. -/
lemma eqOn_segmentPatch_of_run_mapImage {ph : Elf64_Phdr}
    (hph : ph ∈ file.phdrs.filter Elf64_Phdr.isLoad) :
    InFile file ph ∧ Set.EqOn w'.bytes (segmentPatch file loadBias ph).2
      (segmentPatch file loadBias ph).1 := by
  obtain ⟨bounds, w₁, w₂, hstages⟩ := stages_of_run_mapImage hrun
  obtain ⟨-, hfile, hpatches⟩ := patches_of_run_copySegments hsize hstages.copy
  have hpairwise := pairwise_disjoint_segmentPatch file loadBias hdisjoint fun q hq =>
    (hfits q (List.mem_filter.mp hq).1 (List.mem_filter.mp hq).2).le
  rw [bytes_of_run_protectSegments hstages.protect]
  obtain ⟨hmem, hload⟩ := List.mem_filter.mp hph
  exact ⟨hfile ph hmem hload, hpatches.eqOn_of_mem hpairwise (List.mem_map_of_mem hph)⟩

/-- The whole memory after `mapImage`. -/
lemma bytes_of_run_mapImage : w'.bytes = placedByte k file loadBias w.bytes := by
  funext x
  unfold placedByte
  split
  · next ph hfind =>
    have hx := of_decide_eq_true (List.find?_some (p := fun ph : Elf64_Phdr =>
      decide ((x - (ph.p_vaddr + loadBias)).toNat < ph.p_memsz.toNat)) hfind)
    exact (eqOn_segmentPatch_of_run_mapImage hdisjoint hsize hfits hrun
      (List.mem_of_find?_eq_some hfind)).2 hx
  · next hfind =>
    obtain ⟨bounds, w₁, w₂, hstages⟩ := stages_of_run_mapImage hrun
    obtain ⟨-, -, hpatches⟩ := patches_of_run_copySegments hsize hstages.copy
    rw [bytes_of_run_protectSegments hstages.protect, hpatches.eq_of_forall_notMem,
      bytes_of_run_mapSpan hstages.span hstages.map]
    intro p hp hxp
    obtain ⟨ph, hph, rfl⟩ := List.mem_map.mp hp
    exact absurd (List.find?_eq_none.mp hfind ph hph) (not_not.mpr (decide_eq_true hxp))

end Mapped

/-! ## The table -/

/-- The size of the program header table. -/
def tableSize (file : ElfFile) : ℕ := file.ehdr.e_phnum.toNat * file.ehdr.e_phentsize.toNat

/-- The first segment whose file bytes contain the start of the program header table. -/
def headerSegment (file : ElfFile) : Option Elf64_Phdr :=
  file.phdrs.find? fun ph => decide (ph.p_type = PT_LOAD ∧ ph.p_offset ≤ file.ehdr.e_phoff ∧
    file.ehdr.e_phoff < ph.p_offset + ph.p_filesz)

/-- The guest finds the program header table of the file at the address it is told. -/
def HoldsHeaders (file : ElfFile) (image : GuestElfImage) (m : U64 → Byte) : Prop :=
  ∀ i < tableSize file, file.bytes[file.ehdr.e_phoff.toNat + i]? =
    some (m (image.phdrAddr + BitVec.ofNat 64 i))

/-- What of the table lies behind the file bytes of the segment is there all the same. -/
def RestPlaced (k : HostKernel) (file : ElfFile) (loadBias : U64) (f : U64 → Byte) : Prop :=
  ∀ ph, headerSegment file = some ph → ∀ i < tableSize file,
    ph.p_offset.toNat + ph.p_filesz.toNat ≤ file.ehdr.e_phoff.toNat + i →
      file.bytes[file.ehdr.e_phoff.toNat + i]? = some (placedByte k file loadBias f
        (ph.p_vaddr + loadBias + BitVec.ofNat 64 (file.ehdr.e_phoff.toNat + i - ph.p_offset.toNat)))

/-- The reported address is that of the table in the segment. -/
lemma headerSegment_of_findPhdrs (h : findPhdrs file loadBias ≠ 0) :
    ∃ ph, headerSegment file = some ph ∧ ph ∈ file.phdrs.filter Elf64_Phdr.isLoad ∧
      ph.p_offset ≤ file.ehdr.e_phoff ∧ file.ehdr.e_phoff < ph.p_offset + ph.p_filesz ∧
      findPhdrs file loadBias = ph.p_vaddr + loadBias + (file.ehdr.e_phoff - ph.p_offset) := by
  have hfind : findPhdrs file loadBias = match headerSegment file with
      | some ph => ph.p_vaddr + loadBias + (file.ehdr.e_phoff - ph.p_offset)
      | none => 0 := rfl
  cases hsegment : headerSegment file with
  | none =>
    rw [hsegment] at hfind
    exact absurd hfind h
  | some ph =>
    rw [hsegment] at hfind
    have hmem := List.mem_of_find?_eq_some hsegment
    obtain ⟨htype, hle, hlt⟩ := of_decide_eq_true (List.find?_some (p := fun ph : Elf64_Phdr =>
      decide (ph.p_type = PT_LOAD ∧ ph.p_offset ≤ file.ehdr.e_phoff ∧
        file.ehdr.e_phoff < ph.p_offset + ph.p_filesz)) hsegment)
    exact ⟨ph, rfl, List.mem_filter.mpr ⟨hmem, by simp [Elf64_Phdr.isLoad, htype]⟩, hle, hlt, hfind⟩

/-- The file bytes of a segment are found in the segment. -/
lemma fileByte_of_run_mapImage
    (hdisjoint : (file.phdrs.filter Elf64_Phdr.isLoad).Pairwise fun p q =>
      Disjoint p.memRange q.memRange)
    (hsize : ∀ ph ∈ file.phdrs, ph.isLoad → ph.p_filesz.toNat ≤ ph.p_memsz.toNat)
    (hfits : ∀ ph ∈ file.phdrs, ph.isLoad → ph.p_vaddr.toNat + ph.p_memsz.toNat < 2 ^ 64)
    (hrun : (mapImage k file loadBias).run w = .ok image w') {ph : Elf64_Phdr}
    (hph : ph ∈ file.phdrs.filter Elf64_Phdr.isLoad) {i : ℕ} (hi : i < ph.p_filesz.toNat) :
    file.bytes[ph.p_offset.toNat + i]? =
      some (w'.bytes (ph.p_vaddr + loadBias + BitVec.ofNat 64 i)) := by
  obtain ⟨hfile, heq⟩ := eqOn_segmentPatch_of_run_mapImage hdisjoint hsize hfits hrun hph
  have hlt := ph.p_memsz.isLt
  have hle := hsize ph (List.mem_filter.mp hph).1 (List.mem_filter.mp hph).2
  have hbound : ph.p_offset.toNat + i < file.bytes.length := by
    rcases hfile with hzero | hle
    · rw [hzero] at hi
      exact absurd hi (Nat.not_lt_zero i)
    · omega
  rw [heq ((mem_span_iff_exists hlt.le).mpr ⟨i, by omega, rfl⟩), segmentPatch]
  dsimp only
  rw [toNat_add_ofNat_sub (by omega), if_pos hi, List.getD_eq_getElem?_getD,
    List.getElem?_eq_getElem hbound]
  rfl

/-- For segments that do not overlap, that are at least as large in memory as in the file, and whose
ends do not wrap: whenever `mapImage` returns and reports an address, the table of the file is
there, exactly if what lies behind the segment it was found in is the rest of it. -/
theorem holdsHeaders_iff
    (hdisjoint : (file.phdrs.filter Elf64_Phdr.isLoad).Pairwise fun p q =>
      Disjoint p.memRange q.memRange)
    (hsize : ∀ ph ∈ file.phdrs, ph.isLoad → ph.p_filesz.toNat ≤ ph.p_memsz.toNat)
    (hfits : ∀ ph ∈ file.phdrs, ph.isLoad → ph.p_vaddr.toNat + ph.p_memsz.toNat < 2 ^ 64)
    (hrun : (mapImage k file loadBias).run w = .ok image w') (hphdr : image.phdrAddr ≠ 0) :
    HoldsHeaders file image w'.bytes ↔ RestPlaced k file loadBias w.bytes := by
  obtain ⟨_, _, _, hstages⟩ := stages_of_run_mapImage hrun
  rw [hstages.phdrAddr] at hphdr
  obtain ⟨ph, hsegment, hph, hle, -, haddr⟩ := headerSegment_of_findPhdrs hphdr
  rw [BitVec.le_def] at hle
  -- the address of a byte of the table in the segment
  have hbyte : ∀ i, image.phdrAddr + BitVec.ofNat 64 i = ph.p_vaddr + loadBias +
      BitVec.ofNat 64 (file.ehdr.e_phoff.toNat + i - ph.p_offset.toNat) := by
    intro i
    have hoffset : file.ehdr.e_phoff - ph.p_offset =
        BitVec.ofNat 64 (file.ehdr.e_phoff.toNat - ph.p_offset.toNat) := by
      rw [← BitVec.toNat_sub_of_le (BitVec.le_def.mpr hle), BitVec.ofNat_toNat, BitVec.setWidth_eq]
    rw [hstages.phdrAddr, haddr, hoffset, add_assoc, ← BitVec.ofNat_add]
    congr 2
    omega
  have hbytes := bytes_of_run_mapImage hdisjoint hsize hfits hrun
  constructor
  · intro hholds q hq i hi hrest
    obtain rfl := Option.some.inj (hsegment.symm.trans hq)
    rw [hholds i hi, hbyte, hbytes]
  · intro hrest i hi
    rw [hbyte]
    rcases Nat.lt_or_ge (file.ehdr.e_phoff.toNat + i) (ph.p_offset.toNat + ph.p_filesz.toNat)
      with hlt | hge
    · have hin : file.ehdr.e_phoff.toNat + i - ph.p_offset.toNat < ph.p_filesz.toNat := by omega
      rw [← fileByte_of_run_mapImage hdisjoint hsize hfits hrun hph hin]
      congr 1
      omega
    · rw [hrest ph hsegment i hi hge, hbytes]

/-- A file whose header and one program header occupy 120 bytes, with a segment that has some of
them in the file. -/
def headerFile (filesz : Byte) : FileContent where
  bytes := [0x7f, 0x45, 0x4c, 0x46, 2, 1, 1] ++ List.replicate 9 0 ++ [2, 0, 62, 0] ++
    List.replicate 12 0 ++ [64] ++ List.replicate 21 0 ++ [56, 0, 1] ++ List.replicate 7 0 ++
    [1, 0, 0, 0, 4] ++ List.replicate 13 0 ++ [0x40] ++ List.replicate 13 0 ++ [filesz] ++
    List.replicate 7 0 ++ [1, 0x10] ++ List.replicate 14 0
  length_lt := by simp

/-- What the reader makes of it. -/
def headerElf (filesz : Byte) : ElfFile :=
  let bytes := (headerFile filesz).bytes
  ⟨[], bytes, ElfReader.header bytes, ElfReader.programHeaders bytes,
    ElfReader.sectionHeaders bytes⟩

/-- The reader accepts both files. -/
lemma run_readElfFile_headerFile {filesz : Byte} (h : filesz = 100 ∨ filesz = 120) :
    ∃ t, (ElfReader.readElfFile [] (.content (headerFile filesz))).run (reservedTwoPages, []) =
      .ok (headerElf filesz) t := by
  refine ElfReader.run_readElfFile_eq_ok_iff.mpr ⟨?_, ?_, rfl⟩
  · rcases h with rfl | rfl <;>
      exact ⟨by decide +kernel, by decide, by decide, by decide, by decide, by decide,
        by decide +kernel⟩
  · rintro ⟨hshnum, -⟩
    rcases h with rfl | rfl <;> exact hshnum (by decide)

/-- The conditions on the segments. -/
lemma segments_headerElf {filesz : Byte} (h : filesz = 100 ∨ filesz = 120) :
    ((headerElf filesz).phdrs.filter Elf64_Phdr.isLoad).Pairwise (fun p q =>
        Disjoint p.memRange q.memRange) ∧
      (∀ ph ∈ (headerElf filesz).phdrs, ph.isLoad → ph.p_filesz.toNat ≤ ph.p_memsz.toNat) ∧
      ∀ ph ∈ (headerElf filesz).phdrs, ph.isLoad → ph.p_vaddr.toNat + ph.p_memsz.toNat <
        2 ^ 64 := by
  have hphdrs : (headerElf filesz).phdrs =
      [⟨PT_LOAD, PF_R, 0, 0x400000, 0, filesz.setWidth 64, 0x1001, 0⟩] := by
    rcases h with rfl | rfl <;> rfl
  rw [hphdrs, List.forall_mem_singleton, List.forall_mem_singleton]
  refine ⟨List.pairwise_singleton _ _, ?_, ?_⟩
  · intro _
    rcases h with rfl | rfl <;> decide
  · intro _
    dsimp only
    decide

/-- With all 120 bytes in the segment, the table is in memory. -/
theorem holdsHeaders_iff_headerFile :
    ∃ image w', (mapImage fixedKernel (headerElf 120) 0).run reservedTwoPages = .ok image w' ∧
      (HoldsHeaders (headerElf 120) image w'.bytes ↔
        RestPlaced fixedKernel (headerElf 120) 0 reservedTwoPages.bytes) := by
  obtain ⟨image, w', hrun⟩ : Returns (mapImage fixedKernel (headerElf 120) 0) reservedTwoPages := by
    decide +kernel
  obtain ⟨hdisjoint, hsize, hfits⟩ := segments_headerElf (Or.inr rfl)
  obtain ⟨_, _, _, hstages⟩ := stages_of_run_mapImage hrun
  refine ⟨image, w', hrun, holdsHeaders_iff hdisjoint hsize hfits hrun ?_⟩
  rw [hstages.phdrAddr]
  decide +kernel

/-- With 100 of them the guest reads zeroes for the end of the table. -/
theorem not_holdsHeaders_headerFile : ∃ file t image w',
    (ElfReader.readElfFile [] (.content (headerFile 100))).run (reservedTwoPages, []) = .ok file t ∧
    (file.phdrs.filter Elf64_Phdr.isLoad).Pairwise (fun p q => Disjoint p.memRange q.memRange) ∧
    (∀ ph ∈ file.phdrs, ph.isLoad → ph.p_filesz.toNat ≤ ph.p_memsz.toNat) ∧
    (∀ ph ∈ file.phdrs, ph.isLoad → ph.p_vaddr.toNat + ph.p_memsz.toNat < 2 ^ 64) ∧
    (mapImage fixedKernel file 0).run reservedTwoPages = .ok image w' ∧ image.phdrAddr ≠ 0 ∧
    ¬ HoldsHeaders file image w'.bytes := by
  obtain ⟨t, hread⟩ := run_readElfFile_headerFile (Or.inl rfl)
  obtain ⟨hdisjoint, hsize, hfits⟩ := segments_headerElf (Or.inl rfl)
  obtain ⟨image, w', hrun⟩ : Returns (mapImage fixedKernel (headerElf 100) 0) reservedTwoPages := by
    decide +kernel
  obtain ⟨_, _, _, hstages⟩ := stages_of_run_mapImage hrun
  refine ⟨_, t, image, w', hread, hdisjoint, hsize, hfits, hrun, ?_, fun hholds => ?_⟩
  · rw [hstages.phdrAddr]
    decide +kernel
  · -- the size of the segment in memory, in the header, is read as zero
    have hbyte := hholds 41 (by decide +kernel)
    rw [hstages.phdrAddr, bytes_of_run_mapImage hdisjoint hsize hfits hrun] at hbyte
    exact absurd hbyte (by decide +kernel)

end ElfMapper

end InstaX
