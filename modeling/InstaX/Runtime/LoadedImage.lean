import InstaX.Runtime.FinalPermissions
import InstaX.Runtime.RelocationEnds

/-!
# The image in memory

What the three passes over an image leave of its contents.  `mapImage` (`src/runtime/ElfMapper.cpp`)
lays the segments over zeros, in the order of the headers, so that the last segment that contains an
address decides (`imageByte`).  `applyRelocations` applies the two relocation tables that the
dynamic table names, the entries of each read from what the entries before them left (`Relocated`).
`applyRelro` changes no byte.
-/

namespace InstaX

open Throwing Tracing Rounding ByteStore GuestMemory

namespace ElfMapper

/-! ## The segments over zeros -/

/-- The byte that the segments give to an address: that of the last one that contains it, zero if
none does. -/
def imageByte (file : ElfFile) (loadBias x : U64) : Byte :=
  (file.phdrs.filter Elf64_Phdr.isLoad).foldl (fun b ph =>
    if (x - (ph.p_vaddr + loadBias)).toNat < ph.p_memsz.toNat then
      (segmentPatch file loadBias ph).2 x
    else b) 0

section Contents

variable {k : HostKernel} {file : ElfFile} {loadBias : U64} {image : GuestElfImage} {w w' : World}

/-- Copying the segments changes a byte to that of the last one that contains it. -/
lemma eq_foldl_of_patches {l : List Elf64_Phdr} {m m' : U64 → Byte}
    (h : Patches (l.map (segmentPatch file loadBias)) m m') (x : U64) :
    m' x = l.foldl (fun b ph =>
      if (x - (ph.p_vaddr + loadBias)).toNat < ph.p_memsz.toNat then
        (segmentPatch file loadBias ph).2 x
      else b) (m x) := by
  induction l generalizing m with
  | nil =>
    cases h
    rfl
  | cons ph l ih =>
    cases h with
    | cons hhead htail =>
      rw [ih htail, List.foldl_cons]
      split_ifs with hmem
      · rw [hhead.eqOn (mem_span.mpr hmem)]
        rfl
      · rw [hhead.frame (mt mem_span.mp hmem)]

/-- What `mapImage` leaves between the bounds of the image: the bytes that the segments give, each
of which the file contains. -/
lemma contents_of_run_mapImage
    (hsize : ∀ ph ∈ file.phdrs, ph.isLoad → ph.p_filesz.toNat ≤ ph.p_memsz.toNat)
    (hrun : (mapImage k file loadBias).run w = .ok image w') :
    (∀ ph ∈ file.phdrs, ph.isLoad → InFile file ph) ∧
      ∀ x ∈ interval image.loadLow image.loadHigh, w'.bytes x = imageByte file loadBias x := by
  obtain ⟨bounds, w₁, w₂, hstages⟩ := stages_of_run_mapImage hrun
  obtain ⟨-, hfile, hpatches⟩ := patches_of_run_copySegments hsize hstages.copy
  refine ⟨hfile, fun x hx => ?_⟩
  rw [hstages.loadLow, hstages.loadHigh] at hx
  rw [bytes_of_run_protectSegments hstages.protect, eq_foldl_of_patches hpatches,
    bytes_eq_zero_of_run_map hstages.map hx.1 hx.2, imageByte]

/-- The check in front of the copy of a segment looks at the page behind the one of its last byte,
unless that byte begins a page. -/
lemma found_of_run_copySegment {ph : Elf64_Phdr} {u : Unit} (hwf : w.mem.WellFormed)
    (hcall : ¬ SkippedSegment ph) (hsize : ph.p_filesz.toNat ≤ ph.p_memsz.toNat)
    (hfits : (ph.p_vaddr + loadBias).toNat + ph.p_memsz.toNat ≤ 2 ^ 64 - 4096)
    (h : (copySegment file loadBias ph).run w = .ok u w') {q : ℕ} (hq : 4096 ∣ q)
    (hlo : (ph.p_vaddr + loadBias).toNat + ph.p_memsz.toNat ≤ q)
    (hhi : q < (ph.p_vaddr + loadBias).toNat + ph.p_memsz.toNat + 4095) : w.mem.Found q := by
  have hpos := toNat_pos (not_skippedSegment_iff.mp hcall).2
  have hcall' : ¬ (ph.p_type ≠ PT_LOAD ∨ ph.p_memsz = 0) := hcall
  rw [copySegment, if_neg hcall', run_bind_eq_ok_iff] at h
  obtain ⟨_, w₁, hcopy, hclear⟩ := h
  obtain ⟨hmem, -, -⟩ := patched_of_run_copyFileBytes hcopy
  rcases hsize.lt_or_eq with hlt | heq
  · -- the rest of the segment is cleared
    rw [clearBss, if_pos (BitVec.lt_def.mpr hlt), run_zero_eq_ok_iff, hmem] at hclear
    have hstart : (ph.p_vaddr + loadBias + ph.p_filesz).toNat =
        (ph.p_vaddr + loadBias).toNat + ph.p_filesz.toNat := by
      rw [BitVec.toNat_add, Nat.mod_eq_of_lt (by omega)]
    have hlength : (ph.p_memsz - ph.p_filesz).toNat = ph.p_memsz.toNat - ph.p_filesz.toNat :=
      BitVec.toNat_sub_of_le (BitVec.le_def.mpr hsize)
    have hne : ph.p_memsz - ph.p_filesz ≠ 0 := by
      intro hzero
      have hnone : (ph.p_memsz - ph.p_filesz).toNat = 0 := congrArg BitVec.toNat hzero
      omega
    have hmapped := (hclear.1 hne).1
    rw [isMapped_iff_of_le hwf (by omega) (by omega)] at hmapped
    exact hmapped q hq (by omega) (by omega)
  · -- its bytes in the file are all of it
    have hne : ph.p_filesz ≠ 0 := by
      intro hzero
      rw [hzero] at heq
      exact absurd heq hpos.ne
    unfold copyFileBytes at hcopy
    rw [if_neg hne] at hcopy
    split_ifs at hcopy with hfile
    · cases hcopy
    · have hmapped := ((run_write_eq_ok_iff.mp hcopy).1 hne).1
      rw [isMapped_iff_of_le hwf (by omega) (by omega)] at hmapped
      exact hmapped q hq (by omega) (by omega)

/-- As no page behind the image is mapped, every segment ends at most one byte into its last
page. -/
lemma ends_of_run_mapImage (hstart : w.mem.regions = [])
    (hsize : ∀ ph ∈ file.phdrs, ph.isLoad → ph.p_filesz.toNat ≤ ph.p_memsz.toNat)
    (hmapped : ImageMapped file loadBias image w'.mem)
    (hrun : (mapImage k file loadBias).run w = .ok image w') :
    ∀ ph ∈ file.phdrs, ph.isLoad → ph.p_memsz ≠ 0 →
      (ph.p_vaddr + loadBias).toNat + ph.p_memsz.toNat + 4095 ≤ image.loadHigh.toNat := by
  intro ph hph hload hn
  obtain ⟨bounds, w₁, w₂, hstages⟩ := stages_of_run_mapImage hrun
  have hmap := hstages.map
  rw [← hstages.loadLow, ← hstages.loadHigh] at hmap
  have hconsistent := consistent_of_run_map hstart hmapped.page_high hmapped.low_lt hmap
  have hinside := hmapped.inside ph hph hload
  have hpage := hmapped.page_high
  -- the copy of this segment, among the others
  obtain ⟨s, t, hmem, hcopy⟩ := exists_run_of_run_forM (I := fun s => s.mem = w₁.mem)
    (fun q _ s t hs hstep => (frame_of_run_copySegments (l := [q])
      (run_bind_eq_ok_iff.mpr ⟨⟨⟩, t, hstep, rfl⟩)).1.trans hs) rfl hstages.copy ph hph
  by_contra hend
  have hfound : s.mem.Found image.loadHigh.toNat := by
    refine found_of_run_copySegment ?_ (not_skippedSegment_iff.mpr ⟨hload, hn⟩) (hsize ph hph hload)
      (hmapped.fits hph hload) hcopy hpage (by omega) (by omega)
    rw [hmem]
    exact fun r hr => (hconsistent.wellFormed r hr).1
  rw [hmem] at hfound
  have hrecorded := (hconsistent.recorded_iff _).mp hfound.recorded
  -- the first byte behind the image is on none of its pages
  refine hrecorded (Pieces.assign_of_notMem ?_)
  rintro ⟨y, hy, hsame⟩
  rw [span_sub hmapped.low_lt.le] at hy
  have hbelow := hy.2
  omega

/-- A header changes neither the path nor the entry point. -/
lemma entry_of_run_noteHeader {ph : Elf64_Phdr} {image image' : GuestElfImage}
    (h : (noteHeader file loadBias image ph).run w = .ok image' w') :
    image'.path = image.path ∧ image'.entry = image.entry := by
  unfold noteHeader at h
  split_ifs at h with hinterp hdynamic
  · obtain ⟨path, w₁, -, hpure⟩ := run_bind_eq_ok_iff.mp h
    obtain ⟨rfl, -⟩ := EStateM.Result.ok.inj hpure
    exact ⟨rfl, rfl⟩
  · obtain ⟨rfl, -⟩ := EStateM.Result.ok.inj h
    exact ⟨rfl, rfl⟩
  · obtain ⟨rfl, -⟩ := EStateM.Result.ok.inj h
    exact ⟨rfl, rfl⟩

/-- `mapImage` reports the path of the file, and its entry point under the bias. -/
lemma entry_of_run_mapImage (hrun : (mapImage k file loadBias).run w = .ok image w') :
    image.path = file.path ∧ image.entry = file.ehdr.e_entry + loadBias := by
  rw [mapImage, run_bind_eq_ok_iff] at hrun
  obtain ⟨_, w₁, -, hrun⟩ := hrun
  obtain ⟨_, w₂, -, hrun⟩ := run_bind_eq_ok_iff.mp hrun
  obtain ⟨_, w₃, -, hrun⟩ := run_bind_eq_ok_iff.mp hrun
  obtain ⟨_, w₄, -, hnote⟩ := run_bind_eq_ok_iff.mp hrun
  refine run_foldlM_induction
    (I := fun image => image.path = file.path ∧ image.entry = file.ehdr.e_entry + loadBias) ?_
    ⟨rfl, rfl⟩ hnote
  intro ph _ image image' s t hpath hstep
  obtain ⟨hpath', hentry'⟩ := entry_of_run_noteHeader hstep
  exact ⟨hpath'.trans hpath.1, hentry'.trans hpath.2⟩

/-- `applyRelro` changes permissions only. -/
lemma bytes_of_run_applyRelro {u : Unit} (h : (applyRelro k file image).run w = .ok u w') :
    w'.bytes = w.bytes := by
  refine run_forM_induction (I := fun s => s.bytes = w.bytes) ?_ rfl h
  intro ph _ s t hs hrun
  rw [← hs]
  unfold protectRelro at hrun
  split_ifs at hrun with hskip
  · rw [(EStateM.Result.ok.inj hrun).2]
  · exact bytes_of_run_protect hrun

end Contents

end ElfMapper

/-! ## Relocation -/

namespace Relocation

variable {loadBias : U64} {image : GuestElfImage} {s t : World × List RelocEvent}
  {report last : RelocReport} {m : GuestMemory} {f g : U64 → Byte}

/-- The bytes `g` are the relocated bytes `f` of an image: those themselves without a dynamic table,
and otherwise what the entries of the two tables that it names make of them. -/
def Relocated (m : GuestMemory) (image : GuestElfImage) (f g : U64 → Byte) : Prop :=
  if image.isDynamic = false ∨ image.dynamicAddr = 0 then g = f
  else ∃ entries, DynamicTable m f image.dynamicAddr entries ∧
    g = relocateAll m image.loadBias
      (relaEntries m image (tableInfo image.loadBias entries) f ++
        pltEntries m image (tableInfo image.loadBias entries) f) f

/-- Relocating two lists is relocating one after the other. -/
lemma relocateAll_append (m : GuestMemory) (loadBias : U64) (l l' : List (U64 × Elf64_Rela))
    (f : U64 → Byte) :
    relocateAll m loadBias (l ++ l') f = relocateAll m loadBias l' (relocateAll m loadBias l f) :=
  List.foldl_append

/-- A walk along the dynamic table that ends read one. -/
lemma dynamicTable_of_run_walkDynamic {fuel : ℕ} {addr : U64} {info info' : DynamicInfo}
    {walked : RelocReport}
    (h : (walkDynamic loadBias fuel addr info report).run s = .ok (some (info', walked)) t) :
    t.1 = s.1 ∧ ∃ entries, DynamicTable s.1.mem s.1.bytes addr entries ∧
      info' = entries.foldl (DynamicInfo.add loadBias) info := by
  induction fuel generalizing addr info s with
  | zero => cases h
  | succ fuel ih =>
    rw [walkDynamic, run_bind_of_ok (run_get s)] at h
    by_cases hmapped : s.1.mem.isMapped addr sizeofDyn = true
    · rw [if_pos hmapped] at h
      by_cases haccessible : s.1.mem.Accessible addr sizeofDyn
      · rw [run_bind_of_ok (run_recordedRead haccessible)] at h
        dsimp only at h
        by_cases hnull : (dynAt s.1.bytes addr).d_tag = DT_NULL
        · have hnull' : (Elf64_Dyn.decode (bytesFrom s.1.bytes addr sizeofDyn.toNat)).d_tag =
              DT_NULL := hnull
          rw [if_pos hnull'] at h
          cases h
          exact ⟨rfl, [], fun _ => hnull, rfl⟩
        · have hnull' : (Elf64_Dyn.decode (bytesFrom s.1.bytes addr sizeofDyn.toNat)).d_tag ≠
              DT_NULL := hnull
          rw [if_neg hnull'] at h
          obtain ⟨hworld, entries, htable, rfl⟩ := ih h
          exact ⟨hworld, dynAt s.1.bytes addr :: entries, ⟨hmapped, rfl, hnull, htable⟩, rfl⟩
      · obtain ⟨e, hthrow⟩ := run_recordedRead_throws haccessible
        rw [run_bind_of_error hthrow] at h
        cases h
    · rw [if_neg hmapped] at h
      cases h
      exact ⟨rfl, [], fun hmapped' => absurd hmapped' hmapped, rfl⟩

/-- What one table makes of the bytes. -/
lemma relocateAll_of_run_processTable {tableAddr tableSize relaEnt : U64} {which : String}
    (h : (processTable loadBias tableAddr tableSize relaEnt which report).run s = .ok last t) :
    t.1.mem = s.1.mem ∧ t.1.bytes = relocateAll s.1.mem loadBias
      (tableEntries s.1.mem loadBias tableAddr tableSize relaEnt s.1.bytes) s.1.bytes := by
  obtain ⟨last', t', hrun, hmem, hbytes, -⟩ :=
    run_processTable which report rfl rfl (fits_of_run_processTable rfl rfl h)
  obtain ⟨-, rfl⟩ := EStateM.Result.ok.inj (h.symm.trans hrun)
  exact ⟨hmem, hbytes⟩

/-- What the whole pass makes of the bytes. -/
lemma relocated_of_run_applyRelocation
    (h : (applyRelocation image report).run s = .ok (some last) t) :
    t.1.mem = s.1.mem ∧ Relocated s.1.mem image s.1.bytes t.1.bytes := by
  unfold applyRelocation at h
  unfold Relocated
  split_ifs at h ⊢ with hskip
  · cases h
    exact ⟨rfl, rfl⟩
  · obtain ⟨walk, s₁, hwalk, hrest⟩ := run_bind_eq_ok_iff.mp h
    cases walk with
    | none => cases hrest
    | some walked =>
      obtain ⟨info, walked⟩ := walked
      obtain ⟨hworld, entries, htable, hinfo⟩ := dynamicTable_of_run_walkDynamic hwalk
      obtain ⟨reads, hnames, -⟩ := run_addLibraries info.strTabAddr info.neededOffsets walked s₁
      dsimp only at hrest
      rw [run_bind_of_ok hnames, hworld] at hrest
      obtain ⟨_, s₂, hrela, htables⟩ := run_bind_eq_ok_iff.mp hrest
      obtain ⟨_, s₃, hplt, hlast⟩ := run_bind_eq_ok_iff.mp htables
      cases hlast
      obtain ⟨hmem₂, hbytes₂⟩ := relocateAll_of_run_processTable hrela
      obtain ⟨hmem₃, hbytes₃⟩ := relocateAll_of_run_processTable hplt
      refine ⟨hmem₃.trans hmem₂, entries, htable, ?_⟩
      rw [hbytes₃, hmem₂, hbytes₂, tableInfo, ← hinfo, relocateAll_append]
      rfl

end Relocation

end InstaX
