import Mathlib
import InstaX.Runtime.ElfFormat
import InstaX.Runtime.LoadedImage
import InstaX.Runtime.Loader
import InstaX.Runtime.RegionPermissions
import InstaX.Runtime.Reservation
import InstaX.Runtime.StackWalk

/-!
# What a loaded process finds

A run of `GuestProcess::load` (`src/runtime/Loader.cpp`) that returns a process, from the file to
the first instruction (`LoadStages`).  Every call of the run leaves something that the next ones
keep: the image is relocated in place and loses write permissions, the stack is mapped apart from it
and written inside its bounds.  So the contents of the image (`contents_of_run_load`), the state of
the processor and its stack (`entry_of_run_load`) and the permission of every address
(`permissions_of_run_load`) are known when the guest starts.

Few runs return one: the check in front of an access asks for one page too many, so the stack has to
lie directly below the image (`tight_of_run_load`).
-/

namespace InstaX

open Throwing Tracing Rounding ByteStore Pieces GuestMemory

namespace GuestMemory

/-- A new guest memory records no region. -/
lemma regions_of_run_construct {k : HostKernel} {imageLow imageHigh fallBack : U64} {h h' : Host}
    {m : GuestMemory} (hrun : (construct k imageLow imageHigh fallBack).run h = .ok m h') :
    m.regions = [] := by
  have hget : (get : Prog Host Host).run h = .ok h h := rfl
  unfold construct at hrun
  dsimp only at hrun
  generalize alignUp imageHigh k.pageSize - alignDown imageLow k.pageSize = probeSize at hrun
  by_cases hsize : probeSize = 0
  · rw [if_pos hsize] at hrun
    cases hrun
  · rw [if_neg hsize, run_bind_of_ok hget] at hrun
    by_cases hgranted : (k.mmap h (alignDown imageLow k.pageSize) probeSize PROT_NONE
        .fixedNoReplace).1 = some (alignDown imageLow k.pageSize)
    · rw [if_pos hgranted] at hrun
      cases hrun
      rfl
    · rw [if_neg hgranted] at hrun
      obtain ⟨_, h₀, -, hwindow⟩ := run_bind_eq_ok_iff.mp hrun
      obtain ⟨base, -, rfl⟩ := eq_of_reserveWindow hwindow
      rfl

end GuestMemory

namespace GuestMemory

/-- On host pages of the guest's size, whole pages touch no others. -/
lemma hull_eq_interval {s e : U64} (hs : 4096 ∣ s.toNat) (he : 4096 ∣ e.toNat)
    (hle : s.toNat ≤ e.toNat) : hull 12 s e = interval s e := by
  have hdown : alignDown s (BitVec.twoPow 64 12) = s := by
    rw [← guestPageSize_eq]
    exact guestPageAlignDown_of_dvd hs
  have hup : alignUp e (BitVec.twoPow 64 12) = e := by
    rw [← guestPageSize_eq]
    exact guestPageAlignUp_of_dvd he
  rw [hull, hdown, hup, span_sub hle]

end GuestMemory

/-- The guest permission of a segment includes execution exactly if the segment has `PF_X`. -/
lemma protFromPhdrFlags_exec_iff (flags : BitVec 32) :
    protFromPhdrFlags flags &&& kProtExec ≠ 0 ↔ flags &&& PF_X ≠ 0 := by
  unfold protFromPhdrFlags
  split_ifs <;> first
    | exact iff_of_true (by decide) ‹flags &&& PF_X ≠ 0›
    | exact iff_of_false (by decide) ‹¬ flags &&& PF_X ≠ 0›

namespace GuestStack

/-- The bounds that `buildInitialStack` reports are those it was asked for, rounded to pages. -/
lemma bounds_of_run_buildInitialStack {write64 : U64 → U64 → Prog World Unit} {k : HostKernel}
    {image : GuestElfImage} {argv envp : List StdString} {stackTop stackSize : U64}
    {stack : GuestStackImage} {w w' : World}
    (h : (buildInitialStack write64 k image argv envp stackTop stackSize).run w = .ok stack w') :
    stack.top = guestPageAlignUp stackTop ∧ stack.size = guestPageAlignUp stackSize := by
  obtain ⟨_, _, -, h⟩ := run_bind_eq_ok_iff.mp h
  obtain ⟨_, _, -, h⟩ := run_bind_eq_ok_iff.mp h
  obtain ⟨_, _, -, h⟩ := run_bind_eq_ok_iff.mp h
  obtain ⟨_, _, -, h⟩ := run_bind_eq_ok_iff.mp h
  obtain ⟨_, _, -, h⟩ := run_bind_eq_ok_iff.mp h
  obtain ⟨_, _, -, hplace⟩ := run_bind_eq_ok_iff.mp h
  unfold placeBlock at hplace
  dsimp only at hplace
  split_ifs at hplace with hlow
  · cases hplace
  · obtain ⟨_, _, -, hstack⟩ := run_bind_eq_ok_iff.mp hplace
    cases hstack
    exact ⟨rfl, rfl⟩

end GuestStack

namespace GuestProcess

variable {write64 : U64 → U64 → Prog World Unit} {k : HostKernel} {path : StdString}
  {input : InputFile} {argv envp : List StdString} {options : LoadOptions} {p : GuestProcess}
  {w w₁ w₂ w₃ w₄ w' : World}

/-! ## The stages -/

/-- The stages of a load that returned a process: an empty memory, the image mapped in it and
relocated, the RELRO ranges, and the stack. -/
structure LoadStages (write64 : U64 → U64 → Prog World Unit) (k : HostKernel) (path : StdString)
    (input : InputFile) (argv envp : List StdString) (options : LoadOptions) (p : GuestProcess)
    (w₁ w₂ w₃ w₄ w' : World) : Prop where
  file : ∃ s t, (ElfReader.readElfFile path input).run s = .ok p.file t
  start : w₁.mem.regions = []
  map : (ElfMapper.mapImage k p.file (chooseLoadBias p.file options.pieBase)).run w₁ =
    .ok p.image w₂
  relocate : ∃ l, (Relocation.applyRelocation p.image {}).run (w₂, []) = .ok (some p.report) (w₃, l)
  relro : (ElfMapper.applyRelro k p.file p.image).run w₃ = .ok () w₄
  overlap : p.image.loadHigh ≤ chooseStackTop w₄.mem options - options.stackSize ∨
    chooseStackTop w₄.mem options ≤ p.image.loadLow
  stack : (GuestStack.buildInitialStack write64 k p.image argv envp (chooseStackTop w₄.mem options)
    options.stackSize).run w₄ = .ok p.stack w'
  cpu : p.cpu = { rip := p.image.entry, rsp := p.stack.rsp, rdx := 0 }

/-- The memory that is made records nothing. -/
lemma regions_of_run_makeMemory {imageLow imageHigh fallback : U64} {u : Unit}
    (h : (makeMemory k imageLow imageHigh fallback).run w = .ok u w₁) : w₁.mem.regions = [] := by
  simp only [makeMemory, EStateM.run] at h
  cases hconstruct : construct k imageLow imageHigh fallback w.host with
  | ok m host =>
    rw [hconstruct] at h
    cases h
    exact regions_of_run_construct hconstruct
  | error e host =>
    rw [hconstruct] at h
    cases h

/-- A load that returns a process went through all of them. -/
lemma stages_of_run_load
    (h : (load write64 k path input argv envp options).run w = .ok (some p) w') :
    ∃ w₁ w₂ w₃ w₄, LoadStages write64 k path input argv envp options p w₁ w₂ w₃ w₄ w' := by
  obtain ⟨file, s₀, hfile, h⟩ := run_bind_eq_ok_iff.mp h
  obtain ⟨l, hfile⟩ := run_untraced_eq_ok_iff.mp hfile
  obtain ⟨bounds, s₁, -, h⟩ := run_bind_eq_ok_iff.mp h
  obtain ⟨_, w₁, hmake, h⟩ := run_bind_eq_ok_iff.mp h
  obtain ⟨image, w₂, hmap, h⟩ := run_bind_eq_ok_iff.mp h
  obtain ⟨relocated, w₃, hrelocate, h⟩ := run_bind_eq_ok_iff.mp h
  obtain ⟨l', hrelocate⟩ := run_untraced_eq_ok_iff.mp hrelocate
  cases relocated with
  | none => cases h
  | some report =>
    obtain ⟨_, w₄, hrelro, h⟩ := run_bind_eq_ok_iff.mp h
    obtain ⟨_, _, hget, h⟩ := run_bind_eq_ok_iff.mp h
    obtain ⟨rfl, rfl⟩ := EStateM.Result.ok.inj hget
    obtain ⟨_, w₅, hoverlap, h⟩ := run_bind_eq_ok_iff.mp h
    obtain ⟨rfl, hoverlap⟩ := run_checkOverlap_eq_ok_iff.mp hoverlap
    obtain ⟨stack, w₆, hstack, h⟩ := run_bind_eq_ok_iff.mp h
    cases h
    exact ⟨w₁, w₂, w₃, w₅, ⟨_, _, hfile⟩, regions_of_run_makeMemory hmake, hmap, ⟨l', hrelocate⟩,
      hrelro, hoverlap, hstack, rfl⟩

/-! ## The image -/

/-- A file that has a place under a bias of whole pages: some segment has bytes, the biased segments
do not wrap before the bias is added, none has more bytes in the file than in memory, and the RELRO
ranges lie in segments. -/
structure Placeable (file : ElfFile) (loadBias : U64) : Prop where
  page : 4096 ∣ loadBias.toNat
  segment : ∃ ph ∈ file.phdrs, ph.isLoad ∧ ph.p_memsz ≠ 0
  range : ∀ ph ∈ file.phdrs, ph.isLoad → ph.p_vaddr.toNat + ph.p_memsz.toNat < 2 ^ 64
  size : ∀ ph ∈ file.phdrs, ph.isLoad → ph.p_filesz.toNat ≤ ph.p_memsz.toNat
  relro : ∀ r ∈ file.phdrs, r.isRelro → ∃ ph ∈ file.phdrs, ph.isLoad ∧ r.memRange ⊆ ph.memRange

/-- The permissions of an image: read-only on the pages of the RELRO ranges, those of the last
segment on the pages of the others, and reading and writing on its other pages. -/
noncomputable def imagePermissions (file : ElfFile) (image : GuestElfImage) : U64 → Option CInt :=
  reassignAll (ElfMapper.protections image.loadBias ElfMapper.SkippedRelro (fun _ => kProtRead)
      file.phdrs)
    (reassignAll (ElfMapper.protections image.loadBias ElfMapper.SkippedSegment
        (fun ph => protFromPhdrFlags ph.p_flags) file.phdrs)
      (assign (interval image.loadLow image.loadHigh) (kProtRead ||| kProtWrite) fun _ => none))

/-- Exactly the image is mapped. -/
lemma imagePermissions_eq_none_iff {file : ElfFile} {image : GuestElfImage} {x : U64} :
    imagePermissions file image x = none ↔ x ∉ interval image.loadLow image.loadHigh := by
  rw [imagePermissions, reassignAll_eq_none_iff, reassignAll_eq_none_iff, assign_none_eq_none_iff]

namespace LoadStages

/-- The image reports the bias that was chosen for it. -/
lemma loadBias (h : LoadStages write64 k path input argv envp options p w₁ w₂ w₃ w₄ w') :
    p.image.loadBias = chooseLoadBias p.file options.pieBase :=
  ElfMapper.loadBias_of_run_mapImage h.map

/-- The image is mapped as its headers say. -/
lemma imageMapped (h : LoadStages write64 k path input argv envp options p w₁ w₂ w₃ w₄ w')
    (hplace : Placeable p.file p.image.loadBias) :
    ElfMapper.ImageMapped p.file p.image.loadBias p.image w₂.mem := by
  obtain ⟨ph, hph, hload, hn⟩ := hplace.segment
  have hmap := h.map
  rw [← h.loadBias] at hmap
  exact ElfMapper.imageMapped_of_run_mapImage h.start hplace.page hplace.range
    ⟨ph, hph, ElfMapper.not_skippedSegment_iff.mpr ⟨hload, hn⟩⟩ hmap

/-- Before the stack is mapped, the memory has the permissions of the image. -/
lemma consistent (h : LoadStages write64 k path input argv envp options p w₁ w₂ w₃ w₄ w')
    (hplace : Placeable p.file p.image.loadBias) :
    w₄.mem.Consistent (imagePermissions p.file p.image) := by
  have hmapped := h.imageMapped hplace
  obtain ⟨l, hrelocate⟩ := h.relocate
  have hmem : w₃.mem = w₂.mem := (Relocation.relocated_of_run_applyRelocation hrelocate).1
  have hstart := hmapped.consistent
  rw [← hmem] at hstart
  exact ElfMapper.consistent_of_run_protects hstart
    (ElfMapper.relro_fits hplace.range hplace.relro fun ph hph hload => hmapped.fits hph hload)
    h.relro

/-- The path and the entry point of the image are those of the file. -/
lemma entry (h : LoadStages write64 k path input argv envp options p w₁ w₂ w₃ w₄ w') :
    p.image.path = p.file.path ∧ p.image.entry = p.file.ehdr.e_entry + p.image.loadBias := by
  have hentry := ElfMapper.entry_of_run_mapImage h.map
  rwa [← h.loadBias] at hentry

end LoadStages

/-! ## The stack -/

/-- The arguments and the environment have room on the stack, which does not start below zero. -/
structure StackFits (image : GuestElfImage) (argv envp : List StdString) (stack : GuestStackImage) :
    Prop where
  room : GuestStack.stackNeed image argv envp ≤ stack.size.toNat
  size_lt : stack.size.toNat < stack.top.toNat

/-- A stack of whole pages on one side of the image. -/
structure StackPlaced (image : GuestElfImage) (stack : GuestStackImage) : Prop where
  nonempty : stack.size ≠ 0
  sum : stack.low.toNat + stack.size.toNat = stack.top.toNat
  page_low : 4096 ∣ stack.low.toNat
  page_top : 4096 ∣ stack.top.toNat
  side : image.loadHigh.toNat ≤ stack.low.toNat ∨ stack.top.toNat ≤ image.loadLow.toNat

namespace StackPlaced

variable {image : GuestElfImage} {stack : GuestStackImage} (h : StackPlaced image stack)
include h

/-- The stack ends below the last page. -/
lemma below : stack.low.toNat + stack.size.toNat ≤ 2 ^ 64 - 4096 := by
  have hlt := stack.top.isLt
  have hpage := h.page_top
  rw [h.sum]
  omega

/-- Rounding its bounds to pages does nothing. -/
lemma rounded : guestPageAlignDown stack.low = stack.low ∧
    guestPageAlignUp (stack.low + stack.size) = stack.top := by
  have hend : stack.low + stack.size = stack.top := by
    apply BitVec.eq_of_toNat_eq
    rw [BitVec.toNat_add, h.sum, Nat.mod_eq_of_lt stack.top.isLt]
  rw [hend]
  exact ⟨guestPageAlignDown_of_dvd h.page_low, guestPageAlignUp_of_dvd h.page_top⟩

/-- The pages of the stack are the stack. -/
lemma pages_eq : pages stack.low stack.size = interval stack.low stack.top := by
  rw [pages_eq_interval h.nonempty h.below, h.rounded.1, h.rounded.2]

/-- The stack and the image do not overlap. -/
lemma disjoint :
    Disjoint (interval stack.low stack.top) (interval image.loadLow image.loadHigh) := by
  rw [Set.disjoint_left]
  rintro x ⟨hlo, hhi⟩ ⟨hlo', hhi'⟩
  have hside := h.side
  omega

end StackPlaced

/-- A stack that passed the overlap test lies on one side of the image. -/
lemma le_or_le_of_overlap {loadLow loadHigh stackTop stackSize : U64}
    (hlow : 4096 ∣ loadLow.toNat) (hhigh : 4096 ∣ loadHigh.toNat)
    (hpos : 0 < (guestPageAlignUp stackSize).toNat)
    (hlt : (guestPageAlignUp stackSize).toNat < (guestPageAlignUp stackTop).toNat)
    (h : loadHigh ≤ stackTop - stackSize ∨ stackTop ≤ loadLow) :
    loadHigh.toNat ≤ (guestPageAlignUp stackTop).toNat - (guestPageAlignUp stackSize).toNat ∨
      (guestPageAlignUp stackTop).toNat ≤ loadLow.toNat := by
  -- a bound that is rounded to zero is none
  have htop : stackTop.toNat ≤ 2 ^ 64 - 4096 := by
    by_contra hlast
    rw [guestPageAlignUp_eq_zero (a := stackTop) (by omega)] at hlt
    exact absurd hlt (Nat.not_lt_zero _)
  have hsize : stackSize.toNat ≤ 2 ^ 64 - 4096 := by
    by_contra hlast
    rw [guestPageAlignUp_eq_zero (a := stackSize) (by omega)] at hpos
    exact absurd hpos (by decide)
  rw [BitVec.le_def, BitVec.le_def] at h
  rw [toNat_guestPageAlignUp htop, toNat_guestPageAlignUp hsize] at *
  rw [BitVec.toNat_sub_of_le (BitVec.le_def.mpr (by omega))] at h
  omega

namespace LoadStages

variable (h : LoadStages write64 k path input argv envp options p w₁ w₂ w₃ w₄ w')
  (hwrite64 : IsWrite64 write64) (hplace : Placeable p.file p.image.loadBias)
  (hfits : StackFits p.image argv envp p.stack)
include h hwrite64 hplace hfits

/-- The stack is mapped on one side of the image, and then written to. -/
lemma stackBuilt : StackPlaced p.image p.stack ∧
    ∃ w₅, (GuestMemory.map k p.stack.low p.stack.size (kProtRead ||| kProtWrite) "stack").run w₄ =
        .ok () w₅ ∧
      GuestStack.StackBuilt p.image argv envp (chooseStackTop w₄.mem options) options.stackSize
        p.stack w₅ w' := by
  obtain ⟨htop, hsize⟩ := GuestStack.bounds_of_run_buildInitialStack h.stack
  obtain ⟨hroom, hlt⟩ := hfits
  have hpos : 0 < p.stack.size.toNat := by
    rw [GuestStack.stackNeed, GuestStack.roundUp16] at hroom
    omega
  rw [htop, hsize] at hlt
  rw [hsize] at hroom hpos
  obtain ⟨w₅, hmap, hbuilt⟩ :=
    GuestStack.built_of_run_buildInitialStack hwrite64 hlt.le hroom h.stack
  have himage := h.imageMapped hplace
  have hside := le_or_le_of_overlap himage.page_low himage.page_high hpos hlt h.overlap
  have hlow : p.stack.low.toNat = (guestPageAlignUp (chooseStackTop w₄.mem options)).toNat -
      (guestPageAlignUp options.stackSize).toNat := by
    rw [hbuilt.low, BitVec.toNat_sub_of_le (BitVec.le_def.mpr hlt.le)]
  have hpageTop := dvd_guestPageAlignUp (chooseStackTop w₄.mem options)
  refine ⟨⟨?_, ?_, ?_, ?_, ?_⟩, w₅, ?_, hbuilt⟩
  · rw [hsize]
    rintro hzero
    rw [hzero] at hpos
    exact absurd hpos (Nat.not_lt_zero _)
  · rw [hlow, hsize, htop]
    omega
  · rw [hlow]
    exact Nat.dvd_sub hpageTop (dvd_guestPageAlignUp options.stackSize)
  · rw [htop]
    exact hpageTop
  · rwa [hlow, htop]
  · rw [hbuilt.low, hsize]
    exact hmap

/-- In the end, the memory has the permissions of the image and those of the stack. -/
lemma consistent_stack : w'.mem.Consistent (assign (interval p.stack.low p.stack.top)
    (kProtRead ||| kProtWrite) (imagePermissions p.file p.image)) := by
  obtain ⟨hplaced, w₅, hmap, hbuilt⟩ := h.stackBuilt hwrite64 hplace hfits
  have himage := h.consistent hplace
  obtain ⟨hzero, -⟩ | ⟨hn, hmaps⟩ := mapsPages_of_run_map hmap
  · exact absurd hzero hplaced.nonempty
  · rw [hbuilt.mem, ← hplaced.pages_eq]
    refine himage.map hn hplaced.below (fun x hx hrecorded => ?_) hmaps
    rw [himage.recorded_iff, Ne, imagePermissions_eq_none_iff, not_not] at hrecorded
    rw [hplaced.pages_eq] at hx
    exact Set.disjoint_left.mp hplaced.disjoint hx hrecorded

/-- The stack and its contents change no byte of the image, if the host's pages are the guest's. -/
lemma bytes_image (hpage : k.pageBits = 12) {x : U64}
    (hx : x ∈ interval p.image.loadLow p.image.loadHigh) : w'.bytes x = w₄.bytes x := by
  obtain ⟨hplaced, w₅, hmap, hbuilt⟩ := h.stackBuilt hwrite64 hplace hfits
  have hnot : x ∉ interval p.stack.low p.stack.top := fun hstack =>
    Set.disjoint_left.mp hplaced.disjoint hstack hx
  obtain ⟨hzero, -⟩ | ⟨-, hmaps⟩ := mapsPages_of_run_map hmap
  · exact absurd hzero hplaced.nonempty
  · have hsum := hplaced.sum
    rw [hbuilt.frame x hnot]
    refine hmaps.patched.frame fun hhull => hnot ?_
    rwa [hpage, hplaced.rounded.1, hplaced.rounded.2,
      hull_eq_interval hplaced.page_low hplaced.page_top (by omega)] at hhull

end LoadStages

/-! ## A file that can be loaded -/

/-- A kernel that grants every free place. -/
def freeKernel : HostKernel where
  pageBits := 12
  place := fun h addr length flag =>
    if length = 0 then none
    else if flag = .fixed then some addr
    else if flag = .fixedNoReplace ∧ isFree h addr length = true then some addr
    else none
  reach := fun _ _ length _ => length.toNat
  guestPage_le := ElfMapper.fixedKernel.guestPage_le
  pageBits_lt := ElfMapper.fixedKernel.pageBits_lt
  place_zero := fun _ _ _ => if_pos rfl
  place_fixed := by
    intro _ _ _ _ hr
    split_ifs at hr with hzero hfixed
    · exact (Option.some.inj hr).symm
    · exact absurd rfl hfixed
  place_free := by
    intro _ _ _ _ _ hflag hr x hx
    split_ifs at hr with hzero hfree
    obtain rfl := Option.some.inj hr
    exact isFree_eq_true hfree.2 hx

/-- The header of an executable with four program headers. -/
def twoSegmentsEhdr : Elf64_Ehdr where
  e_ident := ELFMAG ++ [ELFCLASS64, ELFDATA2LSB] ++ List.replicate 10 0
  e_type := ET_EXEC
  e_machine := EM_X86_64
  e_entry := 0x400000
  e_phoff := 64
  e_phentsize := 56
  e_phnum := 4

/-- Its program headers: the code, the data with a dynamic table at the start, which end one byte
into their second page, and a RELRO range over the first page of the data. -/
def twoSegmentsPhdrs : List Elf64_Phdr := [
  { p_type := PT_LOAD, p_flags := PF_R ||| PF_X, p_offset := 0, p_vaddr := 0x400000,
    p_filesz := 288, p_memsz := 288 },
  { p_type := PT_LOAD, p_flags := PF_R ||| PF_W, p_offset := 288, p_vaddr := 0x401000,
    p_filesz := 80, p_memsz := 0x1001 },
  { p_type := PT_DYNAMIC, p_flags := PF_R ||| PF_W, p_offset := 288, p_vaddr := 0x401000,
    p_filesz := 48, p_memsz := 48 },
  { p_type := PT_GNU_RELRO, p_flags := PF_R, p_offset := 288, p_vaddr := 0x401000,
    p_filesz := 80, p_memsz := 0x1000 }]

/-- Its data: a dynamic table, a relocation table of one entry, and the target of that entry. -/
def twoSegmentsData : List SizedWord := [
  ⟨64, DT_RELA⟩, ⟨64, 0x401030⟩, ⟨64, DT_RELASZ⟩, ⟨64, sizeofRela⟩, ⟨64, DT_NULL⟩, ⟨64, 0⟩,
  ⟨64, 0x401048⟩, ⟨64, R_X86_64_RELATIVE.setWidth 64⟩, ⟨64, 0x400000⟩, ⟨64, 0⟩]

/-- An executable with two segments, a RELRO range and a relocation. -/
def twoSegments : FileContent where
  bytes := twoSegmentsEhdr.encode ++ twoSegmentsPhdrs.flatMap Elf64_Phdr.encode ++
    encodeWords twoSegmentsData
  length_lt := by decide +kernel

/-- A stack of one page below its first segment. -/
def belowImage : LoadOptions := { stackTop := 0x400000, stackSize := 0x1000 }

/-- Loading the executable. -/
def loadTwoSegments : Prog World (Option GuestProcess) :=
  load GuestStack.writeLittleEndian freeKernel [0x61] (.content twoSegments) [[0x61]] [] belowImage

/-- Nothing is in use. -/
def unused : World where
  mem := ⟨0, 0, 0, 0, 0, []⟩
  host := emptyHost

/-- It is loaded, and its relocation is applied. -/
lemma run_loadTwoSegments : ∃ p w', loadTwoSegments.run unused = .ok (some p) w' ∧
    Placeable p.file p.image.loadBias ∧ StackFits p.image [[0x61]] [] p.stack ∧
    (∀ ph ∈ p.file.phdrs, ph.isLoad → ph.p_flags &&& PF_W = 0 ∨ ph.p_flags &&& PF_X = 0) ∧
    p.report.relocApplied = 1 ∧ ∃ r ∈ p.file.phdrs, r.isRelro := by
  -- the whole run, evaluated
  have hcheck : (match loadTwoSegments.run unused with
      | .ok (some p) _ => decide (4096 ∣ p.image.loadBias.toNat ∧
          (∃ ph ∈ p.file.phdrs, ph.isLoad ∧ ph.p_memsz ≠ 0) ∧
          (∀ ph ∈ p.file.phdrs, ph.p_vaddr.toNat + ph.p_memsz.toNat < 2 ^ 64 ∧
            ph.p_filesz.toNat ≤ ph.p_memsz.toNat ∧
            (ph.p_flags &&& PF_W = 0 ∨ ph.p_flags &&& PF_X = 0) ∧
            (ph.isRelro → ∃ q ∈ p.file.phdrs, q.isLoad ∧ q.p_vaddr.toNat ≤ ph.p_vaddr.toNat ∧
              ph.p_vaddr.toNat + ph.p_memsz.toNat ≤ q.p_vaddr.toNat + q.p_memsz.toNat)) ∧
          GuestStack.stackNeed p.image [[0x61]] [] ≤ p.stack.size.toNat ∧
          p.stack.size.toNat < p.stack.top.toNat ∧ p.report.relocApplied = 1 ∧
          ∃ r ∈ p.file.phdrs, r.isRelro)
      | .ok none _ => false
      | .error _ _ => false) = true := by decide +kernel
  cases hrun : loadTwoSegments.run unused with
  | error e w' =>
    rw [hrun] at hcheck
    cases hcheck
  | ok process w' =>
    cases process with
    | none =>
      rw [hrun] at hcheck
      cases hcheck
    | some p =>
      rw [hrun] at hcheck
      obtain ⟨hpage, hsegment, hall, hroom, hlt, happlied, hrelro⟩ := of_decide_eq_true hcheck
      refine ⟨p, w', rfl, ⟨hpage, hsegment, fun ph hph _ => (hall ph hph).1,
        fun ph hph _ => (hall ph hph).2.1, fun r hr hisRelro => ?_⟩, ⟨hroom, hlt⟩,
        fun ph hph _ => (hall ph hph).2.2.1, happlied, hrelro⟩
      obtain ⟨q, hq, hload, hlo, hhi⟩ := (hall r hr).2.2.2 hisRelro
      exact ⟨q, hq, hload, Set.Ico_subset_Ico hlo hhi⟩

/-! ## The loaded process -/

/-- The file that is read has the path it was asked for. -/
lemma path_of_run_readElfFile {file : ElfFile} {s t : World × List ElfEvent}
    (h : (ElfReader.readElfFile path input).run s = .ok file t) : file.path = path := by
  cases input with
  | unopened => cases h
  | broken size =>
    unfold ElfReader.readElfFile at h
    dsimp only at h
    split_ifs at h <;> cases h
  | content c =>
    obtain ⟨-, -, rfl⟩ := ElfReader.run_readElfFile_eq_ok_iff.mp ⟨t, h⟩
    rfl

section Loaded

variable (hwrite64 : IsWrite64 write64) (hplace : Placeable p.file p.image.loadBias)
  (hfits : StackFits p.image argv envp p.stack)
  (hrun : (load write64 k path input argv envp options).run w = .ok (some p) w')

include hwrite64 hplace hfits hrun in
/-- The check in front of an access also asks for the page behind the one of the last byte.  So a
load returns a process only if no segment has more than one byte on the last page of the image, and
the stack lies directly below the image. -/
theorem tight_of_run_load : p.stack.top = p.image.loadLow ∧
    ∀ ph ∈ p.file.phdrs, ph.isLoad → ph.p_memsz ≠ 0 →
      (ph.p_vaddr + p.image.loadBias).toNat + ph.p_memsz.toNat + 4095 ≤
        p.image.loadHigh.toNat := by
  obtain ⟨w₁, w₂, w₃, w₄, h⟩ := stages_of_run_load hrun
  have hmap := h.map
  rw [← h.loadBias] at hmap
  refine ⟨?_, ElfMapper.ends_of_run_mapImage h.start hplace.size (h.imageMapped hplace) hmap⟩
  obtain ⟨hplaced, w₅, -, hbuilt⟩ := h.stackBuilt hwrite64 hplace hfits
  have hsum := hplaced.sum
  have hside := hplaced.side
  have hconsistent := h.consistent_stack hwrite64 hplace hfits
  -- the page at the top of the stack is found, and it is not the stack's
  have hfound := hbuilt.pages p.stack.top hplaced.page_top (by omega) le_rfl
  rw [findRegion_isSome_iff fun r hr => (hconsistent.wellFormed r hr).1] at hfound
  have hrecorded := (hconsistent.recorded_iff _).mp hfound.recorded
  have hnot : p.stack.top ∉ interval p.stack.low p.stack.top := fun hx => absurd hx.2 (lt_irrefl _)
  rw [assign_of_notMem hnot, Ne, imagePermissions_eq_none_iff, not_not] at hrecorded
  obtain ⟨hlo, hhi⟩ := hrecorded
  exact BitVec.eq_of_toNat_eq (by omega)

/-- The stack of the executable with two segments ends where its image starts. -/
theorem tight_of_run_load_twoSegments : ∃ p w', loadTwoSegments.run unused = .ok (some p) w' ∧
    p.stack.top = p.image.loadLow ∧ ∀ ph ∈ p.file.phdrs, ph.isLoad → ph.p_memsz ≠ 0 →
      (ph.p_vaddr + p.image.loadBias).toNat + ph.p_memsz.toNat + 4095 ≤
        p.image.loadHigh.toNat := by
  obtain ⟨p, w', hrun, hplace, hfits, -⟩ := run_loadTwoSegments
  exact ⟨p, w', hrun,
    tight_of_run_load GuestStack.isWrite64_writeLittleEndian hplace hfits hrun⟩

include hwrite64 hplace hfits hrun in
/-- What the image holds when the guest starts: the segments of the file over zeros, relocated. -/
theorem contents_of_run_load (hpage : k.pageBits = 12) :
    (∀ ph ∈ p.file.phdrs, ph.isLoad → ElfMapper.InFile p.file ph) ∧
    ∃ m f g, (∀ x : U64, m.Recorded x.toNat ↔ x ∈ interval p.image.loadLow p.image.loadHigh) ∧
      (∀ x ∈ interval p.image.loadLow p.image.loadHigh,
        f x = ElfMapper.imageByte p.file p.image.loadBias x) ∧
      Relocation.Relocated m p.image f g ∧
      ∀ x ∈ interval p.image.loadLow p.image.loadHigh, w'.bytes x = g x := by
  obtain ⟨w₁, w₂, w₃, w₄, h⟩ := stages_of_run_load hrun
  have hmap := h.map
  rw [← h.loadBias] at hmap
  obtain ⟨hfile, hcontents⟩ := ElfMapper.contents_of_run_mapImage hplace.size hmap
  obtain ⟨l, hrelocate⟩ := h.relocate
  obtain ⟨hmem, hrelocated⟩ := Relocation.relocated_of_run_applyRelocation hrelocate
  refine ⟨hfile, w₂.mem, w₂.bytes, w₃.bytes, fun x => ?_, hcontents, hrelocated, fun x hx => ?_⟩
  · rw [(h.imageMapped hplace).consistent.recorded_iff, Ne, reassignAll_eq_none_iff,
      assign_none_eq_none_iff, not_not]
  · rw [h.bytes_image hwrite64 hplace hfits hpage hx, ElfMapper.bytes_of_run_applyRelro h.relro]

/-- The contents of its image, to which one relocation was applied. -/
theorem contents_of_run_load_twoSegments : ∃ p w', loadTwoSegments.run unused = .ok (some p) w' ∧
    p.report.relocApplied = 1 ∧ ∃ m f g,
      (∀ x : U64, m.Recorded x.toNat ↔ x ∈ interval p.image.loadLow p.image.loadHigh) ∧
      (∀ x ∈ interval p.image.loadLow p.image.loadHigh,
        f x = ElfMapper.imageByte p.file p.image.loadBias x) ∧
      Relocation.Relocated m p.image f g ∧
      ∀ x ∈ interval p.image.loadLow p.image.loadHigh, w'.bytes x = g x := by
  obtain ⟨p, w', hrun, hplace, hfits, -, happlied, -⟩ := run_loadTwoSegments
  exact ⟨p, w', hrun, happlied,
    (contents_of_run_load GuestStack.isWrite64_writeLittleEndian hplace hfits hrun rfl).2⟩

include hwrite64 hplace hfits hrun in
/-- Where the guest starts: at the entry point of the file under the bias, with the stack pointer on
an initial stack for this image, apart from the image. -/
theorem entry_of_run_load :
    p.cpu.rip = p.file.ehdr.e_entry + chooseLoadBias p.file options.pieBase ∧
    p.cpu.rsp = p.stack.rsp ∧ p.cpu.rdx = 0 ∧ p.image.path = path ∧
    (∃ q aux, GuestStack.IsInitialStack p.image argv envp p.stack q aux w') ∧
    Disjoint (interval p.stack.low p.stack.top) (interval p.image.loadLow p.image.loadHigh) := by
  obtain ⟨w₁, w₂, w₃, w₄, h⟩ := stages_of_run_load hrun
  obtain ⟨hplaced, w₅, -, hbuilt⟩ := h.stackBuilt hwrite64 hplace hfits
  obtain ⟨hpath, hentry⟩ := h.entry
  obtain ⟨s, t, hfile⟩ := h.file
  rw [h.cpu, hentry, h.loadBias, hpath, path_of_run_readElfFile hfile]
  exact ⟨rfl, rfl, rfl, rfl, hbuilt.initial, hplaced.disjoint⟩

/-- Its entry point. -/
theorem entry_of_run_load_twoSegments : ∃ p w', loadTwoSegments.run unused = .ok (some p) w' ∧
    p.cpu.rip = p.file.ehdr.e_entry + chooseLoadBias p.file belowImage.pieBase ∧
    p.cpu.rsp = p.stack.rsp ∧
    ∃ q aux, GuestStack.IsInitialStack p.image [[0x61]] [] p.stack q aux w' := by
  obtain ⟨p, w', hrun, hplace, hfits, -⟩ := run_loadTwoSegments
  obtain ⟨hrip, hrsp, -, -, hstack, -⟩ :=
    entry_of_run_load GuestStack.isWrite64_writeLittleEndian hplace hfits hrun
  exact ⟨p, w', hrun, hrip, hrsp, hstack⟩

include hwrite64 hplace hfits hrun in
/-- The permission of every address when the guest starts: the stack's, the image's, or none. -/
theorem permissions_of_run_load :
    (∀ x : U64, w'.mem.Recorded x.toNat ↔ x ∈ interval p.stack.low p.stack.top ∨
      x ∈ interval p.image.loadLow p.image.loadHigh) ∧
    (∀ x ∈ interval p.stack.low p.stack.top, w'.mem.protAt x = kProtRead ||| kProtWrite) ∧
    ∀ x ∉ interval p.stack.low p.stack.top,
      w'.mem.protAt x = (imagePermissions p.file p.image x).getD kProtNone := by
  obtain ⟨w₁, w₂, w₃, w₄, h⟩ := stages_of_run_load hrun
  have hconsistent := h.consistent_stack hwrite64 hplace hfits
  refine ⟨fun x => ?_, fun x hx => ?_, fun x hx => ?_⟩
  · rw [hconsistent.recorded_iff]
    by_cases hx : x ∈ interval p.stack.low p.stack.top
    · rw [assign_of_mem hx]
      exact iff_of_true (Option.some_ne_none _) (Or.inl hx)
    · rw [assign_of_notMem hx, Ne, imagePermissions_eq_none_iff, not_not, or_iff_right hx]
  · rw [hconsistent.protAt_eq, assign_of_mem hx, Option.getD_some]
  · rw [hconsistent.protAt_eq, assign_of_notMem hx]

/-- The permissions of its stack and its image, which has a RELRO range. -/
theorem permissions_of_run_load_twoSegments : ∃ p w', loadTwoSegments.run unused = .ok (some p) w' ∧
    (∃ r ∈ p.file.phdrs, r.isRelro) ∧
    (∀ x ∈ interval p.stack.low p.stack.top, w'.mem.protAt x = kProtRead ||| kProtWrite) ∧
    ∀ x ∉ interval p.stack.low p.stack.top,
      w'.mem.protAt x = (imagePermissions p.file p.image x).getD kProtNone := by
  obtain ⟨p, w', hrun, hplace, hfits, -, -, hrelro⟩ := run_loadTwoSegments
  exact ⟨p, w', hrun, hrelro,
    (permissions_of_run_load GuestStack.isWrite64_writeLittleEndian hplace hfits hrun).2⟩

include hwrite64 hrun in
/-- If no segment asks for writing and execution, nothing is writable and executable when the guest
starts, wherever the segments, the RELRO ranges, the rest of the image and the stack lie. -/
theorem writable_or_executable_of_run_load
    (hapart : ∀ ph ∈ p.file.phdrs, ph.isLoad → ph.p_flags &&& PF_W = 0 ∨ ph.p_flags &&& PF_X = 0)
    (x : U64) : w'.mem.protAt x &&& kProtWrite = 0 ∨ w'.mem.protAt x &&& kProtExec = 0 := by
  obtain ⟨w₁, w₂, w₃, w₄, h⟩ := stages_of_run_load hrun
  refine protAt_satisfies
    (P := fun prot => prot &&& kProtWrite = 0 ∨ prot &&& kProtExec = 0) ?_ (Or.inl (by decide)) x
  have hstart : ProtsSatisfy (fun prot => prot &&& kProtWrite = 0 ∨ prot &&& kProtExec = 0)
      w₁.mem := by
    rw [ProtsSatisfy, h.start]
    exact fun _ hr => absurd hr List.not_mem_nil
  have hsegments : ∀ ph ∈ p.file.phdrs, ph.isLoad →
    protFromPhdrFlags ph.p_flags &&& kProtWrite = 0 ∨
      protFromPhdrFlags ph.p_flags &&& kProtExec = 0 := by
    intro ph hph hload
    have hwrite := protFromPhdrFlags_write_iff ph.p_flags
    have hexec := protFromPhdrFlags_exec_iff ph.p_flags
    rcases hapart ph hph hload with hno | hno
    · exact Or.inl (not_not.mp fun hne => hwrite.mp hne hno)
    · exact Or.inr (not_not.mp fun hne => hexec.mp hne hno)
  have himage := ElfMapper.keepsProts_mapImage (Or.inr (by decide)) hsegments w₁ _ w₂ h.map hstart
  obtain ⟨l, hrelocate⟩ := h.relocate
  have hmem : w₃.mem = w₂.mem := (Relocation.relocated_of_run_applyRelocation hrelocate).1
  rw [← hmem] at himage
  have hrelro := ElfMapper.keepsProts_applyRelro (Or.inl (by decide)) w₃ _ w₄ h.relro himage
  exact GuestStack.keepsProts_buildInitialStack hwrite64 (Or.inr (by decide)) w₄ _ w' h.stack hrelro

/-- Its first segment is not writable, and its second one is not executable. -/
theorem writable_or_executable_of_run_load_twoSegments : ∃ p w',
    loadTwoSegments.run unused = .ok (some p) w' ∧ (∃ r ∈ p.file.phdrs, r.isRelro) ∧
    ∀ x, w'.mem.protAt x &&& kProtWrite = 0 ∨ w'.mem.protAt x &&& kProtExec = 0 := by
  obtain ⟨p, w', hrun, -, -, hapart, -, hrelro⟩ := run_loadTwoSegments
  exact ⟨p, w', hrun, hrelro, writable_or_executable_of_run_load
    GuestStack.isWrite64_writeLittleEndian hrun hapart⟩

end Loaded

end GuestProcess

end InstaX
