import InstaX.ElfLoad.Elfio
import InstaX.Foundation.RunningMin

/-!
# The static reader

`ElfLoad::loadElfFile` (`src/ELFLoader.cpp`) collects what the lifter needs of a file: its code, its
data, and the address from which it is loaded.

The base address starts at 0, which also stands for "none yet".  It is the lowest address of a
loadable segment exactly if none of them starts at 0 or the last one does
(`isLeast_baseAddress_iff`); the segments of a position-independent file start at 0 and go up.
-/

namespace InstaX

namespace ElfLoad

open ELFIO

/-- What is kept of a file (`include/ELFLoader.hpp`). -/
structure ElfLoadResult where
  text : List Byte := []
  entry : U64 := 0
  baseAddress : U64 := 0
  textAddr : U64 := 0
  textSize : U64 := 0
  data : List Byte := []
  dataAddr : U64 := 0
  dataSize : U64 := 0
  phdrAddrs : List U64 := []
  shdrAddrs : List U64 := []
  path : String := ""
  is64Bit : Bool := true
  littleEndian : Bool := true
  loaded : Bool := false

/-- Whether there is code. -/
def ElfLoadResult.hasText (result : ElfLoadResult) : Bool := !result.text.isEmpty

/-- A loadable segment. -/
def loadable (seg : Segment) : Bool := seg.type == PT_LOAD

/-- The code, if the segment is executable. -/
def readText (result : ElfLoadResult) (seg : Segment) : ElfLoadResult :=
  if seg.flags &&& PF_X ≠ 0 then
    { result with textAddr := seg.virtualAddress, textSize := seg.fileSize, text := seg.data }
  else result

/-- The data, if the segment is writable. -/
def readData (result : ElfLoadResult) (seg : Segment) : ElfLoadResult :=
  if seg.flags &&& PF_W ≠ 0 then
    { result with dataAddr := seg.virtualAddress, dataSize := seg.fileSize, data := seg.data }
  else result

/-- The base address, if there is none yet or the segment starts lower. -/
def readBase (result : ElfLoadResult) (seg : Segment) : ElfLoadResult :=
  if result.baseAddress = 0 ∨ seg.virtualAddress < result.baseAddress then
    { result with baseAddress := seg.virtualAddress }
  else result

/-- One round of the loop over the segments. -/
def readSegment (result : ElfLoadResult) (seg : Segment) : ElfLoadResult :=
  if loadable seg then
    let result := { result with phdrAddrs := result.phdrAddrs ++ [seg.virtualAddress] }
    readBase (readData (readText result seg) seg) seg
  else result

/-- What is known before the loop. -/
def readHeader (path : String) (reader : Elfio) : ElfLoadResult :=
  { path := path, entry := reader.entry, is64Bit := reader.elfClass == ELFCLASS64,
    littleEndian := reader.encoding == ELFDATA2LSB }

/-- The loop over the segments. -/
def readSegments (path : String) (reader : Elfio) : ElfLoadResult :=
  reader.segments.foldl readSegment (readHeader path reader)

/-- Read a file, where `load` is `elfio::load`: nothing, if it fails or there is no code. -/
def loadElfFile (load : String → Option Elfio) (path : String) : Option ElfLoadResult :=
  match load path with
  | none => none
  | some reader =>
    let result := readSegments path reader
    let result := { result with shdrAddrs := reader.sections.map Section.address }
    if result.hasText then some { result with loaded := true } else none

/-- The addresses of the loadable segments, in their order. -/
def loadAddresses (reader : Elfio) : List U64 :=
  (reader.segments.filter loadable).map Segment.virtualAddress

variable {path : String} {reader : Elfio}

/-! ## The loop -/

@[simp] lemma readText_baseAddress (result : ElfLoadResult) (seg : Segment) :
    (readText result seg).baseAddress = result.baseAddress := by
  rw [readText]
  split_ifs <;> rfl

@[simp] lemma readData_baseAddress (result : ElfLoadResult) (seg : Segment) :
    (readData result seg).baseAddress = result.baseAddress := by
  rw [readData]
  split_ifs <;> rfl

/-- The base address is one update of a running minimum. -/
@[simp] lemma readBase_baseAddress (result : ElfLoadResult) (seg : Segment) :
    (readBase result seg).baseAddress =
      RunningMin.update 0 result.baseAddress seg.virtualAddress := by
  rw [readBase, RunningMin.update]
  split_ifs <;> rfl

/-- The loop computes a running minimum of the addresses of the loadable segments. -/
lemma foldl_readSegment_baseAddress (segments : List Segment) (result : ElfLoadResult) :
    (segments.foldl readSegment result).baseAddress =
      ((segments.filter loadable).map Segment.virtualAddress).foldl (RunningMin.update 0)
        result.baseAddress := by
  induction segments generalizing result with
  | nil => rfl
  | cons seg segments ih =>
    rw [List.foldl_cons, ih, readSegment]
    by_cases hload : loadable seg
    · rw [List.filter_cons_of_pos hload, List.map_cons, List.foldl_cons]
      simp [hload]
    · rw [List.filter_cons_of_neg hload]
      simp [hload]

/-- The loop ends with the running minimum of the loadable addresses. -/
lemma readSegments_baseAddress :
    (readSegments path reader).baseAddress = RunningMin.run 0 (loadAddresses reader) :=
  foldl_readSegment_baseAddress _ _

/-- The collected addresses are those of the `PT_LOAD` segments. -/
lemma mem_loadAddresses {va : U64} :
    va ∈ loadAddresses reader ↔
      ∃ seg ∈ reader.segments, seg.type = PT_LOAD ∧ seg.virtualAddress = va := by
  simp [loadAddresses, loadable, and_assoc]

/-- What is returned has the base address of the loop. -/
lemma baseAddress_of_loadElfFile {load : String → Option Elfio} {result : ElfLoadResult}
    (hrun : loadElfFile load path = some result) :
    ∃ reader, load path = some reader ∧
      result.baseAddress = (readSegments path reader).baseAddress := by
  unfold loadElfFile at hrun
  cases hload : load path with
  | none => simp [hload] at hrun
  | some reader =>
    simp only [hload] at hrun
    split_ifs at hrun
    obtain rfl := Option.some.inj hrun
    exact ⟨reader, rfl, rfl⟩

/-- The base address is the lowest address of a loadable segment exactly if none of them starts at 0
or the last one does. -/
theorem isLeast_baseAddress_iff (path : String) (reader : Elfio)
    (hload : ∃ seg ∈ reader.segments, seg.type = PT_LOAD) :
    IsLeast {va | ∃ seg ∈ reader.segments, seg.type = PT_LOAD ∧ seg.virtualAddress = va}
        (readSegments path reader).baseAddress ↔
      (∀ seg ∈ reader.segments, seg.type = PT_LOAD → seg.virtualAddress ≠ 0) ∨
        (loadAddresses reader).getLast? = some 0 := by
  have hne : loadAddresses reader ≠ [] := by
    obtain ⟨seg, hseg, htype⟩ := hload
    exact List.ne_nil_of_mem (mem_loadAddresses.mpr ⟨seg, hseg, htype, rfl⟩)
  have hzero : 0 ∉ loadAddresses reader ↔
      ∀ seg ∈ reader.segments, seg.type = PT_LOAD → seg.virtualAddress ≠ 0 := by
    simp only [mem_loadAddresses, not_exists, not_and, ne_eq]
  simp only [readSegments_baseAddress, ← mem_loadAddresses, ← hzero]
  exact RunningMin.isLeast_run_iff (fun _ => BitVec.le_def.mpr (Nat.zero_le _)) hne

/-! ## A file with two segments -/

/-- A loadable segment of one byte. -/
def byteSegment (va : U64) (flags : BitVec 32) : Segment :=
  { type := PT_LOAD, flags := flags, virtualAddress := va, fileSize := 1, data := [0xc3],
    length_data := rfl }

/-- Code at `va`, and data on the page behind it. -/
def twoSegments (va : U64) : Elfio :=
  { entry := va, elfClass := ELFCLASS64, encoding := ELFDATA2LSB,
    segments := [byteSegment va (PF_R ||| PF_X), byteSegment (va + 0x1000) (PF_R ||| PF_W)],
    sections := [] }

/-- A file with fixed addresses: the base address is that of the code. -/
theorem isLeast_baseAddress_iff_twoSegments :
    IsLeast {va | ∃ seg ∈ (twoSegments 0x400000).segments,
        seg.type = PT_LOAD ∧ seg.virtualAddress = va}
      (readSegments "a.out" (twoSegments 0x400000)).baseAddress :=
  (isLeast_baseAddress_iff "a.out" (twoSegments 0x400000)
    ⟨_, List.mem_cons_self, rfl⟩).mpr (.inl (by simp [twoSegments, byteSegment]))

/-- A position-independent file: the base address, also of what is returned, is that of the data. -/
theorem not_isLeast_baseAddress_twoSegments :
    (∃ seg ∈ (twoSegments 0).segments, seg.type = PT_LOAD) ∧
      ¬ IsLeast {va | ∃ seg ∈ (twoSegments 0).segments,
          seg.type = PT_LOAD ∧ seg.virtualAddress = va}
        (readSegments "a.out" (twoSegments 0)).baseAddress ∧
      ∃ result, loadElfFile (fun _ => some (twoSegments 0)) "a.out" = some result ∧
        result.baseAddress = 0x1000 := by
  have hbase : (readSegments "a.out" (twoSegments 0)).baseAddress = 0x1000 := by decide
  refine ⟨⟨_, List.mem_cons_self, rfl⟩, fun hleast => ?_, ?_⟩
  · have hle : (readSegments "a.out" (twoSegments 0)).baseAddress ≤ 0 :=
      hleast.2 ⟨_, List.mem_cons_self, rfl, rfl⟩
    rw [hbase] at hle
    exact absurd hle (by decide)
  · have hsome : (loadElfFile (fun _ => some (twoSegments 0)) "a.out").isSome := rfl
    obtain ⟨result, hresult⟩ := Option.isSome_iff_exists.mp hsome
    obtain ⟨reader, hload, hsame⟩ := baseAddress_of_loadElfFile hresult
    obtain rfl := Option.some.inj hload
    exact ⟨result, hresult, hsame.trans hbase⟩

end ElfLoad

end InstaX
