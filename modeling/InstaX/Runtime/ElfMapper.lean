import InstaX.Runtime.ElfTypes
import InstaX.Runtime.GuestMemory

/-!
# Mapping an ELF image

`mapImage` (`src/runtime/ElfMapper.cpp`) places a parsed file in guest memory: one mapping for the
whole span of the image, the content of every segment, the permissions of every segment, and last
what the other headers say.
-/

namespace InstaX

open Throwing

/-- What the mapper tells about the image it placed. -/
structure GuestElfImage where
  path : StdString
  isPie : Bool
  isDynamic : Bool
  needsInterp : Bool
  interpPath : StdString
  loadBias : U64
  entry : U64
  loadLow : U64
  loadHigh : U64
  dynamicAddr : U64
  phdrAddr : U64
  phEntSize : U64
  phNum : U64
  brk : U64

/-- The guest permission of ELF segment flags. -/
def protFromPhdrFlags (pFlags : BitVec 32) : CInt :=
  (if pFlags &&& PF_R ≠ 0 then kProtRead else kProtNone) |||
    (if pFlags &&& PF_W ≠ 0 then kProtWrite else kProtNone) |||
    (if pFlags &&& PF_X ≠ 0 then kProtExec else kProtNone)

namespace ElfMapper

open GuestMemory

/-! ## The span of the image -/

/-- The running minimum and maximum over the segments, and whether there was one. -/
def spanStep (s : Bool × U64 × U64) (ph : Elf64_Phdr) : Bool × U64 × U64 :=
  if ph.p_type ≠ PT_LOAD then s
  else (true, stdMin s.2.1 ph.p_vaddr, stdMax s.2.2 (ph.p_vaddr + ph.p_memsz))

/-- The pages the image occupies, before the bias. -/
def computeLoadSpan (file : ElfFile) : Prog World (U64 × U64) :=
  let s := file.phdrs.foldl spanStep (false, 0xffffffffffffffff, 0)
  if s.1 then pure (guestPageAlignDown s.2.1, guestPageAlignUp s.2.2)
  else throw (.runtimeError ("ELF: '" ++ text file.path ++ "' has no PT_LOAD segments — " ++
    "there is nothing to map"))

/-! ## The content of the segments -/

/-- Copy the file bytes of a segment. -/
def copyFileBytes (file : ElfFile) (loadBias : U64) (ph : Elf64_Phdr) : Prog World Unit :=
  if ph.p_filesz = 0 then pure ()
  else if file.bytes.length < ph.p_offset.toNat ∨
      file.bytes.length - ph.p_offset.toNat < ph.p_filesz.toNat then
    throw (.runtimeError ("ELF: PT_LOAD claims " ++ toString ph.p_filesz.toNat ++
      " bytes at file offset 0x" ++ hex ph.p_offset ++ ", which runs past the end of the file"))
  else
    write (ph.p_vaddr + loadBias) (fun i => file.bytes.getD (ph.p_offset.toNat + i) 0) ph.p_filesz

/-- Clear the rest of a segment. -/
def clearBss (loadBias : U64) (ph : Elf64_Phdr) : Prog World Unit :=
  if ph.p_memsz > ph.p_filesz then
    zero (ph.p_vaddr + loadBias + ph.p_filesz) (ph.p_memsz - ph.p_filesz)
  else pure ()

/-- The copy loop's body. -/
def copySegment (file : ElfFile) (loadBias : U64) (ph : Elf64_Phdr) : Prog World Unit :=
  if ph.p_type ≠ PT_LOAD ∨ ph.p_memsz = 0 then pure ()
  else do
    copyFileBytes file loadBias ph
    clearBss loadBias ph

/-- The permission loop's body. -/
def protectSegment (k : HostKernel) (loadBias : U64) (ph : Elf64_Phdr) : Prog World Unit :=
  if ph.p_type ≠ PT_LOAD ∨ ph.p_memsz = 0 then pure ()
  else
    let prot := protFromPhdrFlags ph.p_flags
    let label := "image " ++ protToString prot ++
      (if ph.p_flags &&& PF_X ≠ 0 then " (text)"
      else if ph.p_flags &&& PF_W ≠ 0 then " (data/bss)"
      else " (rodata)")
    protect k (ph.p_vaddr + loadBias) ph.p_memsz prot label

/-! ## The other headers -/

/-- The NUL-terminated string at an offset of the file, cut at the end of the file. -/
def readCString (bytes : List Byte) (offset : U64) (what : String) : Prog World StdString :=
  if bytes.length ≤ offset.toNat then
    throw (.runtimeError ("ELF: " ++ what ++ " offset 0x" ++ hex offset ++
      " lies past the end of the file"))
  else pure ((bytes.drop offset.toNat).takeWhile (· ≠ 0))

/-- What a `PT_INTERP` or `PT_DYNAMIC` header adds to the image. -/
def noteHeader (file : ElfFile) (loadBias : U64) (image : GuestElfImage) (ph : Elf64_Phdr) :
    Prog World GuestElfImage :=
  if ph.p_type = PT_INTERP then do
    let interpPath ← readCString file.bytes ph.p_offset "PT_INTERP path"
    pure { image with needsInterp := true, interpPath := interpPath }
  else if ph.p_type = PT_DYNAMIC then
    pure { image with isDynamic := true, dynamicAddr := ph.p_vaddr + loadBias }
  else pure image

/-- The guest address of the program header table: in the first segment whose file bytes contain
it. -/
def findPhdrs (file : ElfFile) (loadBias : U64) : U64 :=
  match file.phdrs.find? fun ph => decide (ph.p_type = PT_LOAD ∧
      ph.p_offset ≤ file.ehdr.e_phoff ∧ file.ehdr.e_phoff < ph.p_offset + ph.p_filesz) with
  | some ph => ph.p_vaddr + loadBias + (file.ehdr.e_phoff - ph.p_offset)
  | none => 0

/-! ## Mapping -/

/-- Place a file in guest memory. -/
def mapImage (k : HostKernel) (file : ElfFile) (loadBias : U64) : Prog World GuestElfImage := do
  let span ← computeLoadSpan file
  let loadLow := span.1 + loadBias
  let loadHigh := span.2 + loadBias
  map k loadLow (loadHigh - loadLow) (kProtRead ||| kProtWrite) "iamge"
  forM file.phdrs (copySegment file loadBias)
  forM file.phdrs (protectSegment k loadBias)
  file.phdrs.foldlM (noteHeader file loadBias)
    { path := file.path
      isPie := file.isPie
      isDynamic := false
      needsInterp := false
      interpPath := []
      loadBias := loadBias
      entry := file.ehdr.e_entry + loadBias
      loadLow := loadLow
      loadHigh := loadHigh
      dynamicAddr := 0
      phdrAddr := findPhdrs file loadBias
      phEntSize := file.ehdr.e_phentsize.setWidth 64
      phNum := file.ehdr.e_phnum.setWidth 64
      brk := guestPageAlignUp loadHigh }

end ElfMapper

end InstaX
