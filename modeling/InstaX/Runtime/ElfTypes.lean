import InstaX.Runtime.Host

/-!
# ELF headers

The structures of an ELF64 file (`include/runtime/ElfTypes.hpp`) in the standard layout: each field
at its offset, the lowest byte first.  Where the header structures are declared, `p_filesz` is
spelled `p_filesx` and the file header lacks `e_phentsize` and `e_shentsize`, which the reader uses;
both are read as in the standard.  A field that is not given is zero, as after value initialisation.
-/

namespace InstaX

open ByteStore

/-- A `std::string`: the bytes before its terminator. -/
abbrev StdString := List Byte

/-- The characters of a byte string, for messages. -/
def text (s : StdString) : String := String.ofList (s.map fun b => Char.ofNat b.toNat)

/-! ## Constants -/

/-- `Elf::EI_CLASS` -/
def EI_CLASS : ℕ := 4

/-- `Elf::EI_DATA` -/
def EI_DATA : ℕ := 5

/-- `Elf::ELFMAG0` to `Elf::ELFMAG3` -/
def ELFMAG : List Byte := [0x7f, 0x45, 0x4c, 0x46]

/-- `Elf::ELFCLASS64` -/
def ELFCLASS64 : Byte := 2

/-- `Elf::ELFDATA2LSB` -/
def ELFDATA2LSB : Byte := 1

/-- `Elf::ET_EXEC` -/
def ET_EXEC : BitVec 16 := 2

/-- `Elf::ET_DYN` -/
def ET_DYN : BitVec 16 := 3

/-- `Elf::EM_X86_64` -/
def EM_X86_64 : BitVec 16 := 62

/-- `Elf::PT_LOAD` -/
def PT_LOAD : BitVec 32 := 1

/-- `Elf::PT_DYNAMIC` -/
def PT_DYNAMIC : BitVec 32 := 2

/-- `Elf::PT_INTERP` -/
def PT_INTERP : BitVec 32 := 3

/-- `Elf::PT_GNU_RELRO` -/
def PT_GNU_RELRO : BitVec 32 := 0x6474e552

/-- `Elf::PF_X` -/
def PF_X : BitVec 32 := 1

/-- `Elf::PF_W` -/
def PF_W : BitVec 32 := 2

/-- `Elf::PF_R` -/
def PF_R : BitVec 32 := 4

/-! ## Headers -/

/-- The file header. -/
structure Elf64_Ehdr where
  e_ident : List Byte := List.replicate 16 0
  e_type : BitVec 16
  e_machine : BitVec 16 := 0
  e_version : BitVec 32 := 0
  e_entry : U64
  e_phoff : U64
  e_shoff : U64 := 0
  e_flags : BitVec 32 := 0
  e_ehsize : BitVec 16 := 0
  e_phentsize : BitVec 16
  e_phnum : BitVec 16
  e_shentsize : BitVec 16 := 0
  e_shnum : BitVec 16 := 0
  e_shstrndx : BitVec 16 := 0

/-- A program header. -/
structure Elf64_Phdr where
  p_type : BitVec 32
  p_flags : BitVec 32
  p_offset : U64
  p_vaddr : U64
  p_paddr : U64 := 0
  p_filesz : U64
  p_memsz : U64
  p_align : U64 := 0

/-- A section header. -/
structure Elf64_Shdr where
  sh_name : BitVec 32
  sh_type : BitVec 32
  sh_flags : U64
  sh_addr : U64
  sh_offset : U64
  sh_size : U64
  sh_link : BitVec 32
  sh_info : BitVec 32
  sh_addralign : U64
  sh_entsize : U64

/-- `sizeof(Elf64_Ehdr)` -/
abbrev sizeofEhdr : ℕ := 64

/-- `sizeof(Elf64_Phdr)` -/
abbrev sizeofPhdr : ℕ := 56

/-- `sizeof(Elf64_Shdr)` -/
abbrev sizeofShdr : ℕ := 64

/-! ## Decoding -/

/-- The field of `w` bits at an offset of a structure. -/
def field (w : ℕ) (raw : List Byte) (offset : ℕ) : BitVec w :=
  leWord w (fun i => raw.getD (offset + i) 0) (w / 8)

/-- The file header in its bytes. -/
def Elf64_Ehdr.decode (raw : List Byte) : Elf64_Ehdr where
  e_ident := raw.take 16
  e_type := field 16 raw 16
  e_machine := field 16 raw 18
  e_version := field 32 raw 20
  e_entry := field 64 raw 24
  e_phoff := field 64 raw 32
  e_shoff := field 64 raw 40
  e_flags := field 32 raw 48
  e_ehsize := field 16 raw 52
  e_phentsize := field 16 raw 54
  e_phnum := field 16 raw 56
  e_shentsize := field 16 raw 58
  e_shnum := field 16 raw 60
  e_shstrndx := field 16 raw 62

/-- A program header in its bytes. -/
def Elf64_Phdr.decode (raw : List Byte) : Elf64_Phdr where
  p_type := field 32 raw 0
  p_flags := field 32 raw 4
  p_offset := field 64 raw 8
  p_vaddr := field 64 raw 16
  p_paddr := field 64 raw 24
  p_filesz := field 64 raw 32
  p_memsz := field 64 raw 40
  p_align := field 64 raw 48

/-- A section header in its bytes. -/
def Elf64_Shdr.decode (raw : List Byte) : Elf64_Shdr where
  sh_name := field 32 raw 0
  sh_type := field 32 raw 4
  sh_flags := field 64 raw 8
  sh_addr := field 64 raw 16
  sh_offset := field 64 raw 24
  sh_size := field 64 raw 32
  sh_link := field 32 raw 40
  sh_info := field 32 raw 44
  sh_addralign := field 64 raw 48
  sh_entsize := field 64 raw 56

/-! ## Files -/

/-- A parsed file. -/
structure ElfFile where
  path : StdString
  bytes : List Byte
  ehdr : Elf64_Ehdr
  phdrs : List Elf64_Phdr
  shdrs : List Elf64_Shdr := []

def ElfFile.isPie (file : ElfFile) : Bool := file.ehdr.e_type == ET_DYN

end InstaX
