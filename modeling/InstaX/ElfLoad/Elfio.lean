import InstaX.Runtime.ElfTypes

/-!
# What ELFIO reports

The ELF files on the lifter's side are read with ELFIO, which checks the file and delivers its entry
point, class and encoding, its segments, its sections, and the entries of the symbol tables among
them.  Its constants are those of the standard, as in `Runtime.ElfTypes`.
-/

namespace InstaX

namespace ELFIO

/-- `ELFIO::SHT_SYMTAB` -/
def SHT_SYMTAB : BitVec 32 := 2

/-- `ELFIO::SHT_DYNSYM` -/
def SHT_DYNSYM : BitVec 32 := 11

/-- `ELFIO::SHN_UNDEF` -/
def SHN_UNDEF : BitVec 16 := 0

/-- `ELFIO::STT_OBJECT` -/
def STT_OBJECT : Byte := 1

/-- `ELFIO::STT_FUNC` -/
def STT_FUNC : Byte := 2

/-- A segment, with the bytes that the file has for it. -/
structure Segment where
  type : BitVec 32
  flags : BitVec 32
  virtualAddress : U64
  fileSize : U64
  data : List Byte
  length_data : data.length = fileSize.toNat

/-- An entry of a symbol table, as `symbol_section_accessor::get_symbol` reports it. -/
structure Symbol where
  name : String
  value : U64
  size : U64
  bind : Byte
  type : Byte
  shndx : BitVec 16
  other : Byte := 0
  deriving DecidableEq, Repr

/-- A section, with the entries that it has as a symbol table. -/
structure Section where
  type : BitVec 32
  address : U64
  symbols : List Symbol := []
  deriving DecidableEq, Repr

/-- A file that was loaded (`ELFIO::elfio`). -/
structure Elfio where
  entry : U64
  elfClass : Byte
  encoding : Byte
  segments : List Segment
  sections : List Section

end ELFIO

end InstaX
