import InstaX.Foundation.Tracing
import InstaX.Runtime.ElfMapper

/-!
# Applying relocations

`applyRelocation` (`src/runtime/ElfMapper.cpp`): the walk along the dynamic table of a mapped image,
the names of the libraries it needs, and the two relocation tables.  The reads from the guest, the
entries of the relocation tables and the writes into the guest are recorded.

Some of the source's spellings are accepted by no compiler.  The condition of the early return is
read as `!isDynamic || dynamicAddr == 0`, the walk's header as a loop without a condition, `relaEnt
= 0` as a comparison, `r_added` as `r_addend`, and `mem.write(target, value)` as a write of the
eight bytes of the value.  The walk has fuel for all the addresses it can visit: a walk that is not
over then never ends.
-/

namespace InstaX

open Throwing Tracing ByteStore GuestMemory

/-! ## Tables -/

/-- An entry of the dynamic table. -/
structure Elf64_Dyn where
  d_tag : U64
  d_un : U64

/-- An entry of a relocation table. -/
structure Elf64_Rela where
  r_offset : U64
  r_info : U64
  r_addend : U64
  deriving DecidableEq

/-- `sizeof(Elf64_Dyn)` -/
abbrev sizeofDyn : U64 := 16

/-- `sizeof(Elf64_Rela)` -/
abbrev sizeofRela : U64 := 24

def Elf64_Dyn.decode (raw : List Byte) : Elf64_Dyn := ⟨field 64 raw 0, field 64 raw 8⟩

def Elf64_Rela.decode (raw : List Byte) : Elf64_Rela :=
  ⟨field 64 raw 0, field 64 raw 8, field 64 raw 16⟩

/-- `Elf::DT_NULL` -/
def DT_NULL : U64 := 0

/-- `Elf::DT_NEEDED` -/
def DT_NEEDED : U64 := 1

/-- `Elf::DT_PLTRELSZ` -/
def DT_PLTRELSZ : U64 := 2

/-- `Elf::DT_STRTAB` -/
def DT_STRTAB : U64 := 5

/-- `Elf::DT_RELA` -/
def DT_RELA : U64 := 7

/-- `Elf::DT_RELASZ` -/
def DT_RELASZ : U64 := 8

/-- `Elf::DT_RELAENT` -/
def DT_RELAENT : U64 := 9

/-- `Elf::DT_JMPREL` -/
def DT_JMPREL : U64 := 23

/-- `Elf::R_X86_64_RELATIVE` -/
def R_X86_64_RELATIVE : BitVec 32 := 8

/-- `Elf::relocType` -/
def relocType (rInfo : U64) : BitVec 32 := rInfo.setWidth 32

namespace Elf64_Rela

/-- Where a relocation is applied. -/
def target (loadBias : U64) (rela : Elf64_Rela) : U64 := rela.r_offset + loadBias

/-- What an `R_X86_64_RELATIVE` relocation writes. -/
def value (loadBias : U64) (rela : Elf64_Rela) : U64 := loadBias + rela.r_addend

end Elf64_Rela

/-- What the relocation of an image records. -/
inductive RelocEvent where
  /-- Bytes of the guest are copied to the loader. -/
  | read (addr n : U64)
  /-- An entry of a relocation table is come to. -/
  | entry (rela : Elf64_Rela)
  /-- A value is written into the guest. -/
  | wrote (target value : U64)
  deriving DecidableEq

/-- What `applyRelocation` adds to the image. -/
structure RelocReport where
  neededLibs : List StdString := []
  relocApplied : ℕ := 0
  relocSkipped : ℕ := 0
  relocNotes : List String := []

def RelocReport.note (report : RelocReport) (text : String) : RelocReport :=
  { report with relocNotes := report.relocNotes ++ [text] }

def RelocReport.skip (report : RelocReport) : RelocReport :=
  { report with relocSkipped := report.relocSkipped + 1 }

/-- What the dynamic table says. -/
structure DynamicInfo where
  relaAddr : U64 := 0
  relaSize : U64 := 0
  relaEnt : U64 := sizeofRela
  jmpRelAddr : U64 := 0
  pltRelSize : U64 := 0
  strTabAddr : U64 := 0
  neededOffsets : List U64 := []

/-- One entry of the dynamic table. -/
def DynamicInfo.add (loadBias : U64) (info : DynamicInfo) (dyn : Elf64_Dyn) : DynamicInfo :=
  -- addresses are biased, sizes and string offsets are not
  if dyn.d_tag = DT_RELA then { info with relaAddr := dyn.d_un + loadBias }
  else if dyn.d_tag = DT_JMPREL then { info with jmpRelAddr := dyn.d_un + loadBias }
  else if dyn.d_tag = DT_STRTAB then { info with strTabAddr := dyn.d_un + loadBias }
  else if dyn.d_tag = DT_RELASZ then { info with relaSize := dyn.d_un }
  else if dyn.d_tag = DT_RELAENT then { info with relaEnt := dyn.d_un }
  else if dyn.d_tag = DT_PLTRELSZ then { info with pltRelSize := dyn.d_un }
  else if dyn.d_tag = DT_NEEDED then
    { info with neededOffsets := info.neededOffsets ++ [dyn.d_un] }
  else info

namespace Relocation

/-- `mem.read`, with a record of the copy. -/
def recordedRead (addr n : U64) : Traced RelocEvent World (List Byte) := do
  let raw ← silent (read addr n)
  emit (.read addr n)
  pure raw

/-! ## The dynamic table -/

/-- The walk along the dynamic table, with fuel. -/
def walkDynamic (loadBias : U64) :
    ℕ → U64 → DynamicInfo → RelocReport → Traced RelocEvent World
      (Option (DynamicInfo × RelocReport))
  | 0, _, _, _ => pure none
  | fuel + 1, addr, info, report => do
    let w ← silent get
    if w.mem.isMapped addr sizeofDyn then do
      let raw ← recordedRead addr sizeofDyn
      let dyn := Elf64_Dyn.decode raw
      if dyn.d_tag = DT_NULL then pure (some (info, report))
      else walkDynamic loadBias fuel (addr + sizeofDyn) (info.add loadBias dyn) report
    else
      pure (some (info, report.note "dynamic table runs off the end of mapped memory; stopping"))

/-! ## Needed libraries -/

/-- The loop over the characters of a name: `n` more from the `i`th on.  The character at `i` is
read as `i` bytes. -/
def readName (addr : U64) : ℕ → ℕ → StdString → Traced RelocEvent World StdString
  | 0, _, name => pure name
  | n + 1, i, name => do
    let w ← silent get
    if w.mem.isMapped (addr + BitVec.ofNat 64 i) 1 then do
      let raw ← recordedRead (addr + BitVec.ofNat 64 i) (BitVec.ofNat 64 i)
      let c := raw.getD 0 0
      if c = 0 then pure name
      else readName addr n (i + 1) (name ++ [c])
    else pure name

/-- The name of one needed library. -/
def addLibrary (strTabAddr : U64) (report : RelocReport) (off : U64) :
    Traced RelocEvent World RelocReport := do
  let name ← readName (strTabAddr + off) 4096 0 []
  if name.isEmpty then pure report
  else pure { report with neededLibs := report.neededLibs ++ [name] }

/-- The names of all of them. -/
def addLibraries (strTabAddr : U64) (neededOffsets : List U64) (report : RelocReport) :
    Traced RelocEvent World RelocReport :=
  if strTabAddr = 0 then pure report
  else neededOffsets.foldlM (addLibrary strTabAddr) report

/-! ## Relocation tables -/

/-- One entry of a relocation table.  Whatever is not `R_X86_64_RELATIVE` is skipped. -/
def processEntry (loadBias : U64) (report : RelocReport) (rela : Elf64_Rela) :
    Traced RelocEvent World RelocReport := do
  emit (.entry rela)
  if relocType rela.r_info = R_X86_64_RELATIVE then do
    let w ← silent get
    if w.mem.isMapped (rela.target loadBias) 8 then do
      silent (write (rela.target loadBias) (leByte (rela.value loadBias)) 8)
      emit (.wrote (rela.target loadBias) (rela.value loadBias))
      pure { report with relocApplied := report.relocApplied + 1 }
    else pure report.skip
  else pure report.skip

/-- The loop over the entries of a table: `n` more from the `i`th on. -/
def processEntries (loadBias tableAddr relaEnt : U64) (which : String) :
    ℕ → ℕ → RelocReport → Traced RelocEvent World RelocReport
  | 0, _, report => pure report
  | n + 1, i, report => do
    let entryAddr := tableAddr + BitVec.ofNat 64 i * relaEnt
    let w ← silent get
    if w.mem.isMapped entryAddr sizeofRela then do
      let raw ← recordedRead entryAddr sizeofRela
      let next ← processEntry loadBias report (Elf64_Rela.decode raw)
      processEntries loadBias tableAddr relaEnt which n (i + 1) next
    else pure (report.note (which ++ ": table extends past mapped memory"))

/-- One relocation table. -/
def processTable (loadBias tableAddr tableSize relaEnt : U64) (which : String)
    (report : RelocReport) : Traced RelocEvent World RelocReport :=
  if tableAddr = 0 ∨ tableSize = 0 ∨ relaEnt = 0 then pure report
  else processEntries loadBias tableAddr relaEnt which (tableSize / relaEnt).toNat 0 report

/-! ## The whole pass -/

/-- The note about the entries that were skipped. -/
def skippedNote (report : RelocReport) : RelocReport :=
  if report.relocSkipped > 0 then
    report.note (toString report.relocSkipped ++ " relocation(s) need symbol resolution " ++
      "and were left unapplied (a symbol resolver and the shared libraries would be required)")
  else report

/-- Apply the relocations of a mapped image.  The walk along the dynamic table returns to its start
after `2 ^ 60` entries. -/
def applyRelocation (image : GuestElfImage) (report : RelocReport) :
    Traced RelocEvent World (Option RelocReport) :=
  if image.isDynamic = false ∨ image.dynamicAddr = 0 then pure (some report)
  else do
    match ← walkDynamic image.loadBias (2 ^ 60) image.dynamicAddr {} report with
    | none => pure none
    | some (info, walked) => do
      let named ← addLibraries info.strTabAddr info.neededOffsets walked
      let rela ← processTable image.loadBias info.relaAddr info.relaSize info.relaEnt
        "DT_RELA" named
      let plt ← processTable image.loadBias info.jmpRelAddr info.pltRelSize info.relaEnt "DT_JMPREL"
        rela
      pure (some (skippedNote plt))

end Relocation

end InstaX
