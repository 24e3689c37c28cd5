import InstaX.Foundation.Tracing
import InstaX.Runtime.ElfTypes
import InstaX.Runtime.GuestMemory

/-!
# Reading an ELF file

`readElfFile` (`src/runtime/ElfMapper.cpp`) loads the content of a file into a buffer and decodes
its header, its program headers and its section headers.  The program header table has to lie in the
file.  Of the section header table the reader wants to keep the entries that do; the check that
should stop it there adds in 64 bits, and for a table that starts in the last 64 addresses the sum
wraps, so that the reader throws instead (`readsAsSpecified_iff`).

Every access to the buffer is recorded.
-/

namespace InstaX

open Throwing Tracing ByteStore

/-- What the treatment of a file records. -/
inductive ElfEvent where
  /-- The bytes `[offset, offset + n)` of the buffer are read. -/
  | read (offset n : ℕ)
  /-- A range of the buffer is refused with an exception. -/
  | refused (e : Exn)
  /-- An entry is skipped. -/
  | skipped
  /-- The guest's bytes `[a, a + n)` are written or cleared for a segment. -/
  | filled (ph : Elf64_Phdr) (a n : U64)

/-- The content of a file, whose length is a `std::streamsize`. -/
structure FileContent where
  bytes : List Byte
  length_lt : bytes.length < 2 ^ 63

/-- What the file system has to offer under a path. -/
inductive InputFile where
  /-- The file cannot be opened. -/
  | unopened
  /-- The file claims a size and cannot be read in full. -/
  | broken (size : ℤ)
  /-- The file has a content. -/
  | content (c : FileContent)

namespace ElfReader

/-! ## Reading structures -/

/-- The bytes of a range of the buffer. -/
def slice (bytes : List Byte) (offset n : ℕ) : List Byte := (bytes.drop offset).take n

/-- The structure of `n` bytes at an offset of the buffer. -/
def readStruct {α : Type} (n : ℕ) (decode : List Byte → α) (bytes : List Byte) (offset : U64)
    (what : String) : Traced ElfEvent World α :=
  if bytes.length < offset.toNat ∨ bytes.length - offset.toNat < n then do
    let e := Exn.runtimeError ("ELF: truncated file — cannot read " ++ what ++ " at offset 0x" ++
      hex offset)
    emit (.refused e)
    throw e
  else do
    emit (.read offset.toNat n)
    pure (decode (slice bytes offset.toNat n))

/-- What is demanded of the file header. -/
def checkHeader (path : StdString) (eh : Elf64_Ehdr) : Traced ElfEvent World Unit :=
  let file := "ELF: '" ++ text path ++ "'"
  if eh.e_ident.take 4 ≠ ELFMAG then
    throw (.runtimeError (file ++ " is not an ELF file (bad magic)"))
  else if eh.e_ident.getD EI_CLASS 0 ≠ ELFCLASS64 then
    throw (.runtimeError (file ++ " is 32-bit; only ELF64 is supported"))
  else if eh.e_ident.getD EI_DATA 0 ≠ ELFDATA2LSB then
    throw (.runtimeError (file ++ " is big-endian; only little-endian is supported"))
  else if eh.e_machine ≠ EM_X86_64 then
    throw (.runtimeError (file ++ " targets e_machine=" ++ toString eh.e_machine.toNat ++
      ", but this translator only accepts x86-64 (" ++ toString EM_X86_64.toNat ++ ")"))
  else if eh.e_type ≠ ET_EXEC ∧ eh.e_type ≠ ET_DYN then
    throw (.runtimeError (file ++ " is not an executable or shared object " ++
      "(e_type is neither ET_EXEC nor ET_DYN)"))
  else pure ()

/-- The offset of an entry of a table. -/
def entryOffset (table : U64) (entsize : BitVec 16) (i : ℕ) : U64 :=
  table + BitVec.ofNat 64 i * entsize.setWidth 64

/-- The loop over the program header table: `n` entries from the `i`th on. -/
def readPhdrs (bytes : List Byte) (eh : Elf64_Ehdr) :
    ℕ → ℕ → Traced ElfEvent World (List Elf64_Phdr)
  | 0, _ => pure []
  | n + 1, i => do
    let ph ← readStruct sizeofPhdr Elf64_Phdr.decode bytes (entryOffset eh.e_phoff eh.e_phentsize i)
      "program header"
    let phs ← readPhdrs bytes eh n (i + 1)
    pure (ph :: phs)

/-- The program headers. -/
def readProgramHeaders (bytes : List Byte) (eh : Elf64_Ehdr) :
    Traced ElfEvent World (List Elf64_Phdr) :=
  if eh.e_phnum = 0 then pure []
  else if eh.e_phentsize.toNat ≠ sizeofPhdr then
    throw (.runtimeError ("ELF: e_phentsize is " ++ toString
      eh.e_phentsize.toNat ++ ", expected " ++
      toString sizeofPhdr))
  else readPhdrs bytes eh eh.e_phnum.toNat 0

/-- The loop over the section header table: `n` entries from the `i`th on, up to the first that the
file cuts. -/
def readShdrs (bytes : List Byte) (eh : Elf64_Ehdr) :
    ℕ → ℕ → Traced ElfEvent World (List Elf64_Shdr)
  | 0, _ => pure []
  | n + 1, i =>
    let offset := entryOffset eh.e_shoff eh.e_shentsize i
    if bytes.length < (offset + BitVec.ofNat 64 sizeofShdr).toNat then do
      emit .skipped
      pure []
    else do
      let sh ← readStruct sizeofShdr Elf64_Shdr.decode bytes offset "section header"
      let shs ← readShdrs bytes eh n (i + 1)
      pure (sh :: shs)

/-- The section headers. -/
def readSectionHeaders (bytes : List Byte) (eh : Elf64_Ehdr) :
    Traced ElfEvent World (List Elf64_Shdr) :=
  if eh.e_shoff ≠ 0 ∧ eh.e_shnum ≠ 0 ∧ eh.e_shentsize.toNat = sizeofShdr then
    readShdrs bytes eh eh.e_shnum.toNat 0
  else pure []

/-- Decode the buffer of a file. -/
def parse (path : StdString) (bytes : List Byte) : Traced ElfEvent World ElfFile := do
  let eh ← readStruct sizeofEhdr Elf64_Ehdr.decode bytes 0 "ELF header"
  checkHeader path eh
  let phdrs ← readProgramHeaders bytes eh
  let shdrs ← readSectionHeaders bytes eh
  pure ⟨path, bytes, eh, phdrs, shdrs⟩

/-- Read a file. -/
def readElfFile (path : StdString) : InputFile → Traced ElfEvent World ElfFile
  | .unopened => throw (.runtimeError ("ELF: cannot open '" ++ text path ++ "'"))
  | .broken size =>
    if size ≤ 0 then throw (.runtimeError ("ELF: '" ++ text path ++ "' is empty"))
    else throw (.runtimeError ("ELF: short read on '" ++ text path ++ "'"))
  | .content c =>
    if c.bytes.length = 0 then throw (.runtimeError ("ELF: '" ++ text path ++ "' is empty"))
    else parse path c.bytes

/-! ## What the reader is meant to do -/

/-- The header in the first bytes of a file. -/
def header (bytes : List Byte) : Elf64_Ehdr := Elf64_Ehdr.decode (slice bytes 0 64)

/-- The files that are accepted. -/
structure Loadable (bytes : List Byte) : Prop where
  length : 64 ≤ bytes.length
  magic : (header bytes).e_ident.take 4 = ELFMAG
  elf64 : (header bytes).e_ident.getD EI_CLASS 0 = ELFCLASS64
  littleEndian : (header bytes).e_ident.getD EI_DATA 0 = ELFDATA2LSB
  machine : (header bytes).e_machine = EM_X86_64
  kind : (header bytes).e_type = ET_EXEC ∨ (header bytes).e_type = ET_DYN
  programHeaders : (header bytes).e_phnum ≠ 0 → (header bytes).e_phentsize.toNat = 56 ∧
    ∀ i < (header bytes).e_phnum.toNat,
      (header bytes).e_phoff.toNat + 56 * (i + 1) ≤ bytes.length

/-- The program headers of a file. -/
def programHeaders (bytes : List Byte) : List Elf64_Phdr :=
  (List.range (header bytes).e_phnum.toNat).map fun i =>
    Elf64_Phdr.decode (slice bytes ((header bytes).e_phoff.toNat + 56 * i) 56)

/-- The section headers of a file: the longest initial piece of the table that lies in the file. -/
def sectionHeaders (bytes : List Byte) : List Elf64_Shdr :=
  if (header bytes).e_shoff = 0 ∨ (header bytes).e_shnum = 0 ∨
      (header bytes).e_shentsize.toNat ≠ 64 then []
  else
    ((List.range (header bytes).e_shnum.toNat).takeWhile fun i =>
        decide ((header bytes).e_shoff.toNat + 64 * (i + 1) ≤ bytes.length)).map fun i =>
      Elf64_Shdr.decode (slice bytes ((header bytes).e_shoff.toNat + 64 * i) 64)

/-- The reader accepts the loadable contents and no others, and returns the headers of the file. -/
def ReadsAsSpecified (path : StdString) (c : FileContent) : Prop :=
  (∀ s, Returns (readElfFile path (.content c)) s ↔ Loadable c.bytes) ∧
    ∀ s file t, (readElfFile path (.content c)).run s = .ok file t →
      file.phdrs = programHeaders c.bytes ∧ file.shdrs = sectionHeaders c.bytes

/-- A section header table is announced whose first entry does not end below `2 ^ 64`. -/
def SectionTableWraps (bytes : List Byte) : Prop :=
  (header bytes).e_shnum ≠ 0 ∧ (header bytes).e_shentsize.toNat = 64 ∧
    2 ^ 64 ≤ (header bytes).e_shoff.toNat + 64

variable {bytes : List Byte} {s t : World × List ElfEvent} {path : StdString}

/-! ## The parts of the reader -/

/-- A structure is read where it lies in the buffer. -/
lemma run_readStruct_eq_ok_iff {α : Type} {n : ℕ} {decode : List Byte → α} {offset : U64}
    {what : String} {v : α} : (readStruct n decode bytes offset what).run s = .ok v t ↔
      offset.toNat + n ≤ bytes.length ∧ v = decode (slice bytes offset.toNat n) ∧
        t = (s.1, s.2 ++ [.read offset.toNat n]) := by
  unfold readStruct
  split_ifs with hbound
  · constructor
    · intro h
      cases h
    · rintro ⟨hle, -⟩
      omega
  · constructor
    · intro h
      obtain ⟨rfl, rfl⟩ := EStateM.Result.ok.inj h
      exact ⟨by omega, rfl, rfl⟩
    · rintro ⟨-, rfl, rfl⟩
      rfl

/-- The first `i` entries of a table that does not wrap. -/
lemma toNat_entryOffset {table : U64} {entsize : BitVec 16} {i : ℕ}
    (h : table.toNat + entsize.toNat * i < 2 ^ 64) :
    (entryOffset table entsize i).toNat = table.toNat + entsize.toNat * i := by
  have hent : (entsize.setWidth 64).toNat = entsize.toNat := BitVec.toNat_setWidth_of_le (by omega)
  rw [entryOffset, BitVec.toNat_add, BitVec.toNat_mul, hent, BitVec.toNat_ofNat, Nat.mul_comm]
  rw [Nat.add_mod, Nat.mod_mod, Nat.mul_mod, Nat.mod_mod, ← Nat.mul_mod, ← Nat.add_mod,
    Nat.mod_eq_of_lt h]

/-- The program header table is read when all its entries lie in the file. -/
lemma run_readPhdrs_eq_ok_iff {eh : Elf64_Ehdr} (hbytes : bytes.length < 2 ^ 63)
    (hent : eh.e_phentsize.toNat = 56) {n i : ℕ} {phs : List Elf64_Phdr}
    (hstart : eh.e_phoff.toNat + 56 * i < 2 ^ 64) :
    (∃ t, (readPhdrs bytes eh n i).run s = .ok phs t) ↔
      (∀ j < n, eh.e_phoff.toNat + 56 * (i + j + 1) ≤ bytes.length) ∧
        phs = (List.range' i n).map fun j =>
          Elf64_Phdr.decode (slice bytes (eh.e_phoff.toNat + 56 * j) 56) := by
  induction n generalizing i s phs with
  | zero =>
    constructor
    · rintro ⟨t, h⟩
      obtain ⟨rfl, -⟩ := EStateM.Result.ok.inj h
      exact ⟨by simp, rfl⟩
    · rintro ⟨-, rfl⟩
      exact ⟨s, rfl⟩
  | succ n ih =>
    have hoffset : (entryOffset eh.e_phoff eh.e_phentsize i).toNat =
        eh.e_phoff.toNat + 56 * i := by
      rw [toNat_entryOffset (by rwa [hent]), hent]
    rw [List.range'_succ, List.map_cons]
    constructor
    · rintro ⟨t, h⟩
      rw [readPhdrs, run_bind_eq_ok_iff] at h
      obtain ⟨ph, s₁, hread, hrest⟩ := h
      obtain ⟨phs', s₂, hloop, hpure⟩ := run_bind_eq_ok_iff.mp hrest
      obtain ⟨rfl, -⟩ := EStateM.Result.ok.inj hpure
      obtain ⟨hle, rfl, -⟩ := run_readStruct_eq_ok_iff.mp hread
      rw [hoffset] at hle
      obtain ⟨hall, rfl⟩ := (ih (by omega)).mp ⟨s₂, hloop⟩
      refine ⟨fun j hj => ?_, by rw [hoffset]⟩
      cases j with
      | zero => omega
      | succ j =>
        have := hall j (by omega)
        omega
    · rintro ⟨hall, rfl⟩
      have hle : eh.e_phoff.toNat + 56 * i + 56 ≤ bytes.length := hall 0 (by omega)
      obtain ⟨t, hloop⟩ := (ih (i := i + 1) (s := (s.1, s.2 ++ [.read _ 56]))
        (by omega)).mpr ⟨fun j hj => by have := hall (j + 1) (by omega); omega, rfl⟩
      refine ⟨t, ?_⟩
      rw [readPhdrs, run_bind_eq_ok_iff]
      refine ⟨_, _, run_readStruct_eq_ok_iff.mpr ⟨by rwa [hoffset], rfl, rfl⟩, ?_⟩
      rw [hoffset]
      exact run_bind_eq_ok_iff.mpr ⟨_, t, hloop, rfl⟩

/-- The program headers are read when the table lies in the file. -/
lemma run_readProgramHeaders_eq_ok_iff {eh : Elf64_Ehdr} (hbytes : bytes.length < 2 ^ 63)
    {phs : List Elf64_Phdr} : (∃ t, (readProgramHeaders bytes eh).run s = .ok phs t) ↔
      (eh.e_phnum ≠ 0 → eh.e_phentsize.toNat = 56 ∧ ∀ i < eh.e_phnum.toNat,
        eh.e_phoff.toNat + 56 * (i + 1) ≤ bytes.length) ∧
      phs = (List.range eh.e_phnum.toNat).map fun i =>
        Elf64_Phdr.decode (slice bytes (eh.e_phoff.toNat + 56 * i) 56) := by
  unfold readProgramHeaders
  split_ifs with hnone hsize
  · rw [hnone]
    constructor
    · rintro ⟨t, h⟩
      obtain ⟨rfl, -⟩ := EStateM.Result.ok.inj h
      exact ⟨fun h => absurd rfl h, rfl⟩
    · rintro ⟨-, rfl⟩
      exact ⟨s, rfl⟩
  · constructor
    · rintro ⟨t, h⟩
      cases h
    · rintro ⟨h, -⟩
      exact absurd (h hnone).1 hsize
  · have hent : eh.e_phentsize.toNat = 56 := not_not.mp hsize
    rw [run_readPhdrs_eq_ok_iff hbytes hent (by have := eh.e_phoff.isLt; omega),
      List.range_eq_range']
    simp only [ne_eq, hnone, not_false_eq_true, hent, true_and, forall_const, Nat.zero_add]

/-- The section header table is read up to the first entry that the file cuts. -/
lemma run_readShdrs {eh : Elf64_Ehdr} (hbytes : bytes.length < 2 ^ 63)
    (hent : eh.e_shentsize.toNat = 64) {n i : ℕ}
    (hstart : eh.e_shoff.toNat + 64 * (i + 1) < 2 ^ 64) :
    ∃ t, (readShdrs bytes eh n i).run s = .ok (((List.range' i n).takeWhile fun j =>
        decide (eh.e_shoff.toNat + 64 * (j + 1) ≤ bytes.length)).map fun j =>
      Elf64_Shdr.decode (slice bytes (eh.e_shoff.toNat + 64 * j) 64)) t := by
  induction n generalizing i s with
  | zero => exact ⟨s, rfl⟩
  | succ n ih =>
    have hoffset : (entryOffset eh.e_shoff eh.e_shentsize i).toNat =
        eh.e_shoff.toNat + 64 * i := by
      rw [toNat_entryOffset (by rw [hent]; omega), hent]
    have hsum : (entryOffset eh.e_shoff eh.e_shentsize i + BitVec.ofNat 64 sizeofShdr).toNat =
        eh.e_shoff.toNat + 64 * (i + 1) := by
      rw [toNat_add_ofNat (by rw [hoffset, sizeofShdr]; omega), hoffset, sizeofShdr]
      omega
    rw [readShdrs, hsum, List.range'_succ]
    split_ifs with hcut
    · refine ⟨(s.1, s.2 ++ [.skipped]), ?_⟩
      rw [List.takeWhile_cons_of_neg (by simpa using hcut)]
      rfl
    · obtain ⟨t, hloop⟩ := ih (i := i + 1) (s := (s.1, s.2 ++ [.read _ 64])) (by omega)
      refine ⟨t, ?_⟩
      rw [List.takeWhile_cons_of_pos (by simpa using hcut), List.map_cons, run_bind_eq_ok_iff]
      have hle : eh.e_shoff.toNat + 64 * i + 64 ≤ bytes.length := Nat.not_lt.mp hcut
      refine ⟨_, _, run_readStruct_eq_ok_iff.mpr ⟨by rwa [hoffset], rfl, rfl⟩, ?_⟩
      rw [hoffset]
      exact run_bind_eq_ok_iff.mpr ⟨_, t, hloop, rfl⟩

/-- A section header table whose first entry does not end below `2 ^ 64` is not read. -/
lemma not_returns_readShdrs {eh : Elf64_Ehdr} (hbytes : bytes.length < 2 ^ 63)
    (hlength : 64 ≤ bytes.length) {n : ℕ}
    (hwrap : 2 ^ 64 ≤ eh.e_shoff.toNat + 64) :
    ¬ Returns (readShdrs bytes eh (n + 1) 0) s := by
  have hlt := eh.e_shoff.isLt
  have hoffset : entryOffset eh.e_shoff eh.e_shentsize 0 = eh.e_shoff := by
    simp [entryOffset]
  have hsum : (eh.e_shoff + BitVec.ofNat 64 sizeofShdr).toNat = eh.e_shoff.toNat + 64 - 2 ^ 64 := by
    rw [BitVec.toNat_add, BitVec.toNat_ofNat, Nat.mod_eq_of_lt (by decide : sizeofShdr < 2 ^ 64)]
    rw [Nat.mod_eq_sub_mod hwrap, Nat.mod_eq_of_lt (by omega)]
  rintro ⟨shs, t, hrun⟩
  -- the wrapped sum is below the length, so the loop goes on to read the entry
  rw [readShdrs, hoffset, hsum, if_neg (by omega)] at hrun
  obtain ⟨sh, s₁, hread, -⟩ := run_bind_eq_ok_iff.mp hrun
  have hle : eh.e_shoff.toNat + 64 ≤ bytes.length := (run_readStruct_eq_ok_iff.mp hread).1
  omega

/-- The section headers are read unless the table wraps. -/
lemma run_readSectionHeaders_eq_ok_iff (hbytes : bytes.length < 2 ^ 63)
    (hlength : 64 ≤ bytes.length) {shs : List Elf64_Shdr} :
    (∃ t, (readSectionHeaders bytes (header bytes)).run s = .ok shs t) ↔
      ¬ SectionTableWraps bytes ∧ shs = sectionHeaders bytes := by
  unfold readSectionHeaders SectionTableWraps sectionHeaders
  generalize header bytes = eh
  by_cases htable : eh.e_shoff ≠ 0 ∧ eh.e_shnum ≠ 0 ∧ eh.e_shentsize.toNat = sizeofShdr
  · obtain ⟨hoff, hnum, hent⟩ := htable
    rw [if_pos ⟨hoff, hnum, hent⟩, if_neg (by tauto), List.range_eq_range']
    by_cases hwrap : 2 ^ 64 ≤ eh.e_shoff.toNat + 64
    · obtain ⟨n, hn⟩ : ∃ n, eh.e_shnum.toNat = n + 1 :=
        Nat.exists_eq_succ_of_ne_zero fun h => hnum (BitVec.eq_of_toNat_eq h)
      rw [hn]
      constructor
      · rintro ⟨t, h⟩
        exact absurd ⟨shs, t, h⟩ (not_returns_readShdrs hbytes hlength hwrap)
      · rintro ⟨h, -⟩
        exact absurd ⟨hnum, hent, hwrap⟩ h
    · obtain ⟨t, hrun⟩ := run_readShdrs (s := s) hbytes hent (n := eh.e_shnum.toNat) (i := 0)
        (by omega)
      constructor
      · rintro ⟨t', h⟩
        exact ⟨fun h => hwrap h.2.2, (EStateM.Result.ok.inj (h.symm.trans hrun)).1⟩
      · rintro ⟨-, rfl⟩
        exact ⟨t, hrun⟩
  · rw [if_neg htable, if_pos (by tauto)]
    constructor
    · rintro ⟨t, h⟩
      refine ⟨fun ⟨hnum, hent, hwrap⟩ => htable ⟨?_, hnum, hent⟩, (EStateM.Result.ok.inj h).1.symm⟩
      rintro hzero
      rw [hzero] at hwrap
      exact absurd hwrap (by decide)
    · rintro ⟨-, rfl⟩
      exact ⟨s, rfl⟩

/-- A header passes the checks exactly if it is that of a loadable file. -/
lemma run_checkHeader_eq_ok_iff {eh : Elf64_Ehdr} {u : Unit} :
    (checkHeader path eh).run s = .ok u t ↔
      (eh.e_ident.take 4 = ELFMAG ∧ eh.e_ident.getD EI_CLASS 0 = ELFCLASS64 ∧
        eh.e_ident.getD EI_DATA 0 = ELFDATA2LSB ∧ eh.e_machine = EM_X86_64 ∧
        (eh.e_type = ET_EXEC ∨ eh.e_type = ET_DYN)) ∧ t = s := by
  unfold checkHeader
  dsimp only
  split_ifs with hmagic hclass hdata hmachine htype
  · exact iff_of_false (fun h => by cases h) fun h => hmagic h.1.1
  · exact iff_of_false (fun h => by cases h) fun h => hclass h.1.2.1
  · exact iff_of_false (fun h => by cases h) fun h => hdata h.1.2.2.1
  · exact iff_of_false (fun h => by cases h) fun h => hmachine h.1.2.2.2.1
  · exact iff_of_false (fun h => by cases h) fun h => h.1.2.2.2.2.elim htype.1 htype.2
  · have hkind : eh.e_type = ET_EXEC ∨ eh.e_type = ET_DYN := by
      by_contra hnot
      exact htype (not_or.mp hnot)
    simp only [ne_eq, not_not] at hmagic hclass hdata hmachine
    constructor
    · intro h
      obtain ⟨-, rfl⟩ := EStateM.Result.ok.inj h
      exact ⟨⟨hmagic, hclass, hdata, hmachine, hkind⟩, rfl⟩
    · rintro ⟨-, rfl⟩
      rfl

/-! ## The whole reader -/

/-- The decoder returns the headers of the loadable files whose section header table does not
wrap. -/
lemma run_parse_eq_ok_iff (hbytes : bytes.length < 2 ^ 63) {file : ElfFile} :
    (∃ t, (parse path bytes).run s = .ok file t) ↔ Loadable bytes ∧ ¬ SectionTableWraps bytes ∧
      file = ⟨path, bytes, header bytes, programHeaders bytes, sectionHeaders bytes⟩ := by
  constructor
  · rintro ⟨t, h⟩
    rw [parse, run_bind_eq_ok_iff] at h
    obtain ⟨eh, s₁, hread, h⟩ := h
    obtain ⟨_, s₂, hcheck, h⟩ := run_bind_eq_ok_iff.mp h
    obtain ⟨phs, s₃, hphs, h⟩ := run_bind_eq_ok_iff.mp h
    obtain ⟨shs, s₄, hshs, hpure⟩ := run_bind_eq_ok_iff.mp h
    obtain ⟨hlength, heh, -⟩ := run_readStruct_eq_ok_iff.mp hread
    replace hlength : 64 ≤ bytes.length := by simpa using hlength
    obtain rfl : eh = header bytes := heh
    obtain ⟨⟨hmagic, hclass, hdata, hmachine, hkind⟩, -⟩ := run_checkHeader_eq_ok_iff.mp hcheck
    obtain ⟨htable, hphs⟩ := (run_readProgramHeaders_eq_ok_iff hbytes).mp ⟨s₃, hphs⟩
    obtain ⟨hwrap, hshs⟩ := (run_readSectionHeaders_eq_ok_iff hbytes hlength).mp ⟨s₄, hshs⟩
    obtain ⟨hfile, -⟩ := EStateM.Result.ok.inj hpure
    rw [hphs, hshs] at hfile
    exact ⟨⟨hlength, hmagic, hclass, hdata, hmachine, hkind, htable⟩, hwrap, hfile.symm⟩
  · rintro ⟨hload, hwrap, rfl⟩
    have hread : (readStruct sizeofEhdr Elf64_Ehdr.decode bytes 0 "ELF header").run s =
        .ok (header bytes) (s.1, s.2 ++ [.read 0 64]) :=
      run_readStruct_eq_ok_iff.mpr ⟨by simpa using hload.length, rfl, rfl⟩
    have hcheck : ∀ t, (checkHeader path (header bytes)).run t = .ok () t := fun t =>
      run_checkHeader_eq_ok_iff.mpr ⟨⟨hload.magic, hload.elf64, hload.littleEndian, hload.machine,
        hload.kind⟩, rfl⟩
    obtain ⟨s₃, hphs⟩ := (run_readProgramHeaders_eq_ok_iff hbytes).mpr ⟨hload.programHeaders, rfl⟩
    obtain ⟨s₄, hshs⟩ := (run_readSectionHeaders_eq_ok_iff hbytes hload.length).mpr ⟨hwrap, rfl⟩
    refine ⟨s₄, ?_⟩
    rw [parse, run_bind_of_ok hread, run_bind_of_ok (hcheck _), run_bind_of_ok hphs,
      run_bind_of_ok hshs]
    rfl

/-- The reader, too. -/
lemma run_readElfFile_eq_ok_iff {c : FileContent} {file : ElfFile} :
    (∃ t, (readElfFile path (.content c)).run s = .ok file t) ↔
      Loadable c.bytes ∧ ¬ SectionTableWraps c.bytes ∧
        file = ⟨path, c.bytes, header c.bytes, programHeaders c.bytes, sectionHeaders c.bytes⟩ := by
  rw [readElfFile]
  split_ifs with hempty
  · refine iff_of_false (fun ⟨t, h⟩ => by cases h) fun ⟨hload, _⟩ => ?_
    have := hload.length
    omega
  · exact run_parse_eq_ok_iff c.length_lt

/-- The reader accepts what it should and decodes what it should, except for the loadable files
whose section header table wraps: it throws there. -/
theorem readsAsSpecified_iff (path : StdString) (c : FileContent) :
    ReadsAsSpecified path c ↔ ¬ (Loadable c.bytes ∧ SectionTableWraps c.bytes) := by
  have hreturns : ∀ s, Returns (readElfFile path (.content c)) s ↔
      Loadable c.bytes ∧ ¬ SectionTableWraps c.bytes := by
    intro s
    constructor
    · rintro ⟨file, t, h⟩
      obtain ⟨hload, hwrap, -⟩ := run_readElfFile_eq_ok_iff.mp ⟨t, h⟩
      exact ⟨hload, hwrap⟩
    · rintro ⟨hload, hwrap⟩
      obtain ⟨t, h⟩ := run_readElfFile_eq_ok_iff.mpr ⟨hload, hwrap, rfl⟩
      exact ⟨_, t, h⟩
  constructor
  · rintro ⟨haccepts, -⟩ ⟨hload, hwrap⟩
    have hspec := haccepts (⟨⟨0, 0, 0, 0, 0, []⟩, ⟨fun _ => 0, fun _ => none⟩⟩, [])
    exact ((hreturns _).mp (hspec.mpr hload)).2 hwrap
  · intro hnot
    refine ⟨fun s => ?_, fun s file t h => ?_⟩
    · rw [hreturns]
      exact ⟨fun h => h.1, fun hload => ⟨hload, fun hwrap => hnot ⟨hload, hwrap⟩⟩⟩
    · obtain ⟨-, -, rfl⟩ := run_readElfFile_eq_ok_iff.mp ⟨t, h⟩
      exact ⟨rfl, rfl⟩

/-- A file header and nothing else, which announces one section header at an offset. -/
def headerOnly (shoff : List Byte) : List Byte :=
  [0x7f, 0x45, 0x4c, 0x46, 2, 1, 1] ++ List.replicate 9 0 ++
    [2, 0, 62, 0] ++ List.replicate 20 0 ++ shoff ++ List.replicate 10 0 ++ [64, 0, 1, 0, 0, 0]

/-- The table that starts 64 bytes below `2 ^ 64`. -/
def wrappingFile : FileContent := ⟨headerOnly [0xc0, 255, 255, 255, 255, 255, 255, 255], by decide⟩

/-- The wrapped sum makes the reader throw on a file that it should accept. -/
theorem not_readsAsSpecified_wrappingFile : ¬ ReadsAsSpecified [] wrappingFile := by
  intro h
  have hload : Loadable wrappingFile.bytes := by
    refine ⟨by decide, by decide, by decide, by decide, by decide, by decide, ?_⟩
    intro hnum
    exact absurd rfl hnum
  obtain ⟨file, t, hrun⟩ := (h.1 (⟨⟨0, 0, 0, 0, 0, []⟩, ⟨fun _ => 0, fun _ => none⟩⟩, [])).mpr hload
  obtain ⟨-, hwrap, -⟩ := run_readElfFile_eq_ok_iff.mp ⟨t, hrun⟩
  exact hwrap ⟨by decide, by decide, by decide⟩

end ElfReader

end InstaX
