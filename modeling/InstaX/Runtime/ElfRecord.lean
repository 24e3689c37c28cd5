import Mathlib.Data.List.GetD
import InstaX.Runtime.ElfReader
import InstaX.Runtime.ImageContents
import InstaX.Runtime.MemoryCalls

/-!
# What the ELF code touches

`mapImage` with a record of its accesses to the buffer of the file and of the guest memory that its
copy loop fills; without the record it is the program of `ElfMapper` (`ElfRecord.erases_mapImage`).

The accesses to the buffer stay inside it, whatever the file says
(`ElfRecord.accesses_contained`).  What the copy loop fills stays inside the memory of the segment
it is filled for, unless the segment claims more bytes in the file than in memory
(`ElfRecord.fillsInside_iff`): the file side of the copy is checked against the file, and the memory
side only against what is mapped.
-/

namespace InstaX

open Throwing Tracing ByteStore GuestMemory

/-! ## The recorded programs -/

namespace ElfRecord

/-- `strnlen` on the buffer, one character after another. -/
def strnlen (bytes : List Byte) : ℕ → ℕ → Traced ElfEvent World ℕ
  | _, 0 => pure 0
  | offset, maxLen + 1 => do
    emit (.read offset 1)
    if bytes.getD offset 0 = 0 then pure 0
    else do
      let len ← strnlen bytes (offset + 1) maxLen
      pure (len + 1)

/-- The NUL-terminated string at an offset of the file, cut at the end of the file. -/
def readCString (bytes : List Byte) (offset : U64) (what : String) :
    Traced ElfEvent World StdString :=
  if bytes.length ≤ offset.toNat then do
    let e := Exn.runtimeError ("ELF: " ++ what ++ " offset 0x" ++ hex offset ++
      " lies past the end of the file")
    emit (.refused e)
    throw e
  else do
    let len ← strnlen bytes offset.toNat (bytes.length - offset.toNat)
    emit (.read offset.toNat len)
    pure (ElfReader.slice bytes offset.toNat len)

/-- Copy the file bytes of a segment. -/
def copyFileBytes (file : ElfFile) (loadBias : U64) (ph : Elf64_Phdr) :
    Traced ElfEvent World Unit :=
  if ph.p_filesz = 0 then emit .skipped
  else if file.bytes.length < ph.p_offset.toNat ∨
      file.bytes.length - ph.p_offset.toNat < ph.p_filesz.toNat then do
    let e := Exn.runtimeError ("ELF: PT_LOAD claims " ++ toString ph.p_filesz.toNat ++
      " bytes at file offset 0x" ++ hex ph.p_offset ++ ", which runs past the end of the file")
    emit (.refused e)
    throw e
  else do
    emit (.read ph.p_offset.toNat ph.p_filesz.toNat)
    silent (write (ph.p_vaddr + loadBias)
      (fun i => file.bytes.getD (ph.p_offset.toNat + i) 0) ph.p_filesz)
    emit (.filled ph (ph.p_vaddr + loadBias) ph.p_filesz)

/-- Clear the rest of a segment. -/
def clearBss (loadBias : U64) (ph : Elf64_Phdr) : Traced ElfEvent World Unit :=
  if ph.p_memsz > ph.p_filesz then do
    silent (zero (ph.p_vaddr + loadBias + ph.p_filesz) (ph.p_memsz - ph.p_filesz))
    emit (.filled ph (ph.p_vaddr + loadBias + ph.p_filesz) (ph.p_memsz - ph.p_filesz))
  else pure ()

/-- The copy loop's body. -/
def copySegment (file : ElfFile) (loadBias : U64) (ph : Elf64_Phdr) : Traced ElfEvent World Unit :=
  if ph.p_type ≠ PT_LOAD ∨ ph.p_memsz = 0 then emit .skipped
  else do
    copyFileBytes file loadBias ph
    clearBss loadBias ph

/-- What a `PT_INTERP` or `PT_DYNAMIC` header adds to the image. -/
def noteHeader (file : ElfFile) (loadBias : U64) (image : GuestElfImage) (ph : Elf64_Phdr) :
    Traced ElfEvent World GuestElfImage :=
  if ph.p_type = PT_INTERP then do
    let interpPath ← readCString file.bytes ph.p_offset "PT_INTERP path"
    pure { image with needsInterp := true, interpPath := interpPath }
  else if ph.p_type = PT_DYNAMIC then
    pure { image with isDynamic := true, dynamicAddr := ph.p_vaddr + loadBias }
  else pure image

/-- Place a file in guest memory. -/
def mapImage (k : HostKernel) (file : ElfFile) (loadBias : U64) :
    Traced ElfEvent World GuestElfImage := do
  let span ← silent (ElfMapper.computeLoadSpan file)
  let loadLow := span.1 + loadBias
  let loadHigh := span.2 + loadBias
  silent (map k loadLow (loadHigh - loadLow) (kProtRead ||| kProtWrite) "iamge")
  forM file.phdrs (copySegment file loadBias)
  silent (forM file.phdrs (ElfMapper.protectSegment k loadBias))
  file.phdrs.foldlM (noteHeader file loadBias)
    { path := file.path
      isPie := file.isPie
      isDynamic := false
      needsInterp := false
      interpPath := []
      loadBias := loadBias
      entry := file.ehdr.e_entry + loadBias
      loadLow := loadLow
      loadHigh := loadHigh
      dynamicAddr := 0
      phdrAddr := ElfMapper.findPhdrs file loadBias
      phEntSize := file.ehdr.e_phentsize.setWidth 64
      phNum := file.ehdr.e_phnum.setWidth 64
      brk := guestPageAlignUp loadHigh }

/-! ## Without the record -/

/-- `strnlen` counts the characters before the first NUL. -/
lemma erases_strnlen (bytes : List Byte) (offset maxLen : ℕ) : Erases (strnlen bytes offset maxLen)
    (pure (((bytes.drop offset).take maxLen).takeWhile (· ≠ 0)).length) := by
  induction maxLen generalizing offset with
  | zero =>
    rw [strnlen, List.take_zero]
    exact erases_pure 0
  | succ n ih =>
    rw [strnlen]
    apply Erases.emit_bind
    rcases Nat.lt_or_ge offset bytes.length with hlt | hge
    · rw [List.drop_eq_getElem_cons hlt, List.take_succ_cons, List.getD_eq_getElem _ _ hlt]
      split_ifs with hzero
      · rw [List.takeWhile_cons_of_neg (by simpa using hzero)]
        exact erases_pure 0
      · rw [List.takeWhile_cons_of_pos (by simpa using hzero), List.length_cons]
        rw [← pure_bind _ fun len => (pure (len + 1) : Prog World ℕ)]
        exact (ih (offset + 1)).bind fun len => erases_pure (len + 1)
    · rw [List.getD_eq_default _ _ hge, if_pos rfl, List.drop_eq_nil_of_le hge]
      exact erases_pure 0

/-- Without its record, reading a string is `readCString`. -/
lemma erases_readCString (bytes : List Byte) (offset : U64) (what : String) :
    Erases (readCString bytes offset what) (ElfMapper.readCString bytes offset what) := by
  unfold readCString ElfMapper.readCString
  split_ifs with hbound
  · exact (erases_throw _).emit_bind _
  · have htake : (bytes.drop offset.toNat).take (bytes.length - offset.toNat) =
        bytes.drop offset.toNat := List.take_of_length_le (by rw [List.length_drop])
    have hstring : ElfReader.slice bytes offset.toNat
        ((bytes.drop offset.toNat).takeWhile (· ≠ 0)).length =
          (bytes.drop offset.toNat).takeWhile (· ≠ 0) :=
      (List.prefix_iff_eq_take.mp (List.takeWhile_prefix _)).symm
    have hlen := erases_strnlen bytes offset.toNat (bytes.length - offset.toNat)
    rw [htake] at hlen
    have hread := hlen.bind fun len =>
      (erases_pure (ElfReader.slice bytes offset.toNat len)).emit_bind (.read offset.toNat len)
    rwa [pure_bind, hstring] at hread

/-- Without its record, copying a segment is `copySegment`. -/
lemma erases_copySegment (file : ElfFile) (loadBias : U64) (ph : Elf64_Phdr) :
    Erases (copySegment file loadBias ph) (ElfMapper.copySegment file loadBias ph) := by
  have hcopy : Erases (copyFileBytes file loadBias ph)
      (ElfMapper.copyFileBytes file loadBias ph) := by
    unfold copyFileBytes ElfMapper.copyFileBytes
    split_ifs
    · exact erases_emit _
    · exact (erases_throw _).emit_bind _
    · exact ((erases_silent _).bind_emit _).emit_bind _
  have hclear : Erases (clearBss loadBias ph) (ElfMapper.clearBss loadBias ph) := by
    unfold clearBss ElfMapper.clearBss
    split_ifs
    · exact (erases_silent _).bind_emit _
    · exact erases_pure _
  unfold copySegment ElfMapper.copySegment
  split_ifs
  · exact erases_emit _
  · exact hcopy.bind fun _ => hclear

/-- Without its record, noting a header is `noteHeader`. -/
lemma erases_noteHeader (file : ElfFile) (loadBias : U64) (image : GuestElfImage)
    (ph : Elf64_Phdr) :
    Erases (noteHeader file loadBias image ph) (ElfMapper.noteHeader file loadBias image ph) := by
  unfold noteHeader ElfMapper.noteHeader
  split_ifs
  · exact (erases_readCString _ _ _).bind fun _ => erases_pure _
  · exact erases_pure _
  · exact erases_pure _

/-- Without its record, the recorded mapping is the mapping. -/
theorem erases_mapImage (k : HostKernel) (file : ElfFile) (loadBias : U64) :
    Erases (mapImage k file loadBias) (ElfMapper.mapImage k file loadBias) := by
  unfold mapImage ElfMapper.mapImage
  refine (erases_silent _).bind fun span => (erases_silent _).bind fun _ => ?_
  refine (Erases.forM fun ph _ => erases_copySegment file loadBias ph).bind fun _ => ?_
  exact (erases_silent _).bind fun _ => Erases.foldlM (erases_noteHeader file loadBias) _ _

end ElfRecord

/-! ## Accesses to the buffer -/

/-- A read inside a buffer of a size, a refusal with a `std::runtime_error`, or a skipped entry. -/
def ElfEvent.Contained (size : ℕ) : ElfEvent → Prop
  | .read offset n => ∀ i < n, offset + i < size
  | .refused e => e.IsRuntimeError
  | .skipped => True
  | .filled _ _ _ => True

namespace ElfReader

variable {bytes : List Byte} {path : StdString}

/-- A structure is read inside the buffer or refused. -/
lemma confined_readStruct {α : Type} (n : ℕ) (decode : List Byte → α) (offset : U64)
    (what : String) : Confined (ElfEvent.Contained bytes.length) Exn.IsRuntimeError
      (readStruct n decode bytes offset what) := by
  unfold readStruct
  split_ifs with hbound
  · exact (confined_emit ⟨_, rfl⟩).bind fun _ => confined_throw ⟨_, rfl⟩
  · exact (confined_emit fun i hi => by omega).bind fun _ => confined_pure _

/-- The program headers are read inside the buffer or refused. -/
lemma confined_readPhdrs (eh : Elf64_Ehdr) (n i : ℕ) :
    Confined (ElfEvent.Contained bytes.length) Exn.IsRuntimeError (readPhdrs bytes eh n i) := by
  induction n generalizing i with
  | zero => exact confined_pure _
  | succ n ih =>
    rw [readPhdrs]
    exact (confined_readStruct _ _ _ _).bind fun _ => (ih (i + 1)).bind fun _ => confined_pure _

/-- The section headers are read inside the buffer or refused. -/
lemma confined_readShdrs (eh : Elf64_Ehdr) (n i : ℕ) :
    Confined (ElfEvent.Contained bytes.length) Exn.IsRuntimeError (readShdrs bytes eh n i) := by
  induction n generalizing i with
  | zero => exact confined_pure _
  | succ n ih =>
    rw [readShdrs]
    split_ifs
    · exact (confined_emit trivial).bind fun _ => confined_pure _
    · exact (confined_readStruct _ _ _ _).bind fun _ => (ih (i + 1)).bind fun _ =>
        confined_pure _

/-- Checking the header reads nothing and refuses with a `std::runtime_error`. -/
lemma confined_checkHeader (eh : Elf64_Ehdr) :
    Confined (ElfEvent.Contained bytes.length) Exn.IsRuntimeError (checkHeader path eh) := by
  unfold checkHeader
  dsimp only
  split_ifs <;> first | exact confined_throw ⟨_, rfl⟩ | exact confined_pure _

/-- The decoder reads inside the buffer and throws nothing but `std::runtime_error`. -/
lemma confined_parse :
    Confined (ElfEvent.Contained bytes.length) Exn.IsRuntimeError (parse path bytes) := by
  have hphdrs : ∀ eh, Confined (ElfEvent.Contained bytes.length) Exn.IsRuntimeError
      (readProgramHeaders bytes eh) := by
    intro eh
    unfold readProgramHeaders
    split_ifs
    · exact confined_pure _
    · exact confined_throw ⟨_, rfl⟩
    · exact confined_readPhdrs _ _ _
  have hshdrs : ∀ eh, Confined (ElfEvent.Contained bytes.length) Exn.IsRuntimeError
      (readSectionHeaders bytes eh) := by
    intro eh
    unfold readSectionHeaders
    split_ifs
    · exact confined_readShdrs _ _ _
    · exact confined_pure _
  exact (confined_readStruct _ _ _ _).bind fun eh => (confined_checkHeader eh).bind fun _ =>
    (hphdrs eh).bind fun _ => (hshdrs eh).bind fun _ => confined_pure _

/-- So does the reader, whatever it is given. -/
lemma confined_readElfFile (path : StdString) (c : FileContent) :
    Confined (ElfEvent.Contained c.bytes.length)
    Exn.IsRuntimeError (readElfFile path (.content c)) := by
  unfold readElfFile
  dsimp only
  split_ifs
  · exact confined_throw ⟨_, rfl⟩
  · exact confined_parse

/-- The reader throws nothing but `std::runtime_error`. -/
lemma throwsOnly_readElfFile (input : InputFile) :
    ThrowsOnly Exn.IsRuntimeError (readElfFile path input) := by
  cases input with
  | unopened => exact throwsOnly_throw ⟨_, rfl⟩
  | broken size =>
    unfold readElfFile
    dsimp only
    split_ifs <;> exact throwsOnly_throw ⟨_, rfl⟩
  | content c => exact (confined_readElfFile path c).throwsOnly

end ElfReader

namespace ElfRecord

variable {file : ElfFile} {loadBias : U64}

/-- The scan for the end of a string reads single bytes. -/
lemma emits_strnlen {P : ElfEvent → Prop} {bytes : List Byte} {offset maxLen : ℕ}
    (h : ∀ i < maxLen, P (.read (offset + i) 1)) : Emits P (strnlen bytes offset maxLen) := by
  induction maxLen generalizing offset with
  | zero => exact emits_pure _
  | succ n ih =>
    rw [strnlen]
    refine (emits_emit (h 0 n.succ_pos)).bind fun _ => ?_
    split_ifs
    · exact emits_pure _
    · refine (ih fun i hi => ?_).bind fun _ => emits_pure _
      rw [Nat.add_right_comm]
      exact h (i + 1) (Nat.succ_lt_succ hi)

/-- A string is read inside the buffer. -/
lemma emits_readCString (bytes : List Byte) (offset : U64) (what : String) :
    Emits (ElfEvent.Contained bytes.length) (readCString bytes offset what) := by
  unfold readCString
  split_ifs with hbound
  · exact (emits_emit ⟨_, rfl⟩).bind fun _ => emits_throw _
  · have hscan : ∀ i < bytes.length - offset.toNat,
        (ElfEvent.read (offset.toNat + i) 1).Contained bytes.length := fun i hi j hj => by omega
    refine (emits_strnlen hscan).bind_of_returns fun s len t hrun => ?_
    -- the string that is copied is not longer than what `strnlen` was given
    have hlen : len ≤ bytes.length - offset.toNat := by
      obtain ⟨rfl, -⟩ := EStateM.Result.ok.inj ((erases_strnlen _ _ _).returns _ _ _ hrun)
      refine (List.takeWhile_prefix _).length_le.trans ?_
      rw [List.length_take]
      exact min_le_left _ _
    exact (emits_emit fun i hi => by omega).bind fun _ => emits_pure _

/-- A segment is copied from inside the buffer. -/
lemma emits_copySegment (ph : Elf64_Phdr) :
    Emits (ElfEvent.Contained file.bytes.length) (copySegment file loadBias ph) := by
  have hcopy : Emits (ElfEvent.Contained file.bytes.length) (copyFileBytes file loadBias ph) := by
    unfold copyFileBytes
    split_ifs with hzero hbound
    · exact emits_emit trivial
    · exact (emits_emit ⟨_, rfl⟩).bind fun _ => emits_throw _
    · exact (emits_emit fun i hi => by omega).bind fun _ =>
        (emits_silent _).bind fun _ => emits_emit trivial
  have hclear : Emits (ElfEvent.Contained file.bytes.length) (clearBss loadBias ph) := by
    unfold clearBss
    split_ifs
    · exact (emits_silent _).bind fun _ => emits_emit trivial
    · exact emits_pure _
  unfold copySegment
  split_ifs
  · exact emits_emit trivial
  · exact hcopy.bind fun _ => hclear

/-- A header is noted from inside the buffer. -/
lemma emits_noteHeader (image : GuestElfImage) (ph : Elf64_Phdr) :
    Emits (ElfEvent.Contained file.bytes.length) (noteHeader file loadBias image ph) := by
  unfold noteHeader
  split_ifs
  · exact (emits_readCString _ _ _).bind fun _ => emits_pure _
  · exact emits_pure _
  · exact emits_pure _

/-- The mapping reads inside the buffer. -/
lemma emits_mapImage (k : HostKernel) :
    Emits (ElfEvent.Contained file.bytes.length) (mapImage k file loadBias) := by
  unfold mapImage
  refine (emits_silent _).bind fun span => (emits_silent _).bind fun _ => ?_
  refine (Emits.forM fun ph _ => emits_copySegment ph).bind fun _ => ?_
  exact (emits_silent _).bind fun _ => Emits.foldlM emits_noteHeader _ _

/-- Whatever the mapper leaves, it leaves with a record of accesses inside the buffer. -/
theorem exists_contained_of_leaves_mapImage {k : HostKernel} {w w' : World}
    (h : Leaves (ElfMapper.mapImage k file loadBias) w w') :
    ∃ accesses, Leaves (mapImage k file loadBias) (w, []) (w', accesses) ∧
      ∀ e ∈ accesses, e.Contained file.bytes.length := by
  obtain ⟨accesses, hleaves⟩ := (erases_mapImage k file loadBias).exists_leaves h []
  obtain ⟨_, rfl, hcontained⟩ := emits_mapImage k _ _ hleaves
  exact ⟨accesses, hleaves, hcontained⟩

/-- Whatever a file contains, the reader and then the mapping, at any bias and over any memory,
access the buffer inside its bounds; the ranges that they refuse they refuse with a
`std::runtime_error`, and the other entries they skip.  The reader throws nothing else.  The record
is one of the mapper's own runs (`exists_contained_of_leaves_mapImage`). -/
theorem accesses_contained (path : StdString) (c : FileContent) (k : HostKernel) (loadBias : U64)
    (w : World) :
    (∀ t, Leaves (ElfReader.readElfFile path (.content c)) (w, []) t →
      ∀ e ∈ t.2, e.Contained c.bytes.length) ∧
    (∀ e t, (ElfReader.readElfFile path (.content c)).run (w, []) = .error e t →
      e.IsRuntimeError) ∧
    ∀ file t, (ElfReader.readElfFile path (.content c)).run (w, []) = .ok file t →
      ∀ u, Leaves (mapImage k file loadBias) t u → ∀ e ∈ u.2, e.Contained c.bytes.length := by
  have hreader := ElfReader.confined_readElfFile path c
  have hrecord : ∀ t, Leaves (ElfReader.readElfFile path (.content c)) (w, []) t →
      ∀ e ∈ t.2, e.Contained c.bytes.length := by
    intro t ht
    obtain ⟨added, hadded, hcontained⟩ := hreader.emits _ t ht
    rw [hadded, List.nil_append]
    exact hcontained
  refine ⟨hrecord, fun e t h => ElfReader.throwsOnly_readElfFile _ _ e t h, ?_⟩
  intro file t hrun u hu
  obtain ⟨-, -, rfl⟩ := ElfReader.run_readElfFile_eq_ok_iff.mp ⟨t, hrun⟩
  obtain ⟨added, hadded, hcontained⟩ := emits_mapImage k t u hu
  rw [hadded]
  intro e he
  exact (List.mem_append.mp he).elim (hrecord t (Or.inl ⟨_, hrun⟩) e) (hcontained e)

end ElfRecord

/-! ## What the copy loop fills -/

/-- The bytes that are filled for a segment lie in the memory of the segment. -/
def ElfEvent.Inside (loadBias : U64) : ElfEvent → Prop
  | .filled ph a n => span a n.toNat ⊆ span (ph.p_vaddr + loadBias) ph.p_memsz.toNat
  | .read _ _ => True
  | .refused _ => True
  | .skipped => True

/-- The segment has more bytes in the file than in memory, the file has them all, and the guest's
memory has room for them. -/
def Overshoots (file : ElfFile) (loadBias : U64) (m : GuestMemory) (ph : Elf64_Phdr) : Prop :=
  ph.p_type = PT_LOAD ∧ ph.p_memsz ≠ 0 ∧ ph.p_memsz.toNat < ph.p_filesz.toNat ∧
    ph.p_offset.toNat + ph.p_filesz.toNat ≤ file.bytes.length ∧
    m.Accessible (ph.p_vaddr + loadBias) ph.p_filesz

/-- The mapping of a file in `w` comes to its copy loop in the state `w₀`. -/
def ReachesCopyLoop (k : HostKernel) (file : ElfFile) (loadBias : U64) (w w₀ : World) : Prop :=
  ∃ span, (ElfMapper.computeLoadSpan file).run w = .ok span w ∧
    (map k (span.1 + loadBias) (span.2 + loadBias - (span.1 + loadBias)) (kProtRead ||| kProtWrite)
      "iamge").run w = .ok () w₀

/-- The copy loop over `phdrs` that starts in `w` comes to the segment `ph` in the state `w₁`. -/
def ComesTo (file : ElfFile) (loadBias : U64) (phdrs : List Elf64_Phdr) (w : World)
    (ph : Elf64_Phdr) (w₁ : World) : Prop :=
  ∃ before after, phdrs = before ++ ph :: after ∧
    (forM before (ElfMapper.copySegment file loadBias)).run w = .ok () w₁

namespace ElfRecord

variable {file : ElfFile} {loadBias : U64} {k : HostKernel} {w : World}

/-- The part of a segment that is copied from the file lies in its memory if there is more of
that. -/
lemma inside_copy_iff {ph : Elf64_Phdr} :
    (ElfEvent.filled ph (ph.p_vaddr + loadBias) ph.p_filesz).Inside loadBias ↔
      ph.p_filesz.toNat ≤ ph.p_memsz.toNat := by
  unfold ElfEvent.Inside
  constructor
  · intro hsub
    by_contra hlt
    have hfile := ph.p_filesz.isLt
    -- the first byte behind the segment's memory is filled
    have hmem : ph.p_vaddr + loadBias + BitVec.ofNat 64 ph.p_memsz.toNat ∈
        span (ph.p_vaddr + loadBias) ph.p_filesz.toNat :=
      (mem_span_iff_exists hfile.le).mpr ⟨_, by omega, rfl⟩
    have hlast := hsub hmem
    rw [mem_span, toNat_add_ofNat_sub ph.p_memsz.isLt] at hlast
    omega
  · intro hle x hx
    exact lt_of_lt_of_le hx hle

/-- The part of a segment that is cleared lies in its memory. -/
lemma inside_clear {ph : Elf64_Phdr} (h : ph.p_memsz > ph.p_filesz) :
    (ElfEvent.filled ph (ph.p_vaddr + loadBias + ph.p_filesz)
      (ph.p_memsz - ph.p_filesz)).Inside loadBias := by
  intro x hx
  rw [gt_iff_lt, BitVec.lt_def] at h
  have hmem := ph.p_memsz.isLt
  rw [BitVec.toNat_sub_of_le (BitVec.le_def.mpr h.le)] at hx
  rw [show ph.p_filesz = BitVec.ofNat 64 ph.p_filesz.toNat by simp] at hx
  rw [BitVec.toNat_ofNat, Nat.mod_eq_of_lt ph.p_filesz.isLt] at hx
  have hrange := (mem_span_add_ofNat (by omega)).mp hx
  rw [mem_span]
  omega

/-- What is cleared is memory of the segment. -/
lemma emits_clearBss_inside (ph : Elf64_Phdr) :
    Emits (ElfEvent.Inside loadBias) (clearBss loadBias ph) := by
  unfold clearBss
  split_ifs with h
  · exact (emits_silent _).bind fun _ => emits_emit (inside_clear h)
  · exact emits_pure _

/-- The copy of a segment's file bytes fills memory of the segment unless there are too many of
them, in the file and with room in the guest's memory. -/
lemma copyFileBytes_fills_inside_iff {ph : Elf64_Phdr} {s t : World × List ElfEvent}
    (h : Leaves (copyFileBytes file loadBias ph) s t) : ∃ added, t.2 = s.2 ++ added ∧
      ((∀ e ∈ added, e.Inside loadBias) ↔ ¬ (ph.p_memsz.toNat < ph.p_filesz.toNat ∧
        ph.p_offset.toNat + ph.p_filesz.toNat ≤ file.bytes.length ∧
        s.1.mem.Accessible (ph.p_vaddr + loadBias) ph.p_filesz)) := by
  unfold copyFileBytes at h
  split_ifs at h with hzero hbound
  · obtain ⟨added, hadded, hinside⟩ :=
      emits_emit (P := ElfEvent.Inside loadBias) (e := .skipped) trivial s t h
    refine ⟨added, hadded, iff_of_true hinside ?_⟩
    rintro ⟨hlt, -⟩
    rw [hzero] at hlt
    exact Nat.not_lt_zero _ hlt
  · obtain ⟨added, hadded, hinside⟩ := (emits_emit (P := ElfEvent.Inside loadBias)
      (e := .refused _) trivial).bind (fun _ => emits_throw _) s t h
    refine ⟨added, hadded, iff_of_true hinside ?_⟩
    rintro ⟨-, hrange, -⟩
    omega
  · rw [leaves_bind_iff] at h
    obtain ⟨_, hemit⟩ | ⟨_, s₁, hemit, h⟩ := h
    · cases hemit
    obtain ⟨-, rfl⟩ := EStateM.Result.ok.inj hemit
    rcases leaves_bind_iff.mp h with ⟨e, hwrite⟩ | ⟨_, s₂, hwrite, hfill⟩
    · -- the write throws, so there is no room
      obtain ⟨hthrow, hrecord⟩ := run_silent_eq_error_iff.mp hwrite
      refine ⟨[.read ph.p_offset.toNat ph.p_filesz.toNat], hrecord, iff_of_true ?_ ?_⟩
      · simp [ElfEvent.Inside]
      · rintro ⟨-, -, haccess⟩
        obtain ⟨_, _, hok⟩ := returns_write.mpr haccess
        cases hok.symm.trans hthrow
    · obtain ⟨hok, hrecord⟩ := run_silent_eq_ok_iff.mp hwrite
      obtain ⟨haccess, -⟩ := run_write_eq_ok_iff.mp hok
      obtain ⟨_, hfill⟩ | ⟨_, hfill⟩ := hfill
      · obtain ⟨-, rfl⟩ := EStateM.Result.ok.inj hfill
        refine ⟨[.read ph.p_offset.toNat ph.p_filesz.toNat,
          .filled ph (ph.p_vaddr + loadBias) ph.p_filesz], ?_, ?_⟩
        · change s₂.2 ++ _ = _
          rw [hrecord, List.append_assoc]
          rfl
        · rw [List.forall_mem_cons, List.forall_mem_singleton, inside_copy_iff]
          constructor
          · rintro ⟨-, hle⟩ ⟨hlt, -⟩
            omega
          · intro hnot
            refine ⟨trivial, Nat.not_lt.mp fun hlt => hnot ⟨hlt, by omega, haccess⟩⟩
      · cases hfill

/-- A turn of the copy loop fills memory of its segment unless the segment overshoots. -/
lemma copySegment_fills_inside_iff {ph : Elf64_Phdr} {s t : World × List ElfEvent}
    (h : Leaves (copySegment file loadBias ph) s t) : ∃ added, t.2 = s.2 ++ added ∧
      ((∀ e ∈ added, e.Inside loadBias) ↔ ¬ Overshoots file loadBias s.1.mem ph) := by
  unfold copySegment at h
  split_ifs at h with hskip
  · obtain ⟨added, hadded, hinside⟩ :=
      emits_emit (P := ElfEvent.Inside loadBias) (e := .skipped) trivial s t h
    refine ⟨added, hadded, iff_of_true hinside ?_⟩
    rintro ⟨htype, hmemsz, -⟩
    exact hskip.elim (fun h => h htype) hmemsz
  · rw [not_or, not_not] at hskip
    have hiff : Overshoots file loadBias s.1.mem ph ↔ ph.p_memsz.toNat < ph.p_filesz.toNat ∧
        ph.p_offset.toNat + ph.p_filesz.toNat ≤ file.bytes.length ∧
        s.1.mem.Accessible (ph.p_vaddr + loadBias) ph.p_filesz := by
      rw [Overshoots, and_iff_right hskip.1, and_iff_right hskip.2]
    rw [hiff]
    rcases leaves_bind_iff.mp h with ⟨e, hcopy⟩ | ⟨_, s₁, hcopy, hclear⟩
    · exact copyFileBytes_fills_inside_iff (Or.inr ⟨e, hcopy⟩)
    · obtain ⟨added, hadded, hinside⟩ := copyFileBytes_fills_inside_iff (Or.inl ⟨_, hcopy⟩)
      obtain ⟨added', hadded', hinside'⟩ := emits_clearBss_inside ph s₁ t hclear
      refine ⟨added ++ added', by rw [hadded', hadded, List.append_assoc], ?_⟩
      rw [List.forall_mem_append, and_iff_left hinside']
      exact hinside

/-- The copy loop fills memory of its segments unless it comes to one that overshoots. -/
lemma copySegments_fill_inside_iff {l : List Elf64_Phdr} {s t : World × List ElfEvent}
    (h : Leaves (forM l (copySegment file loadBias)) s t) : ∃ added, t.2 = s.2 ++ added ∧
      ((∀ e ∈ added, e.Inside loadBias) ↔
        ∀ ph w₁, ComesTo file loadBias l s.1 ph w₁ → ¬ Overshoots file loadBias w₁.mem ph) := by
  induction l generalizing s with
  | nil =>
    obtain ⟨added, hadded, hinside⟩ := emits_pure (P := ElfEvent.Inside loadBias) _ s t h
    refine ⟨added, hadded, iff_of_true hinside ?_⟩
    rintro ph w₁ ⟨before, after, hsplit, -⟩
    simp at hsplit
  | cons q l ih =>
    rw [List.forM_cons] at h
    -- the loop comes to its first segment at once, and to the others from where that one ended
    have hcomes : ∀ ph w₁, ComesTo file loadBias (q :: l) s.1 ph w₁ ↔ (ph = q ∧ w₁ = s.1) ∨
        ∃ w₂, (ElfMapper.copySegment file loadBias q).run s.1 = .ok () w₂ ∧
          ComesTo file loadBias l w₂ ph w₁ := by
      intro ph w₁
      constructor
      · rintro ⟨before, after, hsplit, hrun⟩
        cases before with
        | nil =>
          obtain ⟨rfl, rfl⟩ := List.cons.inj hsplit
          exact Or.inl ⟨rfl, (EStateM.Result.ok.inj hrun).2.symm⟩
        | cons b before =>
          obtain ⟨rfl, rfl⟩ := List.cons.inj hsplit
          rw [List.forM_cons, run_bind_eq_ok_iff] at hrun
          obtain ⟨_, w₂, hhead, htail⟩ := hrun
          exact Or.inr ⟨w₂, hhead, before, after, rfl, htail⟩
      · rintro (⟨rfl, rfl⟩ | ⟨w₂, hhead, before, after, rfl, htail⟩)
        · exact ⟨[], l, rfl, rfl⟩
        · refine ⟨q :: before, after, rfl, ?_⟩
          rw [List.forM_cons, run_bind_eq_ok_iff]
          exact ⟨_, w₂, hhead, htail⟩
    rcases leaves_bind_iff.mp h with ⟨e, hhead⟩ | ⟨_, s₁, hhead, htail⟩
    · obtain ⟨added, hadded, hinside⟩ := copySegment_fills_inside_iff (Or.inr ⟨e, hhead⟩)
      have hthrow := (erases_copySegment file loadBias q).throws _ _ _ hhead
      refine ⟨added, hadded, hinside.trans ⟨fun hnot ph w₁ hcome => ?_, fun hall => ?_⟩⟩
      · rcases (hcomes ph w₁).mp hcome with ⟨rfl, rfl⟩ | ⟨w₂, hok, -⟩
        · exact hnot
        · cases hok.symm.trans hthrow
      · exact hall q s.1 ((hcomes q s.1).mpr (Or.inl ⟨rfl, rfl⟩))
    · obtain ⟨added, hadded, hinside⟩ := copySegment_fills_inside_iff (Or.inl ⟨_, hhead⟩)
      obtain ⟨added', hadded', hinside'⟩ := ih htail
      have hreturn := (erases_copySegment file loadBias q).returns _ _ _ hhead
      refine ⟨added ++ added', by rw [hadded', hadded, List.append_assoc], ?_⟩
      rw [List.forall_mem_append, hinside, hinside']
      constructor
      · rintro ⟨hnot, hall⟩ ph w₁ hcome
        rcases (hcomes ph w₁).mp hcome with ⟨rfl, rfl⟩ | ⟨w₂, hok, hrest⟩
        · exact hnot
        · obtain ⟨-, rfl⟩ := EStateM.Result.ok.inj (hok.symm.trans hreturn)
          exact hall ph w₁ hrest
      · intro hall
        exact ⟨hall q s.1 ((hcomes q s.1).mpr (Or.inl ⟨rfl, rfl⟩)), fun ph w₁ hrest =>
          hall ph w₁ ((hcomes ph w₁).mpr (Or.inr ⟨_, hreturn, hrest⟩))⟩

/-- Noting a header fills nothing. -/
lemma emits_noteHeader_inside (image : GuestElfImage) (ph : Elf64_Phdr) :
    Emits (ElfEvent.Inside loadBias) (noteHeader file loadBias image ph) := by
  unfold noteHeader readCString
  split_ifs
  · exact ((emits_emit trivial).bind fun _ => emits_throw _).bind fun _ => emits_pure _
  · refine Emits.bind ((emits_strnlen fun _ _ => trivial).bind fun _ => ?_) fun _ => emits_pure _
    exact (emits_emit trivial).bind fun _ => emits_pure _
  · exact emits_pure _
  · exact emits_pure _

/-! ### The record is complete -/

/-- A program changes no byte of the guest but those that it records as filled. -/
def RecordsFills (x : Traced ElfEvent World Unit) : Prop :=
  ∀ s t, Leaves x s t → ∃ added, t.2 = s.2 ++ added ∧
    ∀ y, (∀ ph a n, ElfEvent.filled ph a n ∈ added → y ∉ span a n.toNat) →
      t.1.bytes y = s.1.bytes y

/-- Programs that record their fills do so one after the other. -/
lemma RecordsFills.bind {x y : Traced ElfEvent World Unit} (hx : RecordsFills x)
    (hy : RecordsFills y) : RecordsFills (x >>= fun _ => y) := by
  intro s t h
  rcases leaves_bind_iff.mp h with ⟨e, hrun⟩ | ⟨_, s', hrun, hrest⟩
  · exact hx s t (Or.inr ⟨e, hrun⟩)
  · obtain ⟨added, hadded, hframe⟩ := hx s s' (Or.inl ⟨_, hrun⟩)
    obtain ⟨added', hadded', hframe'⟩ := hy s' t hrest
    refine ⟨added ++ added', by rw [hadded', hadded, List.append_assoc], fun b hb => ?_⟩
    rw [hframe' b fun ph a n hmem => hb ph a n (List.mem_append_right _ hmem),
      hframe b fun ph a n hmem => hb ph a n (List.mem_append_left _ hmem)]

/-- An event changes no byte. -/
lemma recordsFills_emit (e : ElfEvent) : RecordsFills (emit e) := by
  intro s t h
  obtain rfl := h.eq_of_ok (run_emit e s)
  exact ⟨[e], rfl, fun _ _ => rfl⟩

lemma recordsFills_pure : RecordsFills (pure ()) := by
  intro s t h
  obtain rfl := h.eq_of_ok rfl
  exact ⟨[], (List.append_nil _).symm, fun _ _ => rfl⟩

lemma recordsFills_throw (e : Exn) : RecordsFills (throw e) := by
  intro s t h
  obtain rfl := h.eq_of_error rfl
  exact ⟨[], (List.append_nil _).symm, fun _ _ => rfl⟩

/-- A patch that is recorded afterwards. -/
lemma recordsFills_patch {x : Prog World Unit} {ph : Elf64_Phdr} {a n : U64} {f : U64 → Byte}
    (hpatch : ∀ w w', x.run w = .ok () w' → Patched (span a n.toNat) f w.bytes w'.bytes)
    (hthrows : ∀ w e w', x.run w = .error e w' → w' = w) :
    RecordsFills (silent x >>= fun _ => emit (.filled ph a n)) := by
  intro s t h
  rcases leaves_bind_iff.mp h with ⟨e, hrun⟩ | ⟨_, s', hrun, hemit⟩
  · obtain ⟨hthrow, hrecord⟩ := run_silent_eq_error_iff.mp hrun
    refine ⟨[], by rw [hrecord, List.append_nil], fun b _ => ?_⟩
    rw [hthrows _ _ _ hthrow]
  · obtain ⟨hok, hrecord⟩ := run_silent_eq_ok_iff.mp hrun
    obtain rfl := hemit.eq_of_ok (run_emit (.filled ph a n) s')
    refine ⟨[.filled ph a n], congrArg (· ++ _) hrecord, fun b hb => ?_⟩
    exact (hpatch _ _ hok).frame (hb ph a n List.mem_cons_self)

/-- The copy loop changes no byte of the guest but those that it records as filled. -/
theorem recordsFills_copySegments (l : List Elf64_Phdr) :
    RecordsFills (forM l (copySegment file loadBias)) := by
  have hsegment : ∀ ph, RecordsFills (copySegment file loadBias ph) := by
    intro ph
    have hcopy : RecordsFills (copyFileBytes file loadBias ph) := by
      unfold copyFileBytes
      split_ifs
      · exact recordsFills_emit _
      · exact (recordsFills_emit _).bind (recordsFills_throw _)
      · exact (recordsFills_emit _).bind (recordsFills_patch
          (fun _ _ h => (patched_of_run_write h).2) fun _ _ _ h => eq_of_write_throws h)
    have hclear : RecordsFills (clearBss loadBias ph) := by
      unfold clearBss
      split_ifs
      · exact recordsFills_patch (fun _ _ h => (patched_of_run_zero h).2)
          fun _ _ _ h => eq_of_zero_throws h
      · exact recordsFills_pure
    unfold copySegment
    split_ifs
    · exact recordsFills_emit _
    · exact hcopy.bind hclear
  induction l with
  | nil => exact recordsFills_pure
  | cons ph l ih =>
    rw [List.forM_cons]
    exact (hsegment ph).bind ih

/-- Whatever the copy loop of the mapper leaves, it leaves with a record of fills outside of which
no byte of the guest has changed. -/
theorem exists_fills_of_leaves_copySegments {l : List Elf64_Phdr} {w w' : World}
    (h : Leaves (forM l (ElfMapper.copySegment file loadBias)) w w') :
    ∃ fills, Leaves (forM l (copySegment file loadBias)) (w, []) (w', fills) ∧
      ∀ y, (∀ ph a n, ElfEvent.filled ph a n ∈ fills → y ∉ span a n.toNat) →
        w'.bytes y = w.bytes y := by
  obtain ⟨fills, hleaves⟩ :=
    (Erases.forM fun ph _ => erases_copySegment file loadBias ph).exists_leaves h []
  obtain ⟨_, rfl, hframe⟩ := recordsFills_copySegments l _ _ hleaves
  exact ⟨fills, hleaves, hframe⟩

/-! ### The whole mapping -/

/-- Whatever becomes of the mapping, all that it fills is memory of the segment it fills it for.
Its record is complete (`exists_fills_of_leaves_copySegments`). -/
def FillsInside (k : HostKernel) (file : ElfFile) (loadBias : U64) (w : World) : Prop :=
  ∀ t, Leaves (mapImage k file loadBias) (w, []) t → ∀ e ∈ t.2, e.Inside loadBias

/-- What a run of the mapping fills is memory of the segment it fills it for, exactly when the copy
loop comes to no segment that overshoots. -/
lemma fills_inside_of_leaves {t : World × List ElfEvent}
    (h : Leaves (mapImage k file loadBias) (w, []) t) :
    (∀ e ∈ t.2, e.Inside loadBias) ↔ ∀ ph w₀ w₁, ReachesCopyLoop k file loadBias w w₀ →
      ComesTo file loadBias file.phdrs w₀ ph w₁ → ¬ Overshoots file loadBias w₁.mem ph := by
  unfold mapImage at h
  rcases leaves_bind_iff.mp h with ⟨e, hspan⟩ | ⟨span, s₁, hspan, h⟩
  · -- no segment to load
    obtain ⟨hthrow, hrecord⟩ := run_silent_eq_error_iff.mp hspan
    rw [hrecord]
    refine iff_of_true (by simp) ?_
    rintro ph w₀ w₁ ⟨span, hok, -⟩
    cases hok.symm.trans hthrow
  obtain ⟨hspan, hrecord₁⟩ := run_silent_eq_ok_iff.mp hspan
  obtain ⟨hsame, -⟩ := ElfMapper.run_computeLoadSpan_eq_ok hspan
  rw [hsame] at hspan
  have hreaches : ∀ w₀, ReachesCopyLoop k file loadBias w w₀ ↔
      (map k (span.1 + loadBias) (span.2 + loadBias - (span.1 + loadBias))
        (kProtRead ||| kProtWrite) "iamge").run w = .ok () w₀ := by
    intro w₀
    constructor
    · rintro ⟨span', hspan', hmap⟩
      obtain ⟨rfl, -⟩ := EStateM.Result.ok.inj (hspan'.symm.trans hspan)
      exact hmap
    · intro hmap
      exact ⟨span, hspan, hmap⟩
  rcases leaves_bind_iff.mp h with ⟨e, hmap⟩ | ⟨_, s₂, hmap, h⟩
  · -- the span is not mapped
    obtain ⟨hthrow, hrecord⟩ := run_silent_eq_error_iff.mp hmap
    rw [hrecord, hrecord₁]
    refine iff_of_true (by simp) ?_
    intro ph w₀ w₁ hreach
    rw [hsame] at hthrow
    cases ((hreaches w₀).mp hreach).symm.trans hthrow
  obtain ⟨hmap, hrecord₂⟩ := run_silent_eq_ok_iff.mp hmap
  rw [hsame] at hmap
  have hloop : (∀ ph w₀ w₁, ReachesCopyLoop k file loadBias w w₀ →
      ComesTo file loadBias file.phdrs w₀ ph w₁ → ¬ Overshoots file loadBias w₁.mem ph) ↔
      ∀ ph w₁, ComesTo file loadBias file.phdrs s₂.1 ph w₁ →
        ¬ Overshoots file loadBias w₁.mem ph := by
    constructor
    · intro hall ph w₁
      exact hall ph s₂.1 w₁ ((hreaches s₂.1).mpr hmap)
    · intro hall ph w₀ w₁ hreach
      obtain ⟨-, rfl⟩ := EStateM.Result.ok.inj (((hreaches w₀).mp hreach).symm.trans hmap)
      exact hall ph w₁
  rw [hloop]
  rcases leaves_bind_iff.mp h with ⟨e, hcopy⟩ | ⟨_, s₃, hcopy, hrest⟩
  · obtain ⟨added, hadded, hinside⟩ := copySegments_fill_inside_iff (Or.inr ⟨e, hcopy⟩)
    rw [hadded, hrecord₂, hrecord₁, List.nil_append]
    exact hinside
  · obtain ⟨added, hadded, hinside⟩ := copySegments_fill_inside_iff (Or.inl ⟨_, hcopy⟩)
    have hafter := (emits_silent (P := ElfEvent.Inside loadBias)
      (forM file.phdrs (ElfMapper.protectSegment k loadBias))).bind
        (fun _ => Emits.foldlM emits_noteHeader_inside file.phdrs _) s₃ t hrest
    obtain ⟨added', hadded', hinside'⟩ := hafter
    rw [hadded', hadded, hrecord₂, hrecord₁, List.nil_append, List.forall_mem_append,
      and_iff_left hinside']
    exact hinside

/-- The mapping of a file, at any bias and over any memory, fills only memory of the segment it
fills it for, exactly when its copy loop comes to no segment that has more bytes in the file than
in memory, all of them in the file and with room in the guest's memory. -/
theorem fillsInside_iff (k : HostKernel) (file : ElfFile) (loadBias : U64) (w : World) :
    FillsInside k file loadBias w ↔ ∀ ph w₀ w₁, ReachesCopyLoop k file loadBias w w₀ →
      ComesTo file loadBias file.phdrs w₀ ph w₁ → ¬ Overshoots file loadBias w₁.mem ph := by
  constructor
  · intro hinside
    obtain ⟨t, ht⟩ := exists_leaves (mapImage k file loadBias) (w, [])
    exact (fills_inside_of_leaves ht).mp (hinside t ht)
  · intro hnot t ht
    exact (fills_inside_of_leaves ht).mpr hnot

/-- A file with a segment that has 120 bytes in the file and claims one byte of memory, and a page
of zeroes behind it. -/
def greedyFile : FileContent where
  bytes := [0x7f, 0x45, 0x4c, 0x46, 2, 1, 1] ++ List.replicate 9 0 ++ [2, 0, 62, 0] ++
    List.replicate 12 0 ++ [64] ++ List.replicate 21 0 ++ [56, 0, 2] ++ List.replicate 7 0 ++
    [1, 0, 0, 0, 4] ++ List.replicate 13 0 ++ [0x40] ++ List.replicate 13 0 ++ [120] ++
    List.replicate 7 0 ++ [1] ++ List.replicate 15 0 ++
    [1, 0, 0, 0, 6] ++ List.replicate 12 0 ++ [0x10, 0x40] ++ List.replicate 22 0 ++ [0x10] ++
    List.replicate 14 0
  length_lt := by decide +kernel

/-- The reader accepts the file, and the mapping writes 119 bytes behind the memory of the first
segment. -/
theorem greedyFile_fills_outside : ∃ file t,
    (ElfReader.readElfFile [] (.content greedyFile)).run (ElfMapper.reservedTwoPages, []) =
      .ok file t ∧
    ¬ FillsInside ElfMapper.fixedKernel file 0 ElfMapper.reservedTwoPages := by
  have hload : ElfReader.Loadable greedyFile.bytes := ⟨by decide +kernel, by decide, by decide,
    by decide, by decide, by decide, by decide +kernel⟩
  have hwrap : ¬ ElfReader.SectionTableWraps greedyFile.bytes := fun h => h.1 (by decide)
  obtain ⟨t, hread⟩ := ElfReader.run_readElfFile_eq_ok_iff.mpr ⟨hload, hwrap, rfl⟩
  refine ⟨_, t, hread, fun hinside => ?_⟩
  have hphdrs : ElfReader.programHeaders greedyFile.bytes =
      [⟨PT_LOAD, PF_R, 0, 0x400000, 0, 120, 1, 0⟩,
        ⟨PT_LOAD, PF_R ||| PF_W, 0, 0x401000, 0, 0, 0x1000, 0⟩] := rfl
  rw [hphdrs] at hinside
  obtain ⟨u, hu⟩ := exists_leaves (mapImage ElfMapper.fixedKernel _ 0)
    (ElfMapper.reservedTwoPages, [])
  refine (fills_inside_of_leaves hu).mp (hinside u hu) _ _ _ ⟨_, rfl, rfl⟩ ⟨[], _, rfl, rfl⟩ ?_
  exact ⟨rfl, by decide, by decide, by decide +kernel, fun _ =>
    ⟨by decide +kernel, by decide +kernel⟩⟩

end ElfRecord

end InstaX
