import InstaX.Foundation.Records
import InstaX.Runtime.ElfReader

/-!
# The format of ELF files

The bytes of the headers, and what it means that a content is an ELF file with given headers
(`Describes`).  The reader is the inverse of that relation: it returns headers exactly if the
content describes them (`run_readElfFile_eq_ok_iff_describes`).  Headers that are consistent with
one another can be laid out in a file, and are read back from it (`run_readElfFile_layOut`).
-/

namespace InstaX

open ByteStore

/-! ## Headers in bytes -/

/-- The reader's fields are little-endian words. -/
lemma field_eq_wordAt (w : ℕ) (raw : List Byte) (offset : ℕ) :
    field w raw offset = wordAt w raw offset :=
  rfl

/-- The fields behind `e_ident`, in order. -/
def Elf64_Ehdr.words (eh : Elf64_Ehdr) : List SizedWord :=
  [⟨16, eh.e_type⟩, ⟨16, eh.e_machine⟩, ⟨32, eh.e_version⟩, ⟨64, eh.e_entry⟩, ⟨64, eh.e_phoff⟩,
    ⟨64, eh.e_shoff⟩, ⟨32, eh.e_flags⟩, ⟨16, eh.e_ehsize⟩, ⟨16, eh.e_phentsize⟩, ⟨16, eh.e_phnum⟩,
    ⟨16, eh.e_shentsize⟩, ⟨16, eh.e_shnum⟩, ⟨16, eh.e_shstrndx⟩]

/-- The file header in bytes. -/
def Elf64_Ehdr.encode (eh : Elf64_Ehdr) : List Byte := eh.e_ident ++ encodeWords eh.words

/-- The fields of a program header, in order. -/
def Elf64_Phdr.words (ph : Elf64_Phdr) : List SizedWord :=
  [⟨32, ph.p_type⟩, ⟨32, ph.p_flags⟩, ⟨64, ph.p_offset⟩, ⟨64, ph.p_vaddr⟩, ⟨64, ph.p_paddr⟩,
    ⟨64, ph.p_filesz⟩, ⟨64, ph.p_memsz⟩, ⟨64, ph.p_align⟩]

/-- A program header in bytes. -/
def Elf64_Phdr.encode (ph : Elf64_Phdr) : List Byte := encodeWords ph.words

/-- The fields of a section header, in order. -/
def Elf64_Shdr.words (sh : Elf64_Shdr) : List SizedWord :=
  [⟨32, sh.sh_name⟩, ⟨32, sh.sh_type⟩, ⟨64, sh.sh_flags⟩, ⟨64, sh.sh_addr⟩, ⟨64, sh.sh_offset⟩,
    ⟨64, sh.sh_size⟩, ⟨32, sh.sh_link⟩, ⟨32, sh.sh_info⟩, ⟨64, sh.sh_addralign⟩,
      ⟨64, sh.sh_entsize⟩]

/-- A section header in bytes. -/
def Elf64_Shdr.encode (sh : Elf64_Shdr) : List Byte := encodeWords sh.words

/-- The words of a file header make up 48 bytes. -/
lemma Elf64_Ehdr.byteLength_words (eh : Elf64_Ehdr) : byteLength eh.words = 48 := by
  simp [byteLength, words]

/-- A file header is 64 bytes long. -/
lemma Elf64_Ehdr.length_encode {eh : Elf64_Ehdr} (h : eh.e_ident.length = 16) :
    eh.encode.length = 64 := by
  rw [encode, List.length_append, h, length_encodeWords, eh.byteLength_words]

/-- A program header is 56 bytes long. -/
lemma Elf64_Phdr.length_encode (ph : Elf64_Phdr) : ph.encode.length = 56 := by
  simp [encode, byteLength, words]

/-- A section header is 64 bytes long. -/
lemma Elf64_Shdr.length_encode (sh : Elf64_Shdr) : sh.encode.length = 64 := by
  simp [encode, byteLength, words]

/-- Decoding the file header compares its bytes. -/
lemma Elf64_Ehdr.decode_eq_iff {raw : List Byte} (hraw : raw.length = 64) (eh : Elf64_Ehdr) :
    decode raw = eh ↔ eh.e_ident.length = 16 ∧ raw = eh.encode := by
  have hdecode : decode raw = eh ↔ raw.take 16 = eh.e_ident ∧ Reads raw 16 eh.words := by
    cases eh
    simp [decode, words, Reads, field_eq_wordAt]
  have hdrop := @reads_iff_drop_eq raw 16 eh.words (by simp [words])
    (by rw [hraw, eh.byteLength_words])
  rw [hdecode, hdrop, encode]
  constructor
  · rintro ⟨hident, hwords⟩
    refine ⟨by simp [← hident, hraw], ?_⟩
    rw [← hident, ← hwords, List.take_append_drop]
  · rintro ⟨hident, rfl⟩
    exact ⟨List.take_left' hident, List.drop_left' hident⟩

/-- Decoding a program header compares its bytes. -/
lemma Elf64_Phdr.decode_eq_iff {raw : List Byte} (hraw : raw.length = 56) (ph : Elf64_Phdr) :
    decode raw = ph ↔ raw = ph.encode := by
  have hdecode : decode raw = ph ↔ Reads raw 0 ph.words := by
    cases ph
    simp [decode, words, Reads, field_eq_wordAt]
  rw [hdecode, reads_iff_drop_eq (by simp [words]) (by rw [hraw, ← ph.length_encode, encode]; simp),
    List.drop_zero, encode]

/-- Decoding a section header compares its bytes. -/
lemma Elf64_Shdr.decode_eq_iff {raw : List Byte} (hraw : raw.length = 64) (sh : Elf64_Shdr) :
    decode raw = sh ↔ raw = sh.encode := by
  have hdecode : decode raw = sh ↔ Reads raw 0 sh.words := by
    cases sh
    simp [decode, words, Reads, field_eq_wordAt]
  rw [hdecode, reads_iff_drop_eq (by simp [words]) (by rw [hraw, ← sh.length_encode, encode]; simp),
    List.drop_zero, encode]

namespace ElfReader

variable {bytes : List Byte} {eh : Elf64_Ehdr} {phdrs : List Elf64_Phdr} {shdrs : List Elf64_Shdr}

/-! ## Tables -/

/-- A range of the content, by its bytes. -/
lemma slice_eq_iff {offset n : ℕ} {piece : List Byte} (hpiece : piece.length = n) :
    slice bytes offset n = piece ↔ piece <+: bytes.drop offset := by
  rw [List.prefix_iff_eq_take, hpiece, eq_comm, slice]

/-- What stands in the content ends there. -/
lemma le_of_prefix_drop {offset : ℕ} {piece : List Byte} (h : piece <+: bytes.drop offset)
    (hpiece : piece ≠ []) : offset + piece.length ≤ bytes.length := by
  have hlength := h.length_le
  have hpos := List.length_pos_iff.mpr hpiece
  rw [List.length_drop] at hlength
  omega

section Tables

variable {α : Type} {decode : List Byte → α} {encode : α → List Byte} {size offset n : ℕ}
  {entries : List α}

/-- The entries of a table stand in the content, one behind the other. -/
def Stand (encode : α → List Byte) (size : ℕ) (bytes : List Byte) (offset : ℕ) (entries : List α) :
    Prop :=
  ∀ i e, entries[i]? = some e → encode e <+: bytes.drop (offset + size * i)

/-- They lie in the content. -/
lemma Stand.le (h : Stand encode size bytes offset entries) (hsize : ∀ e, (encode e).length = size)
    (hpos : 0 < size) {i : ℕ} (hi : i < entries.length) :
      offset + size * (i + 1) ≤ bytes.length := by
  have hentry := h i _ (List.getElem?_eq_getElem hi)
  have hle := le_of_prefix_drop hentry (List.ne_nil_of_length_pos (by rwa [hsize]))
  rw [hsize] at hle
  rw [Nat.mul_succ]
  omega

/-- Decoding a table is finding its entries. -/
lemma table_eq_iff (hcodec : ∀ {raw}, raw.length = size → ∀ e, decode raw = e ↔ raw = encode e)
    (hsize : ∀ e, (encode e).length = size)
      (hfits : ∀ i < n, offset + size * (i + 1) ≤ bytes.length) :
    (List.range n).map (fun i => decode (slice bytes (offset + size * i) size)) = entries ↔
      entries.length = n ∧ Stand encode size bytes offset entries := by
  have hentry : ∀ i < n, ∀ e, decode (slice bytes (offset + size * i) size) = e ↔
      encode e <+: bytes.drop (offset + size * i) := by
    intro i hi e
    have hle := hfits i hi
    rw [Nat.mul_succ] at hle
    have hraw : (slice bytes (offset + size * i) size).length = size := by
      rw [slice, List.length_take, List.length_drop]
      omega
    rw [hcodec hraw, slice_eq_iff (hsize e)]
  constructor
  · rintro rfl
    refine ⟨by simp, fun i e he => ?_⟩
    rw [List.getElem?_map, Option.map_eq_some_iff] at he
    obtain ⟨j, hj, rfl⟩ := he
    obtain ⟨hi, rfl⟩ := List.getElem?_eq_some_iff.mp hj
    rw [List.length_range] at hi
    rw [List.getElem_range]
    exact (hentry i hi _).mp rfl
  · rintro ⟨rfl, hstand⟩
    refine List.ext_getElem (by simp) fun i _ hi => ?_
    rw [List.getElem_map, List.getElem_range]
    exact (hentry i hi _).mpr (hstand i _ (List.getElem?_eq_getElem hi))

/-- The initial piece of a range on which a predicate holds. -/
lemma exists_takeWhile_range (p : ℕ → Bool) (n : ℕ) :
    ∃ k ≤ n, (List.range n).takeWhile p = List.range k ∧
    (∀ i < k, p i = true) ∧ (k < n → p k = false) := by
  induction n with
  | zero => exact ⟨0, le_rfl, rfl, by simp, by simp⟩
  | succ n ih =>
    obtain ⟨k, hk, htake, hall, hstop⟩ := ih
    rw [List.range_succ, List.takeWhile_append, htake, List.length_range, List.length_range]
    rcases hk.lt_or_eq with hlt | rfl
    · exact ⟨k, by omega, by rw [if_neg hlt.ne], hall, fun _ => hstop hlt⟩
    · rw [if_pos rfl]
      cases hp : p k with
      | true =>
        refine ⟨k + 1, le_rfl, by simp [hp, List.range_succ], fun i hi => ?_, by omega⟩
        rcases Nat.lt_succ_iff_lt_or_eq.mp hi with hi | rfl
        · exact hall i hi
        · exact hp
      | false => exact ⟨k, by omega, by simp [hp], hall, fun _ => hp⟩

end Tables

/-! ## Files -/

/-- The file header says where a table of section headers is. -/
def AnnouncesSections (eh : Elf64_Ehdr) : Prop :=
  eh.e_shoff ≠ 0 ∧ eh.e_shnum ≠ 0 ∧ eh.e_shentsize.toNat = 64

/-- The section headers are the entries of the announced table, as far as the content goes.  The
first one would end below `2 ^ 64`. -/
structure SectionTable (bytes : List Byte) (eh : Elf64_Ehdr) (shdrs : List Elf64_Shdr) : Prop where
  noWrap : eh.e_shoff.toNat + 64 < 2 ^ 64
  length_le : shdrs.length ≤ eh.e_shnum.toNat
  entries : Stand Elf64_Shdr.encode 64 bytes eh.e_shoff.toNat shdrs
  cut : shdrs.length < eh.e_shnum.toNat → bytes.length < eh.e_shoff.toNat + 64 * (shdrs.length + 1)

/-- The file header is that of a little-endian ELF file for x86-64, an executable or a shared
object. -/
structure Accepted (eh : Elf64_Ehdr) : Prop where
  ident : eh.e_ident.length = 16
  magic : eh.e_ident.take 4 = ELFMAG
  elf64 : eh.e_ident.getD EI_CLASS 0 = ELFCLASS64
  littleEndian : eh.e_ident.getD EI_DATA 0 = ELFDATA2LSB
  machine : eh.e_machine = EM_X86_64
  kind : eh.e_type = ET_EXEC ∨ eh.e_type = ET_DYN

/-- The content is that of such a file, and these are its headers. -/
structure Describes (bytes : List Byte) (eh : Elf64_Ehdr) (phdrs : List Elf64_Phdr)
    (shdrs : List Elf64_Shdr) : Prop extends Accepted eh where
  header : eh.encode <+: bytes
  phnum : phdrs.length = eh.e_phnum.toNat
  phentsize : phdrs ≠ [] → eh.e_phentsize.toNat = 56
  programHeaders : Stand Elf64_Phdr.encode 56 bytes eh.e_phoff.toNat phdrs
  sectionHeaders : AnnouncesSections eh → SectionTable bytes eh shdrs
  noSections : ¬ AnnouncesSections eh → shdrs = []

/-- The file header of a content. -/
lemma header_eq_iff (hlength : 64 ≤ bytes.length) :
    header bytes = eh ↔ eh.e_ident.length = 16 ∧ eh.encode <+: bytes := by
  rw [header, Elf64_Ehdr.decode_eq_iff (by simp [slice, hlength])]
  refine and_congr_right fun hident => ?_
  rw [slice_eq_iff (Elf64_Ehdr.length_encode hident), List.drop_zero]

/-- The program headers of a content. -/
lemma programHeaders_eq_iff (hfits : ∀ i < (header bytes).e_phnum.toNat,
    (header bytes).e_phoff.toNat + 56 * (i + 1) ≤ bytes.length) :
    programHeaders bytes = phdrs ↔ phdrs.length = (header bytes).e_phnum.toNat ∧
      Stand Elf64_Phdr.encode 56 bytes (header bytes).e_phoff.toNat phdrs :=
  table_eq_iff Elf64_Phdr.decode_eq_iff Elf64_Phdr.length_encode hfits

/-- A table that is announced ends its first entry below `2 ^ 64`, or it wraps. -/
lemma not_sectionTableWraps_iff : ¬ SectionTableWraps bytes ↔
    (AnnouncesSections (header bytes) → (header bytes).e_shoff.toNat + 64 < 2 ^ 64) := by
  unfold SectionTableWraps AnnouncesSections
  constructor
  · rintro h ⟨-, hnum, hent⟩
    by_contra hwrap
    exact h ⟨hnum, hent, by omega⟩
  · rintro h ⟨hnum, hent, hwrap⟩
    have hoff : (header bytes).e_shoff ≠ 0 := by
      intro hzero
      rw [hzero] at hwrap
      exact absurd hwrap (by decide)
    have := h ⟨hoff, hnum, hent⟩
    omega

/-- The section headers of a content whose table does not wrap. -/
lemma sectionHeaders_eq_iff (hwrap : ¬ SectionTableWraps bytes) : sectionHeaders bytes = shdrs ↔
    (AnnouncesSections (header bytes) → SectionTable bytes (header bytes) shdrs) ∧
      (¬ AnnouncesSections (header bytes) → shdrs = []) := by
  rw [not_sectionTableWraps_iff] at hwrap
  unfold sectionHeaders
  generalize header bytes = eh at hwrap ⊢
  by_cases hannounced : AnnouncesSections eh
  · rw [if_neg (by unfold AnnouncesSections at hannounced; tauto)]
    obtain ⟨k, hk, htake, hall, hstop⟩ := exists_takeWhile_range
      (fun i => decide (eh.e_shoff.toNat + 64 * (i + 1) ≤ bytes.length)) eh.e_shnum.toNat
    simp only [decide_eq_true_eq, decide_eq_false_iff_not, Nat.not_le] at hall hstop
    rw [htake, table_eq_iff Elf64_Shdr.decode_eq_iff Elf64_Shdr.length_encode hall]
    simp only [hannounced, forall_const, not_true_eq_false, false_implies, and_true]
    constructor
    · rintro ⟨rfl, hstand⟩
      exact ⟨hwrap hannounced, hk, hstand, hstop⟩
    · rintro ⟨-, hle, hstand, hcut⟩
      refine ⟨?_, hstand⟩
      -- both counts are where the content ends
      rcases lt_trichotomy shdrs.length k with hlt | heq | hlt
      · have hcut' := hcut (by omega)
        have hfits := hall _ hlt
        omega
      · exact heq
      · have hstop' := hstop (by omega)
        have hfits := hstand.le Elf64_Shdr.length_encode (by decide) hlt
        omega
  · rw [if_pos (by unfold AnnouncesSections at hannounced; tauto)]
    simp [hannounced, eq_comm]

/-- What the headers of an accepted content describe. -/
lemma describes_of_loadable (hload : Loadable bytes) (hwrap : ¬ SectionTableWraps bytes) :
    Describes bytes (header bytes) (programHeaders bytes) (sectionHeaders bytes) := by
  obtain ⟨hident, hheader⟩ := (header_eq_iff hload.length).mp rfl
  have hfits : ∀ i < (header bytes).e_phnum.toNat,
      (header bytes).e_phoff.toNat + 56 * (i + 1) ≤ bytes.length := fun i hi =>
    (hload.programHeaders (by rintro h; simp [h] at hi)).2 i hi
  obtain ⟨hphnum, hphdrs⟩ := (programHeaders_eq_iff hfits).mp rfl
  obtain ⟨hshdrs, hnone⟩ := (sectionHeaders_eq_iff hwrap).mp rfl
  refine ⟨⟨hident, hload.magic, hload.elf64, hload.littleEndian, hload.machine,
    hload.kind⟩, hheader,
    hphnum, fun hne => (hload.programHeaders fun h => hne ?_).1, hphdrs, hshdrs, hnone⟩
  exact List.eq_nil_of_length_eq_zero (by rw [hphnum, h]; rfl)

/-- A content that describes headers is accepted, and these are its headers. -/
lemma loadable_of_describes (h : Describes bytes eh phdrs shdrs) :
    Loadable bytes ∧ ¬ SectionTableWraps bytes ∧ header bytes = eh ∧ programHeaders bytes = phdrs ∧
      sectionHeaders bytes = shdrs := by
  have hlength : 64 ≤ bytes.length := by
    rw [← Elf64_Ehdr.length_encode h.ident]
    exact h.header.length_le
  have hheader : header bytes = eh := (header_eq_iff hlength).mpr ⟨h.ident, h.header⟩
  have hfits : ∀ i < eh.e_phnum.toNat, eh.e_phoff.toNat + 56 * (i + 1) ≤ bytes.length := fun i hi =>
    h.programHeaders.le Elf64_Phdr.length_encode (by decide) (by rwa [h.phnum])
  have hwrap : ¬ SectionTableWraps bytes :=
    not_sectionTableWraps_iff.mpr (hheader ▸ fun hannounced => (h.sectionHeaders hannounced).noWrap)
  have hphdrs : programHeaders bytes = phdrs :=
    (programHeaders_eq_iff (hheader ▸ hfits)).mpr (hheader ▸ ⟨h.phnum, h.programHeaders⟩)
  have hshdrs : sectionHeaders bytes = shdrs :=
    (sectionHeaders_eq_iff hwrap).mpr (hheader ▸ ⟨h.sectionHeaders, h.noSections⟩)
  refine ⟨⟨hlength, ?_, ?_, ?_, ?_, ?_, fun hnum => ?_⟩, hwrap, hheader, hphdrs, hshdrs⟩
  · exact hheader ▸ h.magic
  · exact hheader ▸ h.elf64
  · exact hheader ▸ h.littleEndian
  · exact hheader ▸ h.machine
  · exact hheader ▸ h.kind
  · rw [hheader] at hnum ⊢
    refine ⟨h.phentsize fun hnil => hnum ?_, hfits⟩
    exact BitVec.eq_of_toNat_eq (by rw [← h.phnum, hnil]; rfl)

/-- The reader returns a file exactly if the content describes it: it accepts no other contents, and
loses and invents nothing. -/
theorem run_readElfFile_eq_ok_iff_describes {path : StdString} {c : FileContent} {file : ElfFile}
    {s : World × List ElfEvent} : (∃ t, (readElfFile path (.content c)).run s = .ok file t) ↔
      file.path = path ∧ file.bytes = c.bytes ∧
        Describes c.bytes file.ehdr file.phdrs file.shdrs := by
  rw [run_readElfFile_eq_ok_iff]
  constructor
  · rintro ⟨hload, hwrap, rfl⟩
    exact ⟨rfl, rfl, describes_of_loadable hload hwrap⟩
  · rintro ⟨hpath, hbytes, h⟩
    obtain ⟨hload, hwrap, hheader, hphdrs, hshdrs⟩ := loadable_of_describes h
    exact ⟨hload, hwrap, by rw [hheader, hphdrs, hshdrs, ← hpath, ← hbytes]⟩

/-! ## Round trip -/

/-- The entries of a table that stands in the content as a whole. -/
lemma stand_of_flatMap {α : Type} {encode : α → List Byte} {size offset : ℕ} {entries : List α}
    (hsize : ∀ e, (encode e).length = size) (h : entries.flatMap encode <+: bytes.drop offset) :
    Stand encode size bytes offset entries := by
  induction entries generalizing offset with
  | nil =>
    intro i e he
    cases he
  | cons entry entries ih =>
    rw [List.flatMap_cons] at h
    obtain ⟨rest, hrest⟩ := h
    rw [List.append_assoc] at hrest
    have hbehind : entries.flatMap encode <+: bytes.drop (offset + size) := by
      rw [← List.drop_drop, ← hrest, List.drop_left' (hsize entry)]
      exact List.prefix_append _ _
    intro i e he
    cases i with
    | zero =>
      obtain rfl := Option.some_inj.mp he
      rw [Nat.mul_zero, Nat.add_zero, ← hrest]
      exact List.prefix_append _ _
    | succ i =>
      have hstand := ih hbehind i e he
      rwa [Nat.add_assoc, Nat.add_comm size, ← Nat.mul_succ] at hstand

/-- The headers and the tables that are not empty, each with its offset. -/
def filePieces (eh : Elf64_Ehdr) (phdrs : List Elf64_Phdr) (shdrs : List Elf64_Shdr) :
    List (ℕ × List Byte) :=
  [(0, eh.encode), (eh.e_phoff.toNat, phdrs.flatMap Elf64_Phdr.encode),
    (eh.e_shoff.toNat, shdrs.flatMap Elf64_Shdr.encode)].filter fun p => !p.2.isEmpty

/-- A file of `n` bytes with these headers at their places, and zeros elsewhere. -/
def layOut (eh : Elf64_Ehdr) (phdrs : List Elf64_Phdr) (shdrs : List Elf64_Shdr) (n : ℕ) :
    List Byte :=
  (filePieces eh phdrs shdrs).foldl overlay (List.replicate n 0)

/-- The headers are those of an ELF file of `n` bytes: the file header announces the tables, and
they lie in the file, apart from it and from each other. -/
structure Consistent (eh : Elf64_Ehdr) (phdrs : List Elf64_Phdr) (shdrs : List Elf64_Shdr) (n : ℕ) :
    Prop extends Accepted eh where
  phnum : phdrs.length = eh.e_phnum.toNat
  phentsize : phdrs ≠ [] → eh.e_phentsize.toNat = 56
  shnum : AnnouncesSections eh → shdrs.length = eh.e_shnum.toNat
  noSections : ¬ AnnouncesSections eh → shdrs = []
  inside : ∀ p ∈ filePieces eh phdrs shdrs, p.1 + p.2.length ≤ n
  apart : (filePieces eh phdrs shdrs).Pairwise Apart

/-- A file that is laid out has its length. -/
lemma Consistent.length_layOut {n : ℕ} (h : Consistent eh phdrs shdrs n) :
    (layOut eh phdrs shdrs n).length = n := by
  have hlength := (@prefix_drop_overlays _ (List.replicate n 0) _ h.apart
    (by simpa using h.inside)).1
  rwa [List.length_replicate] at hlength

/-- A piece that is empty or was put there stands in the file. -/
lemma Consistent.prefix_drop {n : ℕ} (h : Consistent eh phdrs shdrs n) (p : ℕ × List Byte)
    (hp : p ∈ [(0, eh.encode), (eh.e_phoff.toNat, phdrs.flatMap Elf64_Phdr.encode),
      (eh.e_shoff.toNat, shdrs.flatMap Elf64_Shdr.encode)]) :
    p.2 <+: (layOut eh phdrs shdrs n).drop p.1 := by
  have hstand := (@prefix_drop_overlays _ (List.replicate n 0) _ h.apart
    (by simpa using h.inside)).2
  by_cases hempty : p.2 = []
  · rw [hempty]
    exact List.nil_prefix
  · exact hstand p (List.mem_filter.mpr ⟨hp, by simpa using hempty⟩)

/-- Such a file describes its headers. -/
lemma Consistent.describes {n : ℕ} (h : Consistent eh phdrs shdrs n) (hn : n < 2 ^ 63) :
    Describes (layOut eh phdrs shdrs n) eh phdrs shdrs where
  toAccepted := h.toAccepted
  header := by simpa using h.prefix_drop (0, eh.encode) List.mem_cons_self
  phnum := h.phnum
  phentsize := h.phentsize
  programHeaders := stand_of_flatMap Elf64_Phdr.length_encode
    (h.prefix_drop (eh.e_phoff.toNat, phdrs.flatMap Elf64_Phdr.encode) (by simp))
  sectionHeaders hannounced := by
    have hstand : Stand Elf64_Shdr.encode 64 (layOut eh phdrs shdrs n) eh.e_shoff.toNat shdrs :=
      stand_of_flatMap Elf64_Shdr.length_encode
        (h.prefix_drop (eh.e_shoff.toNat, shdrs.flatMap Elf64_Shdr.encode) (by simp))
    have hcount := h.shnum hannounced
    have hpos : 0 < shdrs.length := by
      rw [hcount]
      exact Nat.pos_of_ne_zero fun hzero => hannounced.2.1 (BitVec.eq_of_toNat_eq hzero)
    have hfirst := hstand.le Elf64_Shdr.length_encode (by decide) hpos
    rw [h.length_layOut] at hfirst
    exact ⟨by omega, hcount.le, hstand, fun hlt => absurd hcount hlt.ne⟩
  noSections := h.noSections

/-- Headers that are laid out in a file are read back from it. -/
theorem run_readElfFile_layOut {n : ℕ} (h : Consistent eh phdrs shdrs n) {path : StdString}
    {c : FileContent} (hc : c.bytes = layOut eh phdrs shdrs n) (s : World × List ElfEvent) :
    ∃ t, (readElfFile path (.content c)).run s = .ok ⟨path, c.bytes, eh, phdrs, shdrs⟩ t := by
  have hn : n < 2 ^ 63 := by
    rw [← h.length_layOut, ← hc]
    exact c.length_lt
  have hdescribes : Describes c.bytes eh phdrs shdrs := hc ▸ h.describes hn
  obtain ⟨hload, hwrap, hheader, hphdrs, hshdrs⟩ := loadable_of_describes hdescribes
  exact run_readElfFile_eq_ok_iff.mpr ⟨hload, hwrap, by rw [hheader, hphdrs, hshdrs]⟩

/-- The header of an executable with one program header behind it, and one section header. -/
def smallEhdr : Elf64_Ehdr where
  e_ident := ELFMAG ++ [ELFCLASS64, ELFDATA2LSB] ++ List.replicate 10 0
  e_type := ET_EXEC
  e_machine := EM_X86_64
  e_entry := 0x401000
  e_phoff := 64
  e_phentsize := 56
  e_phnum := 1
  e_shoff := 0x100
  e_shentsize := 64
  e_shnum := 1

/-- Its segment. -/
def smallPhdr : Elf64_Phdr where
  p_type := PT_LOAD
  p_flags := PF_R
  p_offset := 0
  p_vaddr := 0x400000
  p_filesz := 0x140
  p_memsz := 0x140

/-- Its section. -/
def smallShdr : Elf64_Shdr where
  sh_name := 1
  sh_type := 1
  sh_flags := 2
  sh_addr := 0x400000
  sh_offset := 0
  sh_size := 0x140
  sh_link := 0
  sh_info := 0
  sh_addralign := 1
  sh_entsize := 0

/-- The pieces of the file lie at 0, at 64 and at 256. -/
lemma filePieces_small : filePieces smallEhdr [smallPhdr] [smallShdr] =
    [(0, smallEhdr.encode), (64, smallPhdr.encode), (256, smallShdr.encode)] := by
  have hehdr : smallEhdr.encode ≠ [] :=
    List.ne_nil_of_length_pos (by rw [Elf64_Ehdr.length_encode rfl]; decide)
  have hphdr : smallPhdr.encode ≠ [] :=
    List.ne_nil_of_length_pos (by rw [Elf64_Phdr.length_encode]; decide)
  have hshdr : smallShdr.encode ≠ [] :=
    List.ne_nil_of_length_pos (by rw [Elf64_Shdr.length_encode]; decide)
  simp only [filePieces, List.flatMap_cons, List.flatMap_nil, List.append_nil]
  rw [List.filter_eq_self.mpr (by simp [hehdr, hphdr, hshdr])]
  rfl

/-- The headers fit into 320 bytes. -/
lemma consistent_small : Consistent smallEhdr [smallPhdr] [smallShdr] 320 where
  ident := rfl
  magic := rfl
  elf64 := rfl
  littleEndian := rfl
  machine := rfl
  kind := Or.inl rfl
  phnum := rfl
  phentsize _ := rfl
  shnum _ := rfl
  noSections h := absurd ⟨by decide, by decide, rfl⟩ h
  inside := by
    have hehdr : smallEhdr.encode.length = 64 := Elf64_Ehdr.length_encode rfl
    simp [filePieces_small, hehdr, Elf64_Phdr.length_encode, Elf64_Shdr.length_encode]
  apart := by
    have hehdr : smallEhdr.encode.length = 64 := Elf64_Ehdr.length_encode rfl
    simp [filePieces_small, Apart, hehdr, Elf64_Phdr.length_encode]

/-- And are read back from a file of that size. -/
theorem run_readElfFile_layOut_small :
    ∃ (c : FileContent) (t : World × List ElfEvent), c.bytes.length = 320 ∧
      (readElfFile [] (.content c)).run (⟨⟨0, 0, 0, 0, 0, []⟩, ⟨fun _ => 0, fun _ => none⟩⟩, []) =
        .ok ⟨[], c.bytes, smallEhdr, [smallPhdr], [smallShdr]⟩ t := by
  have hlength := consistent_small.length_layOut
  obtain ⟨t, hrun⟩ := @run_readElfFile_layOut smallEhdr [smallPhdr]
    [smallShdr] 320 consistent_small []
    ⟨layOut smallEhdr [smallPhdr] [smallShdr] 320, by rw [hlength]; decide⟩ rfl
    (⟨⟨0, 0, 0, 0, 0, []⟩, ⟨fun _ => 0, fun _ => none⟩⟩, [])
  exact ⟨_, t, hlength, hrun⟩

end ElfReader

end InstaX
