import InstaX.Runtime.GuestBytes
import InstaX.Runtime.LoaderWrites

/-!
# What a run of the relocation pass does

The pass asks `isMapped` before each of its reads and writes, and `read` and `write` ask again, for
the range and for its first byte.  The second question fails where the first one succeeds exactly
for a range that starts at or before the first byte of the last page and ends behind it
(`accessible_iff`).

The dynamic table is a list of entries that starts at an address and ends with `DT_NULL` or unmapped
memory (`DynamicTable`), and the walk collects it (`run_walkDynamic`).  A relocation table is what
its loop comes to, each entry as the memory holds it when its turn comes (`entriesFrom`); the loop
returns exactly if every access passes, and leaves the memory with one entry after another relocated
(`run_processEntries_iff`).
-/

namespace InstaX

open Throwing Tracing Rounding ByteStore

namespace GuestMemory

variable {m : GuestMemory} {w w' : World} {a n p : U64}

/-! ## Accesses that are checked before -/

/-- The regions start and end at page boundaries. -/
def PageAligned (m : GuestMemory) : Prop :=
  ∀ r ∈ m.regions, 4096 ∣ r.guestAddr.toNat ∧ 4096 ∣ r.length.toNat

/-- The range starts at or before the first byte of the last page and ends behind it. -/
def Straddles (a n : U64) : Prop :=
  a.toNat ≤ 2 ^ 64 - 4096 ∧ 2 ^ 64 - 4096 < a.toNat + n.toNat - 1

instance (a n : U64) : Decidable (Straddles a n) := inferInstanceAs (Decidable (_ ∧ _))

/-- No lookup succeeds in the last page. -/
lemma findRegion_last_page (hm : m.PageAligned) (hp : 2 ^ 64 - 4096 ≤ p.toNat) :
    m.findRegion p = none := by
  rw [findRegion, List.find?_eq_none]
  intro r hr
  obtain ⟨hstart, hlength⟩ := hm r hr
  have hend : 4096 ∣ (r.guestAddr + r.length).toNat := by
    rw [BitVec.toNat_add]
    exact (Nat.dvd_mod_iff (by decide)).mpr (Nat.dvd_add hstart hlength)
  have hlt := (r.guestAddr + r.length).isLt
  rw [decide_eq_true_eq, BitVec.le_def, BitVec.lt_def]
  omega

/-- A range that does not end behind the first byte of the last page: if it passes, so does its
first byte. -/
lemma isMapped_one_of_le (hn : 0 < n.toNat) (hlast : a.toNat + n.toNat - 1 ≤ 2 ^ 64 - 4096)
    (h : m.isMapped a n = true) : m.isMapped a 1 = true := by
  have hone : (1 : U64).toNat = 1 := rfl
  have hsum : (a + n - 1).toNat = a.toNat + n.toNat - 1 := by
    rw [toNat_last hn, Nat.mod_eq_of_lt (by omega)]
  have hup := toNat_guestPageAlignUp (a := a + n - 1) (by omega)
  have hself := toNat_guestPageAlignUp (a := a) (by omega)
  rw [isMapped_iff_findRegion hn] at h
  rw [isMapped_iff_findRegion (by omega), add_sub_cancel_right]
  intro p hp hap hle
  exact h p hp hap (by omega)

/-- The bytes of the last page behind its first one pass. -/
lemma isMapped_one_of_last_page (ha : 2 ^ 64 - 4096 < a.toNat) : m.isMapped a 1 = true := by
  have hone : (1 : U64).toNat = 1 := rfl
  have hzero : (0 : U64).toNat = 0 := rfl
  rw [isMapped_iff_findRegion (by omega), add_sub_cancel_right, guestPageAlignUp_eq_zero ha]
  intro p hp hap hle
  omega

/-- The first byte of a short range that straddles does not pass. -/
lemma not_isMapped_one_of_straddles (hm : m.PageAligned) (hshort : n.toNat ≤ 4096)
    (hstraddles : Straddles a n) : ¬ m.isMapped a 1 = true := by
  obtain ⟨hle, hlt⟩ := hstraddles
  have hone : (1 : U64).toNat = 1 := rfl
  have hlast : (BitVec.ofNat 64 (2 ^ 64 - 4096)).toNat = 2 ^ 64 - 4096 := by decide
  have hup := toNat_guestPageAlignUp (a := a) hle
  rw [isMapped_iff_findRegion (by omega), add_sub_cancel_right]
  intro h
  have hfound := h (BitVec.ofNat 64 (2 ^ 64 - 4096)) (by omega) (by omega) (by omega)
  rw [findRegion_last_page hm (by omega)] at hfound
  cases hfound

/-- A short range that passes is accessible unless it straddles. -/
lemma accessible_iff (hm : m.PageAligned) (hn : 0 < n.toNat) (hshort : n.toNat ≤ 4096)
    (hmapped : m.isMapped a n = true) : m.Accessible a n ↔ ¬ Straddles a n := by
  have hne : n ≠ 0 := by
    rintro rfl
    exact absurd hn (by decide)
  constructor
  · intro haccess hstraddles
    exact not_isMapped_one_of_straddles hm hshort hstraddles (haccess hne).2
  · intro hnot _
    refine ⟨hmapped, ?_⟩
    unfold Straddles at hnot
    rcases lt_or_ge (2 ^ 64 - 4096) a.toNat with hgt | hle
    · exact isMapped_one_of_last_page hgt
    · exact isMapped_one_of_le hn (by omega) hmapped

/-- A short range that straddles passes. -/
lemma isMapped_of_straddles (hn : 0 < n.toNat) (hshort : n.toNat ≤ 4096)
    (hstraddles : Straddles a n) :
    m.isMapped a n = true := by
  obtain ⟨hle, hlt⟩ := hstraddles
  have hzero : (0 : U64).toNat = 0 := rfl
  have hsum : (a + n - 1).toNat = a.toNat + n.toNat - 1 := by
    rw [toNat_last hn, Nat.mod_eq_of_lt (by omega)]
  rw [isMapped_iff_findRegion hn, guestPageAlignUp_eq_zero (by omega)]
  intro p hp hap hpz
  omega

/-- Where the guest's bytes are read from. -/
def bytesFrom (f : U64 → Byte) (a : U64) (n : ℕ) : List Byte :=
  (List.range n).map fun i => f (a + BitVec.ofNat 64 i)

/-- The bytes of a range depend on that range. -/
lemma bytesFrom_congr {f g : U64 → Byte} {n : ℕ} (h : ∀ x ∈ span a n, f x = g x)
    (hn : n ≤ 2 ^ 64) : bytesFrom f a n = bytesFrom g a n := by
  refine List.map_congr_left fun i hi => h _ ?_
  exact (mem_span_iff_exists hn).mpr ⟨i, List.mem_range.mp hi, rfl⟩

/-- A read of an accessible range gives its bytes. -/
lemma run_read_of_accessible (h : w.mem.Accessible a n) :
    (read a n).run w = .ok (bytesFrom w.bytes a n.toNat) w := by
  refine run_read_eq_ok_iff.mpr ⟨h, ?_, rfl⟩
  refine List.map_congr_left fun i _ => ?_
  rw [World.bytes, add_right_comm]

/-- A read of another range throws. -/
lemma run_read_of_not_accessible (h : ¬ w.mem.Accessible a n) :
    ∃ e, (read a n).run w = .error e w := by
  cases hrun : (read a n).run w with
  | ok bytes w' => exact absurd (run_read_eq_ok_iff.mp hrun).1 h
  | error e w' => exact ⟨e, by rw [eq_of_read_throws hrun]⟩

/-- A write to an accessible range stores the bytes. -/
lemma run_write_of_accessible (src : ℕ → Byte) (h : w.mem.Accessible a n) :
    ∃ w', (write a src n).run w = .ok ⟨⟩ w' ∧ w'.mem = w.mem ∧
      w'.bytes = store w.bytes a n.toNat src :=
  ⟨_, run_write_eq_ok_iff.mpr ⟨h, rfl⟩, rfl, bytes_memcpy w a n src⟩

end GuestMemory

namespace Relocation

open GuestMemory

variable {m : GuestMemory} {loadBias tableAddr relaEnt : U64} {which : String} {f g : U64 → Byte}
  {s t : World × List RelocEvent} {report : RelocReport}

/-! ## The dynamic table -/

/-- The entry of the dynamic table at an address. -/
def dynAt (f : U64 → Byte) (addr : U64) : Elf64_Dyn := .decode (bytesFrom f addr 16)

/-- The entries of the dynamic table from an address on, up to `DT_NULL` or the end of the mapped
memory. -/
def DynamicTable (m : GuestMemory) (f : U64 → Byte) (addr : U64) : List Elf64_Dyn → Prop
  | [] => m.isMapped addr sizeofDyn = true → (dynAt f addr).d_tag = DT_NULL
  | dyn :: l => m.isMapped addr sizeofDyn = true ∧ dynAt f addr = dyn ∧ dyn.d_tag ≠ DT_NULL ∧
      DynamicTable m f (addr + sizeofDyn) l

/-- What the entries say. -/
def tableInfo (loadBias : U64) (entries : List Elf64_Dyn) : DynamicInfo :=
  entries.foldl (DynamicInfo.add loadBias) {}

/-- The state is looked at without a change. -/
lemma run_get (s : World × List RelocEvent) :
    (silent get : Traced RelocEvent World World).run s = .ok s.1 s := rfl

/-- The run of a read that is checked. -/
lemma run_recordedRead {a n : U64} (h : s.1.mem.Accessible a n) :
    (recordedRead a n).run s =
      .ok (bytesFrom s.1.bytes a n.toNat) (s.1, s.2 ++ [.read a n]) := by
  have hread : (silent (read a n) : Traced RelocEvent World (List Byte)).run s =
      .ok (bytesFrom s.1.bytes a n.toNat) s := by
    rw [run_silent, run_read_of_accessible h]
  rw [recordedRead, run_bind_of_ok hread, run_bind_of_ok (run_emit _ s)]
  rfl

/-- The run of a read that fails its check. -/
lemma run_recordedRead_throws {a n : U64} (h : ¬ s.1.mem.Accessible a n) :
    ∃ e, (recordedRead a n).run s = .error e s := by
  obtain ⟨e, he⟩ := run_read_of_not_accessible h
  have hread : (silent (read a n) : Traced RelocEvent World (List Byte)).run s = .error e s := by
    rw [run_silent, he]
  exact ⟨e, run_bind_of_error hread _⟩

/-- The addresses that the walk along the entries of a dynamic table reads: those of the entries,
and that of the null entry behind them. -/
def dynAddrs (m : GuestMemory) : U64 → List Elf64_Dyn → List U64
  | addr, [] => if m.isMapped addr sizeofDyn = true then [addr] else []
  | addr, _ :: l => addr :: dynAddrs m (addr + sizeofDyn) l

/-- The reads of the walk. -/
def dynReads (m : GuestMemory) (addr : U64) (entries : List Elf64_Dyn) : List RelocEvent :=
  (dynAddrs m addr entries).map fun a => .read a sizeofDyn

/-- The walk collects the entries of the table, if every entry that passes the check is
accessible. -/
lemma run_walkDynamic (loadBias : U64) (report : RelocReport) {entries : List Elf64_Dyn}
    {addr : U64}
    (htable : DynamicTable s.1.mem s.1.bytes addr entries)
    (hfirst : s.1.mem.isMapped addr sizeofDyn = true → s.1.mem.Accessible addr sizeofDyn)
    (hnext : ∀ a, s.1.mem.isMapped a sizeofDyn = true →
      s.1.mem.isMapped (a + sizeofDyn) sizeofDyn = true →
        s.1.mem.Accessible (a + sizeofDyn) sizeofDyn)
    {fuel : ℕ} (hfuel : entries.length < fuel) (info : DynamicInfo) :
    ∃ walked, (walkDynamic loadBias fuel addr info report).run s =
        .ok (some (entries.foldl (DynamicInfo.add loadBias) info, walked))
          (s.1, s.2 ++ dynReads s.1.mem addr entries) ∧
      (walked = report ∨
        walked = report.note "dynamic table runs off the end of mapped memory; stopping") := by
  obtain ⟨fuel, rfl⟩ : ∃ n, fuel = n + 1 := ⟨fuel - 1, by omega⟩
  obtain ⟨w, record⟩ := s
  induction entries generalizing addr fuel info record with
  | nil =>
    rw [walkDynamic, run_bind_of_ok (run_get _), dynReads, dynAddrs]
    split_ifs with hmapped
    · rw [run_bind_of_ok (run_recordedRead (hfirst hmapped))]
      dsimp only
      have hnull : (Elf64_Dyn.decode (bytesFrom w.bytes addr sizeofDyn.toNat)).d_tag = DT_NULL :=
        htable hmapped
      rw [if_pos hnull]
      exact ⟨report, rfl, Or.inl rfl⟩
    · rw [List.map_nil, List.append_nil]
      exact ⟨_, rfl, Or.inr rfl⟩
  | cons dyn l ih =>
    obtain ⟨hmapped, hdyn, htag, hrest⟩ := htable
    rw [walkDynamic, run_bind_of_ok (run_get _), if_pos hmapped,
      run_bind_of_ok (run_recordedRead (hfirst hmapped))]
    dsimp only
    have hdecode : Elf64_Dyn.decode (bytesFrom w.bytes addr sizeofDyn.toNat) = dyn := hdyn
    rw [hdecode, if_neg htag]
    obtain ⟨fuel, rfl⟩ : ∃ n, fuel = n + 1 := by
      rw [List.length_cons] at hfuel
      exact ⟨fuel - 1, by omega⟩
    have hshort : l.length < fuel + 1 := by
      rw [List.length_cons] at hfuel
      omega
    obtain ⟨walked, hrun, hwalked⟩ := ih (info.add loadBias dyn) fuel hshort
      (record ++ [.read addr sizeofDyn]) hrest (hnext addr hmapped) hnext
    rw [List.append_assoc] at hrun
    exact ⟨walked, hrun, hwalked⟩

/-! ## The names of the libraries -/

/-- A read of no bytes. -/
def IsEmptyRead (e : RelocEvent) : Prop := ∃ a, e = .read a 0

/-- The first character of a name is read as no bytes, so every name is empty. -/
lemma run_readName (addr : U64) (s : World × List RelocEvent) :
    ∃ reads, (readName addr 4096 0 []).run s = .ok [] (s.1, s.2 ++ reads) ∧
      ∀ e ∈ reads, IsEmptyRead e := by
  have haccess : s.1.mem.Accessible (addr + BitVec.ofNat 64 0) (BitVec.ofNat 64 0) :=
    fun hne => absurd rfl hne
  rw [readName, run_bind_of_ok (run_get s)]
  split_ifs
  · rw [run_bind_of_ok (run_recordedRead haccess)]
    exact ⟨_, rfl, List.forall_mem_singleton.mpr ⟨_, rfl⟩⟩
  · exact ⟨[], by rw [List.append_nil]; rfl, List.forall_mem_nil _⟩

/-- No library is found. -/
lemma run_addLibraries (strTabAddr : U64) (l : List U64) (report : RelocReport)
    (s : World × List RelocEvent) :
    ∃ reads, (addLibraries strTabAddr l report).run s = .ok report (s.1, s.2 ++ reads) ∧
      ∀ e ∈ reads, IsEmptyRead e := by
  unfold addLibraries
  split_ifs
  · exact ⟨[], by rw [List.append_nil]; rfl, List.forall_mem_nil _⟩
  · obtain ⟨w, record⟩ := s
    induction l generalizing record with
    | nil => exact ⟨[], by rw [List.append_nil]; rfl, List.forall_mem_nil _⟩
    | cons off l ih =>
      obtain ⟨reads, hname, hreads⟩ := run_readName (strTabAddr + off) (w, record)
      have hfirst : (addLibrary strTabAddr report off).run (w, record) =
          .ok report (w, record ++ reads) := by
        rw [addLibrary, run_bind_of_ok hname]
        rfl
      obtain ⟨rest, hrun, hrest⟩ := ih (record ++ reads)
      rw [List.foldlM_cons, run_bind_of_ok hfirst]
      refine ⟨reads ++ rest, ?_, List.forall_mem_append.mpr ⟨hreads, hrest⟩⟩
      rw [← List.append_assoc]
      exact hrun

/-! ## One entry of a relocation table -/

/-- The entry of a relocation table at an address. -/
def relaAt (f : U64 → Byte) (addr : U64) : Elf64_Rela := .decode (bytesFrom f addr 24)

/-- The entry passes the two tests in front of the write. -/
def IsApplied (m : GuestMemory) (loadBias : U64) (rela : Elf64_Rela) : Prop :=
  relocType rela.r_info = R_X86_64_RELATIVE ∧ m.isMapped (rela.target loadBias) 8 = true

instance (m : GuestMemory) (loadBias : U64) : DecidablePred (IsApplied m loadBias) :=
  fun _ => inferInstanceAs (Decidable (_ ∧ _))

/-- The guest's bytes after an entry. -/
def relocate (m : GuestMemory) (loadBias : U64) (f : U64 → Byte) (rela : Elf64_Rela) : U64 → Byte :=
  if IsApplied m loadBias rela then store f (rela.target loadBias) 8 (leByte (rela.value loadBias))
  else f

/-- The counters after an entry. -/
def tally (m : GuestMemory) (loadBias : U64) (report : RelocReport) (rela : Elf64_Rela) :
    RelocReport :=
  if IsApplied m loadBias rela then { report with relocApplied := report.relocApplied + 1 }
  else report.skip

/-- The entry's write, if there is one, passes its check. -/
def WriteFits (m : GuestMemory) (loadBias : U64) (rela : Elf64_Rela) : Prop :=
  IsApplied m loadBias rela → m.Accessible (rela.target loadBias) 8

/-- What an entry adds to the record. -/
def entryEvents (m : GuestMemory) (loadBias : U64) (rela : Elf64_Rela) : List RelocEvent :=
  .entry rela :: if IsApplied m loadBias rela then
    [.wrote (rela.target loadBias) (rela.value loadBias)] else []

/-- An entry whose write passes its check. -/
lemma run_processEntry (report : RelocReport) {rela : Elf64_Rela}
    (hfits : WriteFits s.1.mem loadBias rela) :
    ∃ t, (processEntry loadBias report rela).run s = .ok (tally s.1.mem loadBias report rela) t ∧
      t.1.mem = s.1.mem ∧ t.1.bytes = relocate s.1.mem loadBias s.1.bytes rela ∧
      t.2 = s.2 ++ entryEvents s.1.mem loadBias rela := by
  rw [processEntry, run_bind_of_ok (run_emit _ s)]
  unfold tally relocate entryEvents
  by_cases htype : relocType rela.r_info = R_X86_64_RELATIVE
  · rw [if_pos htype, run_bind_of_ok (run_get _)]
    dsimp only
    by_cases hmapped : s.1.mem.isMapped (rela.target loadBias) 8 = true
    · have happlied : IsApplied s.1.mem loadBias rela := ⟨htype, hmapped⟩
      obtain ⟨w', hwrite, hmem, hbytes⟩ := run_write_of_accessible
        (leByte (rela.value loadBias)) (hfits happlied)
      have hsilent : (silent (write (rela.target loadBias) (leByte (rela.value loadBias)) 8) :
          Traced RelocEvent World Unit).run (s.1, s.2 ++ [.entry rela]) =
            .ok ⟨⟩ (w', s.2 ++ [.entry rela]) := by
        rw [run_silent, hwrite]
      rw [if_pos hmapped, run_bind_of_ok hsilent, run_bind_of_ok (run_emit _ _), if_pos happlied,
        if_pos happlied, if_pos happlied]
      exact ⟨_, rfl, hmem, hbytes, List.append_assoc _ _ _⟩
    · have hnot : ¬ IsApplied s.1.mem loadBias rela := fun h => hmapped h.2
      rw [if_neg hmapped, if_neg hnot, if_neg hnot, if_neg hnot]
      exact ⟨_, rfl, rfl, rfl, rfl⟩
  · have hnot : ¬ IsApplied s.1.mem loadBias rela := fun h => htype h.1
    rw [if_neg htype, if_neg hnot, if_neg hnot, if_neg hnot]
    exact ⟨_, rfl, rfl, rfl, rfl⟩

/-- An entry whose write does not pass its check. -/
lemma run_processEntry_throws (report : RelocReport) {rela : Elf64_Rela}
    (hfits : ¬ WriteFits s.1.mem loadBias rela) :
    ∃ e t, (processEntry loadBias report rela).run s = .error e t := by
  unfold WriteFits at hfits
  push Not at hfits
  obtain ⟨happlied, hnot⟩ := hfits
  have hwrite : ∃ e w', (write (rela.target loadBias) (leByte (rela.value loadBias)) 8).run s.1 =
      .error e w' := by
    cases hrun : (write (rela.target loadBias) (leByte (rela.value loadBias)) 8).run s.1 with
    | ok x w' => exact absurd (run_write_eq_ok_iff.mp hrun).1 hnot
    | error e w' => exact ⟨e, w', rfl⟩
  obtain ⟨e, w', hwrite⟩ := hwrite
  have hsilent : (silent (write (rela.target loadBias) (leByte (rela.value loadBias)) 8) :
      Traced RelocEvent World Unit).run (s.1, s.2 ++ [.entry rela]) =
        .error e (w', s.2 ++ [.entry rela]) := by
    rw [run_silent, hwrite]
  rw [processEntry, run_bind_of_ok (run_emit _ s), if_pos happlied.1, run_bind_of_ok (run_get _)]
  dsimp only
  rw [if_pos happlied.2, run_bind_of_error hsilent]
  exact ⟨_, _, rfl⟩

/-! ## The loop over a relocation table -/

/-- The address of an entry. -/
def entryAddr (tableAddr relaEnt : U64) (i : ℕ) : U64 := tableAddr + BitVec.ofNat 64 i * relaEnt

/-- What the loop comes to with `n` entries left from the `i`th on: the address of every entry, and
the entry as the memory holds it when its turn comes.  It ends at the first entry that is not
mapped. -/
def entriesFrom (m : GuestMemory) (loadBias tableAddr relaEnt : U64) :
    ℕ → ℕ → (U64 → Byte) → List (U64 × Elf64_Rela)
  | 0, _, _ => []
  | n + 1, i, f =>
    let addr := entryAddr tableAddr relaEnt i
    if m.isMapped addr sizeofRela = true then
      (addr, relaAt f addr) ::
        entriesFrom m loadBias tableAddr relaEnt n (i + 1) (relocate m loadBias f (relaAt f addr))
    else []

/-- The guest's bytes after entries. -/
def relocateAll (m : GuestMemory) (loadBias : U64) (l : List (U64 × Elf64_Rela)) (f : U64 → Byte) :
    U64 → Byte :=
  l.foldl (fun f p => relocate m loadBias f p.2) f

/-- What an entry that the loop comes to adds to the record. -/
def tableEvents (m : GuestMemory) (loadBias : U64) (p : U64 × Elf64_Rela) : List RelocEvent :=
  .read p.1 sizeofRela :: entryEvents m loadBias p.2

/-- The accesses to an entry pass their checks. -/
def EntryFits (m : GuestMemory) (loadBias : U64) (p : U64 × Elf64_Rela) : Prop :=
  m.Accessible p.1 sizeofRela ∧ WriteFits m loadBias p.2

section Loop

variable {n i : ℕ}

/-- An entry that is mapped is processed before the rest. -/
lemma entriesFrom_of_mapped
    (hmapped : m.isMapped (entryAddr tableAddr relaEnt i) sizeofRela = true) :
    entriesFrom m loadBias tableAddr relaEnt (n + 1) i f =
      (entryAddr tableAddr relaEnt i, relaAt f (entryAddr tableAddr relaEnt i)) ::
        entriesFrom m loadBias tableAddr relaEnt n (i + 1)
          (relocate m loadBias f (relaAt f (entryAddr tableAddr relaEnt i))) := by
  rw [entriesFrom]
  exact if_pos hmapped

/-- The loop stops at an entry that is not mapped. -/
lemma entriesFrom_of_not_mapped
    (hmapped : ¬ m.isMapped (entryAddr tableAddr relaEnt i) sizeofRela = true) :
    entriesFrom m loadBias tableAddr relaEnt (n + 1) i f = [] := by
  rw [entriesFrom]
  exact if_neg hmapped

/-- The loop stops at an entry that is not mapped. -/
lemma run_processEntries_of_not_mapped
    (hmapped : ¬ s.1.mem.isMapped (entryAddr tableAddr relaEnt i) sizeofRela = true) :
    (processEntries loadBias tableAddr relaEnt which (n + 1) i report).run s =
      .ok (report.note (which ++ ": table extends past mapped memory")) s := by
  rw [entryAddr] at hmapped
  rw [processEntries, run_bind_of_ok (run_get s), if_neg hmapped]
  rfl

/-- The loop at an entry that can be read. -/
lemma run_processEntries_of_mapped
    (hmapped : s.1.mem.isMapped (entryAddr tableAddr relaEnt i) sizeofRela = true)
    (hread : s.1.mem.Accessible (entryAddr tableAddr relaEnt i) sizeofRela) :
    (processEntries loadBias tableAddr relaEnt which (n + 1) i report).run s =
      (processEntry loadBias report (relaAt s.1.bytes (entryAddr tableAddr relaEnt i)) >>=
        processEntries loadBias tableAddr relaEnt which n (i + 1)).run
          (s.1, s.2 ++ [.read (entryAddr tableAddr relaEnt i) sizeofRela]) := by
  have hload := run_recordedRead hread
  rw [entryAddr] at hmapped hload
  rw [processEntries, run_bind_of_ok (run_get s), if_pos hmapped, run_bind_of_ok hload]
  rfl

/-- The loop at an entry that is mapped and cannot be read. -/
lemma run_processEntries_throws
    (hmapped : s.1.mem.isMapped (entryAddr tableAddr relaEnt i) sizeofRela = true)
    (hread : ¬ s.1.mem.Accessible (entryAddr tableAddr relaEnt i) sizeofRela) :
    ∃ e, (processEntries loadBias tableAddr relaEnt which (n + 1) i report).run s = .error e s := by
  obtain ⟨e, hthrow⟩ := run_recordedRead_throws hread
  rw [entryAddr] at hmapped hthrow
  rw [processEntries, run_bind_of_ok (run_get s), if_pos hmapped, run_bind_of_error hthrow]
  exact ⟨e, rfl⟩

/-- The loop relocates one entry after another. -/
lemma run_processEntries (which : String) (report : RelocReport) (hm : s.1.mem = m)
    (hf : s.1.bytes = f)
    (hfits : ∀ p ∈ entriesFrom m loadBias tableAddr relaEnt n i f, EntryFits m loadBias p) :
    ∃ last t, (processEntries loadBias tableAddr relaEnt which n i report).run s = .ok last t ∧
      t.1.mem = m ∧
      t.1.bytes = relocateAll m loadBias (entriesFrom m loadBias tableAddr relaEnt n i f) f ∧
      t.2 = s.2 ++ (entriesFrom m loadBias tableAddr relaEnt n i f).flatMap
        (tableEvents m loadBias) ∧
      ((entriesFrom m loadBias tableAddr relaEnt n i f).length = n →
        last = (entriesFrom m loadBias tableAddr relaEnt n i f).foldl
          (fun report p => tally m loadBias report p.2) report) := by
  induction n generalizing i f s report with
  | zero => exact ⟨report, s, rfl, hm, hf, (List.append_nil _).symm, fun _ => rfl⟩
  | succ n ih =>
    by_cases hmapped : m.isMapped (entryAddr tableAddr relaEnt i) sizeofRela = true
    · rw [entriesFrom_of_mapped hmapped] at hfits ⊢
      obtain ⟨⟨hread, hwrite⟩, hrest⟩ := List.forall_mem_cons.mp hfits
      subst hm hf
      obtain ⟨t, hentry, htm, htf, hrecord⟩ := run_processEntry report hwrite
        (s := (s.1, s.2 ++ [.read (entryAddr tableAddr relaEnt i) sizeofRela]))
      obtain ⟨last, t', hrun, hmem, hbytes, hrecord', hlast⟩ := ih _ htm htf hrest
      refine ⟨last, t', ?_, hmem, hbytes, ?_, fun hlength => hlast (by simpa using hlength)⟩
      · rw [run_processEntries_of_mapped hmapped hread, run_bind_of_ok hentry]
        exact hrun
      · rw [hrecord', hrecord, List.flatMap_cons, tableEvents, List.append_assoc,
          List.append_assoc]
        rfl
    · rw [entriesFrom_of_not_mapped hmapped]
      rw [← hm] at hmapped
      exact ⟨_, s, run_processEntries_of_not_mapped hmapped, hm, hf, (List.append_nil _).symm,
        fun h => absurd h (by simp)⟩

/-- A loop that returns had accesses that pass. -/
lemma fits_of_run_processEntries {last : RelocReport} (hm : s.1.mem = m) (hf : s.1.bytes = f)
    (hrun : (processEntries loadBias tableAddr relaEnt which n i report).run s = .ok last t) :
    ∀ p ∈ entriesFrom m loadBias tableAddr relaEnt n i f, EntryFits m loadBias p := by
  induction n generalizing i f s report with
  | zero => exact fun _ hp => absurd hp List.not_mem_nil
  | succ n ih =>
    subst hm hf
    by_cases hmapped : s.1.mem.isMapped (entryAddr tableAddr relaEnt i) sizeofRela = true
    · rw [entriesFrom_of_mapped hmapped, List.forall_mem_cons]
      have hread : s.1.mem.Accessible (entryAddr tableAddr relaEnt i) sizeofRela := by
        by_contra hnot
        obtain ⟨e, hthrow⟩ := run_processEntries_throws hmapped hnot
        rw [hthrow] at hrun
        cases hrun
      rw [run_processEntries_of_mapped hmapped hread] at hrun
      have hwrite : WriteFits s.1.mem loadBias
          (relaAt s.1.bytes (entryAddr tableAddr relaEnt i)) := by
        by_contra hnot
        obtain ⟨e, t', hthrow⟩ := run_processEntry_throws report hnot
          (s := (s.1, s.2 ++ [.read (entryAddr tableAddr relaEnt i) sizeofRela]))
        rw [run_bind_of_error hthrow] at hrun
        cases hrun
      obtain ⟨t', hentry, htm, htf, -⟩ := run_processEntry report hwrite
        (s := (s.1, s.2 ++ [.read (entryAddr tableAddr relaEnt i) sizeofRela]))
      rw [run_bind_of_ok hentry] at hrun
      exact ⟨⟨hread, hwrite⟩, ih htm htf hrun⟩
    · rw [entriesFrom_of_not_mapped hmapped]
      exact fun _ hp => absurd hp List.not_mem_nil

end Loop

/-! ## A relocation table -/

/-- What the pass comes to in a table; nothing, if the table is said to be absent or empty. -/
def tableEntries (m : GuestMemory) (loadBias tableAddr tableSize relaEnt : U64) (f : U64 → Byte) :
    List (U64 × Elf64_Rela) :=
  if tableAddr = 0 ∨ tableSize = 0 ∨ relaEnt = 0 then []
  else entriesFrom m loadBias tableAddr relaEnt (tableSize / relaEnt).toNat 0 f

section Table

variable {tableSize : U64}

/-- A table whose entries pass their checks is processed to its end. -/
lemma run_processTable (which : String) (report : RelocReport) (hm : s.1.mem = m)
    (hf : s.1.bytes = f)
    (hfits : ∀ p ∈ tableEntries m loadBias tableAddr tableSize relaEnt f, EntryFits m loadBias p) :
    ∃ last t, (processTable loadBias tableAddr tableSize relaEnt which report).run s = .ok last t ∧
      t.1.mem = m ∧
      t.1.bytes = relocateAll m loadBias
        (tableEntries m loadBias tableAddr tableSize relaEnt f) f ∧
      t.2 = s.2 ++ (tableEntries m loadBias tableAddr tableSize relaEnt f).flatMap
        (tableEvents m loadBias) := by
  unfold processTable tableEntries at *
  split_ifs at hfits ⊢ with habsent
  · exact ⟨report, s, rfl, hm, hf, (List.append_nil _).symm⟩
  · obtain ⟨last, t, hrun, hmem, hbytes, hrecord, -⟩ := run_processEntries which report hm hf hfits
    exact ⟨last, t, hrun, hmem, hbytes, hrecord⟩

/-- A table that is processed to its end has entries that pass their checks. -/
lemma fits_of_run_processTable {last : RelocReport} (hm : s.1.mem = m) (hf : s.1.bytes = f)
    (hrun : (processTable loadBias tableAddr tableSize relaEnt which report).run s = .ok last t) :
    ∀ p ∈ tableEntries m loadBias tableAddr tableSize relaEnt f, EntryFits m loadBias p := by
  unfold processTable at hrun
  unfold tableEntries
  split_ifs at hrun ⊢ with habsent
  · exact fun _ hp => absurd hp List.not_mem_nil
  · exact fits_of_run_processEntries hm hf hrun

end Table

end Relocation

end InstaX
