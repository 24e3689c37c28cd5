import InstaX.Runtime.RelocationRun

/-!
# What a relocation table does

The loop over a relocation table reads its entries from the memory it writes to.  As long as no
entry lies under a target, every entry is still what it was at the start when its turn comes
(`entriesFrom_eq`), so the table is a list of patches that is known in advance.  If these patches
agree wherever two of them overlap, the result does not depend on their order or number
(`relocates_exactly`).  A table at the address zero is said to be absent, so nothing is done about
it (`table_at_zero`).
-/

namespace InstaX

open Throwing Tracing ByteStore GuestMemory

namespace Relocation

variable {m : GuestMemory} {loadBias tableAddr tableSize relaEnt : U64} {which : String}
  {f g : U64 → Byte} {s t : World × List RelocEvent} {report last : RelocReport}

/-! ## The table in advance -/

/-- The addresses of `n` entries from the `i`th on. -/
def entryAddrs (tableAddr relaEnt : U64) (n i : ℕ) : List U64 :=
  (List.range' i n).map (entryAddr tableAddr relaEnt)

/-- The entries of a table that are mapped and clear of the targets, and the targets and values of
those that are applied: clear of the last page, and one value for overlapping targets, which then
are the same. -/
structure TableFits (m : GuestMemory) (loadBias : U64) (addrs : List U64)
    (relas : List Elf64_Rela) :
    Prop where
  mapped : ∀ a ∈ addrs, m.isMapped a sizeofRela = true
  entry_below : ∀ a ∈ addrs, a.toNat + 24 ≤ 2 ^ 64 - 4096
  target_below : ∀ rela ∈ relas, IsApplied m loadBias rela →
    (rela.target loadBias).toNat + 8 ≤ 2 ^ 64 - 4096
  apart : ∀ a ∈ addrs, ∀ rela ∈ relas, IsApplied m loadBias rela →
    Disjoint (span a 24) (span (rela.target loadBias) 8)
  agree : ∀ p ∈ relas, ∀ q ∈ relas, IsApplied m loadBias p → IsApplied m loadBias q →
    Disjoint (span (p.target loadBias) 8) (span (q.target loadBias) 8) ∨
      p.target loadBias = q.target loadBias ∧ p.value loadBias = q.value loadBias

/-- A table fits in any order of its entries. -/
lemma TableFits.perm {addrs : List U64} {relas relas' : List Elf64_Rela}
    (h : TableFits m loadBias addrs relas) (hperm : relas'.Perm relas) :
    TableFits m loadBias addrs relas' where
  mapped := h.mapped
  entry_below := h.entry_below
  target_below := fun rela hrela => h.target_below rela (hperm.subset hrela)
  apart := fun a ha rela hrela => h.apart a ha rela (hperm.subset hrela)
  agree := fun p hp q hq => h.agree p (hperm.subset hp) q (hperm.subset hq)

/-- An entry that is clear of the target is not changed. -/
lemma relaAt_relocate {a : U64} {rela : Elf64_Rela}
    (h : IsApplied m loadBias rela → Disjoint (span a 24) (span (rela.target loadBias) 8)) :
    relaAt (relocate m loadBias f rela) a = relaAt f a := by
  unfold relaAt
  rw [bytesFrom_congr (fun x hx => ?_) (by decide)]
  unfold relocate
  split_ifs with happlied
  · exact store_of_notMem (Set.disjoint_left.mp (h happlied) hx)
  · rfl

/-- The loop comes to the entries as they are at its start. -/
lemma entriesFrom_eq {n i : ℕ} {relas : List Elf64_Rela}
    (hmapped : ∀ a ∈ entryAddrs tableAddr relaEnt n i, m.isMapped a sizeofRela = true)
    (hmem : ∀ a ∈ entryAddrs tableAddr relaEnt n i, relaAt f a ∈ relas)
    (hapart : ∀ a ∈ entryAddrs tableAddr relaEnt n i, ∀ rela ∈ relas, IsApplied m loadBias rela →
      Disjoint (span a 24) (span (rela.target loadBias) 8)) :
    entriesFrom m loadBias tableAddr relaEnt n i f =
      (entryAddrs tableAddr relaEnt n i).map fun a => (a, relaAt f a) := by
  induction n generalizing i f with
  | zero => rfl
  | succ n ih =>
    have hcons : entryAddrs tableAddr relaEnt (n + 1) i =
        entryAddr tableAddr relaEnt i :: entryAddrs tableAddr relaEnt n (i + 1) := rfl
    rw [hcons] at hmapped hmem hapart ⊢
    rw [List.forall_mem_cons] at hmapped hmem hapart
    have hkept : ∀ a ∈ entryAddrs tableAddr relaEnt n (i + 1),
        relaAt (relocate m loadBias f (relaAt f (entryAddr tableAddr relaEnt i))) a = relaAt f a :=
      fun a ha => relaAt_relocate (hapart.2 a ha _ hmem.1)
    rw [entriesFrom_of_mapped hmapped.1, List.map_cons,
      ih hmapped.2 (fun a ha => by rw [hkept a ha]; exact hmem.2 a ha) hapart.2]
    congr 1
    exact List.map_congr_left fun a ha => by rw [hkept a ha]

/-! ## The patches and the counters -/

/-- The patch of an entry that is applied. -/
def relaPatch (loadBias : U64) (rela : Elf64_Rela) : Set U64 × (U64 → Byte) :=
  (span (rela.target loadBias) 8,
    fun x => leByte (rela.value loadBias) (x - rela.target loadBias).toNat)

/-- The patches of a table. -/
def relaPatches (m : GuestMemory) (loadBias : U64) (relas : List Elf64_Rela) :
    List (Set U64 × (U64 → Byte)) :=
  (relas.filter fun rela => decide (IsApplied m loadBias rela)).map (relaPatch loadBias)

/-- A patch is that of an entry which is applied. -/
lemma mem_relaPatches {relas : List Elf64_Rela} {p : Set U64 × (U64 → Byte)} :
    p ∈ relaPatches m loadBias relas ↔
      ∃ rela ∈ relas, IsApplied m loadBias rela ∧ relaPatch loadBias rela = p := by
  simp [relaPatches, and_assoc]

/-- The entries leave their patches. -/
lemma patches_relocateAll (m : GuestMemory) (loadBias : U64) (l : List (U64 × Elf64_Rela))
    (f : U64 → Byte) :
    Patches (relaPatches m loadBias (l.map Prod.snd)) f (relocateAll m loadBias l f) := by
  induction l generalizing f with
  | nil => exact .nil f
  | cons p l ih =>
    have hstep : relocateAll m loadBias (p :: l) f =
        relocateAll m loadBias l (relocate m loadBias f p.2) := rfl
    rw [hstep, List.map_cons]
    unfold relaPatches
    by_cases happlied : IsApplied m loadBias p.2
    · rw [List.filter_cons_of_pos (by simpa using happlied), List.map_cons]
      refine .cons ?_ (ih _)
      rw [relocate, if_pos happlied]
      exact patched_store f (p.2.target loadBias) 8 (leByte (p.2.value loadBias))
    · rw [List.filter_cons_of_neg (by simpa using happlied), relocate, if_neg happlied]
      exact ih f

/-- The counters add up the entries. -/
lemma counts_foldl_tally (m : GuestMemory) (loadBias : U64) (l : List Elf64_Rela)
    (report : RelocReport) :
    (l.foldl (tally m loadBias) report).relocApplied = report.relocApplied +
        l.countP (fun rela => decide (IsApplied m loadBias rela)) ∧
      (l.foldl (tally m loadBias) report).relocSkipped = report.relocSkipped +
        l.countP (fun rela => decide (¬ IsApplied m loadBias rela)) := by
  induction l generalizing report with
  | nil => exact ⟨rfl, rfl⟩
  | cons rela l ih =>
    obtain ⟨happlied, hskipped⟩ := ih (tally m loadBias report rela)
    rw [List.foldl_cons, happlied, hskipped, List.countP_cons, List.countP_cons]
    unfold tally
    by_cases h : IsApplied m loadBias rela
    · simp [h]
      omega
    · simp [h, RelocReport.skip]
      omega

/-- The patches of a table that fits agree. -/
lemma TableFits.agree_patches {addrs : List U64} {relas : List Elf64_Rela}
    (h : TableFits m loadBias addrs relas) : Agree (relaPatches m loadBias relas) := by
  intro p hp q hq x hxp hxq
  obtain ⟨rela, hrela, happlied, rfl⟩ := mem_relaPatches.mp hp
  obtain ⟨rela', hrela', happlied', rfl⟩ := mem_relaPatches.mp hq
  rcases h.agree rela hrela rela' hrela' happlied happlied' with hdisjoint | ⟨htarget, hvalue⟩
  · exact absurd hxq (Set.disjoint_left.mp hdisjoint hxp)
  · unfold relaPatch
    rw [htarget, hvalue]

/-! ## Running a table -/

/-- The addresses of the entries of a table. -/
def tableAddrs (tableAddr tableSize relaEnt : U64) : List U64 :=
  entryAddrs tableAddr relaEnt (tableSize / relaEnt).toNat 0

/-- The entries of a table in memory. -/
def tableRelas (f : U64 → Byte) (tableAddr tableSize relaEnt : U64) : List Elf64_Rela :=
  (tableAddrs tableAddr tableSize relaEnt).map (relaAt f)

/-- The accesses to the entries of a table that fits pass. -/
lemma TableFits.entryFits {addrs : List U64} {relas : List Elf64_Rela}
    (h : TableFits m loadBias addrs relas) {a : U64} {rela : Elf64_Rela} (ha : a ∈ addrs)
    (hrela : rela ∈ relas) : EntryFits m loadBias (a, rela) := by
  have hentry := h.entry_below a ha
  have hsize : (sizeofRela : U64).toNat = 24 := rfl
  have height : (8 : U64).toNat = 8 := rfl
  refine ⟨fun _ => ⟨h.mapped a ha, ?_⟩, fun happlied _ => ⟨happlied.2, ?_⟩⟩
  · exact isMapped_one_of_le (by omega) (by dsimp only; omega) (h.mapped a ha)
  · have htarget := h.target_below rela hrela happlied
    exact isMapped_one_of_le (by omega) (by dsimp only; omega) happlied.2

/-- A table that fits returns, leaves its patches and counts its entries. -/
lemma run_processTable_of_fits (which : String) (report : RelocReport) (hpresent : tableAddr ≠ 0)
    (hstride : relaEnt ≠ 0)
    (hfits : TableFits s.1.mem loadBias (tableAddrs tableAddr tableSize relaEnt)
      (tableRelas s.1.bytes tableAddr tableSize relaEnt)) :
    ∃ last t, (processTable loadBias tableAddr tableSize relaEnt which report).run s = .ok last t ∧
      t.1.mem = s.1.mem ∧
      Patches (relaPatches s.1.mem loadBias
        (tableRelas s.1.bytes tableAddr tableSize relaEnt)) s.1.bytes t.1.bytes ∧
      last = (tableRelas s.1.bytes tableAddr tableSize relaEnt).foldl
        (tally s.1.mem loadBias) report := by
  unfold processTable
  by_cases hempty : tableSize = 0
  · have hzero : (tableSize / relaEnt).toNat = 0 := by
      rw [hempty, BitVec.toNat_udiv]
      exact Nat.zero_div _
    rw [if_pos (Or.inr (Or.inl hempty))]
    unfold tableRelas tableAddrs
    rw [hzero]
    exact ⟨report, s, rfl, rfl, .nil _, rfl⟩
  · rw [if_neg fun habsent => habsent.elim hpresent fun h => h.elim hempty hstride]
    have hentries : entriesFrom s.1.mem loadBias tableAddr relaEnt (tableSize / relaEnt).toNat 0
        s.1.bytes = (tableAddrs tableAddr tableSize relaEnt).map fun a => (a, relaAt s.1.bytes a) :=
      entriesFrom_eq hfits.mapped (fun _ => List.mem_map_of_mem) hfits.apart
    have hlength : (tableAddrs tableAddr tableSize relaEnt).length =
      (tableSize / relaEnt).toNat := by
      rw [tableAddrs, entryAddrs, List.length_map, List.length_range']
    have hpass : ∀ p ∈ entriesFrom s.1.mem loadBias tableAddr relaEnt (tableSize / relaEnt).toNat 0
        s.1.bytes, EntryFits s.1.mem loadBias p := by
      rw [hentries]
      intro p hp
      obtain ⟨a, ha, rfl⟩ := List.mem_map.mp hp
      exact hfits.entryFits ha (List.mem_map_of_mem ha)
    obtain ⟨last, t, hrun, hmem, hbytes, -, hlast⟩ := run_processEntries which report rfl rfl hpass
    rw [hentries] at hbytes hlast
    refine ⟨last, t, hrun, hmem, ?_, ?_⟩
    · rw [hbytes]
      have hpatches := patches_relocateAll s.1.mem loadBias
        ((tableAddrs tableAddr tableSize relaEnt).map fun a => (a, relaAt s.1.bytes a)) s.1.bytes
      rwa [List.map_map] at hpatches
    · rw [hlast (by rw [List.length_map, hlength]), List.foldl_map, tableRelas,
        List.foldl_map]

/-! ## Exactness -/

/-- The address lies outside the table. -/
def OutsideTable (tableAddr tableSize relaEnt x : U64) : Prop :=
  ∀ a ∈ tableAddrs tableAddr tableSize relaEnt, x ∉ span a 24

/-- A table is relocated exactly, from the state `s` to `t`. -/
structure Relocates (loadBias tableAddr tableSize relaEnt : U64) (which : String)
    (report : RelocReport) (s : World × List RelocEvent) (last : RelocReport)
    (t : World × List RelocEvent) : Prop where
  run : (processTable loadBias tableAddr tableSize relaEnt which report).run s = .ok last t
  targets : ∀ rela ∈ tableRelas s.1.bytes tableAddr tableSize relaEnt,
    IsApplied s.1.mem loadBias rela → t.1.word (rela.target loadBias) = loadBias + rela.r_addend
  /-- Every other byte is as it was. -/
  frame : ∀ x, (∀ rela ∈ tableRelas s.1.bytes tableAddr tableSize relaEnt,
    IsApplied s.1.mem loadBias rela → x ∉ span (rela.target loadBias) 8) →
      t.1.bytes x = s.1.bytes x
  applied : last.relocApplied = report.relocApplied +
    (tableRelas s.1.bytes tableAddr tableSize relaEnt).countP
      fun rela => decide (IsApplied s.1.mem loadBias rela)
  skipped : last.relocSkipped = report.relocSkipped +
    (tableRelas s.1.bytes tableAddr tableSize relaEnt).countP
      fun rela => decide (¬ IsApplied s.1.mem loadBias rela)
  /-- With the entries of the table in another order, the memory outside the table is the same. -/
  permuted : ∀ (report₂ : RelocReport) (s₂ : World × List RelocEvent), s₂.1.mem = s.1.mem →
    (∀ x, OutsideTable tableAddr tableSize relaEnt x → s₂.1.bytes x = s.1.bytes x) →
    (tableRelas s₂.1.bytes tableAddr tableSize relaEnt).Perm
      (tableRelas s.1.bytes tableAddr tableSize relaEnt) →
    ∃ last₂ t₂, (processTable loadBias tableAddr tableSize relaEnt which report₂).run s₂ =
      .ok last₂ t₂ ∧ ∀ x, OutsideTable tableAddr tableSize relaEnt x → t₂.1.bytes x = t.1.bytes x
  /-- A second time does nothing more. -/
  twice : ∀ report₂ : RelocReport, ∃ last₂ t₂,
    (processTable loadBias tableAddr tableSize relaEnt which report₂).run t = .ok last₂ t₂ ∧
      t₂.1.bytes = t.1.bytes

/-- The last of some patches of a target holds its value. -/
lemma word_of_patches {relas : List Elf64_Rela} {addrs : List U64} {w : World}
    (hfits : TableFits m loadBias addrs relas)
    (hpatches : Patches (relaPatches m loadBias relas) f w.bytes) {rela : Elf64_Rela}
    (hrela : rela ∈ relas) (happlied : IsApplied m loadBias rela) :
    w.word (rela.target loadBias) = rela.value loadBias := by
  have hbytes : ∀ i < 8, w.bytes (rela.target loadBias + BitVec.ofNat 64 i) =
      leByte (rela.value loadBias) i := by
    intro i hi
    have hmem := mem_relaPatches.mpr ⟨rela, hrela, happlied, rfl⟩
    have hin : rela.target loadBias + BitVec.ofNat 64 i ∈ (relaPatch loadBias rela).1 :=
      (mem_span_iff_exists (by decide)).mpr ⟨i, hi, rfl⟩
    rw [hpatches.eq_of_agree hfits.agree_patches hmem hin, relaPatch]
    dsimp only
    rw [toNat_add_ofNat_sub (by omega)]
  rw [World.word, leWord_congr hbytes, leWord_leByte _ (by omega)]

/-- A table that is present, whose entries are mapped and clear of the targets, is relocated
exactly. -/
theorem relocates_exactly (which : String) (report : RelocReport) (hpresent : tableAddr ≠ 0)
    (hstride : 0 < relaEnt.toNat)
    (hfits : TableFits s.1.mem loadBias (tableAddrs tableAddr tableSize relaEnt)
      (tableRelas s.1.bytes tableAddr tableSize relaEnt)) :
    ∃ last t, Relocates loadBias tableAddr tableSize relaEnt which report s last t := by
  have hstride' : relaEnt ≠ 0 := by
    rintro rfl
    exact absurd hstride (by decide)
  obtain ⟨last, t, hrun, hmem, hpatches, hlast⟩ :=
    run_processTable_of_fits which report hpresent hstride' hfits
  obtain ⟨happlied, hskipped⟩ := counts_foldl_tally s.1.mem loadBias
    (tableRelas s.1.bytes tableAddr tableSize relaEnt) report
  have hframe : ∀ x, (∀ rela ∈ tableRelas s.1.bytes tableAddr tableSize relaEnt,
      IsApplied s.1.mem loadBias rela → x ∉ span (rela.target loadBias) 8) →
        t.1.bytes x = s.1.bytes x := by
    intro x hx
    refine hpatches.eq_of_forall_notMem fun p hp => ?_
    obtain ⟨rela, hrela, hrelaApplied, rfl⟩ := mem_relaPatches.mp hp
    exact hx rela hrela hrelaApplied
  refine ⟨last, t, hrun, fun rela hrela h => word_of_patches hfits hpatches hrela h, hframe,
    by rw [hlast]; exact happlied, by rw [hlast]; exact hskipped, ?_, ?_⟩
  · intro report₂ s₂ hmem₂ hsame hperm
    have hfits₂ : TableFits s₂.1.mem loadBias (tableAddrs tableAddr tableSize relaEnt)
        (tableRelas s₂.1.bytes tableAddr tableSize relaEnt) := by
      rw [hmem₂]
      exact hfits.perm hperm
    obtain ⟨last₂, t₂, hrun₂, -, hpatches₂, -⟩ :=
      run_processTable_of_fits which report₂ hpresent hstride' hfits₂
    refine ⟨last₂, t₂, hrun₂, fun x hx => ?_⟩
    refine hpatches₂.eq_of_mem_iff hpatches hfits₂.agree_patches (fun p => ?_) (hsame x hx)
    rw [mem_relaPatches, mem_relaPatches, hmem₂]
    exact exists_congr fun rela => and_congr_left' hperm.mem_iff
  · intro report₂
    have hrelas : tableRelas t.1.bytes tableAddr tableSize relaEnt =
        tableRelas s.1.bytes tableAddr tableSize relaEnt := by
      refine List.map_congr_left fun a ha => ?_
      unfold relaAt
      rw [bytesFrom_congr (fun x hx => ?_) (by decide)]
      exact hframe x fun rela hrela h => Set.disjoint_left.mp (hfits.apart a ha rela hrela h) hx
    have hfits₂ : TableFits t.1.mem loadBias (tableAddrs tableAddr tableSize relaEnt)
        (tableRelas t.1.bytes tableAddr tableSize relaEnt) := by
      rw [hmem, hrelas]
      exact hfits
    obtain ⟨last₂, t₂, hrun₂, -, hpatches₂, -⟩ :=
      run_processTable_of_fits which report₂ hpresent hstride' hfits₂
    refine ⟨last₂, t₂, hrun₂, funext fun x => ?_⟩
    by_cases hin : ∃ p ∈ relaPatches s.1.mem loadBias
        (tableRelas s.1.bytes tableAddr tableSize relaEnt), x ∈ p.1
    · obtain ⟨p, hp, hxp⟩ := hin
      have hp₂ : p ∈ relaPatches t.1.mem loadBias
          (tableRelas t.1.bytes tableAddr tableSize relaEnt) := by rwa [hmem, hrelas]
      rw [hpatches₂.eq_of_agree hfits₂.agree_patches hp₂ hxp,
        hpatches.eq_of_agree hfits.agree_patches hp hxp]
    · refine hpatches₂.eq_of_forall_notMem fun p hp hxp => hin ⟨p, ?_, hxp⟩
      rwa [hmem, hrelas] at hp

/-- Four pages the host lets the process read and write, with a table of three entries at an
address: relocations of the words at `0x1000` and `0x2000` to `1` and `2`, and one of a type that is
skipped between them. -/
def entriesWorld (tableAddr : U64) : World where
  mem := ⟨0, 0, 0x4000, 0, 0x4000, [⟨0, 0x4000, 3, "data"⟩]⟩
  host := ⟨fun x => ([0, 0x10] ++ List.replicate 6 0 ++ [8] ++ List.replicate 7 0 ++ [1] ++
      List.replicate 7 0 ++ List.replicate 24 0 ++ [0, 0x20] ++ List.replicate 6 0 ++ [8] ++
      List.replicate 7 0 ++ [2]).getD (x - tableAddr).toNat 0,
    fun _ => some (PROT_READ ||| PROT_WRITE)⟩

/-- The three entries fit if the table is mapped below the words they relocate. -/
lemma fits_entriesWorld {tableAddr : U64}
    (hrelas : tableRelas (entriesWorld tableAddr).bytes tableAddr 72 24 =
      [⟨0x1000, 8, 1⟩, ⟨0, 0, 0⟩, ⟨0x2000, 8, 2⟩])
    (hmapped : (tableAddrs tableAddr 72 24).all
      fun a => (entriesWorld tableAddr).mem.isMapped a sizeofRela)
    (hlow : (tableAddrs tableAddr 72 24).all fun a => a.toNat + 24 ≤ 0x1000) :
    TableFits (entriesWorld tableAddr).mem 0 (tableAddrs tableAddr 72 24)
      (tableRelas (entriesWorld tableAddr).bytes tableAddr 72 24) := by
  have hbelow : ∀ a ∈ tableAddrs tableAddr 72 24, a.toNat + 24 ≤ 0x1000 := fun a ha =>
    of_decide_eq_true (List.all_eq_true.mp hlow a ha)
  -- the entries that are applied relocate one of the two words
  have htarget : ∀ rela ∈ tableRelas (entriesWorld tableAddr).bytes tableAddr 72 24,
      IsApplied (entriesWorld tableAddr).mem 0 rela →
        rela = ⟨0x1000, 8, 1⟩ ∨ rela = ⟨0x2000, 8, 2⟩ := by
    rw [hrelas]
    rintro rela hrela ⟨htype, -⟩
    simp only [List.mem_cons, List.not_mem_nil, or_false] at hrela
    obtain rfl | rfl | rfl := hrela
    · exact Or.inl rfl
    · exact absurd htype (by decide)
    · exact Or.inr rfl
  have hfirst : (Elf64_Rela.target 0 ⟨0x1000, 8, 1⟩).toNat = 0x1000 := by decide
  have hsecond : (Elf64_Rela.target 0 ⟨0x2000, 8, 2⟩).toNat = 0x2000 := by decide
  refine ⟨List.all_eq_true.mp hmapped, fun a ha => by have := hbelow a ha; omega, ?_, ?_, ?_⟩
  · intro rela hrela happlied
    obtain rfl | rfl := htarget rela hrela happlied <;> omega
  · intro a ha rela hrela happlied
    have hlow := hbelow a ha
    rw [Set.disjoint_left]
    intro x hx hx'
    rw [mem_span_iff (by omega)] at hx
    obtain rfl | rfl := htarget rela hrela happlied
    all_goals rw [mem_span_iff (by omega)] at hx'; omega
  · have hapart : Disjoint (span (Elf64_Rela.target 0 ⟨0x1000, 8, 1⟩) 8)
        (span (Elf64_Rela.target 0 ⟨0x2000, 8, 2⟩) 8) := by
      rw [Set.disjoint_left]
      intro x hx hx'
      rw [mem_span_iff (by omega)] at hx hx'
      omega
    intro p hp q hq hpApplied hqApplied
    obtain rfl | rfl := htarget p hp hpApplied <;> obtain rfl | rfl := htarget q hq hqApplied
    · exact Or.inr ⟨rfl, rfl⟩
    · exact Or.inl hapart
    · exact Or.inl hapart.symm
    · exact Or.inr ⟨rfl, rfl⟩

/-- The table is relocated exactly if it is not at the address zero. -/
theorem relocates_exactly_entriesWorld : ∃ last t,
    Relocates 0 0x800 72 24 "DT_RELA" {} (entriesWorld 0x800, []) last t :=
  relocates_exactly (s := (entriesWorld 0x800, [])) "DT_RELA" {} (by decide) (by decide)
    (fits_entriesWorld (by decide +kernel) (by decide +kernel) (by decide +kernel))

/-- The same table at the address zero is not relocated. -/
theorem table_at_zero : TableFits (entriesWorld 0).mem 0 (tableAddrs 0 72 24)
      (tableRelas (entriesWorld 0).bytes 0 72 24) ∧
    ¬ ∃ last t, Relocates 0 0 72 24 "DT_RELA" {} (entriesWorld 0, []) last t := by
  refine ⟨fits_entriesWorld (by decide +kernel) (by decide +kernel) (by decide +kernel), ?_⟩
  rintro ⟨last, t, h⟩
  have hrun : (processTable 0 0 72 24 "DT_RELA" {}).run (entriesWorld 0, []) =
      .ok {} (entriesWorld 0, []) := rfl
  obtain ⟨rfl, -⟩ := EStateM.Result.ok.inj (hrun.symm.trans h.run)
  have hcount : (tableRelas (entriesWorld 0).bytes 0 72 24).countP
      (fun rela => decide (IsApplied (entriesWorld 0).mem 0 rela)) = 2 := by decide +kernel
  have happlied := h.applied
  rw [hcount] at happlied
  exact absurd happlied (by decide)

end Relocation

end InstaX
