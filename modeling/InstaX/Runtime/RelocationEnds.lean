import InstaX.Runtime.RelocationRun

/-!
# The relocation pass ends

The walk along the dynamic table has no bound of its own.  Its addresses run through a residue class
modulo 16, so they come to every page, and the first one that is not mapped ends the walk
(`exists_dynamicTable`).  The last page is the exception: `isMapped` accepts a range that starts at
or before its first byte and ends behind it, and the access throws.  The walk cannot come to such a
range from below (`accessible_next`), but it can start with one, and an entry of a relocation table
or the target of a relocation can be one.  Otherwise no access of the pass throws.

An access that passes its checks still ends the process if the host does not allow it.  So the pass
returns exactly if nothing it comes to straddles the first byte of the last page and the host allows
every access (`returns_iff`).
-/

namespace InstaX

open Throwing Tracing ByteStore GuestMemory

namespace Relocation

variable {m : GuestMemory} {f : U64 → Byte} {addr : U64} {image : GuestElfImage}
  {s t : World × List RelocEvent} {report last : RelocReport}

/-! ## The walk along the dynamic table -/

/-- A page below the last one is not mapped. -/
def HasGap (m : GuestMemory) : Prop :=
  ∃ p : U64, 4096 ∣ p.toNat ∧ p.toNat < 2 ^ 64 - 4096 ∧ m.findRegion p = none

/-- A table has one list of entries. -/
lemma DynamicTable.unique {l l' : List Elf64_Dyn} (h : DynamicTable m f addr l)
    (h' : DynamicTable m f addr l') : l = l' := by
  induction l generalizing addr l' with
  | nil =>
    cases l' with
    | nil => rfl
    | cons dyn l' =>
      obtain ⟨hmapped, hdyn, htag, -⟩ := h'
      rw [← hdyn] at htag
      exact absurd (h hmapped) htag
  | cons dyn l ih =>
    obtain ⟨hmapped, hdyn, htag, hrest⟩ := h
    cases l' with
    | nil =>
      rw [← hdyn] at htag
      exact absurd (h' hmapped) htag
    | cons dyn' l' =>
      obtain ⟨-, hdyn', -, hrest'⟩ := h'
      rw [← hdyn, ← hdyn', ih hrest hrest']

/-- The table ends at the latest where an entry would not be mapped. -/
lemma exists_dynamicTable_of_not_mapped (f : U64 → Byte) {n : ℕ}
    (h : ¬ m.isMapped (addr + BitVec.ofNat 64 (16 * n)) sizeofDyn = true) :
    ∃ entries, entries.length ≤ n ∧ DynamicTable m f addr entries := by
  induction n generalizing addr with
  | zero =>
    refine ⟨[], le_rfl, fun hmapped => absurd hmapped ?_⟩
    simpa using h
  | succ n ih =>
    by_cases hmapped : m.isMapped addr sizeofDyn = true
    · by_cases htag : (dynAt f addr).d_tag = DT_NULL
      · exact ⟨[], Nat.zero_le _, fun _ => htag⟩
      · have hstep : addr + sizeofDyn + BitVec.ofNat 64 (16 * n) =
            addr + BitVec.ofNat 64 (16 * (n + 1)) := by
          rw [Nat.mul_succ, BitVec.ofNat_add, add_assoc, add_comm sizeofDyn]
          rfl
        rw [← hstep] at h
        obtain ⟨l, hlength, htable⟩ := ih h
        exact ⟨dynAt f addr :: l, Nat.succ_le_succ hlength, hmapped, rfl, htag, htable⟩
    · exact ⟨[], Nat.zero_le _, fun h' => absurd h' hmapped⟩

/-- Some address of the walk lies at the start of the page that is not mapped. -/
lemma exists_not_mapped (hgap : HasGap m) (addr : U64) :
    ∃ n < 2 ^ 60, ¬ m.isMapped (addr + BitVec.ofNat 64 (16 * n)) sizeofDyn = true := by
  obtain ⟨p, hpage, hlt, hnone⟩ := hgap
  have hsize : (sizeofDyn : U64).toNat = 16 := rfl
  have haddr := addr.isLt
  obtain ⟨x, hx⟩ : ∃ x : U64, x.toNat = p.toNat + addr.toNat % 16 :=
    ⟨BitVec.ofNat 64 (p.toNat + addr.toNat % 16), by
      rw [BitVec.toNat_ofNat, Nat.mod_eq_of_lt (by omega)]⟩
  have hsub : (x - addr).toNat = (2 ^ 64 - addr.toNat + x.toNat) % 2 ^ 64 := BitVec.toNat_sub x addr
  have hdvd : 16 * ((x - addr).toNat / 16) = (x - addr).toNat := by omega
  refine ⟨(x - addr).toNat / 16, by omega, ?_⟩
  rw [hdvd, BitVec.ofNat_toNat, BitVec.setWidth_eq, add_sub_cancel,
    isMapped_iff_findRegion (by omega)]
  intro hmapped
  have hlast : (x + sizeofDyn - 1).toNat = x.toNat + 16 - 1 := by
    rw [toNat_last (by omega), hsize, Nat.mod_eq_of_lt (by omega)]
  have hup := toNat_guestPageAlignUp (a := x + sizeofDyn - 1) (by omega)
  have hfound := hmapped p hpage (by omega) (by omega)
  rw [hnone] at hfound
  cases hfound

/-- The dynamic table has fewer entries than the walk has fuel. -/
lemma exists_dynamicTable (hgap : HasGap m) (f : U64 → Byte) (addr : U64) :
    ∃ entries, entries.length < 2 ^ 60 ∧ DynamicTable m f addr entries := by
  obtain ⟨n, hn, hnot⟩ := exists_not_mapped hgap addr
  obtain ⟨entries, hlength, htable⟩ := exists_dynamicTable_of_not_mapped f hnot
  exact ⟨entries, by omega, htable⟩

/-- Behind an entry that is mapped there is no entry that straddles. -/
lemma accessible_next (hm : m.PageAligned) (hmapped : m.isMapped addr sizeofDyn = true)
    (hnext : m.isMapped (addr + sizeofDyn) sizeofDyn = true) :
    m.Accessible (addr + sizeofDyn) sizeofDyn := by
  have hsize : (sizeofDyn : U64).toNat = 16 := rfl
  refine (accessible_iff hm (by omega) (by omega) hnext).mpr fun hstraddles => ?_
  obtain ⟨hle, hlt⟩ := hstraddles
  rw [hsize] at hlt
  have hsum : (addr + sizeofDyn).toNat = addr.toNat + 16 := by
    have hadd : (addr + sizeofDyn).toNat = (addr.toNat + 16) % 2 ^ 64 := BitVec.toNat_add _ _
    have haddr := addr.isLt
    omega
  have hlast : (addr + sizeofDyn - 1).toNat = addr.toNat + 16 - 1 := by
    rw [toNat_last (by omega), hsize, Nat.mod_eq_of_lt (by omega)]
  have hup := toNat_guestPageAlignUp (a := addr + sizeofDyn - 1) (by omega)
  have hpage : (BitVec.ofNat 64 (2 ^ 64 - 4096)).toNat = 2 ^ 64 - 4096 := by decide
  rw [isMapped_iff_findRegion (by omega)] at hmapped
  have hfound := hmapped (BitVec.ofNat 64 (2 ^ 64 - 4096)) (by omega) (by omega) (by omega)
  rw [findRegion_last_page hm (by omega)] at hfound
  cases hfound

/-! ## The whole pass -/

/-- The entries of the first relocation table. -/
def relaEntries (m : GuestMemory) (image : GuestElfImage) (info : DynamicInfo) (f : U64 → Byte) :
    List (U64 × Elf64_Rela) :=
  tableEntries m image.loadBias info.relaAddr info.relaSize info.relaEnt f

/-- The entries of the second one, as the first one left them. -/
def pltEntries (m : GuestMemory) (image : GuestElfImage) (info : DynamicInfo) (f : U64 → Byte) :
    List (U64 × Elf64_Rela) :=
  tableEntries m image.loadBias info.jmpRelAddr info.pltRelSize info.relaEnt
    (relocateAll m image.loadBias (relaEntries m image info f) f)

/-- Neither an entry that the pass comes to nor the target of a relocation straddles. -/
def ClearOfLastPage (m : GuestMemory) (loadBias : U64) (p : U64 × Elf64_Rela) : Prop :=
  ¬ Straddles p.1 sizeofRela ∧ (IsApplied m loadBias p.2 → ¬ Straddles (p.2.target loadBias) 8)

/-- The start of the dynamic table does not straddle, and no entry of a relocation table does, nor
the target of a relocation. -/
def PassClear (m : GuestMemory) (f : U64 → Byte) (image : GuestElfImage) : Prop :=
  ¬ Straddles image.dynamicAddr sizeofDyn ∧
    ∀ entries, DynamicTable m f image.dynamicAddr entries →
      ∀ p ∈ relaEntries m image (tableInfo image.loadBias entries) f ++
        pltEntries m image (tableInfo image.loadBias entries) f, ClearOfLastPage m image.loadBias p

/-- What the loop comes to is mapped. -/
lemma isMapped_of_mem_entriesFrom {loadBias tableAddr relaEnt : U64} {n i : ℕ}
    {p : U64 × Elf64_Rela}
    (hp : p ∈ entriesFrom m loadBias tableAddr relaEnt n i f) :
    m.isMapped p.1 sizeofRela = true := by
  induction n generalizing i f with
  | zero => cases hp
  | succ n ih =>
    by_cases hmapped : m.isMapped (entryAddr tableAddr relaEnt i) sizeofRela = true
    · rw [entriesFrom_of_mapped hmapped, List.mem_cons] at hp
      rcases hp with rfl | hp
      · exact hmapped
      · exact ih hp
    · rw [entriesFrom_of_not_mapped hmapped] at hp
      cases hp

/-- The accesses to an entry pass unless they straddle. -/
lemma entryFits_iff {loadBias tableAddr tableSize relaEnt : U64} (hm : m.PageAligned)
    {p : U64 × Elf64_Rela} (hp : p ∈ tableEntries m loadBias tableAddr tableSize relaEnt f) :
    EntryFits m loadBias p ↔ ClearOfLastPage m loadBias p := by
  have hmapped : m.isMapped p.1 sizeofRela = true := by
    unfold tableEntries at hp
    split_ifs at hp with habsent
    · cases hp
    · exact isMapped_of_mem_entriesFrom hp
  refine and_congr (accessible_iff hm (by decide) (by decide) hmapped) ?_
  exact forall_congr' fun happlied => accessible_iff hm (by decide) (by decide) happlied.2

/-! ## The host under the pass -/

/-- The host lets an access of the pass be made. -/
def AllowedIn (w : World) : RelocEvent → Prop
  | .read addr n => w.LetsRead addr n
  | .entry _ => True
  | .wrote target _ => w.LetsWrite target 8

/-- How the pass ends: the accesses in its record were made one after another, the host protection
stays as it was (`steady_applyRelocation`), and the first access that the host does not allow
ends the process. -/
def PassEnds (image : GuestElfImage) (report : RelocReport) (s : World × List RelocEvent) :
    Ending → Prop
  | .returned => ∃ last t added, (applyRelocation image report).run s = .ok (some last) t ∧
      t.2 = s.2 ++ added ∧ ∀ e ∈ added, AllowedIn s.1 e
  | .threw => ∃ e t added, (applyRelocation image report).run s = .error e t ∧
      t.2 = s.2 ++ added ∧ ∀ e ∈ added, AllowedIn s.1 e
  | .killed => ∃ t added, Leaves (applyRelocation image report) s t ∧
      t.2 = s.2 ++ added ∧ ∃ e ∈ added, ¬ AllowedIn s.1 e

/-- The host lets an entry be read and, if it is applied, its target be written. -/
def EntryAllowed (w : World) (loadBias : U64) (p : U64 × Elf64_Rela) : Prop :=
  w.LetsRead p.1 sizeofRela ∧
    (IsApplied w.mem loadBias p.2 → w.LetsWrite (p.2.target loadBias) 8)

/-- The host lets the pass make its accesses: those to the dynamic table, through the null entry at
its end, and those to the entries of the two relocation tables. -/
def PassAllowed (w : World) (image : GuestElfImage) : Prop :=
  ∀ entries, DynamicTable w.mem w.bytes image.dynamicAddr entries →
    (∀ a ∈ dynAddrs w.mem image.dynamicAddr entries, w.LetsRead a sizeofDyn) ∧
    ∀ p ∈ relaEntries w.mem image (tableInfo image.loadBias entries) w.bytes ++
      pltEntries w.mem image (tableInfo image.loadBias entries) w.bytes,
        EntryAllowed w image.loadBias p

/-- The reads of the walk are allowed. -/
lemma allowed_dynReads_iff {w : World} {entries : List Elf64_Dyn} :
    (∀ e ∈ dynReads m addr entries, AllowedIn w e) ↔
      ∀ a ∈ dynAddrs m addr entries, w.LetsRead a sizeofDyn := by
  rw [dynReads, List.forall_mem_map]
  rfl

/-- Reading no bytes is allowed. -/
lemma IsEmptyRead.allowedIn {e : RelocEvent} (h : IsEmptyRead e) (w : World) : AllowedIn w e := by
  obtain ⟨a, rfl⟩ := h
  exact w.letsRead_zero a

/-- The accesses of a table are allowed. -/
lemma allowed_tableEvents_iff {w : World} {loadBias : U64} {l : List (U64 × Elf64_Rela)} :
    (∀ e ∈ l.flatMap (tableEvents w.mem loadBias), AllowedIn w e) ↔
      ∀ p ∈ l, EntryAllowed w loadBias p := by
  have hentry : ∀ p, (∀ e ∈ tableEvents w.mem loadBias p, AllowedIn w e) ↔
      EntryAllowed w loadBias p := by
    intro p
    rw [tableEvents, entryEvents, EntryAllowed, List.forall_mem_cons, List.forall_mem_cons]
    refine and_congr Iff.rfl ?_
    rw [AllowedIn, true_and]
    split_ifs with happlied
    · rw [List.forall_mem_singleton, imp_iff_right happlied]
      rfl
    · exact iff_of_true (List.forall_mem_nil _) fun h => absurd h happlied
  constructor
  · intro h p hp
    exact (hentry p).mp fun e he => h e (List.mem_flatMap.mpr ⟨p, hp, he⟩)
  · intro h e he
    obtain ⟨p, hp, he⟩ := List.mem_flatMap.mp he
    exact (hentry p).mpr (h p hp) e he

/-! ## The end of the pass -/

/-- What follows the walk. -/
def afterWalk (image : GuestElfImage) (info : DynamicInfo) (walked : RelocReport) :
    Traced RelocEvent World (Option RelocReport) := do
  let named ← addLibraries info.strTabAddr info.neededOffsets walked
  let rela ← processTable image.loadBias info.relaAddr info.relaSize info.relaEnt "DT_RELA" named
  let plt ← processTable image.loadBias info.jmpRelAddr info.pltRelSize info.relaEnt
    "DT_JMPREL" rela
  pure (some (skippedNote plt))

/-- The tables after the walk: they are processed exactly if nothing straddles, and then the record
has the reads of the names and the accesses of the two tables. -/
lemma run_afterWalk (image : GuestElfImage) (report : RelocReport) (hm : s.1.mem.PageAligned)
    (info : DynamicInfo) :
    ((∃ last t, (afterWalk image info report).run s = .ok (some last) t) ↔
      ∀ p ∈ relaEntries s.1.mem image info s.1.bytes ++ pltEntries s.1.mem image info s.1.bytes,
        ClearOfLastPage s.1.mem image.loadBias p) ∧
    ∀ last t, (afterWalk image info report).run s = .ok (some last) t →
      ∃ reads, (∀ e ∈ reads, IsEmptyRead e) ∧ t.2 = s.2 ++ reads ++
        (relaEntries s.1.mem image info s.1.bytes ++
          pltEntries s.1.mem image info s.1.bytes).flatMap (tableEvents s.1.mem image.loadBias) := by
  obtain ⟨reads, hnames, hreads⟩ := run_addLibraries info.strTabAddr info.neededOffsets report s
  -- what a run that returns went through
  have hthrough : ∀ last t, (afterWalk image info report).run s = .ok (some last) t →
      (∀ p ∈ relaEntries s.1.mem image info s.1.bytes ++ pltEntries s.1.mem image info s.1.bytes,
        ClearOfLastPage s.1.mem image.loadBias p) ∧ t.2 = s.2 ++ reads ++
        (relaEntries s.1.mem image info s.1.bytes ++
          pltEntries s.1.mem image info s.1.bytes).flatMap (tableEvents s.1.mem image.loadBias) := by
    intro last t hrun
    rw [afterWalk, run_bind_of_ok hnames] at hrun
    obtain ⟨rela, s₁, hrela, hrest⟩ := run_bind_eq_ok_iff.mp hrun
    obtain ⟨plt, s₂, hplt, hlast⟩ := run_bind_eq_ok_iff.mp hrest
    have hfits := fits_of_run_processTable rfl rfl hrela
    obtain ⟨rela', s₁', hrela', hmem, hbytes, hrecord⟩ :=
      run_processTable "DT_RELA" report rfl rfl hfits
    cases hrela'.symm.trans hrela
    have hfits' := fits_of_run_processTable hmem hbytes hplt
    obtain ⟨plt', s₂', hplt', -, -, hrecord'⟩ :=
      run_processTable "DT_JMPREL" rela hmem hbytes hfits'
    cases hplt'.symm.trans hplt
    cases hlast
    refine ⟨List.forall_mem_append.mpr ⟨fun p hp => (entryFits_iff hm hp).mp (hfits p hp),
      fun p hp => (entryFits_iff hm hp).mp (hfits' p hp)⟩, ?_⟩
    rw [hrecord', hrecord, List.flatMap_append, List.append_assoc]
    rfl
  refine ⟨⟨fun ⟨last, t, hrun⟩ => (hthrough last t hrun).1, fun hclear => ?_⟩,
    fun last t hrun => ⟨reads, hreads, (hthrough last t hrun).2⟩⟩
  obtain ⟨hfirst, hsecond⟩ := List.forall_mem_append.mp hclear
  obtain ⟨rela, s₁, hrela, hmem, hbytes, -⟩ :=
    run_processTable (s := (s.1, s.2 ++ reads)) "DT_RELA" report rfl rfl
      fun p hp => (entryFits_iff hm hp).mpr (hfirst p hp)
  obtain ⟨plt, s₂, hplt, -, -, -⟩ :=
    run_processTable "DT_JMPREL" rela hmem hbytes
      fun p hp => (entryFits_iff hm hp).mpr (hsecond p hp)
  rw [afterWalk, run_bind_of_ok hnames, run_bind_of_ok hrela, run_bind_of_ok hplt]
  exact ⟨_, _, rfl⟩

/-- A dynamic table whose first entry straddles is refused in the read of that entry. -/
lemma run_walkDynamic_of_straddles (hm : s.1.mem.PageAligned) (loadBias : U64)
    (info : DynamicInfo) (report : RelocReport) (h : Straddles addr sizeofDyn) :
    ∃ e, (walkDynamic loadBias (2 ^ 60) addr info report).run s = .error e s := by
  have hmapped : s.1.mem.isMapped addr sizeofDyn = true :=
    isMapped_of_straddles (by decide) (by decide) h
  have hnot : ¬ s.1.mem.Accessible addr sizeofDyn := fun haccess =>
    (accessible_iff hm (by decide) (by decide) hmapped).mp haccess h
  obtain ⟨e, hthrow⟩ := run_recordedRead_throws hnot
  refine ⟨e, ?_⟩
  rw [show 2 ^ 60 = 2 ^ 60 - 1 + 1 from rfl, walkDynamic, run_bind_of_ok (run_get s),
    if_pos hmapped, run_bind_of_error hthrow]

section Table

variable {w : World} {entries : List Elf64_Dyn}
  (htable : DynamicTable w.mem w.bytes image.dynamicAddr entries)

include htable

/-- What the pass comes to is read off the one dynamic table that there is. -/
lemma passClear_iff (hstraddles : ¬ Straddles image.dynamicAddr sizeofDyn) :
    PassClear w.mem w.bytes image ↔
      ∀ p ∈ relaEntries w.mem image (tableInfo image.loadBias entries) w.bytes ++
        pltEntries w.mem image (tableInfo image.loadBias entries) w.bytes,
          ClearOfLastPage w.mem image.loadBias p := by
  refine ⟨fun h => h.2 entries htable, fun h => ⟨hstraddles, fun entries' htable' => ?_⟩⟩
  rw [← htable.unique htable']
  exact h

/-- So is what the host has to allow: the reads of the walk and the accesses of the tables. -/
lemma passAllowed_iff :
    PassAllowed w image ↔ (∀ e ∈ dynReads w.mem image.dynamicAddr entries, AllowedIn w e) ∧
      ∀ e ∈ (relaEntries w.mem image (tableInfo image.loadBias entries) w.bytes ++
        pltEntries w.mem image (tableInfo image.loadBias entries) w.bytes).flatMap
          (tableEvents w.mem image.loadBias), AllowedIn w e := by
  rw [allowed_dynReads_iff, allowed_tableEvents_iff]
  refine ⟨fun h => h entries htable, fun h entries' htable' => ?_⟩
  rw [← htable.unique htable']
  exact h

end Table

/-- What follows the walk ends without a null result, and it returns with allowed accesses only
exactly if nothing straddles and the host allows the accesses of the two tables. -/
lemma ends_afterWalk (image : GuestElfImage) (report : RelocReport) (hm : s.1.mem.PageAligned)
    (info : DynamicInfo) (walk : List RelocEvent) :
    (∀ t, (afterWalk image info report).run (s.1, s.2 ++ walk) ≠ .ok none t) ∧
      ((∃ last t added, (afterWalk image info report).run (s.1, s.2 ++ walk) = .ok (some last) t ∧
        t.2 = s.2 ++ added ∧ ∀ e ∈ added, AllowedIn s.1 e) ↔
        (∀ p ∈ relaEntries s.1.mem image info s.1.bytes ++ pltEntries s.1.mem image info s.1.bytes,
          ClearOfLastPage s.1.mem image.loadBias p) ∧ (∀ e ∈ walk, AllowedIn s.1 e) ∧
        ∀ e ∈ (relaEntries s.1.mem image info s.1.bytes ++
          pltEntries s.1.mem image info s.1.bytes).flatMap (tableEvents s.1.mem image.loadBias),
            AllowedIn s.1 e) := by
  obtain ⟨hreturns, hrecord⟩ := run_afterWalk image report (s := (s.1, s.2 ++ walk)) hm info
  constructor
  · intro t h
    obtain ⟨_, _, -, hrela⟩ := run_bind_eq_ok_iff.mp h
    obtain ⟨_, _, -, hplt⟩ := run_bind_eq_ok_iff.mp hrela
    obtain ⟨_, _, -, hlast⟩ := run_bind_eq_ok_iff.mp hplt
    cases hlast
  rw [← hreturns]
  -- the record of a run that returns: the walk, the names and the tables
  have hsplit : ∀ last t, (afterWalk image info report).run (s.1, s.2 ++ walk) =
      .ok (some last) t → ∃ added, t.2 = s.2 ++ added ∧ ((∀ e ∈ added, AllowedIn s.1 e) ↔
        (∀ e ∈ walk, AllowedIn s.1 e) ∧
        ∀ e ∈ (relaEntries s.1.mem image info s.1.bytes ++
          pltEntries s.1.mem image info s.1.bytes).flatMap (tableEvents s.1.mem image.loadBias),
            AllowedIn s.1 e) := by
    intro last t hrun
    obtain ⟨reads, hreads, ht⟩ := hrecord last t hrun
    dsimp only at ht
    rw [List.append_assoc, List.append_assoc] at ht
    refine ⟨_, ht, ?_⟩
    rw [List.forall_mem_append, List.forall_mem_append]
    exact and_congr_right fun _ => and_iff_right fun e he => (hreads e he).allowedIn s.1
  constructor
  · rintro ⟨last, t, added, hrun, hadded, hevents⟩
    obtain ⟨added', hadded', hiff⟩ := hsplit last t hrun
    obtain rfl := List.append_cancel_left (hadded.symm.trans hadded')
    exact ⟨⟨last, t, hrun⟩, hiff.mp hevents⟩
  · rintro ⟨⟨last, t, hrun⟩, hevents⟩
    obtain ⟨added, hadded, hiff⟩ := hsplit last t hrun
    exact ⟨last, t, added, hrun, hadded, hiff.mpr hevents⟩

/-- With page-aligned regions and a page below the last one that is not mapped, the pass always
comes to an end.  It returns, and neither throws nor is killed, exactly if nothing it comes to
straddles the first byte of the last page and the host allows its accesses. -/
theorem returns_iff (hm : s.1.mem.PageAligned) (hgap : HasGap s.1.mem) :
    (∀ t, (applyRelocation image report).run s ≠ .ok none t) ∧
      (PassEnds image report s .returned ↔
        image.isDynamic = false ∨ image.dynamicAddr = 0 ∨
          PassClear s.1.mem s.1.bytes image ∧ PassAllowed s.1 image) := by
  unfold PassEnds applyRelocation
  by_cases hskip : image.isDynamic = false ∨ image.dynamicAddr = 0
  · rw [if_pos hskip, ← or_assoc]
    refine ⟨fun _ h => (by cases h), iff_of_true ?_ (Or.inl hskip)⟩
    exact ⟨report, s, [], rfl, (List.append_nil _).symm, List.forall_mem_nil _⟩
  rw [if_neg hskip, ← or_assoc, or_iff_right hskip]
  obtain ⟨entries, hlength, htable⟩ := exists_dynamicTable hgap s.1.bytes image.dynamicAddr
  by_cases hstraddles : Straddles image.dynamicAddr sizeofDyn
  · obtain ⟨e, hwalk⟩ := run_walkDynamic_of_straddles hm image.loadBias {} report hstraddles
    rw [run_bind_of_error hwalk]
    refine ⟨fun _ h => (by cases h), iff_of_false ?_ fun hclear => hclear.1.1 hstraddles⟩
    rintro ⟨last, t, added, h, -⟩
    cases h
  · obtain ⟨walked, hwalk, -⟩ := run_walkDynamic image.loadBias report htable
      (fun hmapped => (accessible_iff hm (by decide) (by decide) hmapped).mpr hstraddles)
      (fun _ => accessible_next hm) hlength {}
    rw [run_bind_of_ok hwalk, passClear_iff htable hstraddles, passAllowed_iff htable]
    exact ends_afterWalk image walked hm (tableInfo image.loadBias entries) _

/-- An image with a dynamic table at an address. -/
def dynamicImage (dynamicAddr : U64) : GuestElfImage :=
  ⟨[], false, true, true, [], 0, 0, 0x1000, 0x3000, dynamicAddr, 0, 0, 0, 0x3000⟩

/-- The word `v` at the address `a`. -/
def wordBytes (a v x : U64) : Byte := if (x - a).toNat < 8 then leByte v (x - a).toNat else 0

/-- Three pages that the host lets be read and written: a dynamic table with a relocation table of
two entries, which relocate the third page. -/
def twoRelocations : World where
  mem := ⟨0, 0x1000, 0x3000, 0x1000, 0x4000, [⟨0x1000, 0x3000, 3, "data"⟩]⟩
  host :=
    { bytes := fun x => ([(0x1000, DT_RELA), (0x1008, 0x1100), (0x1010, DT_RELASZ), (0x1018, 48),
          (0x1100, 0x2000), (0x1108, 8), (0x1110, 0x4242), (0x1118, 0x2008), (0x1120, 8),
          (0x1128, 1)] : List (U64 × U64)).foldl (fun b p => b ||| wordBytes p.1 p.2 x) 0
      prot := fun _ => some (PROT_READ ||| PROT_WRITE) }

/-- The pass applies the two relocations and returns; nothing that it comes to straddles, and the
host allows its accesses. -/
theorem returns_iff_twoRelocations :
    (∃ last t, (applyRelocation (dynamicImage 0x1000) {}).run (twoRelocations, []) =
      .ok (some last) t ∧ last.relocApplied = 2) ∧
    (∀ t, (applyRelocation (dynamicImage 0x1000) {}).run (twoRelocations, []) ≠ .ok none t) ∧
    (PassEnds (dynamicImage 0x1000) {} (twoRelocations, []) .returned ↔
      (dynamicImage 0x1000).isDynamic = false ∨ (dynamicImage 0x1000).dynamicAddr = 0 ∨
        PassClear twoRelocations.mem twoRelocations.bytes (dynamicImage 0x1000) ∧
          PassAllowed twoRelocations (dynamicImage 0x1000)) := by
  have hcheck : Returns (do
      let report ← applyRelocation (dynamicImage 0x1000) {}
      if report.map RelocReport.relocApplied = some 2 then pure () else throw (.logicError ""))
        (twoRelocations, []) := by decide +kernel
  have haligned : twoRelocations.mem.PageAligned := by
    intro r hr
    obtain rfl := List.mem_singleton.mp hr
    decide
  have hgap : HasGap twoRelocations.mem := ⟨0, by decide, by decide, by decide⟩
  refine ⟨?_, returns_iff (s := (twoRelocations, [])) haligned hgap⟩
  obtain ⟨_, _, hrun⟩ := hcheck
  obtain ⟨report, t, hreport, htwo⟩ := run_bind_eq_ok_iff.mp hrun
  split_ifs at htwo with happlied
  · obtain ⟨last, rfl, hlast⟩ := Option.map_eq_some_iff.mp happlied
    exact ⟨last, t, hreport, hlast⟩
  · cases htwo

/-- A guest memory with nothing in it. -/
def nothingMapped : World where
  mem := ⟨0, 0, 0, 0, 0, []⟩
  host := ⟨fun _ => 0, fun _ => none⟩

/-- A dynamic table at the start of the last page: `isMapped` accepts its first entry, and the read
throws. -/
theorem throws_nothingMapped : nothingMapped.mem.PageAligned ∧ HasGap nothingMapped.mem ∧
    ∃ what t, (applyRelocation (dynamicImage 0xfffffffffffff000) {}).run (nothingMapped, []) =
      .error (.outOfRange what) t := by
  refine ⟨fun _ hr => absurd hr List.not_mem_nil, ⟨0, by decide, by decide, rfl⟩, ?_⟩
  have hcheck : (match (applyRelocation (dynamicImage 0xfffffffffffff000) {}).run
        (nothingMapped, []) with
      | .error (.outOfRange _) _ => true
      | _ => false) = true := by decide +kernel
  revert hcheck
  match (applyRelocation (dynamicImage 0xfffffffffffff000) {}).run (nothingMapped, []) with
  | .error (.outOfRange what) t => exact fun _ => ⟨what, t, rfl⟩
  | .error (.runtimeError _) _ => exact fun h => by cases h
  | .error (.logicError _) _ => exact fun h => by cases h
  | .error (.invalidArgument _) _ => exact fun h => by cases h
  | .ok _ _ => exact fun h => by cases h

end Relocation

end InstaX
