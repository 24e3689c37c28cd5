import InstaX.Runtime.RelocationRun

/-!
# The needed libraries

The relocation pass is to add the names of the `DT_NEEDED` entries to the image.  The loop over the
characters of a name passes its counter to `read` as the number of bytes, so the first character is
read as no bytes and stays zero: every name is empty, and no library is added
(`neededLibs_of_run`).
-/

namespace InstaX

open Throwing Tracing ByteStore GuestMemory

namespace Relocation

variable {m : GuestMemory} {loadBias tableAddr relaEnt : U64} {which : String} {f : U64 → Byte}
  {s t : World × List RelocEvent} {report last : RelocReport}

/-! ## What the pass leaves alone -/

/-- Counting an entry leaves the libraries. -/
lemma neededLibs_tally (rela : Elf64_Rela) :
    (tally m loadBias report rela).neededLibs = report.neededLibs := by
  unfold tally
  split_ifs <;> rfl

/-- A relocation table does not add libraries. -/
lemma neededLibs_of_run_processEntries {n i : ℕ}
    (hrun : (processEntries loadBias tableAddr relaEnt which n i report).run s = .ok last t) :
    last.neededLibs = report.neededLibs := by
  induction n generalizing i s report with
  | zero =>
    obtain ⟨rfl, -⟩ := EStateM.Result.ok.inj hrun
    rfl
  | succ n ih =>
    by_cases hmapped : s.1.mem.isMapped (entryAddr tableAddr relaEnt i) sizeofRela = true
    · by_cases hread : s.1.mem.Accessible (entryAddr tableAddr relaEnt i) sizeofRela
      · rw [run_processEntries_of_mapped hmapped hread] at hrun
        obtain ⟨next, s', hentry, hrest⟩ := run_bind_eq_ok_iff.mp hrun
        rw [ih hrest]
        by_cases hwrite : WriteFits s.1.mem loadBias
            (relaAt s.1.bytes (entryAddr tableAddr relaEnt i))
        · obtain ⟨t', hsame, -⟩ := run_processEntry report hwrite
            (s := (s.1, s.2 ++ [.read (entryAddr tableAddr relaEnt i) sizeofRela]))
          obtain ⟨rfl, -⟩ := EStateM.Result.ok.inj (hsame.symm.trans hentry)
          exact neededLibs_tally _
        · obtain ⟨e, t', hthrow⟩ := run_processEntry_throws report hwrite
            (s := (s.1, s.2 ++ [.read (entryAddr tableAddr relaEnt i) sizeofRela]))
          cases hthrow.symm.trans hentry
      · obtain ⟨e, hthrow⟩ := run_processEntries_throws hmapped hread
        cases hthrow.symm.trans hrun
    · rw [run_processEntries_of_not_mapped hmapped] at hrun
      obtain ⟨rfl, -⟩ := EStateM.Result.ok.inj hrun
      rfl

/-- So does processing a table. -/
lemma neededLibs_of_run_processTable {tableSize : U64}
    (hrun : (processTable loadBias tableAddr tableSize relaEnt which report).run s = .ok last t) :
    last.neededLibs = report.neededLibs := by
  unfold processTable at hrun
  split_ifs at hrun
  · obtain ⟨rfl, -⟩ := EStateM.Result.ok.inj hrun
    rfl
  · exact neededLibs_of_run_processEntries hrun

/-- The walk along the dynamic table adds at most a note. -/
lemma neededLibs_of_run_walkDynamic {fuel : ℕ} {addr : U64} {info info' : DynamicInfo}
    (hrun : (walkDynamic loadBias fuel addr info report).run s = .ok (some (info', last)) t) :
    last.neededLibs = report.neededLibs := by
  induction fuel generalizing addr info s with
  | zero => cases hrun
  | succ fuel ih =>
    rw [walkDynamic, run_bind_of_ok (run_get s)] at hrun
    split_ifs at hrun with hmapped
    · obtain ⟨raw, s', -, hrest⟩ := run_bind_eq_ok_iff.mp hrun
      dsimp only at hrest
      split_ifs at hrest
      · cases hrest
        rfl
      · exact ih hrest
    · cases hrun
      rfl

/-- No run of the pass adds a library. -/
theorem neededLibs_of_run {image : GuestElfImage}
    (hrun : (applyRelocation image report).run s = .ok (some last) t) :
    last.neededLibs = report.neededLibs := by
  unfold applyRelocation at hrun
  split_ifs at hrun
  · cases hrun
    rfl
  · obtain ⟨walked, s₁, hwalk, hrun⟩ := run_bind_eq_ok_iff.mp hrun
    cases walked with
    | none => cases hrun
    | some walked =>
      obtain ⟨info, walked⟩ := walked
      obtain ⟨named, s₂, hnames, htables⟩ := run_bind_eq_ok_iff.mp hrun
      obtain ⟨rela, s₃, hrela, hsecond⟩ := run_bind_eq_ok_iff.mp htables
      obtain ⟨plt, s₄, hplt, hlast⟩ := run_bind_eq_ok_iff.mp hsecond
      obtain ⟨reads, hnothing, -⟩ :=
        run_addLibraries info.strTabAddr info.neededOffsets walked s₁
      cases hnothing.symm.trans hnames
      cases hlast
      have hnote : (skippedNote plt).neededLibs = plt.neededLibs := by
        unfold skippedNote
        split_ifs <;> rfl
      rw [hnote, neededLibs_of_run_processTable hplt, neededLibs_of_run_processTable hrela,
        neededLibs_of_run_walkDynamic hwalk]

/-! ## What the pass is to add -/

/-- A string at a guest address, up to a terminator, with every byte mapped. -/
structure StringAt (m : GuestMemory) (f : U64 → Byte) (addr : U64) (str : StdString) : Prop where
  mapped : ∀ i ≤ str.length, m.isMapped (addr + BitVec.ofNat 64 i) 1 = true
  chars : ∀ i < str.length, f (addr + BitVec.ofNat 64 i) = str.getD i 0
  no_terminator : 0 ∉ str
  terminated : f (addr + BitVec.ofNat 64 str.length) = 0

/-- The dynamic table of an image, with a string table and the names of the libraries it needs. -/
structure NamesLibraries (w : World) (image : GuestElfImage) (entries : List Elf64_Dyn)
    (names : List StdString) : Prop where
  isDynamic : image.isDynamic = true
  dynamicAddr : image.dynamicAddr ≠ 0
  table : DynamicTable w.mem w.bytes image.dynamicAddr entries
  strTab : (tableInfo image.loadBias entries).strTabAddr ≠ 0
  names : List.Forall₂ (fun off name => name ≠ [] ∧ name.length < 4096 ∧
      StringAt w.mem w.bytes ((tableInfo image.loadBias entries).strTabAddr + off) name)
    (tableInfo image.loadBias entries).neededOffsets names

/-- The offsets of the names are those of the `DT_NEEDED` entries. -/
lemma neededOffsets_foldl (loadBias : U64) (entries : List Elf64_Dyn) (info : DynamicInfo) :
    (entries.foldl (DynamicInfo.add loadBias) info).neededOffsets =
      info.neededOffsets ++ (entries.filter fun dyn => dyn.d_tag = DT_NEEDED).map
        Elf64_Dyn.d_un := by
  induction entries generalizing info with
  | nil => simp
  | cons dyn l ih =>
    rw [List.foldl_cons, ih]
    by_cases hneeded : dyn.d_tag = DT_NEEDED
    · have hadd : (info.add loadBias dyn).neededOffsets = info.neededOffsets ++ [dyn.d_un] := by
        unfold DynamicInfo.add
        rw [hneeded]
        rfl
      rw [hadd, List.filter_cons_of_pos (by simpa using hneeded), List.map_cons, List.append_assoc]
      rfl
    · have hadd : (info.add loadBias dyn).neededOffsets = info.neededOffsets := by
        unfold DynamicInfo.add
        rw [if_neg hneeded]
        split_ifs <;> rfl
      rw [hadd, List.filter_cons_of_neg (by simpa using hneeded)]

/-- Whenever the pass returns, the names of the needed libraries have been added, exactly if there
are none. -/
theorem neededLibs_iff {image : GuestElfImage} {entries : List Elf64_Dyn} {names : List StdString}
    (hnames : NamesLibraries s.1 image entries names)
    (hrun : (applyRelocation image report).run s = .ok (some last) t) :
    last.neededLibs = report.neededLibs ++ names ↔ ∀ dyn ∈ entries, dyn.d_tag ≠ DT_NEEDED := by
  have hoffsets := neededOffsets_foldl image.loadBias entries {}
  have hlength := hnames.names.length_eq
  rw [tableInfo, hoffsets] at hlength
  rw [neededLibs_of_run hrun, List.self_eq_append_right, ← List.length_eq_zero_iff, ← hlength]
  simp

/-- A dynamic table with a string table behind it and one needed library, of the name `c`. -/
def linkedWorld : World where
  mem := ⟨0, 0x400000, 0x2000, 0x400000, 0x402000, [⟨0x400000, 0x2000, kProtRead, "image"⟩]⟩
  host := ⟨fun x => (([5] ++ List.replicate 7 0 ++ [0x30, 0, 0x40] ++ List.replicate 5 0 ++
      [1] ++ List.replicate 7 0 ++ [1] ++ List.replicate 7 0 ++ List.replicate 16 0 ++
      [0, 0x63, 0]).getD (x - 0x400000).toNat 0), fun _ => none⟩

/-- The image with that table. -/
def linkedImage : GuestElfImage :=
  ⟨[], false, true, true, [], 0, 0, 0x400000, 0x402000, 0x400000, 0, 0, 0, 0x402000⟩

/-- Its entries in front of `DT_NULL`. -/
def linkedEntries : List Elf64_Dyn := [⟨DT_STRTAB, 0x400030⟩, ⟨DT_NEEDED, 1⟩]

/-- The table of the example names one library. -/
lemma namesLibraries_linked : NamesLibraries linkedWorld linkedImage linkedEntries [[0x63]] := by
  have hstring : StringAt linkedWorld.mem linkedWorld.bytes
      ((tableInfo linkedImage.loadBias linkedEntries).strTabAddr + 1) [0x63] :=
    ⟨by decide +kernel, by decide +kernel, by decide, by decide +kernel⟩
  refine ⟨rfl, by decide, ⟨by decide +kernel, ?_, by decide, by decide +kernel, ?_, by decide, ?_⟩,
    by decide, ?_⟩
  · rfl
  · rfl
  · exact fun _ => by decide +kernel
  · exact List.Forall₂.cons ⟨by decide, by decide, hstring⟩ List.Forall₂.nil

/-- Its relocation returns. -/
lemma returns_linked : ∃ last t,
    (applyRelocation linkedImage {}).run (linkedWorld, []) = .ok (some last) t := by
  -- the run is followed by an exception for a walk that does not end
  have hreturns : Returns (applyRelocation linkedImage {} >>= fun out =>
      if out.isSome then pure () else throw (.runtimeError "")) (linkedWorld, []) := by
    decide +kernel
  obtain ⟨_, t, hrun⟩ := hreturns
  obtain ⟨out, t', hout, hsome⟩ := run_bind_eq_ok_iff.mp hrun
  cases out with
  | none => cases hsome
  | some last => exact ⟨last, t', hout⟩

/-- The equivalence for the table with one library. -/
theorem neededLibs_iff_linked : ∃ last t,
    (applyRelocation linkedImage {}).run (linkedWorld, []) = .ok (some last) t ∧
      (last.neededLibs = [] ++ [[0x63]] ↔ ∀ dyn ∈ linkedEntries, dyn.d_tag ≠ DT_NEEDED) := by
  obtain ⟨last, t, hrun⟩ := returns_linked
  exact ⟨last, t, hrun, neededLibs_iff namesLibraries_linked hrun⟩

/-- The library `c` is needed and not found. -/
theorem neededLibs_empty_linked : NamesLibraries linkedWorld linkedImage linkedEntries [[0x63]] ∧
    ∃ last t, (applyRelocation linkedImage {}).run (linkedWorld, []) = .ok (some last) t ∧
      last.neededLibs ≠ [] ++ [[0x63]] := by
  obtain ⟨last, t, hrun⟩ := returns_linked
  refine ⟨namesLibraries_linked, last, t, hrun, ?_⟩
  rw [neededLibs_of_run hrun]
  decide

end Relocation

end InstaX
