import InstaX.Runtime.ElfReader
import InstaX.Runtime.HostFaults
import InstaX.Runtime.HostPages
import InstaX.Runtime.Relocation

/-!
# Writes of the loader

The loader maps an image, which ends with the permissions of its segments, and then applies
relocations.  A relocation is written where its target is mapped; nothing asks whether the host
takes the write.  So the writes are allowed exactly when no relocation that is applied has a target
on the pages of a segment without `PF_W`, and those outside the image happen to be writable
(`writes_allowed_iff`).
-/

namespace InstaX

open Throwing Tracing Rounding ByteStore GuestMemory

namespace Relocation

variable {m : GuestMemory} {loadBias : U64} {α β : Type}

/-! ## What is written -/

/-- A relocation is applied: its type is `R_X86_64_RELATIVE` and its target passes the checks of the
write. -/
def Applies (m : GuestMemory) (loadBias : U64) (rela : Elf64_Rela) : Prop :=
  relocType rela.r_info = R_X86_64_RELATIVE ∧ m.Accessible (rela.target loadBias) 8

/-- The writes of a record are those of its entries that are applied. -/
structure Linked (m : GuestMemory) (loadBias : U64) (l : List RelocEvent) : Prop where
  sound : ∀ target value, RelocEvent.wrote target value ∈ l →
    ∃ rela, .entry rela ∈ l ∧ Applies m loadBias rela ∧ target = rela.target loadBias
  complete : ∀ rela, RelocEvent.entry rela ∈ l → Applies m loadBias rela →
    ∃ value, RelocEvent.wrote (rela.target loadBias) value ∈ l

lemma linked_nil : Linked m loadBias [] := ⟨by simp, by simp⟩

/-- Linked records may be put together. -/
lemma Linked.append {l l' : List RelocEvent} (h : Linked m loadBias l)
    (h' : Linked m loadBias l') : Linked m loadBias (l ++ l') where
  sound := by
    intro target value hmem
    rcases List.mem_append.mp hmem with hmem | hmem
    · obtain ⟨rela, hrela, happlies⟩ := h.sound target value hmem
      exact ⟨rela, List.mem_append_left _ hrela, happlies⟩
    · obtain ⟨rela, hrela, happlies⟩ := h'.sound target value hmem
      exact ⟨rela, List.mem_append_right _ hrela, happlies⟩
  complete := by
    intro rela hmem happlies
    rcases List.mem_append.mp hmem with hmem | hmem
    · obtain ⟨value, hwrote⟩ := h.complete rela hmem happlies
      exact ⟨value, List.mem_append_left _ hwrote⟩
    · obtain ⟨value, hwrote⟩ := h'.complete rela hmem happlies
      exact ⟨value, List.mem_append_right _ hwrote⟩

/-- A program that keeps the bookkeeping and the host protection, and whose writes are those of its
entries. -/
def Steady (m : GuestMemory) (loadBias : U64) (x : Traced RelocEvent World α) : Prop :=
  ∀ s t, s.1.mem = m → Leaves x s t → t.1.mem = m ∧ t.1.host.prot = s.1.host.prot ∧
    ∃ added, t.2 = s.2 ++ added ∧ Linked m loadBias added

lemma steady_pure (a : α) : Steady m loadBias (pure a : Traced RelocEvent World α) := by
  intro s t hm h
  obtain rfl := h.eq_of_ok rfl
  exact ⟨hm, rfl, [], (List.append_nil _).symm, linked_nil⟩

/-- Steady programs are steady one after the other. -/
lemma Steady.bind {x : Traced RelocEvent World α} {f : α → Traced RelocEvent World β}
    (hx : Steady m loadBias x) (hf : ∀ a, Steady m loadBias (f a)) :
    Steady m loadBias (x >>= f) := by
  intro s t hm h
  rcases leaves_bind_iff.mp h with ⟨e, hrun⟩ | ⟨a, s', hrun, hrest⟩
  · exact hx s t hm (Or.inr ⟨e, hrun⟩)
  · obtain ⟨hm', hprot, added, hadded, hlinked⟩ := hx s s' hm (Or.inl ⟨a, hrun⟩)
    obtain ⟨hm'', hprot', added', hadded', hlinked'⟩ := hf a s' t hm' hrest
    exact ⟨hm'', hprot'.trans hprot, added ++ added',
      by rw [hadded', hadded, List.append_assoc], hlinked.append hlinked'⟩

/-- A silent program that keeps the bookkeeping and the host protection. -/
lemma steady_silent {x : Prog World α}
    (h : ∀ w w', Leaves x w w' → w'.mem = w.mem ∧ w'.host.prot = w.host.prot) :
    Steady m loadBias (silent x) := by
  rintro s t hm (⟨a, hrun⟩ | ⟨e, hrun⟩)
  · obtain ⟨hok, hrecord⟩ := run_silent_eq_ok_iff.mp hrun
    obtain ⟨hmem, hprot⟩ := h _ _ (Or.inl ⟨a, hok⟩)
    exact ⟨hmem.trans hm, hprot, [], by rw [hrecord, List.append_nil], linked_nil⟩
  · obtain ⟨hthrow, hrecord⟩ := run_silent_eq_error_iff.mp hrun
    obtain ⟨hmem, hprot⟩ := h _ _ (Or.inr ⟨e, hthrow⟩)
    exact ⟨hmem.trans hm, hprot, [], by rw [hrecord, List.append_nil], linked_nil⟩

/-- Looking at the state is steady. -/
lemma steady_get : Steady m loadBias (silent get) := by
  apply steady_silent
  intro w w' h
  obtain rfl := h.eq_of_ok rfl
  exact ⟨rfl, rfl⟩

/-- A read writes nothing. -/
lemma steady_read (a n : U64) : Steady m loadBias (recordedRead a n) := by
  have hread : Steady m loadBias (silent (read a n) : Traced RelocEvent World (List Byte)) := by
    apply steady_silent
    rintro w w' (⟨_, h⟩ | ⟨_, h⟩)
    · obtain ⟨-, -, rfl⟩ := run_read_eq_ok_iff.mp h
      exact ⟨rfl, rfl⟩
    · rw [eq_of_read_throws h]
      exact ⟨rfl, rfl⟩
  have hemit : Steady m loadBias (emit (.read a n) : Traced RelocEvent World Unit) := by
    intro s t hm h
    obtain rfl := h.eq_of_ok (run_emit _ s)
    exact ⟨hm, rfl, _, rfl, ⟨by simp, by simp⟩⟩
  exact hread.bind fun _ => hemit.bind fun _ => steady_pure _

/-- One entry: a write follows it exactly if it is applied. -/
lemma steady_processEntry (report : RelocReport) (rela : Elf64_Rela) :
    Steady m loadBias (processEntry loadBias report rela) := by
  intro s t hm h
  have hskip : ¬ Applies m loadBias rela → Linked m loadBias [.entry rela] := by
    intro hnot
    refine ⟨by simp, fun rela' hmem happlies => ?_⟩
    obtain rfl := RelocEvent.entry.inj (List.mem_singleton.mp hmem)
    exact absurd happlies hnot
  have hpure : ∀ r : RelocReport, ¬ Applies m loadBias rela →
      Leaves (pure r : Traced RelocEvent World RelocReport) (s.1, s.2 ++ [.entry rela]) t →
        t.1.mem = m ∧ t.1.host.prot = s.1.host.prot ∧
          ∃ added, t.2 = s.2 ++ added ∧ Linked m loadBias added := by
    intro r hnot hleaves
    obtain rfl := hleaves.eq_of_ok rfl
    exact ⟨hm, rfl, _, rfl, hskip hnot⟩
  rw [processEntry, leaves_bind_of_ok (run_emit _ s)] at h
  split_ifs at h with htype
  · have hget : (silent get : Traced RelocEvent World World).run (s.1, s.2 ++ [.entry rela]) =
        .ok s.1 (s.1, s.2 ++ [.entry rela]) := rfl
    rw [leaves_bind_of_ok hget, hm] at h
    split_ifs at h with hmapped
    · rcases leaves_bind_iff.mp h with ⟨e, hwrite⟩ | ⟨_, s', hwrite, hrest⟩
      · -- the write throws
        obtain ⟨hthrow, hrecord⟩ := run_silent_eq_error_iff.mp hwrite
        rw [eq_of_write_throws hthrow]
        refine ⟨hm, rfl, _, hrecord, hskip fun happlies => ?_⟩
        obtain ⟨_, _, hok⟩ := returns_write.mpr (hm ▸ happlies.2)
        cases hok.symm.trans hthrow
      · obtain ⟨hok, hrecord⟩ := run_silent_eq_ok_iff.mp hwrite
        have haccess : m.Accessible (rela.target loadBias) 8 := hm ▸ (run_write_eq_ok_iff.mp hok).1
        obtain ⟨hmem, hprot⟩ := frame_of_leaves_write (Or.inl ⟨_, hok⟩)
        rw [leaves_bind_of_ok (run_emit _ s')] at hrest
        obtain ⟨_, hrest⟩ | ⟨_, hrest⟩ := hrest
        · obtain ⟨-, rfl⟩ := EStateM.Result.ok.inj hrest
          refine ⟨hmem.trans hm, hprot,
            [.entry rela, .wrote (rela.target loadBias) (rela.value loadBias)], ?_, ?_, ?_⟩
          · change s'.2 ++ _ = _
            rw [hrecord, List.append_assoc]
            rfl
          · intro target value hwrote
            refine ⟨rela, List.mem_cons_self, ⟨htype, haccess⟩, ?_⟩
            have heq := hwrote
            simp only [List.mem_cons, List.not_mem_nil, or_false, reduceCtorEq, false_or] at heq
            exact (RelocEvent.wrote.inj heq).1
          · intro rela' hentry happlies
            have heq := hentry
            simp only [List.mem_cons, List.not_mem_nil, or_false, reduceCtorEq] at heq
            obtain rfl := RelocEvent.entry.inj heq
            exact ⟨_, List.mem_cons_of_mem _ List.mem_cons_self⟩
        · cases hrest
    · refine hpure _ (fun happlies => hmapped ?_) h
      exact (happlies.2 (by decide)).1
  · exact hpure _ (fun happlies => htype happlies.1) h

/-- A relocation table is processed steadily. -/
lemma steady_processTable (tableAddr tableSize relaEnt : U64) (which : String)
    (report : RelocReport) :
    Steady m loadBias (processTable loadBias tableAddr tableSize relaEnt which report) := by
  have hloop : ∀ n i report,
      Steady m loadBias (processEntries loadBias tableAddr relaEnt which n i report) := by
    intro n
    induction n with
    | zero => exact fun _ _ => steady_pure _
    | succ n ih =>
      intro i report
      rw [processEntries]
      refine steady_get.bind fun w => ?_
      split_ifs
      · exact (steady_read _ _).bind fun _ => (steady_processEntry _ _).bind fun _ => ih _ _
      · exact steady_pure _
  unfold processTable
  split_ifs
  · exact steady_pure _
  · exact hloop _ _ _

/-- The dynamic table is walked steadily. -/
lemma steady_walkDynamic (fuel : ℕ) (addr : U64) (info : DynamicInfo) (report : RelocReport) :
    Steady m loadBias (walkDynamic loadBias fuel addr info report) := by
  induction fuel generalizing addr info with
  | zero => exact steady_pure _
  | succ fuel ih =>
    rw [walkDynamic]
    refine steady_get.bind fun w => ?_
    split_ifs
    · refine (steady_read _ _).bind fun raw => ?_
      dsimp only
      split_ifs
      · exact steady_pure _
      · exact ih _ _
    · exact steady_pure _

/-- The name of a library is read steadily. -/
lemma steady_addLibrary (strTabAddr : U64) (report : RelocReport) (off : U64) :
    Steady m loadBias (addLibrary strTabAddr report off) := by
  have hname : ∀ (addr : U64) (n i : ℕ) (name : StdString),
      Steady m loadBias (readName addr n i name) := by
    intro addr n
    induction n with
    | zero => exact fun _ _ => steady_pure _
    | succ n ih =>
      intro i name
      rw [readName]
      refine steady_get.bind fun w => ?_
      split_ifs
      · refine (steady_read _ _).bind fun raw => ?_
        dsimp only
        split_ifs
        · exact steady_pure _
        · exact ih _ _
      · exact steady_pure _
  unfold addLibrary
  refine (hname _ _ _ _).bind fun name => ?_
  split_ifs <;> exact steady_pure _

/-- So are those of all libraries. -/
lemma steady_addLibraries (strTabAddr : U64) (l : List U64) (report : RelocReport) :
    Steady m loadBias (addLibraries strTabAddr l report) := by
  unfold addLibraries
  split_ifs
  · exact steady_pure _
  · induction l generalizing report with
    | nil => exact steady_pure _
    | cons off l ih =>
      rw [List.foldlM_cons]
      exact (steady_addLibrary _ _ _).bind ih

/-- The whole pass keeps the bookkeeping and the host protection, and writes what its entries
say. -/
theorem steady_applyRelocation (image : GuestElfImage) (report : RelocReport) :
    Steady m image.loadBias (applyRelocation image report) := by
  unfold applyRelocation
  split_ifs
  · exact steady_pure _
  · refine (steady_walkDynamic _ _ _ _).bind fun walked => ?_
    cases walked with
    | none => exact steady_pure _
    | some walked =>
      exact (steady_addLibraries _ _ _).bind fun named => (steady_processTable _ _ _ _ _).bind
        fun rela => (steady_processTable _ _ _ _ _).bind fun plt => steady_pure _

end Relocation

/-! ## Host protection after the mapping -/

/-- A segment that the loops of `mapImage` do not pass over. -/
def Elf64_Phdr.Occupied (ph : Elf64_Phdr) : Prop := ph.p_type = PT_LOAD ∧ ph.p_memsz ≠ 0

instance (ph : Elf64_Phdr) : Decidable ph.Occupied := inferInstanceAs (Decidable (_ ∧ _))

/-- The addresses on the host pages that get the permission of a segment. -/
def segmentPages (k : HostKernel) (loadBias : U64) (ph : Elf64_Phdr) : Set U64 :=
  hull k.pageBits (guestPageAlignDown (ph.p_vaddr + loadBias))
    (guestPageAlignUp (ph.p_vaddr + loadBias + ph.p_memsz))

/-- The addresses on the host pages that are mapped for an image. -/
def imagePages (k : HostKernel) (image : GuestElfImage) : Set U64 :=
  if image.loadLow = image.loadHigh then ∅
  else hull k.pageBits (guestPageAlignDown image.loadLow) (guestPageAlignUp image.loadHigh)

/-- No segment without `PF_W` has the address on its pages, and an address on the pages of no
segment is on the pages of the image, or the host let it be written before. -/
def OnWritablePage (k : HostKernel) (file : ElfFile) (image : GuestElfImage) (w : World) (x : U64) :
    Prop :=
  (∀ ph ∈ file.phdrs, ph.Occupied → x ∈ segmentPages k image.loadBias ph →
    ph.p_flags &&& PF_W ≠ 0) ∧
  ((∀ ph ∈ file.phdrs, ph.Occupied → x ∉ segmentPages k image.loadBias ph) →
    x ∈ imagePages k image ∨ w.HostWritable x)

/-- The guest permission of a segment includes writing exactly if the segment has `PF_W`. -/
lemma protFromPhdrFlags_write_iff (flags : BitVec 32) :
    protFromPhdrFlags flags &&& kProtWrite ≠ 0 ↔ flags &&& PF_W ≠ 0 := by
  unfold protFromPhdrFlags
  split_ifs <;> first
    | exact iff_of_true (by decide) ‹flags &&& PF_W ≠ 0›
    | exact iff_of_false (by decide) ‹¬ flags &&& PF_W ≠ 0›

/-- The host protection of a guest permission takes writes exactly if the permission includes
them. -/
lemma hostProtFor_write_iff (p : CInt) :
    hostProtFor p &&& PROT_WRITE ≠ 0 ↔ p &&& kProtWrite ≠ 0 := by
  unfold hostProtFor
  split_ifs with hnone hwrite
  · rw [hnone]
    exact iff_of_false (by decide) (by decide)
  · exact iff_of_true (by decide) hwrite
  · exact iff_of_false (by decide) hwrite

namespace ElfMapper

variable {k : HostKernel} {file : ElfFile} {loadBias : U64} {w w' : World}

/-- The copy loop keeps the bookkeeping and the host protection. -/
lemma frame_of_run_copySegments {l : List Elf64_Phdr} {u : Unit}
    (h : (forM l (copySegment file loadBias)).run w = .ok u w') :
    w'.mem = w.mem ∧ w'.host.prot = w.host.prot := by
  refine run_forM_induction (I := fun s => s.mem = w.mem ∧ s.host.prot = w.host.prot) ?_
    ⟨rfl, rfl⟩ h
  rintro ph - s t ⟨hmem, hprot⟩ hrun
  rw [← hmem, ← hprot]
  unfold copySegment at hrun
  split_ifs at hrun
  · obtain ⟨-, rfl⟩ := EStateM.Result.ok.inj hrun
    exact ⟨rfl, rfl⟩
  · obtain ⟨_, s₁, hcopy, hclear⟩ := run_bind_eq_ok_iff.mp hrun
    have hfirst : s₁.mem = s.mem ∧ s₁.host.prot = s.host.prot := by
      unfold copyFileBytes at hcopy
      split_ifs at hcopy
      · obtain ⟨-, rfl⟩ := EStateM.Result.ok.inj hcopy
        exact ⟨rfl, rfl⟩
      · cases hcopy
      · exact frame_of_leaves_write (Or.inl ⟨_, hcopy⟩)
    have hsecond : t.mem = s₁.mem ∧ t.host.prot = s₁.host.prot := by
      unfold clearBss at hclear
      split_ifs at hclear
      · exact frame_of_leaves_zero (Or.inl ⟨_, hclear⟩)
      · obtain ⟨-, rfl⟩ := EStateM.Result.ok.inj hclear
        exact ⟨rfl, rfl⟩
    exact ⟨hsecond.1.trans hfirst.1, hsecond.2.trans hfirst.2⟩

/-- A turn of the permission loop. -/
lemma prot_of_run_protectSegment (hk : k.Protects) {ph : Elf64_Phdr} {u : Unit}
    (h : (protectSegment k loadBias ph).run w = .ok u w') (x : U64) :
    w'.mem.hostOffset = w.mem.hostOffset ∧
      (ph.Occupied → x ∈ segmentPages k loadBias ph →
        w'.host.prot (x + w.mem.hostOffset) =
          some (hostProtFor (protFromPhdrFlags ph.p_flags))) ∧
      ((ph.Occupied → x ∉ segmentPages k loadBias ph) →
        w'.host.prot (x + w.mem.hostOffset) = w.host.prot (x + w.mem.hostOffset)) := by
  unfold protectSegment at h
  by_cases hskip : ph.p_type ≠ PT_LOAD ∨ ph.p_memsz = 0
  · rw [if_pos hskip] at h
    obtain ⟨-, rfl⟩ := EStateM.Result.ok.inj h
    refine ⟨rfl, fun hocc => ?_, fun _ => rfl⟩
    exact absurd hskip (not_or.mpr ⟨not_not.mpr hocc.1, hocc.2⟩)
  · rw [if_neg hskip] at h
    rw [not_or, not_not] at hskip
    obtain ⟨hzero, -⟩ | ⟨-, -, rfl⟩ := withProtection_of_run_protect h
    · exact absurd hzero hskip.2
    · refine ⟨rfl, fun _ hx => (prot_withProtection hk x).1 hx, fun hnot => ?_⟩
      exact (prot_withProtection hk x).2 (hnot hskip)

/-- The permission loop over segments whose pages are disjoint. -/
lemma prot_of_run_protectSegments (hk : k.Protects) {l : List Elf64_Phdr}
    (hdisjoint : (l.filter fun ph => decide ph.Occupied).Pairwise fun p q =>
      Disjoint (segmentPages k loadBias p) (segmentPages k loadBias q)) {u : Unit}
    (h : (forM l (protectSegment k loadBias)).run w = .ok u w') (x : U64) :
    w'.mem.hostOffset = w.mem.hostOffset ∧
      (∀ ph ∈ l, ph.Occupied → x ∈ segmentPages k loadBias ph →
        w'.host.prot (x + w.mem.hostOffset) =
          some (hostProtFor (protFromPhdrFlags ph.p_flags))) ∧
      ((∀ ph ∈ l, ph.Occupied → x ∉ segmentPages k loadBias ph) →
        w'.host.prot (x + w.mem.hostOffset) = w.host.prot (x + w.mem.hostOffset)) := by
  induction l generalizing w with
  | nil =>
    obtain ⟨-, rfl⟩ := EStateM.Result.ok.inj h
    exact ⟨rfl, by simp, fun _ => rfl⟩
  | cons q l ih =>
    rw [List.forM_cons, run_bind_eq_ok_iff] at h
    obtain ⟨_, w₁, hhead, htail⟩ := h
    have hsub : (l.filter fun ph => decide ph.Occupied).Sublist
        ((q :: l).filter fun ph => decide ph.Occupied) := (List.sublist_cons_self q l).filter _
    obtain ⟨hoffset, hin, hout⟩ := prot_of_run_protectSegment hk hhead x
    obtain ⟨hoffset', hin', hout'⟩ := ih (hdisjoint.sublist hsub) htail
    rw [hoffset] at hin' hout' hoffset'
    refine ⟨hoffset', fun ph hph hocc hx => ?_, fun hnone => ?_⟩
    · rcases List.mem_cons.mp hph with rfl | hph
      · -- the segments behind it have other pages
        rw [hout' fun p hp hpocc hxp => ?_]
        · exact hin hocc hx
        · rw [List.filter_cons_of_pos (by simpa using hocc), List.pairwise_cons] at hdisjoint
          have hapart := hdisjoint.1 p (List.mem_filter.mpr ⟨hp, by simpa using hpocc⟩)
          exact Set.disjoint_left.mp hapart hx hxp
      · exact hin' ph hph hocc hx
    · rw [hout' fun p hp => hnone p (List.mem_cons_of_mem _ hp), hout (hnone q List.mem_cons_self)]

/-- After the mapping of an image whose segments have disjoint pages, the host lets exactly the
writable pages be written. -/
theorem hostWritable_iff_of_run_mapImage (hk : k.Protects)
    (hdisjoint : (file.phdrs.filter fun ph => decide ph.Occupied).Pairwise fun p q =>
      Disjoint (segmentPages k loadBias p) (segmentPages k loadBias q)) {image : GuestElfImage}
    (hrun : (mapImage k file loadBias).run w = .ok image w') (x : U64) :
    w'.HostWritable x ↔ OnWritablePage k file image w x := by
  obtain ⟨bounds, w₁, w₂, -, hmap, hcopy, hprotect, hbias, hlow, hhigh, -⟩ :=
    stages_of_run_mapImage hrun
  obtain ⟨hmem₂, hprot₂⟩ := frame_of_run_copySegments hcopy
  -- what the mapping leaves
  have himage : w₁.mem.hostOffset = w.mem.hostOffset ∧
      (x ∈ imagePages k image →
        w₁.host.prot (x + w.mem.hostOffset) = some (PROT_READ ||| PROT_WRITE)) ∧
      (x ∉ imagePages k image →
        w₁.host.prot (x + w.mem.hostOffset) = w.host.prot (x + w.mem.hostOffset)) := by
    unfold imagePages
    rw [hlow, hhigh]
    rcases mapsPages_of_run_map hmap with ⟨hzero, rfl⟩ | ⟨hne, hmaps⟩
    · rw [if_pos (sub_eq_zero.mp hzero).symm]
      exact ⟨rfl, fun hx => absurd hx (Set.notMem_empty x), fun _ => rfl⟩
    · rw [if_neg fun heq => hne (sub_eq_zero.mpr heq.symm)]
      rw [add_sub_cancel] at hmaps
      exact ⟨by rw [hmaps.mem], hmaps.prot x⟩
  obtain ⟨hoffset₁, hmapped, hother⟩ := himage
  obtain ⟨hoffset, hin, hout⟩ := prot_of_run_protectSegments hk hdisjoint hprotect x
  rw [hmem₂, hoffset₁] at hin hout hoffset
  rw [hprot₂] at hout
  unfold OnWritablePage World.HostWritable
  rw [hoffset, hbias]
  by_cases hsegment : ∃ ph ∈ file.phdrs, ph.Occupied ∧ x ∈ segmentPages k loadBias ph
  · -- the permission of a segment decides
    obtain ⟨ph, hph, hocc, hx⟩ := hsegment
    constructor
    · rintro ⟨q, hq, hwrite⟩
      refine ⟨fun p hp hpocc hpx => ?_, fun hnone => absurd hx (hnone ph hph hocc)⟩
      rw [hin p hp hpocc hpx] at hq
      rw [← protFromPhdrFlags_write_iff, ← hostProtFor_write_iff, Option.some.inj hq]
      exact hwrite
    · rintro ⟨hall, -⟩
      refine ⟨_, hin ph hph hocc hx, ?_⟩
      rw [hostProtFor_write_iff, protFromPhdrFlags_write_iff]
      exact hall ph hph hocc hx
  · -- no segment: the mapping or what was there before
    have hnone : ∀ ph ∈ file.phdrs, ph.Occupied → x ∉ segmentPages k loadBias ph :=
      fun ph hph hocc hx => hsegment ⟨ph, hph, hocc, hx⟩
    rw [hout hnone]
    constructor
    · intro hwritable
      refine ⟨fun p hp hpocc hpx => absurd hpx (hnone p hp hpocc), fun _ => ?_⟩
      by_cases hx : x ∈ imagePages k image
      · exact Or.inl hx
      · rw [hother hx] at hwritable
        exact Or.inr hwritable
    · rintro ⟨-, hbefore⟩
      rcases hbefore hnone with hx | hwritable
      · rw [hmapped hx]
        exact ⟨_, rfl, by decide⟩
      · by_cases hx : x ∈ imagePages k image
        · rw [hmapped hx]
          exact ⟨_, rfl, by decide⟩
        · rw [hother hx]
          exact hwritable

end ElfMapper

namespace Relocation

/-- On host pages of 4 KiB, after the mapping of an image whose segments have no page in common:
what the relocation pass writes, whether it returns or throws, the host lets be written, exactly if
the target of every relocation that is applied is on writable pages. -/
theorem writes_allowed_iff {k : HostKernel} {file : ElfFile} {loadBias : U64} {w w₁ : World}
    {image : GuestElfImage} {report : RelocReport} {t : World × List RelocEvent}
    (hpage : k.pageBits = 12) (hk : k.Protects)
    (hdisjoint : (file.phdrs.filter fun ph => decide ph.Occupied).Pairwise fun p q =>
      Disjoint (pages (p.p_vaddr + loadBias) p.p_memsz) (pages (q.p_vaddr + loadBias) q.p_memsz))
    (hmap : (ElfMapper.mapImage k file loadBias).run w = .ok image w₁)
    (hrun : Leaves (applyRelocation image report) (w₁, []) t) :
    (∀ target value, RelocEvent.wrote target value ∈ t.2 →
      ∀ x ∈ span target 8, w₁.HostWritable x) ↔
    ∀ rela, RelocEvent.entry rela ∈ t.2 → Applies w₁.mem image.loadBias rela →
      ∀ x ∈ span (rela.target image.loadBias) 8, OnWritablePage k file image w x := by
  have hsegments : (file.phdrs.filter fun ph => decide ph.Occupied).Pairwise fun p q =>
      Disjoint (segmentPages k loadBias p) (segmentPages k loadBias q) := by
    refine hdisjoint.imp_of_mem fun {p q} hp hq hpq => ?_
    have hsubset : ∀ ph ∈ file.phdrs.filter fun ph => decide ph.Occupied,
        segmentPages k loadBias ph ⊆ pages (ph.p_vaddr + loadBias) ph.p_memsz := by
      intro ph hph
      have hocc : ph.Occupied := of_decide_eq_true (List.mem_filter.mp hph).2
      rw [segmentPages, hpage]
      exact hull_subset_pages hocc.2
    exact hpq.mono (hsubset p hp) (hsubset q hq)
  have hwritable := ElfMapper.hostWritable_iff_of_run_mapImage hk hsegments hmap
  obtain ⟨-, -, added, hadded, hlinked⟩ := steady_applyRelocation image report (w₁, []) t rfl hrun
  rw [hadded, List.nil_append]
  constructor
  · intro hallowed rela hrela happlies x hx
    obtain ⟨value, hwrote⟩ := hlinked.complete rela hrela happlies
    exact (hwritable x).mp (hallowed _ value hwrote x hx)
  · intro hpages target value hwrote x hx
    obtain ⟨rela, hrela, happlies, rfl⟩ := hlinked.sound target value hwrote
    exact (hwritable x).mpr (hpages rela hrela happlies x hx)

/-- A file with a read-only segment, which holds a dynamic table and one relocation into the segment
itself, and a page of writable memory. -/
def relocatingContent : FileContent where
  bytes := [0x7f, 0x45, 0x4c, 0x46, 2, 1, 1] ++ List.replicate 9 0 ++ [2, 0, 62, 0] ++
    List.replicate 12 0 ++ [64] ++ List.replicate 21 0 ++ [56, 0, 3] ++ List.replicate 7 0 ++
    -- the program headers
    [1, 0, 0, 0, 4] ++ List.replicate 13 0 ++ [0x40] ++ List.replicate 13 0 ++ [0x30, 1] ++
    List.replicate 7 0 ++ [0x10] ++ List.replicate 14 0 ++
    [1, 0, 0, 0, 6] ++ List.replicate 12 0 ++ [0x10, 0x40] ++ List.replicate 21 0 ++ [1] ++
    List.replicate 15 0 ++
    [2, 0, 0, 0, 4, 0, 0, 0, 0xe8] ++ List.replicate 7 0 ++ [0xe8, 0, 0x40] ++
    List.replicate 13 0 ++ [48] ++ List.replicate 7 0 ++ [48] ++ List.replicate 15 0 ++
    -- the dynamic table
    [7] ++ List.replicate 7 0 ++ [0x18, 1, 0x40] ++ List.replicate 5 0 ++
    [8] ++ List.replicate 7 0 ++ [24] ++ List.replicate 7 0 ++ List.replicate 16 0 ++
    -- the relocation
    [0, 2, 0x40] ++ List.replicate 5 0 ++ [8] ++ List.replicate 7 0 ++ [1] ++ List.replicate 7 0
  length_lt := by decide +kernel

/-- The file as the reader returns it. -/
def selfRelocating : ElfFile where
  path := []
  bytes := relocatingContent.bytes
  ehdr := ElfReader.header relocatingContent.bytes
  phdrs := [
    { p_type := PT_LOAD, p_flags := PF_R, p_offset := 0, p_vaddr := 0x400000, p_filesz := 304,
      p_memsz := 0x1000 },
    { p_type := PT_LOAD, p_flags := PF_R ||| PF_W, p_offset := 0, p_vaddr := 0x401000,
      p_filesz := 0, p_memsz := 1 },
    { p_type := PT_DYNAMIC, p_flags := PF_R, p_offset := 232, p_vaddr := 0x4000e8, p_filesz := 48,
      p_memsz := 48 }]

/-- The reader accepts the file. -/
lemma run_readElfFile_selfRelocating (s : World × List ElfEvent) :
    ∃ t, (ElfReader.readElfFile [] (.content relocatingContent)).run s = .ok selfRelocating t := by
  refine ElfReader.run_readElfFile_eq_ok_iff.mpr ⟨⟨by decide +kernel, by decide, by decide,
    by decide, by decide, by decide, by decide +kernel⟩, fun h => h.1 (by decide), ?_⟩
  have hphdrs : ElfReader.programHeaders relocatingContent.bytes = selfRelocating.phdrs := rfl
  have hshdrs : ElfReader.sectionHeaders relocatingContent.bytes = [] := rfl
  rw [hphdrs, hshdrs]
  rfl

/-- The two pages of the image are apart. -/
lemma pairwise_disjoint_selfRelocating :
    (selfRelocating.phdrs.filter fun ph => decide ph.Occupied).Pairwise fun p q =>
      Disjoint (pages (p.p_vaddr + 0) p.p_memsz) (pages (q.p_vaddr + 0) q.p_memsz) := by
  have hfilter : (selfRelocating.phdrs.filter fun ph => decide ph.Occupied) =
      selfRelocating.phdrs.take 2 := rfl
  have hapart : Disjoint (pages (0x400000 + 0) 0x1000) (pages (0x401000 + 0) 1) := by
    rw [pages_eq_interval (by decide) (by decide), pages_eq_interval (by decide) (by decide)]
    have hend : (guestPageAlignUp (0x400000 + 0 + 0x1000)).toNat = 0x401000 := by decide
    have hstart : (guestPageAlignDown (0x401000 + 0)).toNat = 0x401000 := by decide
    refine Set.disjoint_left.mpr fun x hx hx' => ?_
    rw [mem_interval] at hx hx'
    omega
  rw [hfilter]
  exact List.pairwise_pair.mpr hapart

/-- The equivalence for the relocation into the read-only segment. -/
theorem writes_allowed_iff_selfRelocating : ∃ image w₁ t,
    (ElfMapper.mapImage ElfMapper.fixedKernel selfRelocating 0).run ElfMapper.reservedTwoPages =
      .ok image w₁ ∧
    Leaves (applyRelocation image {}) (w₁, []) t ∧
    ((∀ target value, RelocEvent.wrote target value ∈ t.2 →
      ∀ x ∈ span target 8, w₁.HostWritable x) ↔
    ∀ rela, RelocEvent.entry rela ∈ t.2 → Applies w₁.mem image.loadBias rela →
      ∀ x ∈ span (rela.target image.loadBias) 8,
        OnWritablePage ElfMapper.fixedKernel selfRelocating image
          ElfMapper.reservedTwoPages x) := by
  obtain ⟨image, w₁, hmap⟩ : Returns (ElfMapper.mapImage ElfMapper.fixedKernel selfRelocating 0)
    ElfMapper.reservedTwoPages := by decide +kernel
  obtain ⟨t, hrun⟩ := exists_leaves (applyRelocation image {}) (w₁, [])
  exact ⟨image, w₁, t, hmap, hrun,
    writes_allowed_iff rfl ElfMapper.protects_fixedKernel pairwise_disjoint_selfRelocating
      hmap hrun⟩

/-- The relocation is written into the read-only page of its own segment. -/
theorem selfRelocating_writes_readOnly : ∃ image w₁ report t,
    (∃ u, (ElfReader.readElfFile [] (.content relocatingContent)).run
      (ElfMapper.reservedTwoPages, []) = .ok selfRelocating u) ∧
    (selfRelocating.phdrs.filter fun ph => decide ph.Occupied).Pairwise (fun p q =>
      Disjoint (pages (p.p_vaddr + 0) p.p_memsz) (pages (q.p_vaddr + 0) q.p_memsz)) ∧
    ElfMapper.fixedKernel.pageBits = 12 ∧ ElfMapper.fixedKernel.Protects ∧
    (ElfMapper.mapImage ElfMapper.fixedKernel selfRelocating 0).run ElfMapper.reservedTwoPages =
      .ok image w₁ ∧
    (applyRelocation image {}).run (w₁, []) = .ok report t ∧
    ¬ ∀ target value, RelocEvent.wrote target value ∈ t.2 →
      ∀ x ∈ span target 8, w₁.HostWritable x := by
  -- the whole run, evaluated
  have hcheck : (match (ElfMapper.mapImage ElfMapper.fixedKernel selfRelocating 0).run
        ElfMapper.reservedTwoPages with
      | .ok image w₁ =>
        match (applyRelocation image {}).run (w₁, []) with
        | .ok _ t => decide (.wrote 0x400200 1 ∈ t.2 ∧
            w₁.host.prot (0x400200 + w₁.mem.hostOffset) = some PROT_READ)
        | .error _ _ => false
      | .error _ _ => false) = true := by decide +kernel
  cases hmap : (ElfMapper.mapImage ElfMapper.fixedKernel selfRelocating 0).run
      ElfMapper.reservedTwoPages with
  | error e w₁ =>
    rw [hmap] at hcheck
    cases hcheck
  | ok image w₁ =>
    rw [hmap] at hcheck
    dsimp only at hcheck
    cases hrun : (applyRelocation image {}).run (w₁, []) with
    | error e t =>
      rw [hrun] at hcheck
      cases hcheck
    | ok report t =>
      rw [hrun] at hcheck
      obtain ⟨hwrote, hprot⟩ := of_decide_eq_true hcheck
      refine ⟨image, w₁, report, t, run_readElfFile_selfRelocating _,
        pairwise_disjoint_selfRelocating, rfl, ElfMapper.protects_fixedKernel,
        rfl, hrun, fun h => ?_⟩
      obtain ⟨q, hq, hwrite⟩ := h _ _ hwrote 0x400200 (mem_span.mpr (by decide))
      rw [hprot] at hq
      obtain rfl := Option.some.inj hq
      exact absurd hwrite (by decide)

end Relocation

end InstaX
