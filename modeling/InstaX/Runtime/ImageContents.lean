import InstaX.Runtime.ElfMapper
import InstaX.Runtime.GuestBytes

/-!
# The program image in guest memory

`mapImage` maps one fresh range and then treats the segments one after another: it copies the file
bytes of a segment and clears the rest of it.  Either step is a patch of guest memory, both together
are the patch of the segment (`patched_of_run_copySegment`), and segments that do not overlap all
keep their patch.  What no segment covers is still zero from the mapping.  `mapImage_isImage` puts
this together: after `mapImage` the guest's memory is the program image of the file.
-/

namespace InstaX

open Throwing Rounding ByteStore GuestMemory

namespace Elf64_Phdr

/-- A `PT_LOAD` header. -/
def isLoad (ph : Elf64_Phdr) : Bool := ph.p_type == PT_LOAD

/-- The addresses of a segment, before the bias. -/
def memRange (ph : Elf64_Phdr) : Set ℕ :=
  Set.Ico ph.p_vaddr.toNat (ph.p_vaddr.toNat + ph.p_memsz.toNat)

end Elf64_Phdr

/-- The host page that follows or contains the end of a range: `n` rounded up. -/
def HostKernel.roundUpPage (k : HostKernel) (n : ℕ) : ℕ :=
  (n + 2 ^ k.pageBits - 1) / 2 ^ k.pageBits * 2 ^ k.pageBits

/-- A memory holds the program image of a file at a bias: the range encloses the segments, each
segment has its file bytes followed by zeroes, and everything else in the range is zero. -/
structure IsImage (file : ElfFile) (loadBias loadLow loadHigh : U64) (m : U64 → Byte) : Prop where
  inside : ∀ ph ∈ file.phdrs, ph.isLoad → loadLow.toNat ≤ ph.p_vaddr.toNat + loadBias.toNat ∧
    ph.p_vaddr.toNat + ph.p_memsz.toNat + loadBias.toNat ≤ loadHigh.toNat
  file_bytes : ∀ ph ∈ file.phdrs, ph.isLoad → ∀ i < ph.p_filesz.toNat,
    file.bytes[ph.p_offset.toNat + i]? = some (m (ph.p_vaddr + loadBias + BitVec.ofNat 64 i))
  bss : ∀ ph ∈ file.phdrs, ph.isLoad → ∀ i, ph.p_filesz.toNat ≤ i → i < ph.p_memsz.toNat →
    m (ph.p_vaddr + loadBias + BitVec.ofNat 64 i) = 0
  gaps : ∀ x : U64, loadLow.toNat ≤ x.toNat → x.toNat < loadHigh.toNat →
    (∀ ph ∈ file.phdrs, ph.isLoad → x ∉ span (ph.p_vaddr + loadBias) ph.p_memsz.toNat) → m x = 0

namespace ElfMapper

variable {file : ElfFile} {loadBias : U64} {w w' : World}

/-! ## The span of the image -/

/-- The minimum and the maximum enclose every segment, and the maximum is below every bound of the
segments' ends. -/
lemma foldl_spanStep (l : List Elf64_Phdr) (s : Bool × U64 × U64) :
    (l.foldl spanStep s).2.1.toNat ≤ s.2.1.toNat ∧ s.2.2.toNat ≤ (l.foldl spanStep s).2.2.toNat ∧
      (∀ ph ∈ l, ph.isLoad → (l.foldl spanStep s).2.1.toNat ≤ ph.p_vaddr.toNat ∧
        (ph.p_vaddr + ph.p_memsz).toNat ≤ (l.foldl spanStep s).2.2.toNat) ∧
      ∀ bound, s.2.2.toNat ≤ bound →
        (∀ ph ∈ l, ph.isLoad → (ph.p_vaddr + ph.p_memsz).toNat ≤ bound) →
          (l.foldl spanStep s).2.2.toNat ≤ bound := by
  induction l generalizing s with
  | nil => simp
  | cons ph l ih =>
    obtain ⟨hmin, hmax, hall, hbound⟩ := ih (spanStep s ph)
    rw [List.foldl_cons]
    by_cases hload : ph.p_type = PT_LOAD
    · have hstep : spanStep s ph =
          (true, stdMin s.2.1 ph.p_vaddr, stdMax s.2.2 (ph.p_vaddr + ph.p_memsz)) :=
        if_neg (not_not.mpr hload)
      rw [hstep, toNat_stdMin] at hmin
      rw [hstep, toNat_stdMax] at hmax
      rw [hstep, toNat_stdMax] at hbound
      rw [hstep] at hall ⊢
      refine ⟨by omega, by omega, fun q hq hqload => ?_, fun b hs hl => ?_⟩
      · rcases List.mem_cons.mp hq with rfl | hq
        · omega
        · exact hall q hq hqload
      · refine hbound b ?_ fun q hq => hl q (List.mem_cons_of_mem _ hq)
        have := hl ph List.mem_cons_self (by simp [Elf64_Phdr.isLoad, hload])
        omega
    · have hstep : spanStep s ph = s := if_pos hload
      rw [hstep] at hmin hmax hall hbound ⊢
      refine ⟨hmin, hmax, fun q hq hqload => ?_, fun b hs hl =>
        hbound b hs fun q hq => hl q (List.mem_cons_of_mem _ hq)⟩
      rcases List.mem_cons.mp hq with rfl | hq
      · simp [Elf64_Phdr.isLoad, hload] at hqload
      · exact hall q hq hqload

/-- The span of the image is computed without a change of state. -/
lemma run_computeLoadSpan_eq_ok {span : U64 × U64}
    (h : (computeLoadSpan file).run w = .ok span w') :
    w' = w ∧ span = (guestPageAlignDown
      (file.phdrs.foldl spanStep (false, 0xffffffffffffffff, 0)).2.1,
      guestPageAlignUp (file.phdrs.foldl spanStep (false, 0xffffffffffffffff, 0)).2.2) := by
  rw [computeLoadSpan] at h
  split_ifs at h
  · obtain ⟨rfl, rfl⟩ := EStateM.Result.ok.inj h
    exact ⟨rfl, rfl⟩
  · cases h

/-- The biased span encloses the biased segments. -/
lemma inside_of_run_computeLoadSpan {span : U64 × U64}
    (h : (computeLoadSpan file).run w = .ok span w')
    (hfits : ∀ ph ∈ file.phdrs, ph.isLoad →
      ph.p_vaddr.toNat + ph.p_memsz.toNat + loadBias.toNat + 4096 ≤ 2 ^ 64)
    {ph : Elf64_Phdr} (hph : ph ∈ file.phdrs) (hload : ph.isLoad) :
    (span.1 + loadBias).toNat ≤ ph.p_vaddr.toNat + loadBias.toNat ∧
      ph.p_vaddr.toNat + ph.p_memsz.toNat + loadBias.toNat ≤ (span.2 + loadBias).toNat := by
  obtain ⟨-, rfl⟩ := run_computeLoadSpan_eq_ok h
  obtain ⟨-, -, hall, hbound⟩ := foldl_spanStep file.phdrs (false, 0xffffffffffffffff, 0)
  generalize file.phdrs.foldl spanStep (false, 0xffffffffffffffff, 0) = s at hall hbound
  have hend : ∀ q ∈ file.phdrs, q.isLoad →
      (q.p_vaddr + q.p_memsz).toNat = q.p_vaddr.toNat + q.p_memsz.toNat := by
    intro q hq hqload
    have := hfits q hq hqload
    rw [BitVec.toNat_add, Nat.mod_eq_of_lt (by omega)]
  have hmax : s.2.2.toNat ≤ 2 ^ 64 - 4096 - loadBias.toNat := by
    refine hbound _ (Nat.zero_le _) fun q hq hqload => ?_
    rw [hend q hq hqload]
    have := hfits q hq hqload
    omega
  have hhere := hall ph hph hload
  rw [hend ph hph hload] at hhere
  have hfit := hfits ph hph hload
  constructor
  · rw [BitVec.toNat_add, toNat_guestPageAlignDown, Nat.mod_eq_of_lt (by omega)]
    omega
  · rw [BitVec.toNat_add, toNat_guestPageAlignUp (by omega), Nat.mod_eq_of_lt (by omega)]
    omega

/-! ## The content of the segments -/

/-- The patch of a segment: its file bytes, then zeroes. -/
def segmentPatch (file : ElfFile) (loadBias : U64) (ph : Elf64_Phdr) : Set U64 × (U64 → Byte) :=
  (span (ph.p_vaddr + loadBias) ph.p_memsz.toNat, fun x =>
    if (x - (ph.p_vaddr + loadBias)).toNat < ph.p_filesz.toNat then
      file.bytes.getD (ph.p_offset.toNat + (x - (ph.p_vaddr + loadBias)).toNat) 0
    else 0)

/-- The file bytes of a segment lie in the file. -/
def InFile (file : ElfFile) (ph : Elf64_Phdr) : Prop :=
  ph.p_filesz = 0 ∨ ph.p_offset.toNat + ph.p_filesz.toNat ≤ file.bytes.length

/-- The file bytes of a segment are copied to its start. -/
lemma patched_of_run_copyFileBytes {ph : Elf64_Phdr} {x : Unit}
    (h : (copyFileBytes file loadBias ph).run w = .ok x w') :
    w'.mem = w.mem ∧ InFile file ph ∧
      Patched (span (ph.p_vaddr + loadBias) ph.p_filesz.toNat)
        (fun x => file.bytes.getD (ph.p_offset.toNat + (x - (ph.p_vaddr + loadBias)).toNat) 0)
        w.bytes w'.bytes := by
  unfold copyFileBytes at h
  split_ifs at h with hzero hbound
  · obtain ⟨-, rfl⟩ := EStateM.Result.ok.inj h
    rw [hzero]
    exact ⟨rfl, Or.inl hzero, by simpa using patched_empty _ _⟩
  · cases h
  · obtain ⟨hmem, hpatch⟩ := patched_of_run_write h
    exact ⟨hmem, Or.inr (by omega), hpatch⟩

/-- The rest of its memory is cleared. -/
lemma patched_of_run_clearBss {ph : Elf64_Phdr} (hsize : ph.p_filesz.toNat ≤ ph.p_memsz.toNat)
    {x : Unit} (h : (clearBss loadBias ph).run w = .ok x w') :
    w'.mem = w.mem ∧
      Patched (span (ph.p_vaddr + loadBias + BitVec.ofNat 64 ph.p_filesz.toNat)
        (ph.p_memsz.toNat - ph.p_filesz.toNat)) (fun _ => 0) w.bytes w'.bytes := by
  rw [BitVec.ofNat_toNat, BitVec.setWidth_eq]
  unfold clearBss at h
  split_ifs at h with hlt
  · obtain ⟨hmem, hpatch⟩ := patched_of_run_zero h
    rw [BitVec.toNat_sub_of_le (BitVec.le_def.mpr hsize)] at hpatch
    exact ⟨hmem, hpatch⟩
  · obtain ⟨-, rfl⟩ := EStateM.Result.ok.inj h
    rw [gt_iff_lt, BitVec.lt_def] at hlt
    rw [Nat.sub_eq_zero_of_le (by omega), span_zero]
    exact ⟨rfl, patched_empty _ _⟩

/-- A turn of the copy loop writes the patch of its segment. -/
lemma patched_of_run_copySegment {ph : Elf64_Phdr} (hload : ph.isLoad)
    (hsize : ph.p_filesz.toNat ≤ ph.p_memsz.toNat) {x : Unit}
    (h : (copySegment file loadBias ph).run w = .ok x w') :
    w'.mem = w.mem ∧ InFile file ph ∧ Patched (segmentPatch file loadBias ph).1
      (segmentPatch file loadBias ph).2 w.bytes w'.bytes := by
  have htype : ph.p_type = PT_LOAD := by
    simpa [Elf64_Phdr.isLoad] using hload
  unfold copySegment at h
  split_ifs at h with hskip
  · obtain ⟨-, rfl⟩ := EStateM.Result.ok.inj h
    have hzero : ph.p_memsz = 0 := hskip.resolve_left (not_not.mpr htype)
    have hfile : ph.p_filesz = 0 := by
      rw [hzero] at hsize
      exact BitVec.eq_of_toNat_eq (Nat.le_zero.mp hsize)
    refine ⟨rfl, Or.inl hfile, ?_⟩
    rw [segmentPatch, hzero]
    simpa using patched_empty _ _
  · obtain ⟨_, w₁, hcopy, hclear⟩ := run_bind_eq_ok_iff.mp h
    obtain ⟨hmem₁, hfile, hpatch₁⟩ := patched_of_run_copyFileBytes hcopy
    obtain ⟨hmem₂, hpatch₂⟩ := patched_of_run_clearBss hsize hclear
    refine ⟨hmem₂.trans hmem₁, hfile, ?_⟩
    have hlt := ph.p_memsz.isLt
    have happend := Patched.append_span (by omega) hpatch₁ hpatch₂
    rwa [Nat.add_sub_cancel' hsize] at happend

/-- The copy loop writes the patches of the segments, one after another. -/
lemma patches_of_run_copySegments {l : List Elf64_Phdr}
    (hsize : ∀ ph ∈ l, ph.isLoad → ph.p_filesz.toNat ≤ ph.p_memsz.toNat) {x : Unit}
    (h : (forM l (copySegment file loadBias)).run w = .ok x w') :
    w'.mem = w.mem ∧ (∀ ph ∈ l, ph.isLoad → InFile file ph) ∧
      Patches ((l.filter Elf64_Phdr.isLoad).map (segmentPatch file loadBias)) w.bytes w'.bytes := by
  induction l generalizing w with
  | nil =>
    obtain ⟨-, rfl⟩ := EStateM.Result.ok.inj h
    exact ⟨rfl, by simp, .nil _⟩
  | cons ph l ih =>
    rw [List.forM_cons, run_bind_eq_ok_iff] at h
    obtain ⟨_, w₁, hhead, htail⟩ := h
    obtain ⟨hmem, hfile, hpatches⟩ := ih (fun q hq => hsize q (List.mem_cons_of_mem _ hq)) htail
    cases hload : ph.isLoad with
    | true =>
      obtain ⟨hmem₁, hfile₁, hpatch⟩ :=
        patched_of_run_copySegment hload (hsize ph List.mem_cons_self hload) hhead
      rw [List.filter_cons_of_pos hload, List.map_cons]
      exact ⟨hmem.trans hmem₁, List.forall_mem_cons.mpr ⟨fun _ => hfile₁, hfile⟩,
        .cons hpatch hpatches⟩
    | false =>
      have hskip : ph.p_type ≠ PT_LOAD := by
        simpa [Elf64_Phdr.isLoad] using hload
      rw [copySegment, if_pos (Or.inl hskip)] at hhead
      obtain ⟨-, rfl⟩ := EStateM.Result.ok.inj hhead
      rw [List.filter_cons_of_neg (by simp [hload])]
      refine ⟨hmem, List.forall_mem_cons.mpr ⟨fun h => ?_, hfile⟩, hpatches⟩
      rw [hload] at h
      cases h

/-- Segments that do not overlap in the file's address space do not overlap under the bias. -/
lemma pairwise_disjoint_segmentPatch (file : ElfFile) (loadBias : U64) {l : List Elf64_Phdr}
    (hdisjoint : l.Pairwise fun p q => Disjoint p.memRange q.memRange)
    (hfits : ∀ ph ∈ l, ph.p_vaddr.toNat + ph.p_memsz.toNat ≤ 2 ^ 64) :
    (l.map (segmentPatch file loadBias)).Pairwise fun p q => Disjoint p.1 q.1 := by
  rw [List.pairwise_map]
  refine hdisjoint.imp_of_mem fun hp hq hpq => Set.disjoint_left.mpr fun x hxp hxq => ?_
  rw [segmentPatch, ← sub_add_cancel x loadBias, add_mem_span_add] at hxp hxq
  exact Set.disjoint_left.mp hpq ((mem_span_iff (hfits _ hp)).mp hxp)
    ((mem_span_iff (hfits _ hq)).mp hxq)

/-! ## The whole run -/

/-- The permission loop leaves the bytes alone. -/
lemma bytes_of_run_protectSegments {k : HostKernel} {l : List Elf64_Phdr} {x : Unit}
    (h : (forM l (protectSegment k loadBias)).run w = .ok x w') : w'.bytes = w.bytes := by
  refine run_forM_induction (I := fun s => s.bytes = w.bytes) ?_ rfl h
  intro ph _ s t hs hrun
  rw [← hs]
  unfold protectSegment at hrun
  by_cases hskip : ph.p_type ≠ PT_LOAD ∨ ph.p_memsz = 0
  · rw [if_pos hskip] at hrun
    rw [(EStateM.Result.ok.inj hrun).2]
  · rw [if_neg hskip] at hrun
    exact bytes_of_run_protect hrun

/-- Two images that lie in the same place. -/
structure SamePlace (image image' : GuestElfImage) : Prop where
  loadBias : image'.loadBias = image.loadBias
  loadLow : image'.loadLow = image.loadLow
  loadHigh : image'.loadHigh = image.loadHigh
  phdrAddr : image'.phdrAddr = image.phdrAddr

/-- A header neither moves the image nor touches the state. -/
lemma run_noteHeader {ph : Elf64_Phdr} {image image' : GuestElfImage}
    (h : (noteHeader file loadBias image ph).run w = .ok image' w') :
    w' = w ∧ SamePlace image image' := by
  unfold noteHeader at h
  split_ifs at h with hinterp hdynamic
  · obtain ⟨path, w₁, hread, hpure⟩ := run_bind_eq_ok_iff.mp h
    unfold readCString at hread
    split_ifs at hread with hbound
    · cases hread
    · obtain ⟨-, rfl⟩ := EStateM.Result.ok.inj hread
      obtain ⟨rfl, rfl⟩ := EStateM.Result.ok.inj hpure
      exact ⟨rfl, rfl, rfl, rfl, rfl⟩
  · obtain ⟨rfl, rfl⟩ := EStateM.Result.ok.inj h
    exact ⟨rfl, rfl, rfl, rfl, rfl⟩
  · obtain ⟨rfl, rfl⟩ := EStateM.Result.ok.inj h
    exact ⟨rfl, rfl, rfl, rfl, rfl⟩

/-- The other headers neither move the image nor touch the state. -/
lemma run_noteHeaders {l : List Elf64_Phdr} {image image' : GuestElfImage}
    (h : (l.foldlM (noteHeader file loadBias) image).run w = .ok image' w') :
    w' = w ∧ SamePlace image image' := by
  induction l generalizing image w with
  | nil =>
    obtain ⟨rfl, rfl⟩ := EStateM.Result.ok.inj h
    exact ⟨rfl, rfl, rfl, rfl, rfl⟩
  | cons ph l ih =>
    rw [List.foldlM_cons, run_bind_eq_ok_iff] at h
    obtain ⟨next, w₁, hhead, htail⟩ := h
    obtain ⟨rfl, hrest⟩ := ih htail
    obtain ⟨rfl, hstep⟩ := run_noteHeader hhead
    exact ⟨rfl, hrest.loadBias.trans hstep.loadBias, hrest.loadLow.trans hstep.loadLow,
      hrest.loadHigh.trans hstep.loadHigh, hrest.phdrAddr.trans hstep.phdrAddr⟩

/-- The stages of a run of `mapImage`: the span, the mapping, the copy loop and the permission
loop.  The other headers come last. -/
structure MapStages (k : HostKernel) (file : ElfFile) (loadBias : U64) (w w₁ w₂ w' : World)
    (image : GuestElfImage) (bounds : U64 × U64) : Prop where
  span : (computeLoadSpan file).run w = .ok bounds w
  map : (map k (bounds.1 + loadBias) (bounds.2 + loadBias - (bounds.1 + loadBias))
    (kProtRead ||| kProtWrite) "iamge").run w = .ok () w₁
  copy : (forM file.phdrs (copySegment file loadBias)).run w₁ = .ok () w₂
  protect : (forM file.phdrs (protectSegment k loadBias)).run w₂ = .ok () w'
  bias : image.loadBias = loadBias
  loadLow : image.loadLow = bounds.1 + loadBias
  loadHigh : image.loadHigh = bounds.2 + loadBias
  phdrAddr : image.phdrAddr = findPhdrs file loadBias

/-- A mapping that returns goes through its stages. -/
lemma stages_of_run_mapImage {k : HostKernel} {image : GuestElfImage}
    (h : (mapImage k file loadBias).run w = .ok image w') :
    ∃ bounds w₁ w₂, MapStages k file loadBias w w₁ w₂ w' image bounds := by
  rw [mapImage, run_bind_eq_ok_iff] at h
  obtain ⟨bounds, w₀, hspan, h⟩ := h
  dsimp only at h
  obtain ⟨rfl, -⟩ := run_computeLoadSpan_eq_ok hspan
  obtain ⟨_, w₁, hmap, h⟩ := run_bind_eq_ok_iff.mp h
  obtain ⟨_, w₂, hcopy, h⟩ := run_bind_eq_ok_iff.mp h
  obtain ⟨_, w₃, hprotect, hnote⟩ := run_bind_eq_ok_iff.mp h
  obtain ⟨rfl, hplace⟩ := run_noteHeaders hnote
  exact ⟨bounds, w₁, w₂, hspan, hmap, hcopy, hprotect, hplace.loadBias, hplace.loadLow,
    hplace.loadHigh, hplace.phdrAddr⟩

/-- After the mapping of a range, the bytes of the range are zero. -/
lemma bytes_eq_zero_of_run_map {k : HostKernel} {low high : U64} {prot : CInt} {name : String}
    {u : Unit} (h : (map k low (high - low) prot name).run w = .ok u w') {x : U64}
    (hlo : low.toNat ≤ x.toNat) (hhi : x.toNat < high.toNat) : w'.bytes x = 0 := by
  rcases mapsPages_of_run_map h with ⟨hzero, -⟩ | ⟨-, hmaps⟩
  · rw [sub_eq_zero] at hzero
    rw [hzero] at hhi
    omega
  · rw [add_sub_cancel] at hmaps
    have hdown := alignDown_le (k := 12) (by omega) low
    rw [← guestPageSize_eq] at hdown
    refine hmaps.bytes_eq_zero (hdown.trans hlo) ?_
    have hup := le_alignUp_or_eq_zero (k := 12) (by omega) high
    rw [← guestPageSize_eq] at hup
    exact hup.imp_left hhi.trans_le

/-- A range whose end stays below `2 ^ 64` when it is rounded up to a host page keeps a guest page
away from `2 ^ 64`. -/
lemma add_le_of_roundUpPage_lt {k : HostKernel} {n : ℕ} (h : k.roundUpPage n < 2 ^ 64) :
    n + 4096 ≤ 2 ^ 64 := by
  have hpage : 2 ^ 12 ≤ 2 ^ k.pageBits := Nat.pow_le_pow_right (by omega) k.guestPage_le
  have hdvd : 2 ^ k.pageBits ∣ 2 ^ 64 - k.roundUpPage n :=
    Nat.dvd_sub (Nat.pow_dvd_pow 2 k.pageBits_lt.le) (Nat.dvd_mul_left _ _)
  have hle : 2 ^ k.pageBits ≤ 2 ^ 64 - k.roundUpPage n := Nat.le_of_dvd (Nat.sub_pos_of_lt h) hdvd
  have hn : n ≤ k.roundUpPage n := by
    have hdiv := Nat.div_add_mod' (n + 2 ^ k.pageBits - 1) (2 ^ k.pageBits)
    have hmod := Nat.mod_lt (n + 2 ^ k.pageBits - 1) (Nat.two_pow_pos k.pageBits)
    unfold HostKernel.roundUpPage
    omega
  omega

/-- For segments that do not overlap, that are at least as large in memory as in the file, and whose
biased ends stay below `2 ^ 64` also when rounded up to a host page: whenever `mapImage` returns,
the guest's memory between the bounds it reports is the program image. -/
theorem mapImage_isImage {k : HostKernel} {image : GuestElfImage}
    (hdisjoint : (file.phdrs.filter Elf64_Phdr.isLoad).Pairwise fun p q =>
      Disjoint p.memRange q.memRange)
    (hsize : ∀ ph ∈ file.phdrs, ph.isLoad → ph.p_filesz.toNat ≤ ph.p_memsz.toNat)
    (hfits : ∀ ph ∈ file.phdrs, ph.isLoad →
      k.roundUpPage (ph.p_vaddr.toNat + ph.p_memsz.toNat + loadBias.toNat) < 2 ^ 64)
    (hrun : (mapImage k file loadBias).run w = .ok image w') :
    IsImage file loadBias image.loadLow image.loadHigh w'.bytes := by
  replace hfits := fun ph hph hload => add_le_of_roundUpPage_lt (hfits ph hph hload)
  obtain ⟨bounds, w₁, w₂, hstages⟩ := stages_of_run_mapImage hrun
  obtain ⟨-, hfile, hpatches⟩ := patches_of_run_copySegments hsize hstages.copy
  have hbytes := bytes_of_run_protectSegments hstages.protect
  rw [hstages.loadLow, hstages.loadHigh, hbytes]
  -- every segment has its patch
  have hpatch : ∀ ph ∈ file.phdrs, ph.isLoad → ∀ i < ph.p_memsz.toNat,
      w₂.bytes (ph.p_vaddr + loadBias + BitVec.ofNat 64 i) =
        if i < ph.p_filesz.toNat then file.bytes.getD (ph.p_offset.toNat + i) 0 else 0 := by
    intro ph hph hload i hi
    have hlt := ph.p_memsz.isLt
    have hpairwise := pairwise_disjoint_segmentPatch file loadBias hdisjoint
      fun q hq => by
        have := hfits q (List.mem_filter.mp hq).1 (List.mem_filter.mp hq).2
        omega
    have heq := hpatches.eqOn_of_mem hpairwise
      (List.mem_map_of_mem (List.mem_filter.mpr ⟨hph, hload⟩))
      ((mem_span_iff_exists hlt.le).mpr ⟨i, hi, rfl⟩)
    have hi64 : i < 2 ^ 64 := by omega
    rw [heq]
    simp only [segmentPatch, toNat_add_ofNat_sub hi64]
  refine ⟨fun ph hph hload => inside_of_run_computeLoadSpan hstages.span hfits hph hload,
    ?_, ?_, ?_⟩
  · intro ph hph hload i hi
    have hbound : ph.p_offset.toNat + i < file.bytes.length := by
      rcases hfile ph hph hload with hzero | hle
      · rw [hzero] at hi
        exact absurd hi (Nat.not_lt_zero i)
      · omega
    rw [hpatch ph hph hload i (by have := hsize ph hph hload; omega), if_pos hi,
      List.getElem?_eq_getElem hbound, List.getD_eq_getElem?_getD, List.getElem?_eq_getElem hbound]
    rfl
  · intro ph hph hload i hlo hi
    rw [hpatch ph hph hload i hi, if_neg (by omega)]
  · intro x hlo hhi hgap
    rw [hpatches.eq_of_forall_notMem, bytes_eq_zero_of_run_map hstages.map hlo hhi]
    intro p hp
    obtain ⟨ph, hph, rfl⟩ := List.mem_map.mp hp
    exact hgap ph (List.mem_filter.mp hph).1 (List.mem_filter.mp hph).2

/-- A host with 4 KiB pages that maps where `MAP_FIXED` says and refuses everything else. -/
def fixedKernel : HostKernel where
  pageBits := 12
  place := fun _ addr length flag => if length = 0 ∨ flag ≠ .fixed then none else some addr
  reach := fun _ _ length _ => length.toNat
  guestPage_le := le_rfl
  pageBits_lt := by decide
  place_zero := fun _ _ _ => if_pos (Or.inl rfl)
  place_fixed := by
    intro _ _ _ _ hr
    split_ifs at hr
    exact (Option.some.inj hr).symm
  place_free := by
    intro _ _ _ _ _ hflag hr
    rw [if_pos (Or.inr hflag)] at hr
    cases hr

/-- A guest memory that reserved two pages, over a host full of ones. -/
def reservedTwoPages : World where
  mem := ⟨0, 0x400000, 0x2000, 0x400000, 0x402000, []⟩
  host := ⟨fun _ => 1, fun _ => some PROT_NONE⟩

/-- A file with three bytes.  The last two are loaded to the middle of a page, in front of zeroes
that go on to the next page, and the first one is loaded to the start of that page. -/
def tinyFile : ElfFile where
  path := []
  bytes := [0x7f, 0x45, 0x4c]
  ehdr := { e_type := ET_EXEC, e_entry := 0x400000, e_phoff := 64, e_phentsize := 56, e_phnum := 2 }
  phdrs := [
    { p_type := PT_LOAD, p_flags := PF_R ||| PF_W, p_offset := 1, p_vaddr := 0x400800,
      p_filesz := 2, p_memsz := 0x801 },
    { p_type := PT_LOAD, p_flags := PF_R, p_offset := 0, p_vaddr := 0x400000, p_filesz := 1,
      p_memsz := 0x10 }]

/-- The two pages after `mapImage`: the bytes of the file and zeroes, also between the segments. -/
theorem mapImage_isImage_tinyFile :
    ∃ image w', (mapImage fixedKernel tinyFile 0).run reservedTwoPages = .ok image w' ∧
      IsImage tinyFile 0 image.loadLow image.loadHigh w'.bytes := by
  obtain ⟨image, w', hrun⟩ : ∃ image w',
      (mapImage fixedKernel tinyFile 0).run reservedTwoPages = .ok image w' := ⟨_, _, rfl⟩
  refine ⟨image, w', hrun, mapImage_isImage ?_ ?_ ?_ hrun⟩
  · have hfilter : tinyFile.phdrs.filter Elf64_Phdr.isLoad = tinyFile.phdrs := rfl
    rw [hfilter]
    refine List.pairwise_pair.mpr (Set.disjoint_left.mpr fun x hx hx' => ?_)
    have hlow : 0x400800 ≤ x := hx.1
    have hhigh : x < 0x400000 + 0x10 := hx'.2
    omega
  · have hall : ∀ ph ∈ tinyFile.phdrs, ph.p_filesz.toNat ≤ ph.p_memsz.toNat := by decide
    exact fun ph hph _ => hall ph hph
  · have hall : ∀ ph ∈ tinyFile.phdrs,
        fixedKernel.roundUpPage (ph.p_vaddr.toNat + ph.p_memsz.toNat + (0 : U64).toNat) <
          2 ^ 64 := by
      decide
    exact fun ph hph _ => hall ph hph

end ElfMapper

end InstaX
