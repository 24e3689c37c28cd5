import InstaX.Runtime.ImageContents

/-!
# The span of the image

`computeLoadSpan` is to give the pages that hold all segments of a file.  The end of a segment, the
maximum of the ends and its rounding up are words, so a segment that wraps or ends in the last page
makes the span end early, at zero in the end.  `covers_iff` says that this is the only way to miss a
byte.
-/

namespace InstaX

open Throwing Rounding GuestMemory

/-- A span of whole pages that holds every segment of the list. -/
structure SpanCovers (phdrs : List Elf64_Phdr) (span : U64 × U64) : Prop where
  page_low : 4096 ∣ span.1.toNat
  page_high : 4096 ∣ span.2.toNat
  nonempty : (∃ ph ∈ phdrs, ph.isLoad ∧ 0 < ph.p_memsz.toNat) → span.1.toNat < span.2.toNat
  inside : ∀ ph ∈ phdrs, ph.isLoad →
    span.1.toNat ≤ ph.p_vaddr.toNat ∧ ph.p_vaddr.toNat + ph.p_memsz.toNat ≤ span.2.toNat

namespace ElfMapper

variable {file : ElfFile} {w w' : World}

/-- The computation records that there is a segment. -/
lemma foldl_spanStep_found (l : List Elf64_Phdr) (s : Bool × U64 × U64) :
    (l.foldl spanStep s).1 = (s.1 || l.any Elf64_Phdr.isLoad) := by
  induction l generalizing s with
  | nil => simp
  | cons ph l ih =>
    rw [List.foldl_cons, ih, List.any_cons, ← Bool.or_assoc]
    congr 1
    by_cases hload : ph.p_type = PT_LOAD
    · simp [spanStep, Elf64_Phdr.isLoad, hload]
    · simp [spanStep, Elf64_Phdr.isLoad, hload]

/-- With a segment in the file, the span is computed. -/
lemma returns_computeLoadSpan (hload : ∃ ph ∈ file.phdrs, ph.isLoad) :
    ∃ span, (computeLoadSpan file).run w = .ok span w := by
  have hfound : (file.phdrs.foldl spanStep (false, 0xffffffffffffffff, 0)).1 = true := by
    rw [foldl_spanStep_found, Bool.false_or, List.any_eq_true]
    exact hload
  unfold computeLoadSpan
  rw [if_pos hfound]
  exact ⟨_, rfl⟩

/-- Whenever the span is computed it covers the segments, exactly if every segment ends below the
last page. -/
theorem covers_iff : (∀ span w', (computeLoadSpan file).run w = .ok span w' →
      SpanCovers file.phdrs span) ↔
    ∀ ph ∈ file.phdrs, ph.isLoad → ph.p_vaddr.toNat + ph.p_memsz.toNat ≤ 2 ^ 64 - 4096 := by
  constructor
  · intro h ph hph hload
    obtain ⟨span, hrun⟩ := returns_computeLoadSpan (w := w) ⟨ph, hph, hload⟩
    have hcovers := h span w hrun
    have hend := (hcovers.inside ph hph hload).2
    have hpage := hcovers.page_high
    have hlt := span.2.isLt
    omega
  · intro hfits span w' hrun
    have hinside : ∀ ph ∈ file.phdrs, ph.isLoad → span.1.toNat ≤ ph.p_vaddr.toNat ∧
        ph.p_vaddr.toNat + ph.p_memsz.toNat ≤ span.2.toNat := by
      intro ph hph hload
      have hroom : ∀ q ∈ file.phdrs, q.isLoad →
          q.p_vaddr.toNat + q.p_memsz.toNat + (0 : U64).toNat + 4096 ≤ 2 ^ 64 := by
        intro q hq hqload
        have := hfits q hq hqload
        have hzero : (0 : U64).toNat = 0 := rfl
        omega
      simpa using inside_of_run_computeLoadSpan hrun hroom hph hload
    refine ⟨?_, ?_, ?_, hinside⟩
    · obtain ⟨-, rfl⟩ := run_computeLoadSpan_eq_ok hrun
      rw [toNat_guestPageAlignDown]
      exact Nat.dvd_sub_mod _
    · obtain ⟨-, rfl⟩ := run_computeLoadSpan_eq_ok hrun
      exact dvd_guestPageAlignUp _
    · rintro ⟨ph, hph, hload, hpos⟩
      have := hinside ph hph hload
      omega

/-- A segment of one page at the end of the address space. -/
def lastPageFile : ElfFile where
  path := []
  bytes := []
  ehdr := { e_type := ET_EXEC, e_entry := 0, e_phoff := 64, e_phentsize := 56, e_phnum := 1 }
  phdrs := [{ p_type := PT_LOAD, p_flags := PF_R, p_offset := 0, p_vaddr := 0xfffffffffffff000,
              p_filesz := 0, p_memsz := 0x1000 }]

/-- Its span is computed as the one from its start to zero. -/
theorem not_covers_lastPageFile : (computeLoadSpan lastPageFile).run reservedTwoPages =
      .ok (0xfffffffffffff000, 0) reservedTwoPages ∧
    ¬ SpanCovers lastPageFile.phdrs (0xfffffffffffff000, 0) := by
  have hrun : (computeLoadSpan lastPageFile).run reservedTwoPages =
      .ok (0xfffffffffffff000, 0) reservedTwoPages := rfl
  refine ⟨hrun, fun h => ?_⟩
  have hend := (h.inside _ List.mem_cons_self rfl).2
  exact absurd hend (by decide)

end ElfMapper

end InstaX
