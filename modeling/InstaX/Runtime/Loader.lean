import Mathlib
import InstaX.Runtime.ElfReader
import InstaX.Runtime.FinalPermissions
import InstaX.Runtime.GuestStack
import InstaX.Runtime.Relocation

/-!
# Loading a process

`GuestProcess::load` (`src/runtime/Loader.cpp`) reads a file, reserves its addresses, maps and
relocates it, and builds the initial stack.  In between it refuses a stack that would overlap the
image.  The test is made on the bounds as they were asked for, and its subtraction wraps; the
mapping is made on bounds rounded to pages.  The rounding does no harm, the subtraction does
(`stackApart_iff`).
-/

namespace InstaX

open Throwing Tracing Rounding ByteStore GuestMemory

/-- `LoadOptions` -/
structure LoadOptions where
  pieBase : U64 := 0x400000
  stackTop : U64 := 0x7ffffffff000
  stackSize : U64 := 8 * 1024 * 1024
  fallbackWindowSize : U64 := 4 <<< 30

/-- The state in which the processor enters the guest. -/
structure GuestCpuState where
  rip : U64 := 0
  rsp : U64 := 0
  rdx : U64 := 0

/-- A loaded process; its memory is in the state. -/
structure GuestProcess where
  file : ElfFile
  image : GuestElfImage
  report : RelocReport
  stack : GuestStackImage
  cpu : GuestCpuState

def ElfFile.isFixedExe (file : ElfFile) : Bool := file.ehdr.e_type == ET_EXEC

/-- The bias of an image: none, if its addresses are fixed. -/
def chooseLoadBias (file : ElfFile) (preferredBase : U64) : U64 :=
  if file.isFixedExe then 0 else preferredBase

namespace GuestProcess

/-- Make the guest memory of an image. -/
def makeMemory (k : HostKernel) (imageLow imageHigh fallbackWindowSize : U64) : Prog World Unit :=
  fun w =>
    match (construct k imageLow imageHigh fallbackWindowSize).run w.host with
    | .ok m h => .ok ⟨⟩ ⟨m, h⟩
    | .error e h => .error e { w with host := h }

/-- `guardGap` -/
def guardGap : U64 := 16 * 1024 * 1024

/-- The top of the stack: the one that was asked for, or one below the end of the window. -/
def chooseStackTop (m : GuestMemory) (options : LoadOptions) : U64 :=
  if m.isIdentity then options.stackTop else m.reservedHigh - guardGap

/-- Refuse a stack that would overlap the image. -/
def checkOverlap (loadLow loadHigh stackTop stackSize : U64) : Prog World Unit :=
  if stackTop - stackSize < loadHigh ∧ loadLow < stackTop then
    throw (.runtimeError ("Loader: the stack at 0x" ++ hex stackTop ++
      " would overlap the image at [0x" ++ hex loadLow ++ ", 0x" ++ hex loadHigh ++ ")"))
  else pure ()

/-- Load a file, unless the walk along its dynamic table never ends. -/
def load (write64 : U64 → U64 → Prog World Unit) (k : HostKernel) (path : StdString)
    (input : InputFile) (argv envp : List StdString) (options : LoadOptions) :
    Prog World (Option GuestProcess) := do
  let file ← untraced (ElfReader.readElfFile path input)
  let span ← ElfMapper.computeLoadSpan file
  let bias := chooseLoadBias file options.pieBase
  makeMemory k (span.1 + bias) (span.2 + bias) options.fallbackWindowSize
  let image ← ElfMapper.mapImage k file bias
  match ← untraced (Relocation.applyRelocation image {}) with
  | none => pure none
  | some report => do
    ElfMapper.applyRelro k file image
    let w ← get
    let stackTop := chooseStackTop w.mem options
    checkOverlap image.loadLow image.loadHigh stackTop options.stackSize
    let stack ← GuestStack.buildInitialStack write64 k image argv envp stackTop options.stackSize
    pure (some
      { file := file
        image := image
        report := report
        stack := stack
        cpu := { rip := image.entry, rsp := stack.rsp, rdx := 0 } })

/-! ## The overlap test -/

/-- The pages that the stack is mapped on, without a wrap, start at an address and lie apart from
the image. -/
structure StackApart (loadLow loadHigh stackTop stackSize : U64) : Prop where
  nonneg : (0 : ℤ) ≤ (ceilTo 4096 stackTop.toNat : ℤ) - ceilTo 4096 stackSize.toNat
  disjoint : Disjoint
    (Set.Ico ((ceilTo 4096 stackTop.toNat : ℤ) - ceilTo 4096 stackSize.toNat)
      (ceilTo 4096 stackTop.toNat))
    (Set.Ico (loadLow.toNat : ℤ) loadHigh.toNat)

section Overlap

variable {loadLow loadHigh stackTop stackSize : U64} {w w' : World} {x : Unit}

/-- The check passes exactly if the stack is above or below the image. -/
lemma run_checkOverlap_eq_ok_iff :
    (checkOverlap loadLow loadHigh stackTop stackSize).run w = .ok x w' ↔
      w' = w ∧ (loadHigh ≤ stackTop - stackSize ∨ stackTop ≤ loadLow) := by
  unfold checkOverlap
  split_ifs with h
  · refine iff_of_false (by simp) ?_
    rw [BitVec.lt_def, BitVec.lt_def] at h
    rw [BitVec.le_def, BitVec.le_def]
    omega
  · rw [EStateM.run_pure, EStateM.Result.ok.injEq]
    rw [BitVec.lt_def, BitVec.lt_def] at h
    rw [BitVec.le_def, BitVec.le_def]
    constructor
    · rintro ⟨-, rfl⟩
      exact ⟨rfl, by omega⟩
    · rintro ⟨rfl, -⟩
      exact ⟨rfl, rfl⟩

/-- In numbers, the stack's pages lie on one side of the image. -/
lemma stackApart_iff_le (himage : loadLow < loadHigh) (hsize : 0 < stackSize.toNat) :
    StackApart loadLow loadHigh stackTop stackSize ↔
      ceilTo 4096 stackSize.toNat ≤ ceilTo 4096 stackTop.toNat ∧
        (ceilTo 4096 stackTop.toNat ≤ loadLow.toNat ∨
          loadHigh.toNat + ceilTo 4096 stackSize.toNat ≤ ceilTo 4096 stackTop.toNat) := by
  rw [BitVec.lt_def] at himage
  have hpos := hsize.trans_le (le_ceilTo (p := 4096) (by omega) stackSize.toNat)
  have hsides : Disjoint
      (Set.Ico ((ceilTo 4096 stackTop.toNat : ℤ) - ceilTo 4096 stackSize.toNat)
        (ceilTo 4096 stackTop.toNat))
      (Set.Ico (loadLow.toNat : ℤ) loadHigh.toNat) ↔
        ceilTo 4096 stackTop.toNat ≤ loadLow.toNat ∨
          loadHigh.toNat + ceilTo 4096 stackSize.toNat ≤ ceilTo 4096 stackTop.toNat := by
    rw [Set.Ico_disjoint_Ico]
    omega
  constructor
  · intro h
    have hnonneg := h.nonneg
    exact ⟨by omega, hsides.mp h.disjoint⟩
  · rintro ⟨hle, hside⟩
    exact ⟨by omega, hsides.mpr hside⟩

/-- A stack that passed the test lies apart from the image, exactly if its size does not exceed its
top, or exceeds it only within the last page and the image is above. -/
theorem stackApart_iff (hlow : 4096 ∣ loadLow.toNat) (hhigh : 4096 ∣ loadHigh.toNat)
    (himage : loadLow < loadHigh) (hsize : 0 < stackSize.toNat)
    (hpasses : (checkOverlap loadLow loadHigh stackTop stackSize).run w = .ok x w') :
    StackApart loadLow loadHigh stackTop stackSize ↔
      stackSize ≤ stackTop ∨
        ceilTo 4096 stackSize.toNat = ceilTo 4096 stackTop.toNat ∧
          ceilTo 4096 stackTop.toNat ≤ loadLow.toNat := by
  rw [stackApart_iff_le himage hsize]
  obtain ⟨-, htest⟩ := run_checkOverlap_eq_ok_iff.mp hpasses
  rw [BitVec.lt_def] at himage
  rw [BitVec.le_def, BitVec.le_def] at htest
  rw [BitVec.le_def]
  unfold ceilTo
  by_cases hle : stackSize.toNat ≤ stackTop.toNat
  · -- the subtraction does not wrap, and rounding keeps the order
    rw [BitVec.toNat_sub_of_le (BitVec.le_def.mpr hle)] at htest
    refine iff_of_true ⟨by omega, ?_⟩ (Or.inl hle)
    rcases htest with habove | hbelow
    · exact Or.inr (by omega)
    · exact Or.inl (by omega)
  · omega

/-- The default stack far above an image of two pages. -/
theorem stackApart_iff_default :
    StackApart 0x400000 0x402000 0x7ffffffff000 0x800000 ↔
      (0x800000 : U64) ≤ 0x7ffffffff000 ∨
        ceilTo 4096 (0x800000 : U64).toNat = ceilTo 4096 (0x7ffffffff000 : U64).toNat ∧
          ceilTo 4096 (0x7ffffffff000 : U64).toNat ≤ (0x400000 : U64).toNat := by
  have hpasses : (checkOverlap 0x400000 0x402000 0x7ffffffff000 0x800000).run
      ElfMapper.reservedTwoPages = .ok ⟨⟩ ElfMapper.reservedTwoPages := rfl
  exact stackApart_iff (by decide) (by decide) (by decide) (by decide) hpasses

/-- A stack of nine megabytes below the eighth: the test passes, and the stack would start below
zero and contain the image. -/
theorem not_stackApart_below_zero :
    (checkOverlap 0x400000 0x402000 0x800000 0x900000).run ElfMapper.reservedTwoPages =
        .ok ⟨⟩ ElfMapper.reservedTwoPages ∧
      ¬ StackApart 0x400000 0x402000 0x800000 0x900000 :=
  ⟨rfl, fun h => absurd h.nonneg (by decide)⟩

end Overlap

end GuestProcess

end InstaX
