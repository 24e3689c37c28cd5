import InstaX.Foundation.FixedWidth
import InstaX.IR.Syntax

/-!
# General purpose registers and their parts

The register tables of `src/backend/x86/X86Lifter.cpp` (`canonicalReg`, `typeOfReg`, `gprVRegId`)
beside the architecture's own account of a register name: one of sixteen registers and a part of it
(`ZydisRegister.view`).  The tables know the register and the width of a name but not where the part
starts, which matters for the four high byte registers only (`tables_of_view`).
-/

namespace InstaX

open FixedWidth

/-- Register names of the decoder.  The ones the lifter never mentions are `other`. -/
inductive ZydisRegister where
  | none
  | al | bl | cl | dl | sil | dil | spl | bpl | r8b | r9b | r10b | r11b | r12b | r13b | r14b
  | r15b
  | ah | bh | ch | dh
  | ax | bx | cx | dx | si | di | sp | bp | r8w | r9w | r10w | r11w | r12w | r13w | r14w | r15w
  | eax | ebx | ecx | edx | esi | edi | esp | ebp | r8d | r9d | r10d | r11d | r12d | r13d | r14d
  | r15d
  | rax | rbx | rcx | rdx | rsi | rdi | rsp | rbp | r8 | r9 | r10 | r11 | r12 | r13 | r14 | r15
  | rip
  | other (code : ℕ)
  deriving DecidableEq, Repr

/-- The 64-bit register a general purpose register name is an alias of; other names are their own
canonical form. -/
def canonicalReg : ZydisRegister → ZydisRegister
  | .al | .ah | .ax | .eax | .rax => .rax
  | .bl | .bh | .bx | .ebx | .rbx => .rbx
  | .cl | .ch | .cx | .ecx | .rcx => .rcx
  | .dl | .dh | .dx | .edx | .rdx => .rdx
  | .sil | .si | .esi | .rsi => .rsi
  | .dil | .di | .edi | .rdi => .rdi
  | .spl | .sp | .esp | .rsp => .rsp
  | .bpl | .bp | .ebp | .rbp => .rbp
  | .r8b | .r8w | .r8d | .r8 => .r8
  | .r9b | .r9w | .r9d | .r9 => .r9
  | .r10b | .r10w | .r10d | .r10 => .r10
  | .r11b | .r11w | .r11d | .r11 => .r11
  | .r12b | .r12w | .r12d | .r12 => .r12
  | .r13b | .r13w | .r13d | .r13 => .r13
  | .r14b | .r14w | .r14d | .r14 => .r14
  | .r15b | .r15w | .r15d | .r15 => .r15
  | reg => reg

/-- The type a register name is accessed at: every name outside the tables is 64 bits wide. -/
def typeOfReg : ZydisRegister → IRType
  | .al | .bl | .cl | .dl | .sil | .dil | .spl | .bpl | .r8b | .r9b | .r10b | .r11b | .r12b
  | .r13b | .r14b | .r15b
  | .ah | .bh | .ch | .dh => .i8
  | .ax | .bx | .cx | .dx | .si | .di | .sp | .bp | .r8w | .r9w | .r10w | .r11w | .r12w | .r13w
  | .r14w | .r15w => .i16
  | .eax | .ebx | .ecx | .edx | .esi | .edi | .esp | .ebp | .r8d | .r9d | .r10d | .r11d | .r12d
  | .r13d | .r14d | .r15d => .i32
  | _ => .i64

/-- The fixed virtual register of a canonical register; `none` is the source's `UINT32_MAX`. -/
def gprVRegId : ZydisRegister → Option ℕ
  | .rax => some 0
  | .rbx => some 1
  | .rcx => some 2
  | .rdx => some 3
  | .rsi => some 4
  | .rdi => some 5
  | .rsp => some 6
  | .rbp => some 7
  | .r8 => some 8
  | .r9 => some 9
  | .r10 => some 10
  | .r11 => some 11
  | .r12 => some 12
  | .r13 => some 13
  | .r14 => some 14
  | .r15 => some 15
  | _ => .none

/-! ## The architecture -/

/-- The sixteen general purpose registers. -/
inductive Gpr where
  | rax | rbx | rcx | rdx | rsi | rdi | rsp | rbp | r8 | r9 | r10 | r11 | r12 | r13 | r14 | r15
  deriving DecidableEq, Repr

/-- The virtual register that stands for a general purpose register. -/
def Gpr.vregId : Gpr → ℕ
  | .rax => 0
  | .rbx => 1
  | .rcx => 2
  | .rdx => 3
  | .rsi => 4
  | .rdi => 5
  | .rsp => 6
  | .rbp => 7
  | .r8 => 8
  | .r9 => 9
  | .r10 => 10
  | .r11 => 11
  | .r12 => 12
  | .r13 => 13
  | .r14 => 14
  | .r15 => 15

/-- The parts of a register that have a name. -/
inductive RegPart where
  | low8 | high8 | word | dword | qword
  deriving DecidableEq, Repr

/-- The type a part is accessed at. -/
@[reducible] def RegPart.type : RegPart → IRType
  | .low8 | .high8 => .i8
  | .word => .i16
  | .dword => .i32
  | .qword => .i64

/-- The first bit of a part. -/
def RegPart.offset : RegPart → ℕ
  | .high8 => 8
  | _ => 0

/-- The register and the part of it that a name refers to. -/
def ZydisRegister.view : ZydisRegister → Option (Gpr × RegPart)
  | .al => some (.rax, .low8)
  | .bl => some (.rbx, .low8)
  | .cl => some (.rcx, .low8)
  | .dl => some (.rdx, .low8)
  | .sil => some (.rsi, .low8)
  | .dil => some (.rdi, .low8)
  | .spl => some (.rsp, .low8)
  | .bpl => some (.rbp, .low8)
  | .r8b => some (.r8, .low8)
  | .r9b => some (.r9, .low8)
  | .r10b => some (.r10, .low8)
  | .r11b => some (.r11, .low8)
  | .r12b => some (.r12, .low8)
  | .r13b => some (.r13, .low8)
  | .r14b => some (.r14, .low8)
  | .r15b => some (.r15, .low8)
  | .ah => some (.rax, .high8)
  | .bh => some (.rbx, .high8)
  | .ch => some (.rcx, .high8)
  | .dh => some (.rdx, .high8)
  | .ax => some (.rax, .word)
  | .bx => some (.rbx, .word)
  | .cx => some (.rcx, .word)
  | .dx => some (.rdx, .word)
  | .si => some (.rsi, .word)
  | .di => some (.rdi, .word)
  | .sp => some (.rsp, .word)
  | .bp => some (.rbp, .word)
  | .r8w => some (.r8, .word)
  | .r9w => some (.r9, .word)
  | .r10w => some (.r10, .word)
  | .r11w => some (.r11, .word)
  | .r12w => some (.r12, .word)
  | .r13w => some (.r13, .word)
  | .r14w => some (.r14, .word)
  | .r15w => some (.r15, .word)
  | .eax => some (.rax, .dword)
  | .ebx => some (.rbx, .dword)
  | .ecx => some (.rcx, .dword)
  | .edx => some (.rdx, .dword)
  | .esi => some (.rsi, .dword)
  | .edi => some (.rdi, .dword)
  | .esp => some (.rsp, .dword)
  | .ebp => some (.rbp, .dword)
  | .r8d => some (.r8, .dword)
  | .r9d => some (.r9, .dword)
  | .r10d => some (.r10, .dword)
  | .r11d => some (.r11, .dword)
  | .r12d => some (.r12, .dword)
  | .r13d => some (.r13, .dword)
  | .r14d => some (.r14, .dword)
  | .r15d => some (.r15, .dword)
  | .rax => some (.rax, .qword)
  | .rbx => some (.rbx, .qword)
  | .rcx => some (.rcx, .qword)
  | .rdx => some (.rdx, .qword)
  | .rsi => some (.rsi, .qword)
  | .rdi => some (.rdi, .qword)
  | .rsp => some (.rsp, .qword)
  | .rbp => some (.rbp, .qword)
  | .r8 => some (.r8, .qword)
  | .r9 => some (.r9, .qword)
  | .r10 => some (.r10, .qword)
  | .r11 => some (.r11, .qword)
  | .r12 => some (.r12, .qword)
  | .r13 => some (.r13, .qword)
  | .r14 => some (.r14, .qword)
  | .r15 => some (.r15, .qword)
  | .none | .rip | .other _ => .none

/-- The register file of the architecture. -/
abbrev RegFile := Gpr → BitVec 64

/-- The value of a part of a register. -/
def RegPart.read (p : RegPart) (x : BitVec 64) : BitVec p.type.width :=
  (x >>> p.offset).setWidth p.type.width

/-- A register after one of its parts was written: 32-bit writes clear the upper half, narrower
writes keep every bit outside the part. -/
def RegPart.write (p : RegPart) (x : BitVec 64) (v : BitVec p.type.width) : BitVec 64 :=
  match p with
  | .qword => v
  | .dword => v.setWidth 64
  | .low8 | .high8 | .word => insertBits x p.offset v

namespace RegFile

/-- Read a part of a register. -/
def read (f : RegFile) (g : Gpr) (p : RegPart) : BitVec p.type.width := p.read (f g)

/-- Write a part of a register. -/
def write (f : RegFile) (g : Gpr) (p : RegPart) (v : BitVec p.type.width) : RegFile :=
  Function.update f g (p.write (f g) v)

end RegFile

/-- Distinct registers have distinct virtual registers. -/
lemma Gpr.vregId_injective : Function.Injective Gpr.vregId := by
  intro g h hgh
  cases g <;> cases h <;> first | rfl | exact absurd hgh (by decide)

/-- The virtual registers of the general purpose registers are the first sixteen. -/
lemma Gpr.vregId_lt (g : Gpr) : g.vregId < 16 := by
  cases g <;> decide

/-- A tracked register has one of the first sixteen virtual registers. -/
lemma gprVRegId_lt {reg : ZydisRegister} {id : ℕ} (h : gprVRegId reg = some id) : id < 16 := by
  unfold gprVRegId at h
  split at h <;> cases h <;> decide

/-- What the tables say of a general purpose register name: its register and its width. -/
lemma tables_of_view {r : ZydisRegister} {g : Gpr} {p : RegPart} (h : r.view = some (g, p)) :
    gprVRegId (canonicalReg r) = some g.vregId ∧ typeOfReg r = p.type := by
  cases r <;> cases h <;> exact ⟨rfl, rfl⟩

end InstaX
