import InstaX.X86.Register

/-!
# Decoded instructions

The decoder's records (`ZydisDecodedOperand`, `ZydisDecodedInstruction`) with the fields that the
disassembler, the control flow graph and the lifter read.  An operand carries the register, memory
and immediate parts side by side; the parts its type does not use keep their default values.
-/

namespace InstaX

/-- The mnemonics the program distinguishes. -/
inductive ZydisMnemonic where
  | nop | mov | movzx | movsx | movsxd | lea
  | add | sub | imul | idiv | div | and | or | xor | not | neg | shl | shr | sar
  | inc | dec | cmp | test
  | jz | jnz | js | jns | jo | jno | jb | jnb | jbe | jnbe | jl | jnl | jle | jnle | jp | jnp
  | jmp | call | ret | retf | loop | loope | loopne
  | other (code : ℕ)
  deriving DecidableEq, Repr

/-- What kind of thing an operand is. -/
inductive ZydisOperandType where
  | unused | register | memory | pointer | immediate
  deriving DecidableEq, Repr

/-- The displacement of a memory operand. -/
structure ZydisDisp where
  hasDisplacement : Bool := false
  value : BitVec 64 := 0
  deriving DecidableEq, Repr

/-- A memory operand. -/
structure ZydisMem where
  base : ZydisRegister := .none
  index : ZydisRegister := .none
  scale : BitVec 8 := 0
  disp : ZydisDisp := {}
  deriving DecidableEq, Repr

/-- An immediate operand.  The source reads the same 64 bits through a signed and an unsigned
member of a union. -/
structure ZydisImm where
  isSigned : Bool := false
  isRelative : Bool := false
  value : BitVec 64 := 0
  deriving DecidableEq, Repr

/-- An operand; `size` is its encoded size in bits. -/
structure ZydisDecodedOperand where
  type : ZydisOperandType := .unused
  size : ℕ := 0
  reg : ZydisRegister := .none
  mem : ZydisMem := {}
  imm : ZydisImm := {}
  deriving DecidableEq, Repr

/-- The decoder's record of an instruction. -/
structure ZydisDecodedInstruction where
  mnemonic : ZydisMnemonic
  length : BitVec 8 := 1
  operandCountVisible : BitVec 8 := 0
  operands : List ZydisDecodedOperand := []
  deriving DecidableEq, Repr

/-- An operand by its position; positions past the end are unused operands. -/
def ZydisDecodedInstruction.op (z : ZydisDecodedInstruction) (k : ℕ) : ZydisDecodedOperand :=
  z.operands.getD k {}

/-- An instruction of the guest program, at its address. -/
structure DecodedInstr where
  va : U64
  length : BitVec 8
  zydis : ZydisDecodedInstruction
  deriving DecidableEq, Repr

/-- The address of the instruction that follows. -/
def DecodedInstr.nextVA (di : DecodedInstr) : U64 := di.va + di.length.setWidth 64

/-- The visible operands, in order. -/
def ZydisDecodedInstruction.visibleOps (z : ZydisDecodedInstruction) :
    List ZydisDecodedOperand :=
  (List.range z.operandCountVisible.toNat).map z.op

/-- The first visible operand that is a relative branch displacement. -/
def ZydisDecodedInstruction.relativeOp? (z : ZydisDecodedInstruction) :
    Option ZydisDecodedOperand :=
  z.visibleOps.find? fun op => op.type == .immediate && op.imm.isRelative

/-- The target of a relative branch, relative to the address of the next instruction; zero when
there is no relative operand. -/
def DecodedInstr.relativeTarget (di : DecodedInstr) : U64 :=
  match di.zydis.relativeOp? with
  | some op => di.nextVA + op.imm.value
  | none => 0

end InstaX
