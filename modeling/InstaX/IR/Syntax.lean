import Mathlib.Data.BitVec
import InstaX.Foundation.RegisterCode
import InstaX.Foundation.Throwing

/-!
# The intermediate representation

Types, values, instructions and basic blocks of the lifter's intermediate representation
(`src/ir/IR.hpp`, `src/ir/IR.cpp`).  The representation is deliberately not in SSA form: the sixteen
general purpose registers and the four flags are fixed virtual registers that are written many
times, and every other register is a temporary taken from the function's counter.

An instruction is one record for all opcodes, as in the source; the factories `IRInst.makeBinop`,
`IRInst.makeCast`, … fill the fields their opcode family uses.
-/

namespace InstaX

open Throwing

/-- An unsigned 64-bit machine word (`uint64_t`). -/
abbrev U64 := BitVec 64

/-- The value types of the representation (`IRType`, `IRTypeKind`). -/
inductive IRType where
  | void_ | i1 | i8 | i16 | i32 | i64 | f32 | f64 | ptr
  deriving DecidableEq, Repr

/-- The number of bits of a value of the type. -/
@[reducible] def IRType.width : IRType → ℕ
  | .void_ => 0
  | .i1 => 1
  | .i8 => 8
  | .i16 => 16
  | .i32 => 32
  | .i64 => 64
  | .f32 => 32
  | .f64 => 64
  | .ptr => 64

/-- The number of bytes a load or store of the type moves; `void` has none and the source throws. -/
def IRType.byteWidth : IRType → Option ℕ
  | .i1 | .i8 => some 1
  | .i16 => some 2
  | .i32 | .f32 => some 4
  | .i64 | .f64 | .ptr => some 8
  | .void_ => none

/-- The integer types. -/
def IRType.isInteger : IRType → Bool
  | .i1 | .i8 | .i16 | .i32 | .i64 => true
  | _ => false

/-- A value is at most one machine word wide. -/
lemma IRType.width_le (ty : IRType) : ty.width ≤ 64 := by
  cases ty <;> decide

/-- An integer type has at least one bit. -/
lemma IRType.width_pos {ty : IRType} (h : ty.isInteger = true) : 0 < ty.width := by
  cases ty <;> first | decide | exact absurd h (by decide)

/-- Calling conventions. -/
inductive CallingConv where
  | c | win64 | fast | naked
  deriving DecidableEq, Repr

/-- Predicates of an integer comparison. -/
inductive IcmpCond where
  | eq | ne | slt | sle | sgt | sge | ult | ule | ugt | uge
  deriving DecidableEq, Repr

/-- Predicates of a floating point comparison. -/
inductive FcmpCond where
  | oeq | one | olt | ole | ogt | oge | uno | ord
  deriving DecidableEq, Repr

/-- The opcodes. -/
inductive Opcode where
  | mov
  | add | sub | mul | sdiv | udiv | srem | urem | neg
  | and | or | xor | not | shl | lshr | ashr
  | fadd | fsub | fmul | fdiv | fneg
  | zext | sext | trunc | fpext | fptrunc | fptosi | fptoui | sitofp | uitofp
  | inttoptr | ptrtoint | bitcast
  | load | store | alloca
  | icmp | fcmp | select
  | jmp | cjmp | ret | call | phi
  | nop
  deriving DecidableEq, Repr

namespace FlagsVReg

/-- The virtual register of the carry flag. -/
def CF : ℕ := 16
/-- The virtual register of the zero flag. -/
def ZF : ℕ := 17
/-- The virtual register of the sign flag. -/
def SF : ℕ := 18
/-- The virtual register of the overflow flag. -/
def OF : ℕ := 19

end FlagsVReg

/-- A virtual register: an id, and a name that only the printer uses. -/
structure VReg where
  id : ℕ
  debugName : String := " "
  deriving DecidableEq, Repr

/-- What an operand refers to. -/
inductive Payload where
  /-- A virtual register. -/
  | vreg (r : VReg)
  /-- A 64-bit constant. -/
  | imm (value : BitVec 64)
  /-- The address of a symbol of the ELF symbol table. -/
  | global (name : String)
  deriving DecidableEq, Repr

/-- A typed operand. -/
structure IRValue where
  payload : Payload
  type : IRType
  deriving DecidableEq, Repr

namespace IRValue

/-- An operand that reads a virtual register. -/
def makeVReg (id : ℕ) (ty : IRType) (name : String := "") : IRValue :=
  ⟨.vreg ⟨id, name⟩, ty⟩

/-- A constant operand. -/
def makeImm (v : BitVec 64) (ty : IRType) : IRValue := ⟨.imm v, ty⟩

/-- An operand that refers to a symbol. -/
def makeGlobal (name : String) (ty : IRType) : IRValue := ⟨.global name, ty⟩

/-- The id of the virtual register an operand reads, if it reads one. -/
def vregId? (v : IRValue) : Option ℕ :=
  match v.payload with
  | .vreg r => some r.id
  | _ => none

@[simp] lemma makeVReg_type (id : ℕ) (ty : IRType) (name : String) :
    (makeVReg id ty name).type = ty := rfl

@[simp] lemma makeImm_type (v : BitVec 64) (ty : IRType) : (makeImm v ty).type = ty := rfl

@[simp] lemma makeVReg_vregId? (id : ℕ) (ty : IRType) (name : String) :
    (makeVReg id ty name).vregId? = some id := rfl

@[simp] lemma makeImm_vregId? (v : BitVec 64) (ty : IRType) :
    (makeImm v ty).vregId? = none := rfl

end IRValue

/-- Alignment and volatility of a memory access; the alignment is a power of two (the source's
constructor throws otherwise). -/
structure MemFlags where
  alignment : ℕ
  isVolatile : Bool := false
  /-- The constructor's check. -/
  isPowerOfTwo : alignment ≠ 0 ∧ alignment &&& (alignment - 1) = 0
  deriving DecidableEq, Repr

/-- `MemFlags(1)`: no alignment is promised. -/
def MemFlags.unaligned : MemFlags := { alignment := 1, isPowerOfTwo := by decide }

/-- One instruction. -/
structure IRInst where
  opcode : Opcode := .nop
  resultType : IRType := .void_
  sourceAddr : U64 := 0
  dst : Option VReg := none
  operands : List IRValue := []
  icmpCond : Option IcmpCond := none
  fcmpCond : Option FcmpCond := none
  branchTrue : String := ""
  branchFalse : String := ""
  callConv : Option CallingConv := none
  isTailCall : Bool := false
  memFlags : Option MemFlags := none
  allocaBytes : Option U64 := none
  deriving DecidableEq, Repr

namespace IRInst

/-- `dst = castOp src to dstTy` -/
def makeCast (castOp : Opcode) (dst : VReg) (dstTy : IRType) (src : IRValue) : IRInst :=
  { opcode := castOp, dst := some dst, resultType := dstTy, operands := [src] }

/-- `dst = mov ty src` -/
def makeMov (dst : VReg) (ty : IRType) (src : IRValue) : IRInst :=
  { opcode := .mov, dst := some dst, resultType := ty, operands := [src] }

/-- `dst = op ty lhs, rhs` -/
def makeBinop (op : Opcode) (dst : VReg) (ty : IRType) (lhs rhs : IRValue) : IRInst :=
  { opcode := op, dst := some dst, resultType := ty, operands := [lhs, rhs] }

/-- `dst = op ty src` -/
def makeUnop (op : Opcode) (dst : VReg) (ty : IRType) (src : IRValue) : IRInst :=
  { opcode := op, dst := some dst, resultType := ty, operands := [src] }

/-- `dst = icmp cond lhs, rhs` -/
def makeIcmp (cond : IcmpCond) (dst : VReg) (lhs rhs : IRValue) : IRInst :=
  { opcode := .icmp, dst := some dst, resultType := .i1, icmpCond := some cond,
    operands := [lhs, rhs] }

/-- `dst = load loadTy, ptr` -/
def makeLoad (dst : VReg) (loadTy : IRType) (ptr : IRValue) (flags : MemFlags) : IRInst :=
  { opcode := .load, dst := some dst, resultType := loadTy, memFlags := some flags,
    operands := [ptr] }

/-- `store val, ptr` -/
def makeStore (val ptr : IRValue) (flags : MemFlags) : IRInst :=
  { opcode := .store, resultType := .void_, memFlags := some flags, operands := [val, ptr] }

/-- `jmp targetBlock` -/
def makeJmp (targetBlock : String) : IRInst :=
  { opcode := .jmp, resultType := .void_, branchTrue := targetBlock }

/-- `cjmp cond, trueBlock, falseBlock` -/
def makeCjmp (cond : IRValue) (trueBlock falseBlock : String) : IRInst :=
  { opcode := .cjmp, resultType := .void_, branchTrue := trueBlock, branchFalse := falseBlock,
    operands := [cond] }

/-- `dst = call cc retTy callee(args)` -/
def makeCall (dst : Option VReg) (retTy : IRType) (callee : IRValue) (args : List IRValue)
    (cc : CallingConv) (tailCall : Bool) : IRInst :=
  { opcode := .call, dst := dst, resultType := retTy, callConv := some cc, isTailCall := tailCall,
    operands := callee :: args }

/-- `nop` -/
def makeNop : IRInst := { opcode := .nop, resultType := .void_ }

/-- The opcodes that end a block. -/
def isTerminator (i : IRInst) : Bool :=
  match i.opcode with
  | .jmp | .cjmp | .ret => true
  | _ => false

end IRInst

/-- The operands and the destination of an instruction; an operand reads at most one register. -/
instance : RegisterCode IRInst IRValue ℕ where
  operands := IRInst.operands
  register := IRValue.vregId?
  destination i := i.dst.map VReg.id

/-- A basic block. -/
structure IRBasicBlock where
  name : String
  startAddr : U64 := 0
  predecessors : List String := []
  successors : List String := []
  instructions : List IRInst := []
  deriving DecidableEq, Repr

namespace IRBasicBlock

/-- The block already ends with a `jmp`, `cjmp` or `ret`. -/
def isTerminated (b : IRBasicBlock) : Bool :=
  match b.instructions.getLast? with
  | some i => i.isTerminator
  | none => false

/-- The block with instructions appended, with no check. -/
def append (b : IRBasicBlock) (is : List IRInst) : IRBasicBlock :=
  { b with instructions := b.instructions ++ is }

/-- Append one instruction, refusing to go past a terminator. -/
def pushInst (b : IRBasicBlock) (inst : IRInst) : Except Exn IRBasicBlock :=
  if b.isTerminated then
    .error (.logicError ("IRBasicBlock::pushInst: cannot push after a terminator in block '"
      ++ b.name ++ "'"))
  else
    .ok (b.append [inst])

@[simp] lemma append_instructions (b : IRBasicBlock) (is : List IRInst) :
    (b.append is).instructions = b.instructions ++ is := rfl

@[simp] lemma append_nil (b : IRBasicBlock) : b.append [] = b := by
  simp [append]

@[simp] lemma append_append (b : IRBasicBlock) (is js : List IRInst) :
    (b.append is).append js = b.append (is ++ js) := by
  simp [append]

/-- Pushing to a block that is still open appends. -/
lemma pushInst_of_open {b : IRBasicBlock} (h : b.isTerminated = false) (i : IRInst) :
    b.pushInst i = .ok (b.append [i]) := by
  simp [pushInst, h]

/-- Appending leaves a block open when nothing that was appended ends a block. -/
lemma append_open {b : IRBasicBlock} (h : b.isTerminated = false) {is : List IRInst}
    (his : ∀ i ∈ is, i.isTerminator = false) : (b.append is).isTerminated = false := by
  rcases List.eq_nil_or_concat is with rfl | ⟨js, i, rfl⟩
  · simpa using h
  · simp only [isTerminated, append, List.concat_eq_append, ← List.append_assoc,
      List.getLast?_append, List.getLast?_singleton, Option.some_or]
    exact his i (by simp)

end IRBasicBlock

end InstaX
