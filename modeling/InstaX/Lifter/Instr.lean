import InstaX.Lifter.Registers

/-!
# Lifting instructions

`computeAddr`, `readOperand`, `writeOperand` and `liftInstr` (`src/backend/x86/X86Lifter.cpp`), case
by case.  Each operation takes a temporary for its result
(`defineTemp`).  Four cases are not as one would expect: `MOV` has no `break` and falls through into
`MOVZX`, `LEA` narrows the address to 16 bits and hands it on as 64, a RIP-relative address adds its
displacement twice, and the switch has no default.
-/

namespace InstaX

open Throwing

/-- The condition a conditional jump asks for. -/
def flagRequestForJcc : ZydisMnemonic → Option FlagRequest
  | .jz => some .zf
  | .jnz => some .notZf
  | .js => some .sf
  | .jns => some .notSf
  | .jo => some .of
  | .jno => some .notOf
  | .jb => some .cf
  | .jnb => some .notCf
  | .jbe => some .cfOrZf
  | .jnbe => some .notCfAndNotZf
  | .jl => some .sfXorOf
  | .jnl => some .notSfXorOf
  | .jle => some .zfOrSfXorOf
  | .jnle => some .notZfAndNotSfXorOf
  | _ => none

/-- The integer type of an encoded size, with the type taken for other sizes. -/
def sizedType (other : IRType) (size : ℕ) : IRType :=
  if size = 8 then .i8 else if size = 16 then .i16 else if size = 32 then .i32 else other

namespace FunctionLifter

variable (ctx : LiftContext)

/-- Take a temporary, append the instruction that defines it, and return it as an operand. -/
def defineTemp (ty : IRType) (inst : ℕ → IRInst) : LiftM IRValue := do
  let id ← newTemp
  pushInst (inst id)
  return .makeVReg id ty

/-- The base of an address.  An address without a base starts as zero, so that the source's
`hasAddr` makes no difference. -/
def addrBase (mem : ZydisMem) : LiftM IRValue :=
  if mem.base ≠ .none ∧ mem.base ≠ .rip then withBlockArg ctx (readReg ctx mem.base)
  else if mem.base = .rip then return .makeImm mem.disp.value .i64
  else return .makeImm 0 .i64

/-- The index register times the scale. -/
def scaledIndex (mem : ZydisMem) : LiftM IRValue := do
  let idx ← withBlockArg ctx (readReg ctx mem.index)
  if 1 < mem.scale.toNat then
    defineTemp .i64 fun id =>
      .makeBinop .mul ⟨id, "idx_scaled"⟩ .i64 idx (.makeImm (mem.scale.setWidth 64) .i64)
  else return idx

/-- Add the scaled index, if there is an index register. -/
def addIndex (mem : ZydisMem) (addr : IRValue) : LiftM IRValue :=
  if mem.index ≠ .none then do
    let idx ← scaledIndex ctx mem
    defineTemp .i64 fun id => .makeBinop .add ⟨id, "addr_idx"⟩ .i64 addr idx
  else return addr

/-- Add the displacement, if there is one. -/
def addDisp (mem : ZydisMem) (addr : IRValue) : LiftM IRValue :=
  if mem.disp.hasDisplacement ∧ mem.disp.value ≠ 0 then
    defineTemp .i64 fun id =>
      .makeBinop .add ⟨id, "addr_disp"⟩ .i64 addr (.makeImm mem.disp.value .i64)
  else return addr

/-- The address of a memory operand, as a pointer. -/
def computeAddr (memOp : ZydisDecodedOperand) : LiftM IRValue := do
  let base ← addrBase ctx memOp.mem
  let sum ← addIndex ctx memOp.mem base
  let addr ← addDisp memOp.mem sum
  defineTemp .ptr fun id => .makeCast .inttoptr ⟨id, "mem_ptr"⟩ .ptr addr

/-- The value of a source operand; the hint types immediates and loads. -/
def readOperand (op : ZydisDecodedOperand) (typeHint : IRType) : LiftM IRValue :=
  match op.type with
  | .register => withBlockArg ctx (readReg ctx op.reg)
  | .immediate => return .makeImm op.imm.value typeHint
  | .memory => do
      let ptr ← computeAddr ctx op
      defineTemp typeHint fun id => .makeLoad ⟨id, "mem_load"⟩ typeHint ptr .unaligned
  | .unused | .pointer => return .makeImm 0 .i64

/-- Write a destination operand. -/
def writeOperand (op : ZydisDecodedOperand) (val : IRValue) : LiftM Unit :=
  match op.type with
  | .register => withBlockArg ctx (writeReg ctx op.reg val)
  | .memory => do
      let ptr ← computeAddr ctx op
      pushInst (.makeStore val ptr .unaligned)
  | .immediate | .unused | .pointer => return ()

/-- The type a `mov` moves. -/
def movType (dst src : ZydisDecodedOperand) : IRType :=
  if dst.type = .register then typeOfReg dst.reg
  else if dst.type = .memory ∧ src.type = .register then typeOfReg src.reg
  else sizedType .i64 src.size

/-- The type a `movzx` or `movsx` reads. -/
def extSrcType (src : ZydisDecodedOperand) : IRType :=
  if src.type = .register then typeOfReg src.reg else sizedType .i8 src.size

/-- The type of an operation on a destination that is a register or has an encoded size. -/
def arithType (dst : ZydisDecodedOperand) : IRType :=
  if dst.type = .register then typeOfReg dst.reg else sizedType .i64 dst.size

/-- The type of a comparison. -/
def cmpType (dst : ZydisDecodedOperand) : IRType :=
  if dst.type = .register then typeOfReg dst.reg else ctx.typeFromEncodedSize dst.size

/-- The `MOV` case up to its missing `break`. -/
def liftMov (z : ZydisDecodedInstruction) : LiftM Unit := do
  let dstTy := movType (z.op 0) (z.op 1)
  let src ← readOperand ctx (z.op 1) dstTy
  writeOperand ctx (z.op 0) src

/-- The `MOVZX` and `MOVSX` cases, which differ in the conversion.  The source does not declare
`src` in the `MOVSX` case; it is read as in the `MOVZX` case. -/
def liftMovExt (castOp : Opcode) (name : String) (z : ZydisDecodedInstruction) : LiftM Unit := do
  let srcTy := extSrcType (z.op 1)
  let dstTy := typeOfReg (z.op 0).reg
  let src ← readOperand ctx (z.op 1) srcTy
  let val ← defineTemp dstTy fun id => .makeCast castOp ⟨id, name⟩ dstTy src
  withBlockArg ctx (writeReg ctx (z.op 0).reg val)

/-- The `LEA` case. -/
def liftLea (z : ZydisDecodedInstruction) : LiftM Unit := do
  let addrPtr ← computeAddr ctx (z.op 1)
  let val ← defineTemp .i64 fun id => .makeCast .ptrtoint ⟨id, "lea"⟩ .i16 addrPtr
  withBlockArg ctx (writeReg ctx (z.op 0).reg val)

/-- Emit a binary operation on two operands; returns the result and both operand values. -/
def binopCode (op : Opcode) (name : String) (ty : IRType) (x y : ZydisDecodedOperand) :
    LiftM (IRValue × IRValue × IRValue) := do
  let lhs ← readOperand ctx x ty
  let rhs ← readOperand ctx y ty
  let result ← defineTemp ty fun id => .makeBinop op ⟨id, name⟩ ty lhs rhs
  return (result, lhs, rhs)

/-- The common part of `ADD`, `SUB`, `AND`, `OR`, `XOR`, `CMP`, `TEST` and `IMUL`: the operation and
its flag record. -/
def liftBinop (op : Opcode) (name : String) (fop : FlagOp) (ty : IRType)
    (x y : ZydisDecodedOperand) : LiftM IRValue := do
  let (result, lhs, rhs) ← binopCode ctx op name ty x y
  setFlags fop result lhs rhs ty
  return result

/-- The `ADD` and `SUB` cases, and `AND`, `OR` and `XOR`, which take their type from `destWidth`. -/
def liftArith (op : Opcode) (name : String) (fop : FlagOp) (ty : IRType)
    (z : ZydisDecodedInstruction) : LiftM Unit := do
  let result ← liftBinop ctx op name fop ty (z.op 0) (z.op 1)
  writeOperand ctx (z.op 0) result

/-- The `CMP` and `TEST` cases: the result is discarded. -/
def liftCompare (op : Opcode) (name : String) (fop : FlagOp) (z : ZydisDecodedInstruction) :
    LiftM Unit := do
  let _ ← liftBinop ctx op name fop (cmpType ctx (z.op 0)) (z.op 0) (z.op 1)

/-- The `NOT` and `NEG` cases; `NEG` records a subtraction from zero. -/
def liftUnary (isNeg : Bool) (z : ZydisDecodedInstruction) : LiftM Unit := do
  let ty := typeOfReg (z.op 0).reg
  let src ← readOperand ctx (z.op 0) ty
  let result ← defineTemp ty fun id =>
    .makeUnop (if isNeg then .neg else .not) ⟨id, "unary"⟩ ty src
  if isNeg then setFlags .sub result (.makeImm 0 ty) src ty
  writeOperand ctx (z.op 0) result

/-- The `INC` and `DEC` cases. -/
def liftIncDec (isDec : Bool) (z : ZydisDecodedInstruction) : LiftM Unit := do
  let ty := typeOfReg (z.op 0).reg
  let src ← readOperand ctx (z.op 0) ty
  let result ← defineTemp ty fun id =>
    .makeBinop (if isDec then .sub else .add) ⟨id, if isDec then "dec" else "inc"⟩ ty src
      (.makeImm 1 ty)
  setFlags (if isDec then .dec else .inc) result src (.makeImm 1 ty) ty
  writeOperand ctx (z.op 0) result

/-- The `IMUL` case in its three forms.  The operands of the one-operand product are missing in the
source; they are read as `rax` and `src`. -/
def liftImul (z : ZydisDecodedInstruction) : LiftM Unit :=
  if z.operandCountVisible = 1 then do
    let rax ← withBlockArg ctx (readReg ctx .rax)
    let src ← readOperand ctx (z.op 0) .i64
    let lo ← defineTemp .i64 fun id => .makeBinop .mul ⟨id, "imul_lo"⟩ .i64 rax src
    withBlockArg ctx (writeReg ctx .rax lo)
    withBlockArg ctx (writeReg ctx .rdx (.makeImm 0 .i64))
    setFlags .imul lo rax src .i64
  else if z.operandCountVisible = 2 then do
    let result ← liftBinop ctx .mul "imul" .imul (typeOfReg (z.op 0).reg) (z.op 0) (z.op 1)
    withBlockArg ctx (writeReg ctx (z.op 0).reg result)
  else do
    let result ← liftBinop ctx .mul "imul3" .imul (typeOfReg (z.op 0).reg) (z.op 1) (z.op 2)
    withBlockArg ctx (writeReg ctx (z.op 0).reg result)

/-- The `IDIV` and `DIV` cases. -/
def liftDiv (isSigned : Bool) (z : ZydisDecodedInstruction) : LiftM Unit := do
  let rax ← withBlockArg ctx (readReg ctx .rax)
  let src ← readOperand ctx (z.op 0) .i64
  let qId ← newTemp
  let rId ← newTemp
  pushInst (.makeBinop (if isSigned then .sdiv else .udiv) ⟨qId, "div_q"⟩ .i64 rax src)
  pushInst (.makeBinop (if isSigned then .srem else .urem) ⟨rId, "div_r"⟩ .i64 rax src)
  withBlockArg ctx (writeReg ctx .rax (.makeVReg qId .i64))
  withBlockArg ctx (writeReg ctx .rdx (.makeVReg rId .i64))
  invalidateFlags

/-- The `SHL`, `SHR` and `SAR` cases. -/
def liftShift (op : Opcode) (fop : FlagOp) (z : ZydisDecodedInstruction) : LiftM Unit := do
  let ty := typeOfReg (z.op 0).reg
  let val ← readOperand ctx (z.op 0) ty
  let amt ← readOperand ctx (z.op 1) .i8
  let ext ← defineTemp ty fun id => .makeCast .zext ⟨id, "shamt"⟩ ty amt
  let result ← defineTemp ty fun id => .makeBinop op ⟨id, "shift"⟩ ty val ext
  setFlags fop result val ext ty
  writeOperand ctx (z.op 0) result

/-- Materialise a condition into the block, taking its temporaries from the function's counter. -/
def materialiseCond (request : FlagRequest) : LiftM IRValue := do
  let s ← get
  match (s.flagState.materialise (s.nextVregId + ·) request).run ⟨s.block, 0⟩ with
  | .ok cond e =>
      set { s with block := e.block, nextVregId := s.nextVregId + e.taken }
      return cond
  | .error err e =>
      set { s with block := e.block, nextVregId := s.nextVregId + e.taken }
      throw err

/-- The label of the block at an address. -/
def labelAt (va : U64) : String := (ctx.blockNames va).getD "unknown"

/-- The conditional jumps. -/
def liftJcc (di : DecodedInstr) : LiftM Unit :=
  match flagRequestForJcc di.zydis.mnemonic with
  | some request => do
      let cond ← materialiseCond request
      pushInst (.makeCjmp cond (labelAt ctx di.relativeTarget) (labelAt ctx di.nextVA))
  | none => pushInst (.makeJmp (labelAt ctx di.nextVA))

/-- The `JMP` case; a jump to anything but a block of the function becomes a tagged `nop`. -/
def liftJmp (di : DecodedInstr) : LiftM Unit :=
  match ctx.blockNames di.relativeTarget with
  | some label => pushInst (.makeJmp label)
  | none => pushInst { IRInst.makeNop with sourceAddr := di.va }

/-- The callee of a direct call, by name where the program has a symbol at the target, or the
computed address of an indirect one. -/
def callTarget (di : DecodedInstr) : LiftM IRValue :=
  let op := di.zydis.op 0
  if op.type = .immediate ∧ op.imm.isRelative then
    let targetVA := di.nextVA + op.imm.value
    let sym := ctx.symbolAt targetVA
    return if sym.isEmpty then .makeImm targetVA .ptr else .makeGlobal sym .ptr
  else do
    let addrVal ← readOperand ctx op .i64
    defineTemp .ptr fun id => .makeCast .inttoptr ⟨id, "icall_ptr"⟩ .ptr addrVal

/-- The `CALL` case. -/
def liftCall (di : DecodedInstr) : LiftM Unit := do
  let callee ← callTarget ctx di
  let ret ← defineTemp .i64 fun id =>
    .makeCall (some ⟨id, "retval"⟩) .i64 callee [] .c false
  withBlockArg ctx (writeReg ctx .rax ret)
  invalidateFlags

/-- Lift one instruction.  Mnemonics without a case emit nothing. -/
def liftInstr (di : DecodedInstr) : LiftM Unit :=
  let z := di.zydis
  match z.mnemonic with
  | .nop => pushInst .makeNop
  | .mov => do
      liftMov ctx z
      liftMovExt ctx .zext "movzx" z
  | .movzx => liftMovExt ctx .zext "movzx" z
  | .movsx | .movsxd => liftMovExt ctx .sext "movsx" z
  | .lea => liftLea ctx z
  | .add => liftArith ctx .add "add" .add (arithType (z.op 0)) z
  | .sub => liftArith ctx .sub "sub" .sub (arithType (z.op 0)) z
  | .imul => liftImul ctx z
  | .idiv => liftDiv ctx true z
  | .div => liftDiv ctx false z
  | .and => liftArith ctx .and "bw" .and (ctx.destWidth (z.op 0) (z.op 1)) z
  | .or => liftArith ctx .or "bw" .or (ctx.destWidth (z.op 0) (z.op 1)) z
  | .xor => liftArith ctx .xor "bw" .xor (ctx.destWidth (z.op 0) (z.op 1)) z
  | .not => liftUnary ctx false z
  | .neg => liftUnary ctx true z
  | .shl => liftShift ctx .shl .shl z
  | .shr => liftShift ctx .lshr .shr z
  | .sar => liftShift ctx .ashr .sar z
  | .inc => liftIncDec ctx false z
  | .dec => liftIncDec ctx true z
  | .cmp => liftCompare ctx .sub "cmp_sub" .sub z
  | .test => liftCompare ctx .and "test_and" .and z
  | .jz | .jnz | .js | .jns | .jo | .jno | .jb | .jnb | .jbe | .jnbe | .jl | .jnl | .jle
  | .jnle => liftJcc ctx di
  | .jmp => liftJmp ctx di
  | .call => liftCall ctx di
  | .jp | .jnp | .ret | .retf | .loop | .loope | .loopne | .other _ => return ()

variable {ctx}

/-- The mnemonics that ask for a condition are the conditional jumps. -/
lemma liftInstr_eq_liftJcc {di : DecodedInstr} {request : FlagRequest}
    (h : flagRequestForJcc di.zydis.mnemonic = some request) :
    liftInstr ctx di = liftJcc ctx di := by
  rw [liftInstr.eq_def]
  dsimp only
  generalize di.zydis.mnemonic = mnemonic at h
  cases mnemonic <;> first | rfl | cases h

end FunctionLifter

end InstaX
