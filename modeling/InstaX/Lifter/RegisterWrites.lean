import InstaX.Foundation.Tracing
import InstaX.Lifter.Instr

/-!
# The register writes of an instruction

`liftInstr` with a record of its calls of `writeReg`; without the record it is the program of
`Instr` (`WriteRecord.erases_liftInstr`).
-/

namespace InstaX

open Throwing Tracing

/-- A call of `writeReg`. -/
structure RegWrite where
  reg : ZydisRegister
  val : IRValue
  deriving DecidableEq, Repr

/-! ## The recorded programs -/

namespace WriteRecord

open FunctionLifter (withBlockArg readReg readOperand defineTemp liftBinop setFlags newTemp pushInst
  invalidateFlags)

variable (ctx : LiftContext)

/-- Write a register. -/
def writeReg (reg : ZydisRegister) (val : IRValue) : Traced RegWrite LiftState Unit := do
  emit ⟨reg, val⟩
  silent (withBlockArg ctx (FunctionLifter.writeReg ctx reg val))

/-- Write a destination operand. -/
def writeOperand (op : ZydisDecodedOperand) (val : IRValue) : Traced RegWrite LiftState Unit :=
  if op.type = .register then writeReg ctx op.reg val
  else silent (FunctionLifter.writeOperand ctx op val)

/-- The `MOV` case up to its missing `break`. -/
def liftMov (z : ZydisDecodedInstruction) : Traced RegWrite LiftState Unit := do
  let src ← silent (readOperand ctx (z.op 1) (FunctionLifter.movType (z.op 0) (z.op 1)))
  writeOperand ctx (z.op 0) src

/-- The `MOVZX` and `MOVSX` cases. -/
def liftMovExt (castOp : Opcode) (name : String) (z : ZydisDecodedInstruction) :
    Traced RegWrite LiftState Unit := do
  let dstTy := typeOfReg (z.op 0).reg
  let src ← silent (readOperand ctx (z.op 1) (FunctionLifter.extSrcType (z.op 1)))
  let val ← silent (defineTemp dstTy fun id => .makeCast castOp ⟨id, name⟩ dstTy src)
  writeReg ctx (z.op 0).reg val

/-- The `LEA` case. -/
def liftLea (z : ZydisDecodedInstruction) : Traced RegWrite LiftState Unit := do
  let addrPtr ← silent (FunctionLifter.computeAddr ctx (z.op 1))
  let val ← silent (defineTemp .i64 fun id => .makeCast .ptrtoint ⟨id, "lea"⟩ .i16 addrPtr)
  writeReg ctx (z.op 0).reg val

/-- The `ADD`, `SUB`, `AND`, `OR` and `XOR` cases. -/
def liftArith (op : Opcode) (name : String) (fop : FlagOp) (ty : IRType)
    (z : ZydisDecodedInstruction) : Traced RegWrite LiftState Unit := do
  let result ← silent (liftBinop ctx op name fop ty (z.op 0) (z.op 1))
  writeOperand ctx (z.op 0) result

/-- The `NOT` and `NEG` cases. -/
def liftUnary (isNeg : Bool) (z : ZydisDecodedInstruction) : Traced RegWrite LiftState Unit := do
  let ty := typeOfReg (z.op 0).reg
  let src ← silent (readOperand ctx (z.op 0) ty)
  let result ← silent (defineTemp ty fun id =>
    .makeUnop (if isNeg then .neg else .not) ⟨id, "unary"⟩ ty src)
  if isNeg then silent (setFlags .sub result (.makeImm 0 ty) src ty)
  writeOperand ctx (z.op 0) result

/-- The `INC` and `DEC` cases. -/
def liftIncDec (isDec : Bool) (z : ZydisDecodedInstruction) : Traced RegWrite LiftState Unit := do
  let ty := typeOfReg (z.op 0).reg
  let src ← silent (readOperand ctx (z.op 0) ty)
  let result ← silent (defineTemp ty fun id =>
    .makeBinop (if isDec then .sub else .add) ⟨id, if isDec then "dec" else "inc"⟩ ty src
      (.makeImm 1 ty))
  silent (setFlags (if isDec then .dec else .inc) result src (.makeImm 1 ty) ty)
  writeOperand ctx (z.op 0) result

/-- The `IMUL` case. -/
def liftImul (z : ZydisDecodedInstruction) : Traced RegWrite LiftState Unit :=
  if z.operandCountVisible = 1 then do
    let rax ← silent (withBlockArg ctx (readReg ctx .rax))
    let src ← silent (readOperand ctx (z.op 0) .i64)
    let lo ← silent (defineTemp .i64 fun id => .makeBinop .mul ⟨id, "imul_lo"⟩ .i64 rax src)
    writeReg ctx .rax lo
    writeReg ctx .rdx (.makeImm 0 .i64)
    silent (setFlags .imul lo rax src .i64)
  else if z.operandCountVisible = 2 then do
    let result ← silent
      (liftBinop ctx .mul "imul" .imul (typeOfReg (z.op 0).reg) (z.op 0) (z.op 1))
    writeReg ctx (z.op 0).reg result
  else do
    let result ← silent
      (liftBinop ctx .mul "imul3" .imul (typeOfReg (z.op 0).reg) (z.op 1) (z.op 2))
    writeReg ctx (z.op 0).reg result

/-- The `IDIV` and `DIV` cases. -/
def liftDiv (isSigned : Bool) (z : ZydisDecodedInstruction) : Traced RegWrite LiftState Unit := do
  let rax ← silent (withBlockArg ctx (readReg ctx .rax))
  let src ← silent (readOperand ctx (z.op 0) .i64)
  let qId ← silent newTemp
  let rId ← silent newTemp
  silent (pushInst (.makeBinop (if isSigned then .sdiv else .udiv) ⟨qId, "div_q"⟩ .i64 rax src))
  silent (pushInst (.makeBinop (if isSigned then .srem else .urem) ⟨rId, "div_r"⟩ .i64 rax src))
  writeReg ctx .rax (.makeVReg qId .i64)
  writeReg ctx .rdx (.makeVReg rId .i64)
  silent invalidateFlags

/-- The `SHL`, `SHR` and `SAR` cases. -/
def liftShift (op : Opcode) (fop : FlagOp) (z : ZydisDecodedInstruction) :
    Traced RegWrite LiftState Unit := do
  let ty := typeOfReg (z.op 0).reg
  let val ← silent (readOperand ctx (z.op 0) ty)
  let amt ← silent (readOperand ctx (z.op 1) .i8)
  let ext ← silent (defineTemp ty fun id => .makeCast .zext ⟨id, "shamt"⟩ ty amt)
  let result ← silent (defineTemp ty fun id => .makeBinop op ⟨id, "shift"⟩ ty val ext)
  silent (setFlags fop result val ext ty)
  writeOperand ctx (z.op 0) result

/-- The `CALL` case. -/
def liftCall (di : DecodedInstr) : Traced RegWrite LiftState Unit := do
  let callee ← silent (FunctionLifter.callTarget ctx di)
  let ret ← silent (defineTemp .i64 fun id =>
    .makeCall (some ⟨id, "retval"⟩) .i64 callee [] .c false)
  writeReg ctx .rax ret
  silent invalidateFlags

/-- Lift one instruction. -/
def liftInstr (di : DecodedInstr) : Traced RegWrite LiftState Unit :=
  let z := di.zydis
  match z.mnemonic with
  | .mov => do
      liftMov ctx z
      liftMovExt ctx .zext "movzx" z
  | .movzx => liftMovExt ctx .zext "movzx" z
  | .movsx | .movsxd => liftMovExt ctx .sext "movsx" z
  | .lea => liftLea ctx z
  | .add => liftArith ctx .add "add" .add (FunctionLifter.arithType (z.op 0)) z
  | .sub => liftArith ctx .sub "sub" .sub (FunctionLifter.arithType (z.op 0)) z
  | .imul => liftImul ctx z
  | .idiv => liftDiv ctx true z
  | .div => liftDiv ctx false z
  | .and => liftArith ctx .and "bw" .and (ctx.destWidth (z.op 0) (z.op 1)) z
  | .or => liftArith ctx .or "bw" .or (ctx.destWidth (z.op 0) (z.op 1)) z
  | .xor => liftArith ctx .xor "bw" .xor (ctx.destWidth (z.op 0) (z.op 1)) z
  | .not => liftUnary ctx false z
  | .neg => liftUnary ctx true z
  | .shl => liftShift ctx .shl .shl z
  | .shr => liftShift ctx .lshr .shr z
  | .sar => liftShift ctx .ashr .sar z
  | .inc => liftIncDec ctx false z
  | .dec => liftIncDec ctx true z
  | .call => liftCall ctx di
  | _ => silent (FunctionLifter.liftInstr ctx di)

/-! ## Without the record -/

variable {ctx}

/-- Without its record, a write is `writeReg`. -/
lemma erases_writeReg (reg : ZydisRegister) (val : IRValue) :
    Erases (writeReg ctx reg val) (withBlockArg ctx (FunctionLifter.writeReg ctx reg val)) :=
  Erases.emit_bind (RegWrite.mk reg val) (erases_silent _)

/-- Without its record, writing an operand is `writeOperand`. -/
lemma erases_writeOperand (op : ZydisDecodedOperand) (val : IRValue) :
    Erases (writeOperand ctx op val) (FunctionLifter.writeOperand ctx op val) := by
  unfold writeOperand
  split
  · rename_i htype
    simp only [FunctionLifter.writeOperand, htype]
    exact erases_writeReg op.reg val
  · exact erases_silent _

/-- Without its record, a `MOV` is `liftMov`. -/
lemma erases_liftMov (z : ZydisDecodedInstruction) :
    Erases (liftMov ctx z) (FunctionLifter.liftMov ctx z) :=
  (erases_silent _).bind fun _ => erases_writeOperand _ _

/-- Without its record, an extending move is `liftMovExt`. -/
lemma erases_liftMovExt (castOp : Opcode) (name : String) (z : ZydisDecodedInstruction) :
    Erases (liftMovExt ctx castOp name z) (FunctionLifter.liftMovExt ctx castOp name z) :=
  (erases_silent _).bind fun _ => (erases_silent _).bind fun _ => erases_writeReg _ _

/-- Without its record, `LEA` is `liftLea`. -/
lemma erases_liftLea (z : ZydisDecodedInstruction) :
    Erases (liftLea ctx z) (FunctionLifter.liftLea ctx z) :=
  (erases_silent _).bind fun _ => (erases_silent _).bind fun _ => erases_writeReg _ _

/-- Without its record, an arithmetic instruction is `liftArith`. -/
lemma erases_liftArith (op : Opcode) (name : String) (fop : FlagOp) (ty : IRType)
    (z : ZydisDecodedInstruction) :
    Erases (liftArith ctx op name fop ty z) (FunctionLifter.liftArith ctx op name fop ty z) :=
  (erases_silent _).bind fun _ => erases_writeOperand _ _

/-- Without their record, `NEG` and `NOT` are `liftUnary`. -/
lemma erases_liftUnary (isNeg : Bool) (z : ZydisDecodedInstruction) :
    Erases (liftUnary ctx isNeg z) (FunctionLifter.liftUnary ctx isNeg z) := by
  refine (erases_silent _).bind fun _ => (erases_silent _).bind fun _ => ?_
  cases isNeg with
  | true => exact (erases_silent _).bind fun _ => erases_writeOperand _ _
  | false => exact erases_writeOperand _ _

/-- Without their record, `INC` and `DEC` are `liftIncDec`. -/
lemma erases_liftIncDec (isDec : Bool) (z : ZydisDecodedInstruction) :
    Erases (liftIncDec ctx isDec z) (FunctionLifter.liftIncDec ctx isDec z) :=
  (erases_silent _).bind fun _ => (erases_silent _).bind fun _ => (erases_silent _).bind fun _ =>
    erases_writeOperand _ _

/-- Without its record, `IMUL` is `liftImul`. -/
lemma erases_liftImul (z : ZydisDecodedInstruction) :
    Erases (liftImul ctx z) (FunctionLifter.liftImul ctx z) := by
  unfold liftImul FunctionLifter.liftImul
  split
  · refine (erases_silent _).bind fun _ => (erases_silent _).bind fun _ =>
      (erases_silent _).bind fun _ => ?_
    exact (erases_writeReg _ _).bind fun _ => (erases_writeReg _ _).bind fun _ => erases_silent _
  · split
    · exact (erases_silent _).bind fun _ => erases_writeReg _ _
    · exact (erases_silent _).bind fun _ => erases_writeReg _ _

/-- Without its record, a division is `liftDiv`. -/
lemma erases_liftDiv (isSigned : Bool) (z : ZydisDecodedInstruction) :
    Erases (liftDiv ctx isSigned z) (FunctionLifter.liftDiv ctx isSigned z) := by
  refine (erases_silent _).bind fun _ => (erases_silent _).bind fun _ =>
    (erases_silent _).bind fun _ => (erases_silent _).bind fun _ => ?_
  refine (erases_silent _).bind fun _ => (erases_silent _).bind fun _ => ?_
  exact (erases_writeReg _ _).bind fun _ => (erases_writeReg _ _).bind fun _ => erases_silent _

/-- Without its record, a shift is `liftShift`. -/
lemma erases_liftShift (op : Opcode) (fop : FlagOp) (z : ZydisDecodedInstruction) :
    Erases (liftShift ctx op fop z) (FunctionLifter.liftShift ctx op fop z) := by
  refine (erases_silent _).bind fun _ => (erases_silent _).bind fun _ =>
    (erases_silent _).bind fun _ => (erases_silent _).bind fun _ => ?_
  exact (erases_silent _).bind fun _ => erases_writeOperand _ _

/-- Without its record, a call is `liftCall`. -/
lemma erases_liftCall (di : DecodedInstr) :
    Erases (liftCall ctx di) (FunctionLifter.liftCall ctx di) := by
  refine (erases_silent _).bind fun _ => (erases_silent _).bind fun _ => ?_
  exact (erases_writeReg _ _).bind fun _ => erases_silent _

/-- Without its record the recorded program is `liftInstr`. -/
theorem erases_liftInstr (ctx : LiftContext) (di : DecodedInstr) :
    Erases (liftInstr ctx di) (FunctionLifter.liftInstr ctx di) := by
  unfold liftInstr
  dsimp only
  cases hmnemonic : di.zydis.mnemonic
  case mov =>
    simp only [FunctionLifter.liftInstr, hmnemonic]
    exact (erases_liftMov _).bind fun _ => erases_liftMovExt _ _ _
  case movzx | movsx | movsxd =>
    simp only [FunctionLifter.liftInstr, hmnemonic]
    exact erases_liftMovExt _ _ _
  case lea =>
    simp only [FunctionLifter.liftInstr, hmnemonic]
    exact erases_liftLea _
  case add | sub | and | or | xor =>
    simp only [FunctionLifter.liftInstr, hmnemonic]
    exact erases_liftArith _ _ _ _ _
  case imul =>
    simp only [FunctionLifter.liftInstr, hmnemonic]
    exact erases_liftImul _
  case idiv | div =>
    simp only [FunctionLifter.liftInstr, hmnemonic]
    exact erases_liftDiv _ _
  case not | neg =>
    simp only [FunctionLifter.liftInstr, hmnemonic]
    exact erases_liftUnary _ _
  case shl | shr | sar =>
    simp only [FunctionLifter.liftInstr, hmnemonic]
    exact erases_liftShift _ _ _
  case inc | dec =>
    simp only [FunctionLifter.liftInstr, hmnemonic]
    exact erases_liftIncDec _ _
  case call =>
    simp only [FunctionLifter.liftInstr, hmnemonic]
    exact erases_liftCall _
  all_goals exact erases_silent _

end WriteRecord

end InstaX
