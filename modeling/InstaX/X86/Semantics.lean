import InstaX.X86.Instruction

/-!
# Register arithmetic of the architecture

What the eleven arithmetic and logical instructions on general purpose registers do to the register
file, for operands of one width: the result at that width, written back under the partial write
rules of `RegFile.write` unless the instruction only compares.
-/

namespace InstaX

namespace ZydisMnemonic

/-- The instructions with a single operand. -/
def isUnary : ZydisMnemonic → Bool
  | .neg | .not | .inc | .dec => true
  | _ => false

/-- The instructions that discard their result. -/
def discardsResult : ZydisMnemonic → Bool
  | .cmp | .test => true
  | _ => false

/-- The moves, address computations and other instructions without an effect on the flags. -/
def keepsFlags : ZydisMnemonic → Bool
  | .mov | .movzx | .movsx | .movsxd | .lea | .not | .nop => true
  | _ => false

/-- The result of an instruction on operands of one width; the second one is ignored by the
instructions with a single operand. -/
def aluResult {w : ℕ} (mnemonic : ZydisMnemonic) (a b : BitVec w) : Option (BitVec w) :=
  match mnemonic with
  | .add => some (a + b)
  | .sub | .cmp => some (a - b)
  | .and | .test => some (a &&& b)
  | .or => some (a ||| b)
  | .xor => some (a ^^^ b)
  | .neg => some (-a)
  | .not => some (~~~a)
  | .inc => some (a + 1)
  | .dec => some (a - 1)
  | _ => none

/-- The register file after an instruction on the part `p` of `g` and a second operand `b`. -/
def execArith (mnemonic : ZydisMnemonic) (f : RegFile) (g : Gpr) (p : RegPart)
    (b : BitVec p.type.width) : Option RegFile :=
  (mnemonic.aluResult (f.read g p) b).map fun r =>
    if mnemonic.discardsResult then f else f.write g p r

end ZydisMnemonic

/-- An operand that can stand second in an instruction of the given width: an immediate, or a
register of that width. -/
inductive ZydisDecodedOperand.IsSource (op : ZydisDecodedOperand) (ty : IRType) : Prop where
  | immediate (h : op.type = .immediate)
  | register (g : Gpr) (p : RegPart) (h : op.type = .register) (hview : op.reg.view = some (g, p))
      (hty : p.type = ty)

/-- The value of a source operand at a width; an immediate is already sign-extended to 64 bits. -/
def ZydisDecodedOperand.sourceValue (op : ZydisDecodedOperand) (f : RegFile) (ty : IRType) :
    BitVec ty.width :=
  if op.type = .immediate then op.imm.value.setWidth ty.width
  else match op.reg.view with
    | some (g, p) => (f.read g p).setWidth ty.width
    | none => 0

/-- The first operand is the part `p` of `g`, and the second one, where there is one, has the same
width. -/
structure ZydisDecodedInstruction.RegisterForm (z : ZydisDecodedInstruction) (g : Gpr)
    (p : RegPart) : Prop where
  type : (z.op 0).type = .register
  view : (z.op 0).reg.view = some (g, p)
  source : z.mnemonic.isUnary = true ∨ (z.op 1).IsSource p.type

/-- The operand names one of the high byte registers. -/
def ZydisDecodedOperand.isHighByte (op : ZydisDecodedOperand) : Bool :=
  op.type == .register && (op.reg.view.map Prod.snd == some .high8)

end InstaX
