import InstaX.Foundation.Numerals
import InstaX.IR.Machine
import InstaX.IR.Typing

/-!
# Printing instructions

The text of the intermediate representation (`VReg::toString` in `src/ir/IR.hpp`, the `toString`
functions in `src/ir/IR.cpp`).  The formatter of an instruction streams texts and registers in turn;
`IRInst.pieces` is what it streams.  The text of a register determines its id and its name, whatever
the name is (`VReg.toString_injective`).
-/

namespace InstaX

open Throwing

/-! ## Names of types, operations and conditions -/

protected def IRType.toString : IRType → String
  | .void_ => "void"
  | .i1 => "i1"
  | .i8 => "i8"
  | .i16 => "i16"
  | .i32 => "i32"
  | .i64 => "i64"
  | .f32 => "f32"
  | .f64 => "f64"
  | .ptr => "ptr"

/-- The mnemonic; the switch has no case for `phi`. -/
protected def Opcode.toString : Opcode → String
  | .mov => "mov"
  | .add => "add"
  | .sub => "sub"
  | .mul => "mul"
  | .sdiv => "sdiv"
  | .udiv => "udiv"
  | .srem => "srem"
  | .urem => "urem"
  | .neg => "neg"
  | .and => "and"
  | .or => "or"
  | .xor => "xor"
  | .not => "not"
  | .shl => "shl"
  | .lshr => "lshr"
  | .ashr => "ashr"
  | .fadd => "fadd"
  | .fsub => "fsub"
  | .fmul => "fmul"
  | .fdiv => "fdiv"
  | .fneg => "fneg"
  | .zext => "zext"
  | .sext => "sext"
  | .trunc => "trunc"
  | .fpext => "fpext"
  | .fptrunc => "fptrunc"
  | .fptosi => "fptosi"
  | .fptoui => "fptoui"
  | .sitofp => "sitofp"
  | .uitofp => "uitofp"
  | .inttoptr => "inttoptr"
  | .ptrtoint => "ptrtoint"
  | .bitcast => "bitcast"
  | .load => "load"
  | .store => "store"
  | .alloca => "alloca"
  | .icmp => "icmp"
  | .fcmp => "fcmp"
  | .select => "select"
  | .jmp => "jmp"
  | .cjmp => "cjmp"
  | .ret => "ret"
  | .call => "call"
  | .nop => "nop"
  | .phi => "<bad-opcode>"

protected def IcmpCond.toString : IcmpCond → String
  | .eq => "eq"
  | .ne => "ne"
  | .slt => "slt"
  | .sle => "sle"
  | .sgt => "sgt"
  | .sge => "sge"
  | .ult => "ult"
  | .ule => "ule"
  | .ugt => "ugt"
  | .uge => "uge"

protected def FcmpCond.toString : FcmpCond → String
  | .oeq => "oeq"
  | .one => "one"
  | .olt => "olt"
  | .ole => "ole"
  | .ogt => "ogt"
  | .oge => "oge"
  | .uno => "uno"
  | .ord => "ord"

protected def CallingConv.toString : CallingConv → String
  | .c => "ccc"
  | .win64 => "win64cc"
  | .fast => "fastcc"
  | .naked => "nakedcc"

/-! ## Registers -/

/-- `%vreg` and the id, or the name and the id. -/
protected def VReg.toString (r : VReg) : String :=
  if r.debugName = "" then "%vreg" ++ r.id.repr else "%" ++ r.debugName ++ "." ++ r.id.repr

/-- The text of a register determines its id and its name. -/
theorem VReg.toString_injective : Function.Injective VReg.toString := by
  have hdot : '.'.isDigit = false := rfl
  have hplain : ∀ (id : ℕ) (name : String) (id' : ℕ),
      "%vreg" ++ id.repr ≠ "%" ++ name ++ "." ++ id'.repr := by
    intro id name id' h
    have hmem : '.' ∈ ("%vreg" ++ id.repr).toList := by
      rw [h]
      simp
    have hnot := Numerals.not_mem_toDigits hdot id
    simp [hnot] at hmem
  rintro ⟨id, name⟩ ⟨id', name'⟩ h
  unfold VReg.toString at h
  dsimp only at h
  split_ifs at h with hname hname' hname'
  · have hdigits : Nat.toDigits 10 id = Nat.toDigits 10 id' := by
      simpa using congrArg String.toList h
    rw [Numerals.toDigits_injective (by decide) (by decide) hdigits, hname, hname']
  · exact absurd h (hplain id name' id')
  · exact absurd h.symm (hplain id' name id)
  · have hlist : name.toList ++ '.' :: Nat.toDigits 10 id =
        name'.toList ++ '.' :: Nat.toDigits 10 id' := by
      simpa using congrArg String.toList h
    obtain ⟨hnames, hdigits⟩ := Numerals.append_cons_inj_right
      (Numerals.not_mem_toDigits hdot id) (Numerals.not_mem_toDigits hdot id') hlist
    rw [Numerals.toDigits_injective (by decide) (by decide) hdigits, String.toList_inj.mp hnames]

/-! ## Values -/

/-- What the formatter streams: a text, or the text of a register. -/
inductive Piece where
  | text (s : String)
  | vreg (r : VReg)
  deriving DecidableEq, Repr

protected def Piece.toString : Piece → String
  | .text s => s
  | .vreg r => r.toString

/-- The register that is streamed. -/
def Piece.vreg? : Piece → Option VReg
  | .text _ => none
  | .vreg r => some r

/-- The register that an operand reads. -/
def IRValue.vreg? (v : IRValue) : Option VReg :=
  match v.payload with
  | .vreg r => some r
  | _ => none

/-- A register, a decimal number, or the name of a symbol. -/
def IRValue.toPiece (v : IRValue) : Piece :=
  match v.payload with
  | .vreg r => .vreg r
  | .imm value => .text value.toInt.repr
  | .global name => .text ("@" ++ name)

protected def IRValue.toString (v : IRValue) : String := v.toPiece.toString

/-- An operand is printed with its register. -/
@[simp] lemma IRValue.toPiece_vreg? (v : IRValue) : v.toPiece.vreg? = v.vreg? := by
  unfold IRValue.toPiece IRValue.vreg?
  cases v.payload <;> rfl

@[simp] lemma Piece.vreg?_text (s : String) : (Piece.text s).vreg? = none := rfl

@[simp] lemma Piece.vreg?_vreg (r : VReg) : (Piece.vreg r).vreg? = some r := rfl

/-! ## Instructions -/

namespace IRInst

/-- `IRInst::dst` -/
def getDst (i : IRInst) : Except Exn VReg :=
  match i.dst with
  | some d => .ok d
  | none => .error (.logicError "IRInst::dst() called on instruction with no result")

/-- `m_operands[n]`.  The formatter does not check the bound; the text is that of
`IRInst::operand`, which does. -/
def operandAt (i : IRInst) (n : ℕ) : Except Exn IRValue :=
  match i.operands[n]? with
  | some v => .ok v
  | none => .error (.outOfRange "IRInst::operand() index out of range")

/-- `IRInst::icmpCond` -/
def getIcmpCond (i : IRInst) : Except Exn IcmpCond :=
  match i.icmpCond with
  | some c => .ok c
  | none => .error (.logicError "IRInst::icmpCond() called on non-ICMP instruction")

/-- `IRInst::fcmpCond` -/
def getFcmpCond (i : IRInst) : Except Exn FcmpCond :=
  match i.fcmpCond with
  | some c => .ok c
  | none => .error (.logicError "IRInst::fcmpCond() called on non-FCMP instruction")

/-- `IRInst::callConv` -/
def getCallConv (i : IRInst) : Except Exn CallingConv :=
  match i.callConv with
  | some cc => .ok cc
  | none => .error (.logicError "IRInst::callConv() called on non-CALL instruction")

/-- `IRInst::memFlags` -/
def getMemFlags (i : IRInst) : Except Exn MemFlags :=
  match i.memFlags with
  | some flags => .ok flags
  | none => .error (.logicError "IRInst::memFlags() called on non-memory instruction")

/-- `IRInst::allocaBytes` -/
def getAllocaBytes (i : IRInst) : Except Exn U64 :=
  match i.allocaBytes with
  | some bytes => .ok bytes
  | none => .error (.logicError "IRInst::allocaBytes() called on non-ALLOCA instruction")

/-- `%dst = ` -/
def assigns (d : VReg) : List Piece := [.vreg d, .text " = "]

/-- The type and the text of an operand. -/
def typed (v : IRValue) : List Piece := [.text v.type.toString, .text " ", v.toPiece]

/-- `, align ` and the alignment -/
def aligned (flags : MemFlags) : List Piece := [.text ", align ", .text flags.alignment.repr]

/-- The arguments of a call. -/
def arguments : List IRValue → List Piece
  | [] => []
  | [v] => typed v
  | v :: vs => typed v ++ [.text ", "] ++ arguments vs

/-- What the formatter streams for an instruction, by the family of its opcode; it has no case for
`phi`. -/
def pieces (i : IRInst) : Except Exn (List Piece) :=
  match i.opcode with
  | .mov => do
    return assigns (← i.getDst) ++ [.text "mov ", .text i.resultType.toString, .text " ",
      (← i.operandAt 0).toPiece]
  | .add | .sub | .mul | .sdiv | .udiv | .srem | .urem | .and | .or | .xor | .shl | .lshr | .ashr
  | .fadd | .fsub | .fmul | .fdiv => do
    return assigns (← i.getDst) ++ [.text i.opcode.toString, .text " ",
      .text i.resultType.toString, .text " ", (← i.operandAt 0).toPiece, .text ", ",
      (← i.operandAt 1).toPiece]
  | .neg | .not | .fneg => do
    return assigns (← i.getDst) ++ [.text i.opcode.toString, .text " ",
      .text i.resultType.toString, .text " ", (← i.operandAt 0).toPiece]
  | .zext | .sext | .trunc | .fpext | .fptrunc | .fptosi | .fptoui | .sitofp | .uitofp
  | .inttoptr | .ptrtoint | .bitcast => do
    return assigns (← i.getDst) ++ [.text i.opcode.toString, .text " "] ++
      typed (← i.operandAt 0) ++ [.text " to ", .text i.resultType.toString]
  | .load => do
    return assigns (← i.getDst) ++ [.text "load ", .text i.resultType.toString, .text ", "] ++
      typed (← i.operandAt 0) ++ aligned (← i.getMemFlags)
  | .store => do
    return [.text "store "] ++ typed (← i.operandAt 0) ++ [.text ", "] ++
      typed (← i.operandAt 1) ++ aligned (← i.getMemFlags)
  | .alloca => do
    return assigns (← i.getDst) ++ [.text "alloca i8, i64 ",
      .text (← i.getAllocaBytes).toNat.repr] ++ aligned (← i.getMemFlags)
  | .icmp => do
    return assigns (← i.getDst) ++ [.text "icmp ", .text (← i.getIcmpCond).toString, .text " "] ++
      typed (← i.operandAt 0) ++ [.text ", ", (← i.operandAt 1).toPiece]
  | .fcmp => do
    return assigns (← i.getDst) ++ [.text "fcmp ", .text (← i.getFcmpCond).toString, .text " "] ++
      typed (← i.operandAt 0) ++ [.text ", ", (← i.operandAt 1).toPiece]
  | .select => do
    return assigns (← i.getDst) ++ [.text "select "] ++ typed (← i.operandAt 0) ++
      [.text ", ", .text i.resultType.toString, .text " ", (← i.operandAt 1).toPiece, .text ", ",
        .text i.resultType.toString, .text " ", (← i.operandAt 2).toPiece]
  | .jmp => return [.text "jmp ", .text i.branchTrue]
  | .cjmp => do
    return [.text "cjmp "] ++ typed (← i.operandAt 0) ++
      [.text ", ", .text i.branchTrue, .text ", ", .text i.branchFalse]
  | .ret =>
    if i.operands.isEmpty then return [.text "ret void"]
    else do return [.text "ret "] ++ typed (← i.operandAt 0)
  | .call => do
    let result ← if i.dst.isSome then do pure (assigns (← i.getDst)) else pure []
    return result ++ [.text "call ", .text (← i.getCallConv).toString, .text " ",
        .text i.resultType.toString, .text " ", (← i.operandAt 0).toPiece, .text "("] ++
      arguments i.operands.tail ++ [.text ")"] ++
      (if i.isTailCall then [.text "  ; tail call"] else [])
  | .nop => return [.text "nop"]
  | .phi => return []

/-- The line of an instruction. -/
protected def toString (i : IRInst) : Except Exn String :=
  i.pieces.map fun pieces => String.join (pieces.map Piece.toString)

/-- The registers that occur in an instruction, as its destination or as an operand. -/
def registers (i : IRInst) : List VReg := i.dst.toList ++ i.operands.filterMap IRValue.vreg?

/-- The instruction is printed, with the registers that occur in it. -/
def PrintsRegisters (i : IRInst) : Prop :=
  ∃ pieces, i.pieces = .ok pieces ∧ pieces.filterMap Piece.vreg? = i.registers

/-- The registers of an instruction are its destination and those of its operands. -/
lemma mem_registers {i : IRInst} {r : VReg} :
    r ∈ i.registers ↔ i.dst = some r ∨ ∃ v ∈ i.operands, v.vreg? = some r := by
  simp [registers]

section Factories

variable {op : Opcode} {d : VReg} {ty : IRType} {v w : IRValue}

/-- A move prints its registers. -/
lemma printsRegisters_makeMov : (makeMov d ty v).PrintsRegisters :=
  ⟨_, rfl, by simp [assigns, registers, makeMov, List.filterMap_cons]⟩

/-- A binary operation prints its registers. -/
lemma printsRegisters_makeBinop (hop : op.isBinary = true) :
    (makeBinop op d ty v w).PrintsRegisters := by
  have hpieces : (makeBinop op d ty v w).pieces =
      .ok (assigns d ++ [.text op.toString, .text " ", .text ty.toString, .text " ", v.toPiece,
        .text ", ", w.toPiece]) := by
    cases op <;> first | rfl | cases hop
  exact ⟨_, hpieces, by simp [assigns, registers, makeBinop, List.filterMap_cons]⟩

/-- A negation or complement prints its registers. -/
lemma printsRegisters_makeUnop (hop : op = .neg ∨ op = .not) :
    (makeUnop op d ty v).PrintsRegisters := by
  have hpieces : (makeUnop op d ty v).pieces =
      .ok (assigns d ++ [.text op.toString, .text " ", .text ty.toString, .text " ",
        v.toPiece]) := by
    rcases hop with rfl | rfl <;> rfl
  exact ⟨_, hpieces, by simp [assigns, registers, makeUnop, List.filterMap_cons]⟩

/-- A conversion prints its registers. -/
lemma printsRegisters_makeCast (hop : op.isCast = true) :
    (makeCast op d ty v).PrintsRegisters := by
  have hpieces : (makeCast op d ty v).pieces =
      .ok (assigns d ++ [.text op.toString, .text " "] ++ typed v ++
        [.text " to ", .text ty.toString]) := by
    cases op <;> first | rfl | cases hop
  exact ⟨_, hpieces, by simp [assigns, typed, registers, makeCast, List.filterMap_cons]⟩

/-- A comparison prints its registers. -/
lemma printsRegisters_makeIcmp {cond : IcmpCond} : (makeIcmp cond d v w).PrintsRegisters :=
  ⟨_, rfl, by simp [assigns, typed, registers, makeIcmp, List.filterMap_cons]⟩

/-- A load prints its registers. -/
lemma printsRegisters_makeLoad {flags : MemFlags} : (makeLoad d ty v flags).PrintsRegisters :=
  ⟨_, rfl, by simp [assigns, typed, aligned, registers, makeLoad, List.filterMap_cons]⟩

/-- A store prints its registers. -/
lemma printsRegisters_makeStore {flags : MemFlags} : (makeStore v w flags).PrintsRegisters :=
  ⟨_, rfl, by simp [typed, aligned, registers, makeStore, List.filterMap_cons]⟩

/-- A jump has no registers to print. -/
lemma printsRegisters_makeJmp {label : String} : (makeJmp label).PrintsRegisters :=
  ⟨_, rfl, rfl⟩

/-- A conditional jump prints its condition. -/
lemma printsRegisters_makeCjmp {label label' : String} :
    (makeCjmp v label label').PrintsRegisters :=
  ⟨_, rfl, by simp [typed, registers, makeCjmp, List.filterMap_cons]⟩

/-- A call prints its destination and its target. -/
lemma printsRegisters_makeCall {cc : CallingConv} :
    (makeCall (some d) ty v [] cc false).PrintsRegisters :=
  ⟨_, rfl, by simp [assigns, arguments, registers, makeCall, List.filterMap_cons]⟩

/-- A `nop` has no registers to print. -/
lemma printsRegisters_makeNop {va : U64} : { makeNop with sourceAddr := va }.PrintsRegisters :=
  ⟨_, rfl, rfl⟩

end Factories

end IRInst

end InstaX
