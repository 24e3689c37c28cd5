import InstaX.Lifter.Arithmetic

/-!
# Moves

`MOV`, `MOVZX`, `MOVSX` and `MOVSXD` into a general purpose register.  The switch case of `MOV` has
no `break`: after the move the destination is written once more by the case of `MOVZX`, which reads
an immediate at its encoded size, or at 8 bits if that is 64, and extends it with zeros.

From a register the second write repeats the first one.  From an immediate into a 64-bit register it
is right exactly if the immediate does not lose bits in that reading (`liftInstr_move_iff`).
-/

namespace InstaX

open Throwing StraightLine FixedWidth

/-! ## The architecture -/

namespace ZydisDecodedInstruction

/-- The value that a move writes to a destination of the part `p`: the source, extended with its
sign by `movsx` and `movsxd` and with zeros by the others. -/
def moveValue (z : ZydisDecodedInstruction) (f : RegFile) (p : RegPart) : BitVec p.type.width :=
  match z.mnemonic, (z.op 1).reg.view with
  | .movsx, some (g, q) | .movsxd, some (g, q) => (f.read g q).signExtend p.type.width
  | _, _ => (z.op 1).sourceValue f p.type

/-- What a move can read: an immediate of the size of the destination, or of 32 bits for a 64-bit
destination; a register of the same size; or, with an extension, any register.  The high bytes are
left out. -/
inductive MoveSource (z : ZydisDecodedInstruction) (p : RegPart) : Prop where
  | immediate (hmnemonic : z.mnemonic = .mov) (htype : (z.op 1).type = .immediate)
      (hsize : (z.op 1).size = p.type.width ∨ p = .qword ∧ (z.op 1).size = 32)
  | register (g : Gpr) (q : RegPart) (htype : (z.op 1).type = .register)
      (hview : (z.op 1).reg.view = some (g, q)) (hq : q ≠ .high8)
      (hmnemonic : z.mnemonic = .mov ∧ q.type = p.type ∨ z.mnemonic = .movzx ∨
        z.mnemonic = .movsx ∨ z.mnemonic = .movsxd)

/-- A move into the part `p` of `g`. -/
structure MoveForm (z : ZydisDecodedInstruction) (g : Gpr) (p : RegPart) : Prop where
  type : (z.op 0).type = .register
  view : (z.op 0).reg.view = some (g, p)
  source : z.MoveSource p

/-- What makes the code of a move right. -/
structure MoveRight (z : ZydisDecodedInstruction) (f : RegFile) (g : Gpr) (p : RegPart) : Prop where
  /-- A high byte is written as the low byte: both hold the value already. -/
  high : p = .high8 → RegPart.low8.read (f g) = (z.moveValue f p).setWidth 8 ∧
    RegPart.high8.read (f g) = (z.moveValue f p).setWidth 8
  /-- An immediate is not cut by being read at its encoded size, or at 8 bits if that is 64. -/
  immediate : (z.op 1).type = .immediate → p = .qword →
    (z.op 1).imm.value.toNat < 2 ^ (sizedType .i8 (z.op 1).size).width

end ZydisDecodedInstruction

namespace RegPart

/-- A part that was written at bit zero is read back at bit zero. -/
lemma readLow_writeLow {p q : RegPart} (h : q.type = p.type) (x : BitVec 64)
    (v : BitVec p.type.width) : q.readLow (p.writeLow x v) = v.setWidth q.type.width := by
  unfold readLow
  rw [h, BitVec.setWidth_eq]
  cases p with
  | low8 | high8 | word => exact setWidth_insertBits_zero x v (by decide)
  | dword => exact (BitVec.setWidth_setWidth_of_le v (by decide)).trans (BitVec.setWidth_eq v)
  | qword => exact BitVec.setWidth_eq v

/-- The last write of a part counts. -/
lemma writeLow_writeLow (p : RegPart) (x : BitVec 64) (u v : BitVec p.type.width) :
    p.writeLow (p.writeLow x u) v = p.writeLow x v := by
  cases p with
  | low8 | high8 | word => exact insertBits_insertBits x 0 u v
  | dword | qword => rfl

/-- Writes at bit zero of different values differ. -/
lemma writeLow_injective (p : RegPart) (x : BitVec 64) : Function.Injective (p.writeLow x) := by
  intro u v h
  have hread := congrArg p.readLow h
  rw [readLow_writeLow rfl, readLow_writeLow rfl] at hread
  simpa using hread

end RegPart

namespace FunctionLifter

variable {ctx : LiftContext} {s : LiftState} {m : Machine} {g : Gpr} {p : RegPart}
  {z : ZydisDecodedInstruction}

/-- The destination was written at bit zero. -/
def FilePost (s : LiftState) (m : Machine) (g : Gpr) (p : RegPart) (v : BitVec p.type.width)
    (_ : Unit) (s' : LiftState) (m' : Machine) : Prop :=
  s.nextVregId ≤ s'.nextVregId ∧ m'.file = Function.update m.file g (p.writeLow (m.file g) v)

/-- Of two writes of the destination the last one counts. -/
lemma FilePost.file_eq_of_filePost {s₁ s₂ : LiftState} {m₁ m₂ : Machine} {u v : BitVec p.type.width}
    (h : FilePost s m g p u () s₁ m₁) (h' : FilePost s₁ m₁ g p v () s₂ m₂) :
    m₂.file = Function.update m.file g (p.writeLow (m.file g) v) := by
  rw [h'.2, h.2, Function.update_self, Function.update_idem, RegPart.writeLow_writeLow]

/-- A readable value, written to a register. -/
lemma executesTo_writeReg_filePost (hpass : ctx.passing = .byReference) {r : ZydisRegister}
    (hview : r.view = some (g, p)) {s₀ : LiftState} {m₀ : Machine} (hnext : 16 ≤ s₀.nextVregId)
    {x : BitVec p.type.width} {v : IRValue} (hv : ReadPost s₀ m₀ x v s m) (hs : s.Open) :
    ExecutesTo (withBlockArg ctx (writeReg ctx r v)) s m (FilePost s₀ m₀ g p x) := by
  rw [withBlockArg_byReference hpass]
  refine (executesTo_writeReg hview hs hv.type hv.vregId_lt m).mono ?_
  intro _ s' m' hwrite
  refine ⟨hv.next_le.trans hwrite.next_le, ?_⟩
  rw [file_eq_of_sameBut (hnext.trans hv.next_le) hwrite.same, file_set, hv.value,
    file_eq_of_sameBut hnext hv.same]

section Cases

variable (hpass : ctx.passing = .byReference) (htype : (z.op 0).type = .register)
  (hview : (z.op 0).reg.view = some (g, p)) (hs : s.Open) (hnext : 16 ≤ s.nextVregId)

include hpass htype hview hs hnext

/-- The `MOV` case, up to its end. -/
lemma executesTo_liftMov (hsource : (z.op 1).IsSource p.type)
    (hhigh : (z.op 1).isHighByte = false) :
    ExecutesTo (liftMov ctx z) s m (FilePost s m g p ((z.op 1).sourceValue m.file p.type)) := by
  have hty : movType (z.op 0) (z.op 1) = p.type := by
    rw [movType, if_pos htype, (tables_of_view hview).2]
  unfold liftMov
  rw [hty]
  refine ExecutesTo.bind hs (executesTo_readOperand_source hpass hsource hhigh hs hnext) ?_
  intro src s₁ m₁ hs₁ hsrc
  simp only [writeOperand, htype]
  exact executesTo_writeReg_filePost hpass hview hnext hsrc hs₁

omit htype in
/-- The `MOVZX` and `MOVSX` cases, for a source that can be read. -/
lemma executesTo_liftMovExt {castOp : Opcode} {name : String} (hcast : castOp.isCast = true)
    {ty : IRType} {x : BitVec ty.width} {y : BitVec p.type.width}
    (hread : ExecutesTo (readOperand ctx (z.op 1) (extSrcType (z.op 1))) s m (ReadPost s m x))
    (hy : castOp.cast p.type.width x = some y) :
    ExecutesTo (liftMovExt ctx castOp name z) s m (FilePost s m g p y) := by
  have hty : typeOfReg (z.op 0).reg = p.type := (tables_of_view hview).2
  unfold liftMovExt
  rw [hty]
  refine ExecutesTo.bind hs hread fun src s₁ m₁ hs₁ hsrc => ?_
  refine ExecutesTo.bind hs₁ (executesTo_defineTemp (x := y) hs₁ ?_ ?_) ?_
  · cases castOp <;> first | rfl | exact absurd hcast (by decide)
  · obtain rfl := hsrc.type
    rw [IRInst.step_makeCast hcast, hsrc.value, hy]
    rfl
  · intro val s₂ m₂ hs₂ hval
    exact executesTo_writeReg_filePost hpass hview hnext (hval.of_le hsrc.next_le hsrc.same) hs₂

end Cases

/-- A register is read at its own width, with or without a conversion. -/
lemma extSrcType_register (htype : (z.op 1).type = .register) {g' : Gpr} {q : RegPart}
    (hview' : (z.op 1).reg.view = some (g', q)) : extSrcType (z.op 1) = q.type := by
  rw [extSrcType, if_pos htype, (tables_of_view hview').2]

/-- A part of the size of the destination is the same after the value was moved. -/
lemma readLow_update {f : RegFile} {g' : Gpr} {q : RegPart} (hq : q.type = p.type) :
    q.readLow (Function.update f g
      (p.writeLow (f g) ((q.readLow (f g')).setWidth p.type.width)) g') =
      q.readLow (f g') := by
  by_cases hg : g' = g
  · subst hg
    rw [Function.update_self, RegPart.readLow_writeLow hq, ← hq]
    simp
  · rw [Function.update_of_ne hg]

/-- The value that the code leaves in the destination. -/
def codeValue (z : ZydisDecodedInstruction) (f : RegFile) (p : RegPart) : BitVec p.type.width :=
  if (z.op 1).type = .immediate then
    ((z.op 1).imm.value.setWidth (sizedType .i8 (z.op 1).size).width).setWidth p.type.width
  else z.moveValue f p

variable {di : DecodedInstr}

/-- `MOV` falls through into the case of `MOVZX`. -/
lemma liftInstr_mov (h : di.zydis.mnemonic = .mov) :
    liftInstr ctx di =
      liftMov ctx di.zydis >>= fun _ => liftMovExt ctx .zext "movzx" di.zydis := by
  rw [liftInstr.eq_def]
  simp only [h]

/-- The code of a move leaves its value in the low part of the destination. -/
lemma executesTo_liftInstr_move (hpass : ctx.passing = .byReference)
    (hform : di.zydis.MoveForm g p) (hs : s.Open) (hnext : 16 ≤ s.nextVregId) :
    ExecutesTo (liftInstr ctx di) s m fun _ _ m' =>
      m'.file = Function.update m.file g (p.writeLow (m.file g) (codeValue di.zydis m.file p)) := by
  set z := di.zydis with hz
  cases hform.source with
  | immediate hmnemonic htype hsize =>
    have hhigh : (z.op 1).isHighByte = false := by simp [ZydisDecodedOperand.isHighByte, htype]
    rw [liftInstr_mov hmnemonic]
    refine ExecutesTo.bind hs (executesTo_liftMov hpass hform.type hform.view hs hnext
      (.immediate htype) hhigh) fun _ s₁ m₁ hs₁ hfirst => ?_
    have hsource : (z.op 1).IsSource (extSrcType (z.op 1)) := .immediate htype
    have hread := executesTo_readOperand_source (m := m₁) hpass hsource hhigh hs₁
      (hnext.trans hfirst.1)
    refine (executesTo_liftMovExt hpass hform.view hs₁ (hnext.trans hfirst.1) rfl hread rfl).mono ?_
    intro _ s₂ m₂ hsecond
    rw [hfirst.file_eq_of_filePost hsecond, codeValue, if_pos htype,
      ZydisDecodedOperand.sourceValue, if_pos htype, extSrcType, if_neg (by simp [htype])]
  | register g' q htype hview hq hmnemonic =>
    have hsrcTy := extSrcType_register htype hview
    have hread : ∀ {s₁ : LiftState} {m₁ : Machine}, s₁.Open → 16 ≤ s₁.nextVregId →
        ExecutesTo (readOperand ctx (z.op 1) (extSrcType (z.op 1))) s₁ m₁
          (ReadPost s₁ m₁ (q.readLow (m₁.file g'))) := fun hs₁ hnext₁ =>
      executesTo_readOperand_register hpass htype hview hs₁ hnext₁
    have hvalue : ¬ (z.op 1).type = .immediate := by simp [htype]
    rw [codeValue, if_neg hvalue]
    rcases hmnemonic with ⟨hmov, hqp⟩ | hmnemonic
    · have hhigh : (z.op 1).isHighByte = false := by
        simp [ZydisDecodedOperand.isHighByte, htype, hview, hq]
      have hmove : z.moveValue m.file p = (z.op 1).sourceValue m.file p.type := by
        rw [ZydisDecodedInstruction.moveValue, hmov]
      have hsource : (z.op 1).sourceValue m.file p.type =
          (q.readLow (m.file g')).setWidth p.type.width := by
        rw [ZydisDecodedOperand.sourceValue, if_neg hvalue, hview, RegPart.readLow_eq_read hq]
        rfl
      rw [liftInstr_mov hmov, hmove]
      refine ExecutesTo.bind hs (executesTo_liftMov hpass hform.type hform.view hs hnext
        (.register g' q htype hview hqp) hhigh) fun _ s₁ m₁ hs₁ hfirst => ?_
      refine (executesTo_liftMovExt hpass hform.view hs₁ (hnext.trans hfirst.1) rfl
        (hread hs₁ (hnext.trans hfirst.1)) rfl).mono ?_
      intro _ s₂ m₂ hsecond
      rw [hfirst.file_eq_of_filePost hsecond, hfirst.2, hsource, readLow_update hqp]
    · have hext : ∃ (castOp : Opcode) (name : String), castOp.isCast = true ∧
          liftInstr ctx di = liftMovExt ctx castOp name z ∧
          castOp.cast p.type.width (q.readLow (m.file g')) = some (z.moveValue m.file p) := by
        rw [RegPart.readLow_eq_read hq]
        rcases hmnemonic with hmovzx | hmovsx | hmovsxd
        · refine ⟨.zext, "movzx", rfl, by rw [liftInstr.eq_def, ← hz]; simp only [hmovzx], ?_⟩
          rw [ZydisDecodedInstruction.moveValue, hmovzx]
          simp only [ZydisDecodedOperand.sourceValue, if_neg hvalue, hview]
          rfl
        · refine ⟨.sext, "movsx", rfl, by rw [liftInstr.eq_def, ← hz]; simp only [hmovsx], ?_⟩
          rw [ZydisDecodedInstruction.moveValue, hmovsx, hview]
          rfl
        · refine ⟨.sext, "movsx", rfl, by rw [liftInstr.eq_def, ← hz]; simp only [hmovsxd], ?_⟩
          rw [ZydisDecodedInstruction.moveValue, hmovsxd, hview]
          rfl
      obtain ⟨castOp, name, hcast, hlift, hvalue⟩ := hext
      rw [hlift]
      exact (executesTo_liftMovExt hpass hform.view hs hnext hcast (hread hs hnext) hvalue).mono
        fun _ _ _ h => h.2

/-- What the code leaves in the destination is the value of the architecture, unless an immediate is
cut. -/
lemma codeValue_eq_iff (f : RegFile) (hform : z.MoveForm g p) :
    codeValue z f p = z.moveValue f p ↔ ((z.op 1).type = .immediate → p = .qword →
      (z.op 1).imm.value.toNat < 2 ^ (sizedType .i8 (z.op 1).size).width) := by
  unfold codeValue
  cases hform.source with
  | register g' q htype hview hq hmnemonic => simp [htype]
  | immediate hmnemonic htype hsize =>
    have hvalue : z.moveValue f p = (z.op 1).imm.value.setWidth p.type.width := by
      rw [ZydisDecodedInstruction.moveValue, hmnemonic]
      exact if_pos htype
    rw [if_pos htype, hvalue]
    by_cases hp : p = .qword
    · subst hp
      have hnarrow : (sizedType .i8 (z.op 1).size).width ≤ 64 := IRType.width_le _
      rw [BitVec.setWidth_eq, setWidth_setWidth_eq_iff hnarrow]
      simp [htype]
    · have hsize' : (z.op 1).size = p.type.width := hsize.resolve_right fun h => hp h.1
      have hkeep : (sizedType .i8 (z.op 1).size).width = p.type.width := by
        rw [hsize']
        cases p <;> first | rfl | exact absurd rfl hp
      rw [hkeep, BitVec.setWidth_eq]
      simp [hp]

/-- The code of a move leaves the register file of the architecture, exactly if an immediate is not
cut, and a high byte destination and the low byte beside it hold the value already. -/
theorem liftInstr_move_iff (hpass : ctx.passing = .byReference) (hform : di.zydis.MoveForm g p)
    (hs : s.Open) (hnext : 16 ≤ s.nextVregId) (m : Machine) :
    ExecutesTo (liftInstr ctx di) s m (fun _ _ m' =>
      m'.file = m.file.write g p (di.zydis.moveValue m.file p)) ↔
        di.zydis.MoveRight m.file g p := by
  set z := di.zydis with hz
  have hexec := executesTo_liftInstr_move (m := m) hpass hform hs hnext
  have hvalue := codeValue_eq_iff m.file hform
  have hfile : ExecutesTo (liftInstr ctx di) s m (fun _ _ m' =>
      m'.file = m.file.write g p (z.moveValue m.file p)) ↔
        p.writeLow (m.file g) (codeValue z m.file p) = p.write (m.file g)
          (z.moveValue m.file p) := by
    rw [hexec.file_iff]
    exact (Function.update_injective m.file g).eq_iff
  rw [hfile]
  by_cases hp : p = .high8
  · have hcode : codeValue z m.file p = z.moveValue m.file p :=
      hvalue.mpr fun _ h => absurd (hp.symm.trans h) (by decide)
    rw [hcode, writeLow_eq_write_iff]
    exact ⟨fun h => ⟨h, fun _ h => absurd (hp.symm.trans h) (by decide)⟩, fun h => h.high⟩
  · rw [← RegPart.writeLow_eq_write hp, (p.writeLow_injective _).eq_iff, hvalue]
    exact ⟨fun h => ⟨fun h => absurd h hp, h⟩, fun h => h.immediate⟩

/-- `mov rax, -1`, with a 32-bit immediate that the decoder has extended with its sign. -/
def movRaxMinusOne : DecodedInstr where
  va := 0
  length := 7
  zydis := {
    mnemonic := .mov, length := 7, operandCountVisible := 2,
    operands := [{ type := .register, size := 64, reg := .rax },
      { type := .immediate, size := 32, imm := { isSigned := true, value := -1 } }] }

lemma movRaxMinusOne_form : movRaxMinusOne.zydis.MoveForm .rax .qword :=
  ⟨rfl, rfl, .immediate rfl rfl (Or.inr ⟨rfl, rfl⟩)⟩

/-- `mov rax, -1` on zero registers. -/
theorem liftInstr_move_iff_minusOne :
    ExecutesTo (liftInstr bareContext movRaxMinusOne) emptyBlock zeroMachine (fun _ _ m' =>
      m'.file = zeroMachine.file.write .rax .qword
        (movRaxMinusOne.zydis.moveValue zeroMachine.file .qword)) ↔
      movRaxMinusOne.zydis.MoveRight zeroMachine.file .rax .qword :=
  liftInstr_move_iff rfl movRaxMinusOne_form emptyBlock_open (by decide) zeroMachine

/-- `mov rax, -1` leaves `0xffffffff`. -/
theorem movRaxMinusOne_zeroExtended :
    movRaxMinusOne.zydis.moveValue zeroMachine.file .qword = -1 ∧
      ¬ ExecutesTo (liftInstr bareContext movRaxMinusOne) emptyBlock zeroMachine (fun _ _ m' =>
        m'.file = zeroMachine.file.write .rax .qword
          (movRaxMinusOne.zydis.moveValue zeroMachine.file .qword)) := by
  refine ⟨by decide, fun h => ?_⟩
  obtain ⟨_, _, m', hright, hcode⟩ := h.and
    (executesTo_liftInstr_move rfl movRaxMinusOne_form emptyBlock_open (by decide))
  exact absurd (congrFun (hcode.symm.trans hright) .rax) (by decide)

end FunctionLifter

end InstaX
