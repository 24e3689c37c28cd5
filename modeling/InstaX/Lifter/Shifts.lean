import InstaX.Flags.Condition
import InstaX.Lifter.Emitted
import InstaX.Lifter.Moves
import InstaX.Lifter.Terminators

/-!
# Shifts

`SHL`, `SHR` and `SAR` of a general purpose register by an immediate or by `CL`.  The processor uses
the low five bits of the count, or six for a 64-bit operand, and leaves the flags alone when these
are zero.  The lifted code shifts by the whole count, which has no value from the width of the
operand on, and records the flags whatever the count is.

Below the width the value is right.  So the code is right exactly if the count is below the width,
and a count of zero finds the flags that the shift records (`liftInstr_shift_iff`).  High bytes are
read and written as low bytes.  When what `readReg` and `writeReg` append is lost, the code reads
temporaries that nothing has written, and writes no register.
-/

namespace InstaX

open Throwing StraightLine FixedWidth

/-! ## The architecture -/

namespace ZydisMnemonic

/-- The shifts. -/
def isShift : ZydisMnemonic → Bool
  | .shl | .shr | .sar => true
  | _ => false

/-- A word shifted by a count. -/
def shift {w : ℕ} (mnemonic : ZydisMnemonic) (a : BitVec w) (n : ℕ) : BitVec w :=
  match mnemonic with
  | .shl => a <<< n
  | .shr => a >>> n
  | _ => a.sshiftRight n

end ZydisMnemonic

namespace ZydisDecodedInstruction

/-- A shift of the part `p` of `g` by an immediate or a byte register that is not a high byte. -/
structure ShiftForm (z : ZydisDecodedInstruction) (g : Gpr) (p : RegPart) : Prop where
  mnemonic : z.mnemonic.isShift = true
  type : (z.op 0).type = .register
  view : (z.op 0).reg.view = some (g, p)
  source : (z.op 1).IsSource .i8
  low : (z.op 1).isHighByte = false

/-- The count of a shift, before it is masked. -/
def count (z : ZydisDecodedInstruction) (f : RegFile) : ℕ := ((z.op 1).sourceValue f .i8).toNat

/-- The count that the processor uses. -/
def maskedCount (z : ZydisDecodedInstruction) (f : RegFile) (p : RegPart) : ℕ :=
  z.count f % (if p = .qword then 64 else 32)

/-- The register file of the processor after a shift. -/
def execShift (z : ZydisDecodedInstruction) (f : RegFile) (g : Gpr) (p : RegPart) : RegFile :=
  f.write g p (z.mnemonic.shift (f.read g p) (z.maskedCount f p))

/-- A count below the width is not masked. -/
lemma maskedCount_of_lt {z : ZydisDecodedInstruction} {f : RegFile} {p : RegPart}
    (h : z.count f < p.type.width) : z.maskedCount f p = z.count f := by
  have hle : p.type.width ≤ if p = .qword then 64 else 32 := by
    cases p <;> decide
  exact Nat.mod_eq_of_lt (h.trans_le hle)

end ZydisDecodedInstruction

/-- The value of a request when it is materialised now. -/
def LiftState.requested (s : LiftState) (m : Machine) (request : FlagRequest) :
    Option (BitVec 1) :=
  s.flagState.condition (s.nextVregId + ·) request ⟨s.block, 0⟩ m

namespace FunctionLifter

variable {ctx : LiftContext} {s : LiftState} {m : Machine} {g : Gpr} {p : RegPart}
  {z : ZydisDecodedInstruction} {di : DecodedInstr} {α β : Type} {act : LiftM α}

/-- The count that the code reads: a count in a register is read from the temporary `id` when its
truncation is lost. -/
def codeCount (ctx : LiftContext) (z : ZydisDecodedInstruction) (m : Machine) (id : ℕ) : ℕ :=
  if ctx.passing = .byValue ∧ (z.op 1).type = .register then ((m.regs id).setWidth 8).toNat
  else z.count m.file

/-- The count of the code of a shift; reading the operand takes the temporary before it. -/
def shiftCount (ctx : LiftContext) (z : ZydisDecodedInstruction) (s : LiftState) (m : Machine)
    (p : RegPart) : ℕ :=
  codeCount ctx z m (s.nextVregId + if p = .qword then 0 else 1)

/-- The result of the code of a shift. -/
def shiftResult (ctx : LiftContext) (z : ZydisDecodedInstruction) (s : LiftState) (m : Machine)
    (g : Gpr) (p : RegPart) : BitVec p.type.width :=
  z.mnemonic.shift (codeRead ctx m s.nextVregId g p) (shiftCount ctx z s m p)

/-- What makes the code of a shift right, in the state before it. -/
structure ShiftRight (ctx : LiftContext) (z : ZydisDecodedInstruction) (s : LiftState) (m : Machine)
    (g : Gpr) (p : RegPart) : Prop where
  /-- The count is below the width of the operand. -/
  count_lt : shiftCount ctx z s m p < p.type.width
  /-- A high byte is shifted as the low byte: the shift changes neither. -/
  high : ctx.passing = .byReference → p = .high8 →
    z.mnemonic.shift (RegPart.low8.read (m.file g)) (z.count m.file) = RegPart.low8.read
      (m.file g) ∧
      z.mnemonic.shift (RegPart.high8.read (m.file g)) (z.count m.file) =
        RegPart.high8.read (m.file g)
  /-- When the write is lost, the shift changes no register. -/
  lost : ctx.passing = .byValue → z.execShift m.file g p = m.file
  /-- A masked count of zero finds neither carry nor overflow, and the zero and sign flag of what
  the code shifts. -/
  flags : z.maskedCount m.file p = 0 → ∀ request, s.requested m request =
    some (BitVec.ofBool ((FlagOp.logicalFlags (shiftResult ctx z s m g p)).cond request))

/-! ## Code that does not run -/

/-- The code that the action emits ends no block, and does not run from the machine. -/
def Sticks (act : LiftM α) (s : LiftState) (m : Machine) : Prop :=
  ∃ a s' is, act.run s = .ok a s' ∧ s'.block = s.block.append is ∧
    (∀ i ∈ is, i.isTerminator = false) ∧ run IRInst.step is m = none

namespace Sticks

/-- Code that runs, before code that does not. -/
lemma bind_right {f : α → LiftM β} {Q : α → LiftState → Machine → Prop} (hs : s.Open)
    (h : ExecutesTo act s m Q) (hf : ∀ a s' m', s'.Open → Q a s' m' → Sticks (f a) s' m') :
    Sticks (act >>= f) s m := by
  obtain ⟨a, s', is, hrun, hblock, hterm, m', hm', hQ⟩ := h
  have hs' : s'.Open := hs.of_append hblock hterm
  obtain ⟨b, s'', js, hrun', hblock', hterm', hstuck⟩ := hf a s' m' hs' hQ
  refine ⟨b, s'', is ++ js, by rw [run_bind_of_ok hrun, hrun'], ?_, ?_, ?_⟩
  · rw [hblock', hblock, IRBasicBlock.append_append]
  · exact fun i hi => (List.mem_append.mp hi).elim (hterm i) (hterm' i)
  · rw [run_append, hm']
    exact hstuck

/-- Code that does not run, before other code. -/
lemma bind_left {f : α → LiftM β} (hs : s.Open) (h : Sticks act s m)
    (hf : ∀ a, Extends LiftState.block (f a)) : Sticks (act >>= f) s m := by
  obtain ⟨a, s', is, hrun, hblock, hterm, hstuck⟩ := h
  have hs' : s'.Open := hs.of_append hblock hterm
  obtain ⟨b, s'', js, hrun', hblock', hterm'⟩ := hf a s' hs'
  refine ⟨b, s'', is ++ js, by rw [run_bind_of_ok hrun, hrun'], ?_, ?_, ?_⟩
  · rw [hblock', hblock, IRBasicBlock.append_append]
  · exact fun i hi => (List.mem_append.mp hi).elim (hterm i) (hterm' i)
  · rw [run_append, hstuck]
    rfl

/-- Defining a temporary by an instruction that does not step. -/
lemma defineTemp {ty : IRType} {inst : ℕ → IRInst} (hs : s.Open)
    (hterm : (inst s.nextVregId).isTerminator = false) (hstep : (inst s.nextVregId).step m = none) :
    Sticks (defineTemp ty inst) s m := by
  refine ⟨.makeVReg s.nextVregId ty, s.emit 1 [inst s.nextVregId], [inst s.nextVregId], ?_, rfl,
    by simpa using hterm, by rw [run_singleton, hstep]⟩
  rw [FunctionLifter.defineTemp, run_define hs]
  rfl

/-- Whether the code of an action runs depends on its run. -/
lemma of_run_eq {act' : LiftM α} (hrun : act.run s = act'.run s) (h : Sticks act' s m) :
    Sticks act s m := by
  obtain ⟨a, s', is, hrun', h'⟩ := h
  exact ⟨a, s', is, hrun.trans hrun', h'⟩

/-- Code that does not run reaches no machine. -/
lemma not_executesTo (h : Sticks act s m) {Q : α → LiftState → Machine → Prop} :
    ¬ ExecutesTo act s m Q := by
  rintro ⟨a, s', is, hrun, hblock, -, m', hm', -⟩
  obtain ⟨a₂, s₂, js, hrun₂, hblock₂, -, hstuck⟩ := h
  obtain ⟨rfl, rfl⟩ : a₂ = a ∧ s₂ = s' := by simpa [hrun] using hrun₂.symm
  obtain rfl : js = is := by
    simpa using congrArg IRBasicBlock.instructions (hblock₂.symm.trans hblock)
  rw [hstuck] at hm'
  cases hm'

end Sticks

/-! ## The code -/

/-- The first part of the code of a shift: the operand and the extended count. -/
def shiftOperands (ctx : LiftContext) (z : ZydisDecodedInstruction) (ty : IRType) :
    LiftM (IRValue × IRValue) := do
  let val ← readOperand ctx (z.op 0) ty
  let amt ← readOperand ctx (z.op 1) .i8
  let ext ← defineTemp ty fun id => .makeCast .zext ⟨id, "shamt"⟩ ty amt
  return (val, ext)

/-- A shift opcode has a value for the amounts below the width. -/
def ShiftsAs (op : Opcode) (mnemonic : ZydisMnemonic) : Prop :=
  ∀ (w : ℕ) (a b : BitVec w),
    op.binop a b = if b.toNat < w then some (mnemonic.shift a b.toNat) else none

/-- The records of shifts have neither carry nor overflow. -/
def RecordsLogical (fop : FlagOp) : Prop :=
  ∀ (w : ℕ) (r a : BitVec w), FlagState.recoveredFlags fop r a = FlagOp.logicalFlags r

/-- A shift is lifted to the shift opcode that goes with it. -/
lemma exists_liftInstr_shift (h : di.zydis.mnemonic.isShift = true) :
    ∃ op fop, liftInstr ctx di = liftShift ctx op fop di.zydis ∧
      ShiftsAs op di.zydis.mnemonic ∧ RecordsLogical fop ∧
        ∀ d ty l r, (IRInst.makeBinop op d ty l r).isTerminator = false := by
  rw [liftInstr.eq_def]
  dsimp only
  generalize di.zydis.mnemonic = mnemonic at h
  cases mnemonic with
  | shl =>
    exact ⟨.shl, .shl, rfl, fun _ _ _ => rfl, fun _ _ _ => rfl, fun _ _ _ _ => rfl⟩
  | shr =>
    exact ⟨.lshr, .shr, rfl, fun _ _ _ => rfl, fun _ _ _ => rfl, fun _ _ _ _ => rfl⟩
  | sar =>
    exact ⟨.ashr, .sar, rfl, fun _ _ _ => rfl, fun _ _ _ => rfl, fun _ _ _ _ => rfl⟩
  | _ => cases h

/-- A fresh temporary holds the value of its instruction, and is the next one. -/
lemma executesTo_defineTemp_next {ty : IRType} {inst : ℕ → IRInst} {x : BitVec ty.width}
    (hs : s.Open) (hterm : (inst s.nextVregId).isTerminator = false)
    (hstep : (inst s.nextVregId).step m = some (m.set s.nextVregId x)) :
    ExecutesTo (defineTemp ty inst) s m fun v s' m' =>
      v = .makeVReg s.nextVregId ty ∧ ReadPost s m x v s' m' := by
  obtain ⟨a, s', is, hrun, hblock, his, m', hm', hpost⟩ := executesTo_defineTemp hs hterm hstep
  refine ⟨a, s', is, hrun, hblock, his, m', hm', ?_, hpost⟩
  rw [defineTemp, run_define hs] at hrun
  exact (EStateM.Result.ok.inj hrun).1.symm

/-- After a record of a result in a temporary, a request is a condition on the flags of the
result. -/
lemma requested_of_record {fop : FlagOp} (hfop : RecordsLogical fop) {ty : IRType}
    {result lhs rhs : IRValue} {r : BitVec ty.width} (hs : s.Open)
    (hrecord : s.flagState = FlagState.set {} fop result lhs rhs ty)
    (hresult : result.type = ty ∧ m.eval ty result = r ∧
      ∀ id, result.vregId? = some id → id < s.nextVregId)
    (hlhs : lhs.type = ty ∧ ∀ id, lhs.vregId? = some id → id < s.nextVregId)
    (request : FlagRequest) :
    s.requested m request = some (BitVec.ofBool ((FlagOp.logicalFlags r).cond request)) := by
  have hholds : (FlagState.set {} fop result lhs rhs ty).Holds m r (m.eval ty lhs) :=
    ⟨hresult.1, hlhs.1, hresult.2.1, rfl⟩
  have hfresh : (FlagState.set {} fop result lhs rhs ty).FreshIds (s.nextVregId + ·) := by
    refine ⟨fun _ _ h => by simpa using h, fun j hj => ?_, fun j hj => ?_⟩
    · exact absurd (hresult.2.2 _ hj) (by omega)
    · exact absurd (hlhs.2 _ hj) (by omega)
  unfold LiftState.requested
  rw [hrecord, FlagState.condition_eq (e := ⟨s.block, 0⟩) rfl hfresh request hs hholds]
  exact congrArg (fun f => some (BitVec.ofBool (X86Flags.cond f request))) (hfop _ _ _)

section Code

variable (hform : z.ShiftForm g p) (hs : s.Open) (hnext : 16 ≤ s.nextVregId) {op : Opcode}
  {fop : FlagOp} (hop : ShiftsAs op z.mnemonic) (hfop : RecordsLogical fop)
  (hterm : ∀ d ty l r, (IRInst.makeBinop op d ty l r).isTerminator = false)

include hform hs hnext

/-- The count is read as a byte. -/
lemma executesTo_readCount :
    ExecutesTo (readOperand ctx (z.op 1) .i8) s m fun v s' m' =>
      ∃ b : BitVec IRType.i8.width, ReadPost s m b v s' m' ∧
        b.toNat = codeCount ctx z m s.nextVregId := by
  cases hform.source with
  | immediate h =>
    simp only [readOperand, h]
    refine ExecutesTo.pure ⟨(z.op 1).imm.value.setWidth 8, ?_, ?_⟩
    · exact ⟨le_rfl, Machine.SameBut.refl _ m, rfl, by simp, by simp⟩
    · rw [codeCount, if_neg fun hc => by simp [h] at hc, ZydisDecodedInstruction.count,
        ZydisDecodedOperand.sourceValue, if_pos h]
  | register g' p' h hview hty =>
    have hp : p' ≠ .high8 := by
      rintro rfl
      simpa [ZydisDecodedOperand.isHighByte, h, hview] using hform.low
    obtain rfl : p' = .low8 := by
      cases p' <;> first | rfl | exact absurd rfl hp | cases hty
    simp only [readOperand, h]
    refine (executesTo_readReg_code hview hs hnext).mono fun v s' m' hread => ⟨_, hread.1, ?_⟩
    by_cases hpass : ctx.passing = .byValue
    · rw [codeRead, if_pos ⟨hpass, by decide⟩, codeCount, if_pos ⟨hpass, h⟩]
    · rw [codeRead, if_neg fun hc => hpass hc.1, codeCount, if_neg fun hc => hpass hc.1,
        ZydisDecodedInstruction.count, ZydisDecodedOperand.sourceValue, if_neg (by simp [h]), hview]
      simp [RegFile.read, RegPart.readLow_eq_read hp]

/-- The operand and the count are read into values of the width of the operand. -/
lemma executesTo_shiftOperands :
    ExecutesTo (shiftOperands ctx z p.type) s m fun out s' m' =>
      ReadPost s m (codeRead ctx m s.nextVregId g p) out.1 s' m' ∧
        ∃ c : BitVec p.type.width, ReadPost s m c out.2 s' m' ∧
          c.toNat = shiftCount ctx z s m p := by
  have hoperand : ExecutesTo (readOperand ctx (z.op 0) p.type) s m fun v s' m' =>
      ReadPost s m (codeRead ctx m s.nextVregId g p) v s' m' ∧
        s'.nextVregId = s.nextVregId + if p = .qword then 0 else 1 := by
    simp only [readOperand, hform.type]
    exact executesTo_readReg_code hform.view hs hnext
  refine ExecutesTo.bind hs hoperand ?_
  rintro val s₁ m₁ hs₁ ⟨hval, hnext₁⟩
  refine ExecutesTo.bind hs₁ (executesTo_readCount hform hs₁ (hnext.trans hval.next_le)) ?_
  rintro amt s₂ m₂ hs₂ ⟨b, hamt, hb⟩
  -- the temporary of the count, and the registers, are as before the operand was read
  have hcount : codeCount ctx z m₁ s₁.nextVregId = shiftCount ctx z s m p := by
    rw [shiftCount, codeCount, codeCount, ← hnext₁, hval.same.regs _ fun hmem => lt_irrefl _ hmem.2,
      ZydisDecodedInstruction.count, file_eq_of_sameBut hnext hval.same]
    rfl
  have hval₂ := hval.extend hamt.next_le hamt.same
  have hstep : (IRInst.makeCast .zext ⟨s₂.nextVregId, "shamt"⟩ p.type amt).step m₂ =
      some (m₂.set s₂.nextVregId (b.setWidth p.type.width)) := by
    rw [IRInst.step_makeCast rfl, hamt.type, hamt.value]
    rfl
  refine ExecutesTo.bind hs₂ (executesTo_defineTemp hs₂ rfl hstep) fun ext s₃ m₃ hs₃ hext => ?_
  refine ExecutesTo.pure ⟨hval₂.extend hext.next_le hext.same, _,
    hext.of_le hval₂.next_le hval₂.same, ?_⟩
  have hwidth : 8 ≤ p.type.width := by
    cases p <;> decide
  rw [← hcount, ← hb, BitVec.toNat_setWidth]
  exact Nat.mod_eq_of_lt (b.isLt.trans_le (Nat.pow_le_pow_right (by decide) hwidth))

omit hs hnext in
/-- The code of a shift, after its operands. -/
lemma liftShift_eq (op : Opcode) (fop : FlagOp) :
    liftShift ctx op fop z = shiftOperands ctx z p.type >>= fun out => (do
      let result ← defineTemp p.type fun id => .makeBinop op ⟨id, "shift"⟩ p.type out.1 out.2
      setFlags fop result out.1 out.2 p.type
      writeOperand ctx (z.op 0) result) := by
  simp only [liftShift, shiftOperands, (tables_of_view hform.view).2, bind_assoc, pure_bind]

include hop hterm

/-- A count from the width on has no value. -/
lemma sticks_liftShift (hcount : p.type.width ≤ shiftCount ctx z s m p) :
    Sticks (liftShift ctx op fop z) s m := by
  rw [liftShift_eq hform]
  refine Sticks.bind_right hs (executesTo_shiftOperands hform hs hnext) ?_
  rintro ⟨val, ext⟩ s₁ m₁ hs₁ ⟨hval, c, hext, hc⟩
  refine Sticks.bind_left hs₁ (Sticks.defineTemp hs₁ (hterm _ _ _ _) ?_) fun result => ?_
  · rw [IRInst.step_makeBinop, hval.value, hext.value, hop, if_neg (by omega)]
    rfl
  · exact (extends_setFlags _ _ _ _ _).bind fun _ => extends_writeOperand ctx _ _

include hfop

/-- A count below the width shifts what is read, and leaves the flags of the result. -/
lemma executesTo_liftShift (hcount : shiftCount ctx z s m p < p.type.width) :
    ExecutesTo (liftShift ctx op fop z) s m fun _ s' m' =>
      m'.file =
          Function.update m.file g (codeWrite ctx p (m.file g) (shiftResult ctx z s m g p)) ∧
        ∀ request, s'.requested m' request =
          some (BitVec.ofBool ((FlagOp.logicalFlags (shiftResult ctx z s m g p)).cond
            request)) := by
  rw [liftShift_eq hform]
  refine ExecutesTo.bind hs (executesTo_shiftOperands hform hs hnext) ?_
  rintro ⟨val, ext⟩ s₁ m₁ hs₁ ⟨hval, c, hext, hc⟩
  set r := shiftResult ctx z s m g p with hr
  have hstep : (IRInst.makeBinop op ⟨s₁.nextVregId, "shift"⟩ p.type val ext).step m₁ =
      some (m₁.set s₁.nextVregId r) := by
    rw [IRInst.step_makeBinop, hval.value, hext.value, hop, hc, if_pos hcount]
    rfl
  refine ExecutesTo.bind hs₁ (executesTo_defineTemp_next hs₁ (hterm _ _ _ _) hstep) ?_
  rintro _ s₂ m₂ hs₂ ⟨rfl, hresult⟩
  set record := FlagState.set {} fop (.makeVReg s₁.nextVregId p.type) val ext p.type with hrecord
  refine ExecutesTo.bind (Q := fun _ s₃ m₃ => m₂ = m₃ ∧ { s₂ with flagState := record } = s₃) hs₂
    (ExecutesTo.setFlags ⟨rfl, rfl⟩) ?_
  rintro _ s₃ m₃ hs₃ ⟨rfl, hs₃eq⟩
  have hnext₃ : s₃.nextVregId = s₂.nextVregId := by rw [← hs₃eq]
  have hwritten := hresult.of_le hval.next_le hval.same
  simp only [writeOperand, hform.type]
  have hid : ∀ id, (IRValue.makeVReg s₁.nextVregId p.type).vregId? = some id →
      id < s₃.nextVregId := by
    rw [hnext₃]
    exact hresult.vregId_lt
  refine (executesTo_writeReg_code hform.view hs₃ hresult.type hid m₂).mono ?_
  rintro _ s₄ m₄ ⟨hwrite, hs₄, hflags⟩
  have hnext₁ := hnext.trans hval.next_le
  have hnext₂ := hnext.trans hwritten.next_le
  constructor
  · rw [file_eq_of_sameBut (hnext₂.trans hnext₃.ge) hwrite.same, file_set, hresult.value,
      file_eq_of_sameBut hnext hwritten.same]
  · -- the write touches the destination and later temporaries, not the result
    have hresult₄ : m₄.eval p.type (.makeVReg s₁.nextVregId p.type) = r := by
      have hset : m₂.SameBut {g.vregId} (m₂.set g.vregId
          (codeWrite ctx p (m₂.file g) (m₂.eval p.type (.makeVReg s₁.nextVregId p.type)))) :=
        Machine.SameBut.set (Set.mem_singleton _) m₂ _
      rw [← hresult.value, hwrite.same.eval_eq p.type fun id hid' hmem => ?_,
        hset.eval_eq p.type fun id hid' hmem => ?_]
      · obtain rfl : s₁.nextVregId = id := by simpa using hid'
        have hlt := g.vregId_lt
        rw [Set.mem_singleton_iff.mp hmem] at hnext₁
        omega
      · exact absurd (hid id hid') (not_lt.mpr hmem.1)
    have hlhs := (hval.extend hresult.next_le hresult.same).vregId_lt
    have hle : s₂.nextVregId ≤ s₄.nextVregId := hnext₃.ge.trans hwrite.next_le
    have hrecord₄ : s₄.flagState = record := by rw [hflags, ← hs₃eq]
    exact requested_of_record hfop hs₄ hrecord₄
      ⟨rfl, hresult₄, fun id h => (hid id h).trans_le hwrite.next_le⟩
      ⟨hval.type, fun id h => (hlhs id h).trans_le hle⟩

end Code

/-- Shifting the low part is shifting the part, unless the part is a high byte; then it is when the
shift changes neither byte. -/
lemma writeLow_shift_eq_iff {mnemonic : ZydisMnemonic} {n : ℕ} (p : RegPart) (x : BitVec 64) :
    p.writeLow x (mnemonic.shift (p.readLow x) n) = p.write x (mnemonic.shift (p.read x) n) ↔
      (p = .high8 → mnemonic.shift (RegPart.low8.read x) n = RegPart.low8.read x ∧
        mnemonic.shift (RegPart.high8.read x) n = RegPart.high8.read x) := by
  by_cases hp : p = .high8
  · subst hp
    have hlow : RegPart.low8.read x = x.setWidth 8 := by simp [RegPart.read, RegPart.offset]
    have hhigh : RegPart.high8.read x = (x >>> 8).setWidth 8 := rfl
    have hbits := insertBits_zero_eq_iff x (mnemonic.shift (x.setWidth 8) n)
      (mnemonic.shift ((x >>> 8).setWidth 8) n) (by decide)
    have hiff : insertBits x 0 (mnemonic.shift (RegPart.low8.read x) n) =
          insertBits x 8 (mnemonic.shift (RegPart.high8.read x) n) ↔
        mnemonic.shift (RegPart.low8.read x) n = RegPart.low8.read x ∧
          mnemonic.shift (RegPart.high8.read x) n = RegPart.high8.read x := by
      rw [hlow, hhigh]
      exact hbits.trans (and_congr eq_comm eq_comm)
    exact ⟨fun h _ => hiff.mp h, fun h => hiff.mpr (h rfl)⟩
  · rw [RegPart.readLow_eq_read hp, RegPart.writeLow_eq_write hp]
    exact iff_of_true rfl fun h => absurd h hp

/-- The code writes what the processor writes, exactly if no high byte and no lost write shows. -/
lemma update_codeWrite_eq_execShift_iff (hcount : shiftCount ctx z s m p < p.type.width) :
    Function.update m.file g (codeWrite ctx p (m.file g) (shiftResult ctx z s m g p)) =
        z.execShift m.file g p ↔
      (ctx.passing = .byReference → p = .high8 →
        z.mnemonic.shift (RegPart.low8.read (m.file g)) (z.count m.file) =
            RegPart.low8.read (m.file g) ∧
          z.mnemonic.shift (RegPart.high8.read (m.file g)) (z.count m.file) =
            RegPart.high8.read (m.file g)) ∧
        (ctx.passing = .byValue → z.execShift m.file g p = m.file) := by
  cases hpass : ctx.passing with
  | byReference =>
    have hcode : shiftCount ctx z s m p = z.count m.file := by
      rw [shiftCount, codeCount, if_neg fun h => by simp [hpass] at h]
    have hresult : shiftResult ctx z s m g p =
        z.mnemonic.shift (p.readLow (m.file g)) (z.count m.file) := by
      rw [shiftResult, hcode, codeRead, if_neg fun h => by simp [hpass] at h]
    have hexec : z.execShift m.file g p = Function.update m.file g
        (p.write (m.file g) (z.mnemonic.shift (p.read (m.file g)) (z.count m.file))) := by
      rw [ZydisDecodedInstruction.execShift,
        ZydisDecodedInstruction.maskedCount_of_lt (hcode ▸ hcount)]
      rfl
    rw [hexec, hresult, codeWrite, if_neg (by simp [hpass]),
      (Function.update_injective m.file g).eq_iff, writeLow_shift_eq_iff]
    simp
  | byValue =>
    rw [codeWrite, if_pos hpass, Function.update_eq_self, eq_comm]
    simp

/-- The code of a shift leaves the register file of the processor, and with a masked count of zero
the flags that were there, exactly if the count is below the width of the operand, a high byte and
the low byte beside it are not changed by the shift, no register is when the write is lost, and a
masked count of zero finds neither carry nor overflow and the zero and sign flag of the operand. -/
theorem liftInstr_shift_iff (hform : di.zydis.ShiftForm g p) (hs : s.Open)
    (hnext : 16 ≤ s.nextVregId) (m : Machine) :
    ExecutesTo (liftInstr ctx di) s m (fun _ s' m' =>
      m'.file = di.zydis.execShift m.file g p ∧
        (di.zydis.maskedCount m.file p = 0 →
          ∀ request, s'.requested m' request = s.requested m request)) ↔
      ShiftRight ctx di.zydis s m g p := by
  obtain ⟨op, fop, hlift, hop, hfop, hterm⟩ := @exists_liftInstr_shift ctx di hform.mnemonic
  rw [hlift]
  by_cases hcount : shiftCount ctx di.zydis s m p < p.type.width
  · have hexec := executesTo_liftShift (m := m) hform hs hnext hop hfop hterm hcount
    have hfile := update_codeWrite_eq_execShift_iff (g := g) hcount
    constructor
    · intro h
      obtain ⟨_, s', m', ⟨hpost, hsame⟩, hwritten, hflags⟩ := h.and hexec
      obtain ⟨hhigh, hlost⟩ := hfile.mp (hwritten.symm.trans hpost)
      exact ⟨hcount, hhigh, hlost, fun h0 request => by rw [← hsame h0, hflags]⟩
    · intro h
      refine hexec.mono ?_
      rintro _ s' m' ⟨hwritten, hflags⟩
      refine ⟨hwritten.trans (hfile.mpr ⟨h.high, h.lost⟩), fun h0 request => ?_⟩
      rw [hflags, h.flags h0]
  · exact iff_of_false (sticks_liftShift hform hs hnext hop hterm (not_lt.mp hcount)).not_executesTo
      fun h => hcount h.count_lt

/-- `shl eax, 32`. -/
def shlEaxThirtyTwo : DecodedInstr where
  va := 0
  length := 3
  zydis := {
    mnemonic := .shl, length := 3, operandCountVisible := 2,
    operands := [{ type := .register, size := 32, reg := .eax },
      { type := .immediate, size := 8, imm := { isSigned := false, value := 32 } }] }

lemma shlEaxThirtyTwo_form : shlEaxThirtyTwo.zydis.ShiftForm .rax .dword :=
  ⟨rfl, rfl, rfl, .immediate rfl, rfl⟩

/-- `shl eax, 32` on zero registers. -/
theorem liftInstr_shift_iff_thirtyTwo :
    ExecutesTo (liftInstr bareContext shlEaxThirtyTwo) emptyBlock zeroMachine (fun _ s' m' =>
      m'.file = shlEaxThirtyTwo.zydis.execShift zeroMachine.file .rax .dword ∧
        (shlEaxThirtyTwo.zydis.maskedCount zeroMachine.file .dword = 0 →
          ∀ request, s'.requested m' request = emptyBlock.requested zeroMachine request)) ↔
      ShiftRight bareContext shlEaxThirtyTwo.zydis emptyBlock zeroMachine .rax .dword :=
  liftInstr_shift_iff shlEaxThirtyTwo_form emptyBlock_open (by decide) zeroMachine

/-- The processor leaves `eax` as it is; the code of `shl eax, 32` shifts by the width, with either
parameter passing. -/
theorem shlEaxThirtyTwo_sticks :
    shlEaxThirtyTwo.zydis.maskedCount zeroMachine.file .dword = 0 ∧
      ∀ ctx : LiftContext,
        ¬ ExecutesTo (liftInstr ctx shlEaxThirtyTwo) emptyBlock zeroMachine fun _ s' m' =>
          m'.file = shlEaxThirtyTwo.zydis.execShift zeroMachine.file .rax .dword ∧
            (shlEaxThirtyTwo.zydis.maskedCount zeroMachine.file .dword = 0 →
              ∀ request, s'.requested m' request = emptyBlock.requested zeroMachine request) := by
  refine ⟨by decide, fun ctx => ?_⟩
  obtain ⟨op, fop, hlift, hop, -, hterm⟩ :=
    @exists_liftInstr_shift ctx shlEaxThirtyTwo shlEaxThirtyTwo_form.mnemonic
  have hcount : shiftCount ctx shlEaxThirtyTwo.zydis emptyBlock zeroMachine .dword = 32 := by
    have himm : (shlEaxThirtyTwo.zydis.op 1).type ≠ .register := by decide
    rw [shiftCount, codeCount, if_neg fun h => himm h.2]
    decide
  rw [hlift]
  exact (sticks_liftShift shlEaxThirtyTwo_form emptyBlock_open (by decide) hop hterm
    hcount.ge).not_executesTo

end FunctionLifter

end InstaX
