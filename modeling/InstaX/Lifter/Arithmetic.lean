import InstaX.Lifter.Instr
import InstaX.X86.Semantics

/-!
# Lifted register arithmetic

The code lifted for an arithmetic or logical instruction on general purpose registers leaves the
register file of the architecture, whatever the width and however the operands alias
(`liftInstr_execArith`).  High byte registers are excluded, since they are read and written as the
low byte.  The proof follows the code: both operands are read into values that later temporaries do
not disturb (`ReadPost`), the operation is computed, and only then is the destination written.
-/

namespace InstaX

open Throwing StraightLine

namespace FunctionLifter

variable {ctx : LiftContext} {s s₁ s₂ : LiftState} {m m₁ m₂ : Machine} {ty : IRType}

/-- A value that was read stays readable while later temporaries are written. -/
lemma ReadPost.extend {x : BitVec ty.width} {v : IRValue} (h : ReadPost s m x v s₁ m₁)
    (hnext : s₁.nextVregId ≤ s₂.nextVregId)
    (hsame : m₁.SameBut (Set.Ico s₁.nextVregId s₂.nextVregId) m₂) : ReadPost s m x v s₂ m₂ where
  next_le := h.next_le.trans hnext
  same := (h.same.mono (Set.Ico_subset_Ico_right hnext)).trans
    (hsame.mono (Set.Ico_subset_Ico_left h.next_le))
  type := h.type
  vregId_lt id hid := (h.vregId_lt id hid).trans_le hnext
  value := by
    rw [← h.value]
    refine hsame.eval_eq ty fun id hid hmem => ?_
    have := h.vregId_lt id hid
    have := hmem.1
    omega

/-- Reading in two steps is reading from the start. -/
lemma ReadPost.of_le {x : BitVec ty.width} {v : IRValue} (h : ReadPost s₁ m₁ x v s₂ m₂)
    (hnext : s.nextVregId ≤ s₁.nextVregId)
    (hsame : m.SameBut (Set.Ico s.nextVregId s₁.nextVregId) m₁) : ReadPost s m x v s₂ m₂ where
  next_le := hnext.trans h.next_le
  same := (hsame.mono (Set.Ico_subset_Ico_right h.next_le)).trans
    (h.same.mono (Set.Ico_subset_Ico_left hnext))
  type := h.type
  vregId_lt := h.vregId_lt
  value := h.value

/-- Recording flags emits nothing. -/
lemma ExecutesTo.setFlags {op : FlagOp} {result lhs rhs : IRValue}
    {R : Unit → LiftState → Machine → Prop}
    (h : R () { s with flagState := s.flagState.set op result lhs rhs ty } m) :
    ExecutesTo (setFlags op result lhs rhs ty) s m R :=
  ⟨(), _, [], rfl, by simp, by simp, m, rfl, h⟩

/-- A fresh temporary holds the value that its defining instruction computes. -/
lemma executesTo_defineTemp {inst : ℕ → IRInst} {x : BitVec ty.width} (hs : s.Open)
    (hterm : (inst s.nextVregId).isTerminator = false)
    (hstep : (inst s.nextVregId).step m = some (m.set s.nextVregId x)) :
    ExecutesTo (defineTemp ty inst) s m (ReadPost s m x) := by
  refine ExecutesTo.define hs hterm hstep (ExecutesTo.pure ⟨by simp, ?_, rfl, fun id hid => ?_, ?_⟩)
  · exact Machine.SameBut.set (by simp) m x
  · simp only [IRValue.makeVReg_vregId?, Option.some.injEq] at hid
    simp [← hid]
  · rw [Machine.eval_makeVReg, Machine.setWidth_set_self _ _ _ ty.width_le]

/-- A register operand is read at its own width. -/
lemma executesTo_readOperand_register (hpass : ctx.passing = .byReference)
    {op : ZydisDecodedOperand} {g : Gpr} {p : RegPart} (htype : op.type = .register)
    (hview : op.reg.view = some (g, p)) (hs : s.Open) (hnext : 16 ≤ s.nextVregId) :
    ExecutesTo (readOperand ctx op ty) s m (ReadPost s m (p.readLow (m.file g))) := by
  simp only [readOperand, htype, withBlockArg_byReference hpass]
  exact executesTo_readReg hview hs hnext m

/-- A source operand is read at the width of the instruction. -/
lemma executesTo_readOperand_source (hpass : ctx.passing = .byReference)
    {op : ZydisDecodedOperand} (hop : op.IsSource ty) (hhigh : op.isHighByte = false)
    (hs : s.Open) (hnext : 16 ≤ s.nextVregId) :
    ExecutesTo (readOperand ctx op ty) s m (ReadPost s m (op.sourceValue m.file ty)) := by
  cases hop with
  | immediate h =>
    simp only [readOperand, h, ZydisDecodedOperand.sourceValue, if_true]
    exact ExecutesTo.pure ⟨le_rfl, Machine.SameBut.refl _ m, rfl, by simp, by simp⟩
  | register g p h hview hty =>
    subst hty
    have hp : p ≠ .high8 := by
      rintro rfl
      simp [ZydisDecodedOperand.isHighByte, h, hview] at hhigh
    have hvalue : op.sourceValue m.file p.type = p.readLow (m.file g) := by
      simp [ZydisDecodedOperand.sourceValue, h, hview, RegFile.read, RegPart.readLow_eq_read hp]
    rw [hvalue]
    exact executesTo_readOperand_register hpass h hview hs hnext

/-- A binary operation on two readable operands: the result and the left operand are readable. -/
lemma executesTo_binopCode {op : Opcode} {name : String} {x y : ZydisDecodedOperand}
    {a b r : BitVec ty.width}
    (hx : ExecutesTo (readOperand ctx x ty) s m (ReadPost s m a))
    (hy : ∀ s₁ m₁, s₁.Open → s.nextVregId ≤ s₁.nextVregId →
      m.SameBut (Set.Ico s.nextVregId s₁.nextVregId) m₁ →
      ExecutesTo (readOperand ctx y ty) s₁ m₁ (ReadPost s₁ m₁ b))
    (hs : s.Open) (hr : op.binop a b = some r)
    (hterm : ∀ d l r, (IRInst.makeBinop op d ty l r).isTerminator = false) :
    ExecutesTo (binopCode ctx op name ty x y) s m fun out s' m' =>
      ReadPost s m r out.1 s' m' ∧ ReadPost s m a out.2.1 s' m' := by
  refine ExecutesTo.bind hs hx fun lhs s₁ m₁ hs₁ hlhs => ?_
  refine ExecutesTo.bind hs₁ (hy s₁ m₁ hs₁ hlhs.next_le hlhs.same) fun rhs s₂ m₂ hs₂ hrhs => ?_
  have hlhs₂ := hlhs.extend hrhs.next_le hrhs.same
  refine ExecutesTo.bind hs₂ (executesTo_defineTemp (x := r) hs₂ (hterm _ _ _) ?_) ?_
  · rw [IRInst.step_makeBinop, hlhs₂.value, hrhs.value, hr]
    rfl
  · intro result s₃ m₃ _ hresult
    exact ExecutesTo.pure
      ⟨hresult.of_le hlhs₂.next_le hlhs₂.same, hlhs₂.extend hresult.next_le hresult.same⟩

variable {z : ZydisDecodedInstruction} {g : Gpr} {p : RegPart}

/-- The destination is written last, with a readable result. -/
lemma executesTo_writeOperand_register (hpass : ctx.passing = .byReference)
    {op : ZydisDecodedOperand} (htype : op.type = .register) (hview : op.reg.view = some (g, p))
    (hnext : 16 ≤ s.nextVregId) {r : BitVec p.type.width} {result : IRValue}
    (hresult : ReadPost s m r result s₁ m₁) (hs₁ : s₁.Open) :
    ExecutesTo (writeOperand ctx op result) s₁ m₁ fun _ _ m' =>
      m'.file = Function.update m.file g (p.writeLow (m.file g) r) := by
  simp only [writeOperand, htype, withBlockArg_byReference hpass]
  refine (executesTo_writeReg hview hs₁ hresult.type hresult.vregId_lt m₁).mono ?_
  rintro - s₂ m₂ hwrite
  rw [file_eq_of_sameBut (hnext.trans hresult.next_le) hwrite.same, file_set, hresult.value,
    file_eq_of_sameBut hnext hresult.same]

section Forms

variable (hpass : ctx.passing = .byReference) (hform : z.RegisterForm g p)
  (hdst : (z.op 0).isHighByte = false) (hs : s.Open) (hnext : 16 ≤ s.nextVregId)

/-- The first operand is not a high byte register. -/
lemma part_ne_high8 {op : ZydisDecodedOperand} (htype : op.type = .register)
    (hview : op.reg.view = some (g, p)) (hhigh : op.isHighByte = false) : p ≠ .high8 := by
  rintro rfl
  simp [ZydisDecodedOperand.isHighByte, htype, hview] at hhigh

include hpass hform hdst hs hnext

/-- The first operand is read as the part of the register it names. -/
lemma executesTo_readOperand_dst :
    ExecutesTo (readOperand ctx (z.op 0) p.type) s m (ReadPost s m (m.file.read g p)) := by
  rw [RegFile.read, ← RegPart.readLow_eq_read (part_ne_high8 hform.type hform.view hdst)]
  exact executesTo_readOperand_register hpass hform.type hform.view hs hnext

/-- The instructions with two operands: the result and its flag record. -/
lemma executesTo_liftBinop {op : Opcode} {name : String} {fop : FlagOp}
    (hsrc : (z.op 1).IsSource p.type) (hhigh : (z.op 1).isHighByte = false)
    {r : BitVec p.type.width}
    (hr : op.binop (m.file.read g p) ((z.op 1).sourceValue m.file p.type) = some r)
    (hterm : ∀ d l r, (IRInst.makeBinop op d p.type l r).isTerminator = false) :
    ExecutesTo (liftBinop ctx op name fop p.type (z.op 0) (z.op 1)) s m (ReadPost s m r) := by
  refine ExecutesTo.bind hs (executesTo_binopCode (r := r)
    (executesTo_readOperand_dst hpass hform hdst hs hnext) ?_ hs hr hterm) ?_
  · intro s₁ m₁ hs₁ hnext₁ hsame
    have hsource := executesTo_readOperand_source (m := m₁) hpass hsrc hhigh hs₁
      (hnext.trans hnext₁)
    rwa [file_eq_of_sameBut hnext hsame] at hsource
  · rintro ⟨result, lhs, rhs⟩ s₁ m₁ hs₁ ⟨hresult, -⟩
    refine ExecutesTo.bind hs₁ (ExecutesTo.setFlags ?_) fun _ s₂ m₂ _ h => ExecutesTo.pure h
    exact ⟨hresult.next_le, hresult.same, hresult.type, hresult.vregId_lt, hresult.value⟩

/-- A computed result, written to the destination. -/
lemma executesTo_writeBack {r : BitVec p.type.width} {act : LiftM IRValue}
    (hact : ExecutesTo act s m (ReadPost s m r)) :
    ExecutesTo (do let result ← act; writeOperand ctx (z.op 0) result) s m fun _ _ m' =>
      m'.file = m.file.write g p r := by
  refine ExecutesTo.bind hs hact fun result s₁ m₁ hs₁ hresult => ?_
  refine (executesTo_writeOperand_register hpass hform.type hform.view hnext hresult hs₁).mono ?_
  intro _ _ m' hfile
  rw [hfile, RegPart.writeLow_eq_write (part_ne_high8 hform.type hform.view hdst)]
  rfl

/-- `INC` and `DEC`: the operation, its flag record and the write. -/
lemma executesTo_liftIncDec (isDec : Bool) :
    ExecutesTo (liftIncDec ctx isDec z) s m fun _ _ m' =>
      m'.file = m.file.write g p
        (if isDec then m.file.read g p - 1 else m.file.read g p + 1) := by
  have hty : typeOfReg (z.op 0).reg = p.type := (tables_of_view hform.view).2
  have hcode : ExecutesTo (do
      let src ← readOperand ctx (z.op 0) p.type
      let result ← defineTemp p.type fun id =>
        .makeBinop (if isDec then .sub else .add) ⟨id, if isDec then "dec" else "inc"⟩ p.type src
          (.makeImm 1 p.type)
      setFlags (if isDec then .dec else .inc) result src (.makeImm 1 p.type) p.type
      return result) s m
      (ReadPost s m (if isDec then m.file.read g p - 1 else m.file.read g p + 1)) := by
    refine ExecutesTo.bind hs (executesTo_readOperand_dst hpass hform hdst hs hnext) ?_
    intro src s₁ m₁ hs₁ hsrc
    refine ExecutesTo.bind hs₁ (executesTo_defineTemp
      (x := if isDec then m.file.read g p - 1 else m.file.read g p + 1) hs₁ ?_ ?_) ?_
    · cases isDec <;> rfl
    · rw [IRInst.step_makeBinop, hsrc.value, Machine.eval_makeImm]
      cases isDec <;> cases p <;> rfl
    · intro result s₂ m₂ hs₂ hresult
      refine ExecutesTo.bind hs₂ (ExecutesTo.setFlags ?_) fun _ s₃ m₃ _ h => ExecutesTo.pure h
      have h := hresult.of_le hsrc.next_le hsrc.same
      exact ⟨h.next_le, h.same, h.type, h.vregId_lt, h.value⟩
  have h := executesTo_writeBack hpass hform hdst hs hnext hcode
  simpa only [liftIncDec, hty, bind_assoc, pure_bind] using h

/-- `NOT` and `NEG`: the operation, the flag record of `NEG`, and the write. -/
lemma executesTo_liftUnary (isNeg : Bool) :
    ExecutesTo (liftUnary ctx isNeg z) s m fun _ _ m' =>
      m'.file = m.file.write g p
        (if isNeg then -m.file.read g p else ~~~m.file.read g p) := by
  have hty : typeOfReg (z.op 0).reg = p.type := (tables_of_view hform.view).2
  have hcode : ExecutesTo (do
      let src ← readOperand ctx (z.op 0) p.type
      let result ← defineTemp p.type fun id =>
        .makeUnop (if isNeg then .neg else .not) ⟨id, "unary"⟩ p.type src
      if isNeg then setFlags .sub result (.makeImm 0 p.type) src p.type
      return result) s m
      (ReadPost s m (if isNeg then -m.file.read g p else ~~~m.file.read g p)) := by
    refine ExecutesTo.bind hs (executesTo_readOperand_dst hpass hform hdst hs hnext) ?_
    intro src s₁ m₁ hs₁ hsrc
    refine ExecutesTo.bind hs₁ (executesTo_defineTemp
      (x := if isNeg then -m.file.read g p else ~~~m.file.read g p) hs₁ ?_ ?_) ?_
    · cases isNeg <;> rfl
    · rw [IRInst.step_makeUnop (by cases isNeg <;> simp), hsrc.value]
      cases isNeg <;> rfl
    · intro result s₂ m₂ hs₂ hresult
      have h := hresult.of_le hsrc.next_le hsrc.same
      cases isNeg with
      | false => exact ExecutesTo.pure h
      | true =>
        refine ExecutesTo.bind hs₂ (ExecutesTo.setFlags ?_) fun _ s₃ m₃ _ h => ExecutesTo.pure h
        exact ⟨h.next_le, h.same, h.type, h.vregId_lt, h.value⟩
  have h := executesTo_writeBack hpass hform hdst hs hnext hcode
  cases isNeg <;>
    simpa only [liftUnary, hty, bind_assoc, pure_bind, reduceIte, Bool.false_eq_true] using h

/-- `ADD`, `SUB`, `AND`, `OR` and `XOR`. -/
lemma executesTo_liftArith {op : Opcode} {name : String} {fop : FlagOp}
    (hsrc : (z.op 1).IsSource p.type) (hhigh : (z.op 1).isHighByte = false)
    {r : BitVec p.type.width}
    (hr : op.binop (m.file.read g p) ((z.op 1).sourceValue m.file p.type) = some r)
    (hterm : ∀ d l r, (IRInst.makeBinop op d p.type l r).isTerminator = false) :
    ExecutesTo (liftArith ctx op name fop p.type z) s m fun _ _ m' =>
      m'.file = m.file.write g p r :=
  executesTo_writeBack hpass hform hdst hs hnext
    (executesTo_liftBinop hpass hform hdst hs hnext hsrc hhigh hr hterm)

/-- `CMP` and `TEST` write no register. -/
lemma executesTo_liftCompare {op : Opcode} {name : String} {fop : FlagOp}
    (hsrc : (z.op 1).IsSource p.type) (hhigh : (z.op 1).isHighByte = false)
    {r : BitVec p.type.width}
    (hr : op.binop (m.file.read g p) ((z.op 1).sourceValue m.file p.type) = some r)
    (hterm : ∀ d l r, (IRInst.makeBinop op d p.type l r).isTerminator = false) :
    ExecutesTo (liftCompare ctx op name fop z) s m fun _ _ m' => m'.file = m.file := by
  have hty : cmpType ctx (z.op 0) = p.type := by
    rw [cmpType, if_pos hform.type, (tables_of_view hform.view).2]
  rw [liftCompare, hty]
  refine ExecutesTo.bind hs
    (executesTo_liftBinop hpass hform hdst hs hnext hsrc hhigh hr hterm) ?_
  intro result s₁ m₁ _ hresult
  exact ExecutesTo.pure (file_eq_of_sameBut hnext hresult.same)

end Forms

/-- The code lifted for an arithmetic or logical instruction on general purpose registers other than
the high bytes takes the register file to that of the architecture. -/
theorem liftInstr_execArith (hpass : ctx.passing = .byReference) {di : DecodedInstr}
    (hdest : ctx.destWidth (di.zydis.op 0) (di.zydis.op 1) = typeOfReg (di.zydis.op 0).reg)
    (hform : di.zydis.RegisterForm g p) (hdst : (di.zydis.op 0).isHighByte = false)
    (hsrc : (di.zydis.op 1).isHighByte = false) (hs : s.Open) (hnext : 16 ≤ s.nextVregId)
    (m : Machine) {f : RegFile}
    (hf : di.zydis.mnemonic.execArith m.file g p ((di.zydis.op 1).sourceValue m.file p.type) =
      some f) :
    ExecutesTo (liftInstr ctx di) s m fun _ _ m' => m'.file = f := by
  have hreg : typeOfReg (di.zydis.op 0).reg = p.type := (tables_of_view hform.view).2
  have harith : arithType (di.zydis.op 0) = p.type := by rw [arithType, if_pos hform.type, hreg]
  rw [hreg] at hdest
  simp only [ZydisMnemonic.execArith, Option.map_eq_some_iff] at hf
  obtain ⟨r, hr, rfl⟩ := hf
  have hsource := hform.source
  -- the two families of instructions with two operands, and the single operand ones
  have write : ∀ {op : Opcode} {name : String} {fop : FlagOp},
      di.zydis.mnemonic.isUnary = false →
      op.binop (m.file.read g p) ((di.zydis.op 1).sourceValue m.file p.type) = some r →
      (∀ d l r, (IRInst.makeBinop op d p.type l r).isTerminator = false) →
      ExecutesTo (liftArith ctx op name fop p.type di.zydis) s m fun _ _ m' =>
        m'.file = m.file.write g p r := fun hunary hop hterm =>
    executesTo_liftArith hpass hform hdst hs hnext
      (hsource.resolve_left (by simp [hunary])) hsrc hop hterm
  have compare : ∀ {op : Opcode} {name : String} {fop : FlagOp},
      di.zydis.mnemonic.isUnary = false →
      op.binop (m.file.read g p) ((di.zydis.op 1).sourceValue m.file p.type) = some r →
      (∀ d l r, (IRInst.makeBinop op d p.type l r).isTerminator = false) →
      ExecutesTo (liftCompare ctx op name fop di.zydis) s m fun _ _ m' => m'.file = m.file :=
    fun hunary hop hterm => executesTo_liftCompare hpass hform hdst hs hnext
      (hsource.resolve_left (by simp [hunary])) hsrc hop hterm
  have hincdec := executesTo_liftIncDec (m := m) hpass hform hdst hs hnext
  have hunary := executesTo_liftUnary (m := m) hpass hform hdst hs hnext
  rw [liftInstr.eq_def]
  dsimp only
  generalize di.zydis.mnemonic = mnemonic at *
  cases mnemonic with
  | add => cases hr; rw [harith]; exact write rfl rfl fun _ _ _ => rfl
  | sub => cases hr; rw [harith]; exact write rfl rfl fun _ _ _ => rfl
  | and => cases hr; rw [hdest]; exact write rfl rfl fun _ _ _ => rfl
  | or => cases hr; rw [hdest]; exact write rfl rfl fun _ _ _ => rfl
  | xor => cases hr; rw [hdest]; exact write rfl rfl fun _ _ _ => rfl
  | cmp => cases hr; exact compare rfl rfl fun _ _ _ => rfl
  | test => cases hr; exact compare rfl rfl fun _ _ _ => rfl
  | not => cases hr; exact hunary false
  | neg => cases hr; exact hunary true
  | inc => cases hr; exact hincdec false
  | dec => cases hr; exact hincdec true
  | _ => cases hr

/-- `add eax, ebx` at `0x1000`. -/
def addEaxEbx : DecodedInstr where
  va := 0x1000
  length := 2
  zydis :=
    { mnemonic := .add, length := 2, operandCountVisible := 2,
      operands := [{ type := .register, size := 32, reg := .eax },
        { type := .register, size := 32, reg := .ebx }] }

/-- Two registers whose upper halves are not zero and whose lower halves add up to more than 32 bits
hold. -/
def fullRegisters : Machine where
  regs := fun id => if id = 0 then 0xdeadbeef80000001 else if id = 1 then 0xcafef00d80000003 else 0
  mem := fun _ => 0
  symbols := fun _ => 0

/-- `add eax, ebx` wraps the sum of the lower halves and clears the upper half of `rax`. -/
theorem liftInstr_execArith_add :
    ExecutesTo (liftInstr bareContext addEaxEbx) emptyBlock fullRegisters
        (fun _ _ m' => m'.file = fullRegisters.file.write .rax .dword 4) ∧
      fullRegisters.file .rax = 0xdeadbeef80000001 ∧
      fullRegisters.file.write .rax .dword 4 .rax = 4 := by
  have hsum : ZydisMnemonic.aluResult .add (fullRegisters.file.read .rax .dword)
      ((addEaxEbx.zydis.op 1).sourceValue fullRegisters.file RegPart.dword.type) = some 4 := by
    decide
  exact ⟨liftInstr_execArith (g := .rax) (p := .dword) rfl rfl
    ⟨rfl, rfl, Or.inr (.register .rbx .dword rfl rfl rfl)⟩ rfl rfl emptyBlock_open (by decide)
    fullRegisters (congrArg (Option.map _) hsum), by decide, by decide⟩

end FunctionLifter

end InstaX
