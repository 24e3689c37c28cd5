import InstaX.Lifter.EffectiveAddress
import InstaX.Lifter.Moves
import InstaX.Lifter.Shifts
import InstaX.X86.DoubleWord

/-!
# The code of wide multiplication and division

The lifted code of one-operand `IMUL`, `DIV` and `IDIV` multiplies or divides the whole of `RAX` by
the operand, which is extended with zeros, and writes both registers at 64 bits: the high half of a
product is always zero, and `RDX` is no part of a dividend.  It is right exactly if the register
file makes these differences invisible (`liftInstr_wide_iff`).  When what `readReg` and `writeReg`
append is lost, it writes no register, and a narrow operand is a temporary that nothing has written.
-/

namespace InstaX

open Throwing StraightLine

namespace FunctionLifter

variable {ctx : LiftContext} {s : LiftState} {m : Machine} {g : Gpr} {p : RegPart}
  {z : ZydisDecodedInstruction} {di : DecodedInstr} {isSigned : Bool} {x y a b : BitVec 64}

/-- The operand that the code reads, extended with zeros. -/
def codeOperand (ctx : LiftContext) (s : LiftState) (m : Machine) (g : Gpr) (p : RegPart) :
    BitVec 64 :=
  (codeRead ctx m s.nextVregId g p).setWidth 64

/-- The register file after the code wrote `RAX` and `RDX`, or lost the writes. -/
def codePair (ctx : LiftContext) (f : RegFile) (x y : BitVec 64) : RegFile :=
  if ctx.passing = .byValue then f else Function.update (Function.update f .rax x) .rdx y

/-! ## The code -/

/-- Reading `RAX` and the operand. -/
def wideOperands (ctx : LiftContext) (z : ZydisDecodedInstruction) : LiftM (IRValue × IRValue) := do
  let rax ← withBlockArg ctx (readReg ctx .rax)
  let src ← readOperand ctx (z.op 0) .i64
  return (rax, src)

/-- Writing `RAX` and `RDX`. -/
def writePair (ctx : LiftContext) (lo hi : IRValue) : LiftM Unit := do
  withBlockArg ctx (writeReg ctx .rax lo)
  withBlockArg ctx (writeReg ctx .rdx hi)

/-- The temporaries of a quotient and a remainder. -/
def divTemps (isSigned : Bool) (l r : IRValue) : LiftM (IRValue × IRValue) := do
  let q ← defineTemp .i64 fun id =>
    .makeBinop (if isSigned then .sdiv else .udiv) ⟨id, "div_q"⟩ .i64 l r
  let rem ← defineTemp .i64 fun id =>
    .makeBinop (if isSigned then .srem else .urem) ⟨id, "div_r"⟩ .i64 l r
  return (q, rem)

/-- The code of a one-operand `imul`. -/
lemma liftImul_eq (h : z.operandCountVisible = 1) :
    liftImul ctx z = wideOperands ctx z >>= fun out => (do
      let lo ← defineTemp .i64 fun id => .makeBinop .mul ⟨id, "imul_lo"⟩ .i64 out.1 out.2
      writePair ctx lo (.makeImm 0 .i64)
      setFlags .imul lo out.1 out.2 .i64) := by
  simp only [liftImul, if_pos h, wideOperands, writePair, bind_assoc, pure_bind]

/-- Reading the operands leaves the block open. -/
lemma extends_wideOperands : Extends LiftState.block (wideOperands ctx z) :=
  (extends_readReg ctx _).bind fun _ => (extends_readOperand ctx _ _).bind fun _ => Extends.pure _

/-- The code of a division.  The source takes both temporaries before it defines them. -/
lemma run_liftDiv (hs : s.Open) :
    (liftDiv ctx isSigned z).run s = (wideOperands ctx z >>= fun out => (do
      let temps ← divTemps isSigned out.1 out.2
      writePair ctx temps.1 temps.2
      invalidateFlags)).run s := by
  obtain ⟨out, s₁, is, hrun, hblock, hterm⟩ := @extends_wideOperands ctx z s hs
  have hs₁ : s₁.Open := hs.of_append hblock hterm
  have hquot : ∀ id, (IRInst.makeBinop (if isSigned then .sdiv else .udiv) ⟨id, "div_q"⟩ .i64 out.1
      out.2).isTerminator = false := by
    cases isSigned <;> exact fun _ => rfl
  have hdiv : liftDiv ctx isSigned z = wideOperands ctx z >>= fun out => (do
      let qId ← newTemp
      let rId ← newTemp
      pushInst (.makeBinop (if isSigned then .sdiv else .udiv) ⟨qId, "div_q"⟩ .i64 out.1 out.2)
      pushInst (.makeBinop (if isSigned then .srem else .urem) ⟨rId, "div_r"⟩ .i64 out.1 out.2)
      writePair ctx (.makeVReg qId .i64) (.makeVReg rId .i64)
      invalidateFlags) := by
    simp only [liftDiv, wideOperands, writePair, bind_assoc, pure_bind]
  rw [hdiv, run_bind_of_ok hrun, run_bind_of_ok hrun, run_defineTwo hs₁ hquot]
  simp only [divTemps, defineTemp, bind_assoc, pure_bind]
  rw [run_define hs₁, run_define (hs₁.emit 1 (by simpa using hquot _)), LiftState.emit_emit]
  rfl

/-- `RAX` and the operand are read as words. -/
lemma executesTo_wideOperands (htype : (z.op 0).type = .register)
    (hview : (z.op 0).reg.view = some (g, p)) (hs : s.Open) (hnext : 16 ≤ s.nextVregId) :
    ExecutesTo (wideOperands ctx z) s m fun out s' m' =>
      WordPost s m (m.file .rax) out.1 s' m' ∧
        WordPost s m (codeOperand ctx s m g p) out.2 s' m' := by
  have hrax : ZydisRegister.view .rax = some (.rax, .qword) := rfl
  refine ExecutesTo.bind hs (executesTo_readReg_code hrax hs hnext) ?_
  rintro rax s₁ m₁ hs₁ ⟨hread, hnext₁⟩
  have hfirst : WordPost s m (m.file .rax) rax s₁ m₁ := by
    refine hread.wordPost ?_
    simp [codeRead, RegPart.readLow]
  simp only [readOperand, htype]
  refine ExecutesTo.bind hs₁ (executesTo_readReg_code hview hs₁ (hnext.trans hread.next_le)) ?_
  rintro src s₂ m₂ hs₂ ⟨hsrc, -⟩
  -- reading `RAX` takes no temporary and writes none
  have hsame : codeRead ctx m₁ s₁.nextVregId g p = codeRead ctx m s.nextVregId g p := by
    simp only [if_true, add_zero] at hnext₁
    rw [codeRead, codeRead, file_eq_of_sameBut hnext hread.same, hnext₁,
      hread.same.regs _ (by simp [hnext₁])]
  refine ExecutesTo.pure ⟨hfirst.extend hsrc.next_le hsrc.same, ?_⟩
  exact (hsrc.of_le hread.next_le hread.same).wordPost (by rw [hsame, codeOperand])

/-- A quotient or a remainder, as the code computes it. -/
def codeQuotient (isSigned : Bool) (a b : BitVec 64) : BitVec 64 :=
  if isSigned then a.sdiv b else a / b

def codeRemainder (isSigned : Bool) (a b : BitVec 64) : BitVec 64 :=
  if isSigned then a.srem b else a % b

/-- The two opcodes of a division have their values together. -/
lemma binop_div (h : Divides isSigned a b) :
    (if isSigned then Opcode.sdiv else .udiv).binop a b = some (codeQuotient isSigned a b) ∧
      (if isSigned then Opcode.srem else .urem).binop a b = some (codeRemainder isSigned a b) := by
  cases isSigned with
  | true =>
    have hor : ¬ (b = 0 ∨ a = BitVec.intMin 64 ∧ b = -1) :=
      not_or.mpr ⟨h.ne_zero, h.no_overflow rfl⟩
    exact ⟨if_neg hor, if_neg hor⟩
  | false => exact ⟨if_neg h.ne_zero, if_neg h.ne_zero⟩

/-- Otherwise the quotient has none. -/
lemma binop_div_eq_none (h : ¬ Divides isSigned a b) :
    (if isSigned then Opcode.sdiv else .udiv).binop a b = none := by
  cases isSigned with
  | true =>
    refine if_pos (by_contra fun hor => h ?_)
    exact ⟨fun h0 => hor (Or.inl h0), fun _ h1 => hor (Or.inr h1)⟩
  | false =>
    refine if_pos (by_contra fun h0 => h ?_)
    exact ⟨h0, nofun⟩

/-- A division that has a value leaves quotient and remainder in two temporaries. -/
lemma executesTo_divTemps {l r : IRValue} (hl : WordPost s m a l s m) (hr : WordPost s m b r s m)
    (hs : s.Open) (h : Divides isSigned a b) :
    ExecutesTo (divTemps isSigned l r) s m fun out s' m' =>
      @ReadPost s m .i64 (codeQuotient isSigned a b) out.1 s' m' ∧
        @ReadPost s m .i64 (codeRemainder isSigned a b) out.2 s' m' ∧
          ∀ id, out.2.vregId? = some id → s.nextVregId ≤ id := by
  obtain ⟨hquot, hrem⟩ := binop_div h
  refine ExecutesTo.bind hs (executesTo_defineTemp_next (x := codeQuotient isSigned a b) hs
    (by cases isSigned <;> rfl) ?_) ?_
  · rw [IRInst.step_makeBinop, hl.eval_word, hr.eval_word, hquot]
    rfl
  rintro q s₁ m₁ hs₁ ⟨-, hq⟩
  have hl₁ := hl.extend hq.next_le hq.same
  have hr₁ := hr.extend hq.next_le hq.same
  refine ExecutesTo.bind hs₁ (executesTo_defineTemp_next (x := codeRemainder isSigned a b) hs₁
    (by cases isSigned <;> rfl) ?_) ?_
  · rw [IRInst.step_makeBinop, hl₁.eval_word, hr₁.eval_word, hrem]
    rfl
  rintro _ s₂ m₂ hs₂ ⟨rfl, hr₂⟩
  refine ExecutesTo.pure ⟨hq.extend hr₂.next_le hr₂.same, hr₂.of_le hq.next_le hq.same, ?_⟩
  intro id hid
  obtain rfl : s₁.nextVregId = id := by simpa using hid
  exact hq.next_le

/-- Writing two values to `RAX` and `RDX`; the second one is no general purpose register. -/
lemma executesTo_writePair {s₀ : LiftState} {m₀ : Machine} {lo hi : IRValue}
    (hlo : @ReadPost s₀ m₀ .i64 x lo s m) (hhi : @ReadPost s₀ m₀ .i64 y hi s m)
    (hfresh : ∀ id, hi.vregId? = some id → 16 ≤ id) (hs : s.Open) (hnext : 16 ≤ s₀.nextVregId) :
    ExecutesTo (writePair ctx lo hi) s m fun _ _ m' => m'.file = codePair ctx m₀.file x y := by
  have hrax : ZydisRegister.view .rax = some (.rax, .qword) := rfl
  have hrdx : ZydisRegister.view .rdx = some (.rdx, .qword) := rfl
  refine ExecutesTo.bind hs (executesTo_writeReg_code hrax hs hlo.type hlo.vregId_lt m) ?_
  rintro - s₁ m₁ hs₁ ⟨hwrite, -, -⟩
  have hlt : ∀ id, hi.vregId? = some id → id < s₁.nextVregId :=
    fun id hid => (hhi.vregId_lt id hid).trans_le hwrite.next_le
  refine (executesTo_writeReg_code hrdx hs₁ hhi.type hlt m₁).mono ?_
  rintro - s₂ m₂ ⟨hwrite₂, -, -⟩
  have hnext₁ := hnext.trans hlo.next_le
  -- the write of `RAX` leaves the second value alone
  have hsecond : m₁.eval .i64 hi = y := by
    have hset : m.SameBut {Gpr.rax.vregId} (m.set Gpr.rax.vregId
        (codeWrite ctx .qword (m.file .rax) (m.eval .i64 lo))) :=
      Machine.SameBut.set (Set.mem_singleton _) m _
    rw [← hhi.value, hwrite.same.eval_eq .i64 fun id hid hmem => ?_,
      hset.eval_eq .i64 fun id hid hmem => ?_]
    · have hge := hfresh id hid
      rw [Set.mem_singleton_iff.mp hmem] at hge
      exact absurd hge (by decide)
    · exact absurd (hhi.vregId_lt id hid) (not_lt.mpr hmem.1)
  rw [file_eq_of_sameBut (hnext₁.trans hwrite.next_le) hwrite₂.same, file_set, hsecond,
    file_eq_of_sameBut hnext₁ hwrite.same, file_set, hlo.value, file_eq_of_sameBut hnext hlo.same]
  by_cases hpass : ctx.passing = .byValue
  · simp only [codeWrite, codePair, if_pos hpass, Function.update_eq_self]
  · simp only [codeWrite, codePair, if_neg hpass]
    rfl

section Code

variable (htype : (z.op 0).type = .register) (hview : (z.op 0).reg.view = some (g, p)) (hs : s.Open)
  (hnext : 16 ≤ s.nextVregId)

include htype hview hs hnext

/-- The code of a one-operand `imul` writes the product and zero. -/
lemma executesTo_liftImul (hcount : z.operandCountVisible = 1) :
    ExecutesTo (liftImul ctx z) s m fun _ _ m' =>
      m'.file = codePair ctx m.file (m.file .rax * codeOperand ctx s m g p) 0 := by
  rw [liftImul_eq hcount]
  refine ExecutesTo.bind hs (executesTo_wideOperands htype hview hs hnext) ?_
  rintro ⟨rax, src⟩ s₁ m₁ hs₁ ⟨hrax, hsrc⟩
  have hstep : (IRInst.makeBinop .mul ⟨s₁.nextVregId, "imul_lo"⟩ .i64 rax src).step m₁ =
      some (m₁.set s₁.nextVregId (m.file .rax * codeOperand ctx s m g p)) := by
    rw [IRInst.step_makeBinop, hrax.eval_word, hsrc.eval_word]
    rfl
  refine ExecutesTo.bind hs₁ (executesTo_defineTemp hs₁ rfl hstep) fun lo s₂ m₂ hs₂ hlo => ?_
  have hlo' := hlo.of_le hrax.next_le hrax.same
  have hzero : @ReadPost s m .i64 0 (.makeImm 0 .i64) s₂ m₂ :=
    ⟨hlo'.next_le, hlo'.same, rfl, by simp, by simp⟩
  refine ExecutesTo.bind hs₂ (executesTo_writePair hlo' hzero (by simp) hs₂ hnext) ?_
  intro _ s₃ m₃ _ hfile
  exact ExecutesTo.setFlags hfile

/-- The code of a division that has a value writes quotient and remainder. -/
lemma executesTo_liftDiv (h : Divides isSigned (m.file .rax) (codeOperand ctx s m g p)) :
    ExecutesTo (liftDiv ctx isSigned z) s m fun _ _ m' =>
      m'.file = codePair ctx m.file
        (codeQuotient isSigned (m.file .rax) (codeOperand ctx s m g p))
        (codeRemainder isSigned (m.file .rax) (codeOperand ctx s m g p)) := by
  refine ExecutesTo.of_run_eq (run_liftDiv hs) ?_
  refine ExecutesTo.bind hs (executesTo_wideOperands htype hview hs hnext) ?_
  rintro ⟨rax, src⟩ s₁ m₁ hs₁ ⟨hrax, hsrc⟩
  refine ExecutesTo.bind hs₁ (executesTo_divTemps hrax.here hsrc.here hs₁ h) ?_
  rintro ⟨q, r⟩ s₂ m₂ hs₂ ⟨hq, hr, hfresh⟩
  refine ExecutesTo.bind hs₂ (executesTo_writePair (hq.of_le hrax.next_le hrax.same)
    (hr.of_le hrax.next_le hrax.same) (fun id hid => ?_) hs₂ hnext) ?_
  · exact (hnext.trans hrax.next_le).trans (hfresh id hid)
  · intro _ s₃ m₃ _ hfile
    exact ⟨(), _, [], rfl, by simp, by simp, m₃, rfl, hfile⟩

/-- The code of a division that has no value does not run. -/
lemma sticks_liftDiv (h : ¬ Divides isSigned (m.file .rax) (codeOperand ctx s m g p)) :
    Sticks (liftDiv ctx isSigned z) s m := by
  refine Sticks.of_run_eq (run_liftDiv hs) ?_
  refine Sticks.bind_right hs (executesTo_wideOperands htype hview hs hnext) ?_
  rintro ⟨rax, src⟩ s₁ m₁ hs₁ ⟨hrax, hsrc⟩
  refine Sticks.bind_left hs₁ (Sticks.bind_left hs₁ (Sticks.defineTemp hs₁ ?_ ?_) fun q => ?_) ?_
  · cases isSigned <;> rfl
  · rw [IRInst.step_makeBinop, hrax.eval_word, hsrc.eval_word, binop_div_eq_none h]
    rfl
  · exact (extends_defineTemp fun _ => by cases isSigned <;> rfl).bind fun _ => Extends.pure _
  · exact fun _ => ((extends_writeReg ctx _ _).bind fun _ => extends_writeReg ctx _ _).bind fun _ =>
      Extends.modify fun _ => rfl

end Code

/-- What makes the code of a wide instruction right, in the state before it. -/
structure WideRight (ctx : LiftContext) (z : ZydisDecodedInstruction) (s : LiftState) (m : Machine)
    (g : Gpr) (p : RegPart) : Prop where
  imul : ctx.passing = .byReference → z.mnemonic = .imul → ImulRight m.file g p
  div : ctx.passing = .byReference → z.mnemonic = .div → DivRight m.file g p
  idiv : ctx.passing = .byReference → z.mnemonic = .idiv → IdivRight m.file g p
  /-- When the writes are lost, the instruction changes no register, and what is read for the
  operand of a division divides. -/
  lost : ctx.passing = .byValue → z.execWide m.file g p = some m.file ∧
    (z.mnemonic ≠ .imul →
      Divides (z.mnemonic == .idiv) (m.file .rax) (codeOperand ctx s m g p))

/-- The code writes what the processor writes in each of the two registers. -/
lemma codePair_eq_iff (hpass : ctx.passing = .byReference) {f : RegFile}
    {q r : BitVec p.type.width} :
    codePair ctx f x y = (f.write .rax p q).write .rdx p r ↔
      x = p.write (f .rax) q ∧ y = p.write (f .rdx) r := by
  have hrdx : f.write .rax p q .rdx = f .rdx := Function.update_of_ne (by decide) _ _
  rw [codePair, if_neg (by simp [hpass]), RegFile.write, hrdx]
  constructor
  · intro h
    exact ⟨by simpa [RegFile.write] using congrFun h .rax, by simpa using congrFun h .rdx⟩
  · rintro ⟨rfl, rfl⟩
    rfl

/-- The operand is read as it is, unless its truncation is lost. -/
lemma codeOperand_byReference (hpass : ctx.passing = .byReference) (hp : p.type ≠ .i8) :
    codeOperand ctx s m g p = (m.file.read g p).setWidth 64 := by
  have hhigh : p ≠ .high8 := by
    rintro rfl
    exact hp rfl
  rw [codeOperand, codeRead, if_neg (by simp [hpass]), RegPart.readLow_eq_read hhigh]
  rfl

/-- With the writes lost, a wide instruction is right exactly if it changes no register and what is
read for the operand of a division divides. -/
lemma wideRight_byValue_iff (hpass : ctx.passing = .byValue) {f : RegFile}
    (hexec : z.execWide m.file g p = some f) :
    WideRight ctx z s m g p ↔ codePair ctx m.file x y = f ∧ (z.mnemonic ≠ .imul →
      Divides (z.mnemonic == .idiv) (m.file .rax) (codeOperand ctx s m g p)) := by
  have hlost : z.execWide m.file g p = some m.file ↔ codePair ctx m.file x y = f := by
    rw [codePair, if_pos hpass, hexec, Option.some_inj, eq_comm]
  rw [← hlost]
  have hne : ctx.passing ≠ .byReference := by simp [hpass]
  exact ⟨fun h => h.lost hpass, fun h => ⟨fun h' => absurd h' hne, fun h' => absurd h' hne,
    fun h' => absurd h' hne, fun _ => h⟩⟩

/-- With the writes kept, it is right exactly if single words do. -/
lemma wideRight_byReference_iff (hpass : ctx.passing = .byReference) :
    WideRight ctx z s m g p ↔ (z.mnemonic = .imul → ImulRight m.file g p) ∧
      (z.mnemonic = .div → DivRight m.file g p) ∧ (z.mnemonic = .idiv → IdivRight m.file g p) := by
  have hne : ctx.passing ≠ .byValue := by simp [hpass]
  exact ⟨fun h => ⟨h.imul hpass, h.div hpass, h.idiv hpass⟩,
    fun h => ⟨fun _ => h.1, fun _ => h.2.1, fun _ => h.2.2, fun h' => absurd h' hne⟩⟩

section Right

variable (hform : z.WideForm g p) (hs : s.Open) (hnext : 16 ≤ s.nextVregId) {f : RegFile}
  (hexec : z.execWide m.file g p = some f)

include hform hs hnext hexec

/-- The code of a one-operand `imul`. -/
lemma liftImul_iff (hmnemonic : z.mnemonic = .imul) (hcount : z.operandCountVisible = 1) :
    ExecutesTo (liftImul ctx z) s m (fun _ _ m' => m'.file = f) ↔ WideRight ctx z s m g p := by
  have hcode : ExecutesTo (liftImul ctx z) s m fun _ _ m' =>
      m'.file = codePair ctx m.file (m.file .rax * codeOperand ctx s m g p) 0 :=
    executesTo_liftImul hform.type hform.view hs hnext hcount
  rw [hcode.file_iff]
  cases hpass : ctx.passing with
  | byReference =>
    have hresult : f = (m.file.write .rax p (BitVec.ofInt _ (wideProduct m.file g p))).write .rdx p
        (BitVec.ofInt _ (wideProduct m.file g p / 2 ^ p.type.width)) := by
      rw [ZydisDecodedInstruction.execWide, hmnemonic] at hexec
      exact (Option.some_inj.mp hexec).symm
    rw [hresult, codePair_eq_iff hpass, codeOperand_byReference hpass hform.wide,
      RegPart.imul_eq_write_iff hform.wide, wideRight_byReference_iff hpass, hmnemonic]
    simp
  | byValue =>
    rw [wideRight_byValue_iff hpass hexec]
    exact ⟨fun h => ⟨h, fun h' => absurd hmnemonic h'⟩, fun h => h.1⟩

omit hexec in
/-- The code of a division, when it runs and what it then writes. -/
lemma executesTo_liftDiv_iff :
    ExecutesTo (liftDiv ctx isSigned z) s m (fun _ _ m' => m'.file = f) ↔
      Divides isSigned (m.file .rax) (codeOperand ctx s m g p) ∧
        codePair ctx m.file (codeQuotient isSigned (m.file .rax) (codeOperand ctx s m g p))
          (codeRemainder isSigned (m.file .rax) (codeOperand ctx s m g p)) = f := by
  by_cases hdiv : Divides isSigned (m.file .rax) (codeOperand ctx s m g p)
  · have hcode := executesTo_liftDiv hform.type hform.view hs hnext hdiv
    rw [and_iff_right hdiv]
    exact hcode.file_iff
  · exact iff_of_false (sticks_liftDiv hform.type hform.view hs hnext hdiv).not_executesTo
      fun h => hdiv h.1

/-- The code of a division. -/
lemma liftDiv_iff (hmnemonic : z.mnemonic = if isSigned then .idiv else .div) :
    ExecutesTo (liftDiv ctx isSigned z) s m (fun _ _ m' => m'.file = f) ↔
      WideRight ctx z s m g p := by
  rw [executesTo_liftDiv_iff hform hs hnext]
  cases hpass : ctx.passing with
  | byReference =>
    obtain ⟨⟨q, r⟩, hresult, rfl⟩ := Option.map_eq_some_iff.mp hexec
    rw [codePair_eq_iff hpass, codeOperand_byReference hpass hform.wide,
      wideRight_byReference_iff hpass]
    rw [hmnemonic] at hresult ⊢
    cases isSigned with
    | true =>
      have hiff := RegPart.idiv_eq_write_iff hform.wide hresult
      simpa [codeQuotient, codeRemainder] using hiff
    | false =>
      have hiff := RegPart.div_eq_write_iff hform.wide hresult
      have hb : m.file.read g p ≠ 0 := by
        intro h0
        have hlt := (ZydisMnemonic.spec_of_wideResult_div hresult).2
        simp [h0] at hlt
      have hdiv : Divides false (m.file .rax) ((m.file.read g p).setWidth 64) :=
        ⟨RegPart.setWidth_read_ne_zero hb, nofun⟩
      rw [and_iff_right hdiv]
      simpa [codeQuotient, codeRemainder] using hiff
  | byValue =>
    have hsigned : (z.mnemonic == .idiv) = isSigned := by
      rw [hmnemonic]
      cases isSigned <;> rfl
    have hne : z.mnemonic ≠ .imul := by
      rw [hmnemonic]
      cases isSigned <;> decide
    rw [wideRight_byValue_iff hpass hexec, hsigned, and_comm]
    exact and_congr_right fun _ => ⟨fun h _ => h, fun h => h hne⟩

end Right

/-- Where the processor raises no divide error, the code of a wide instruction leaves its register
file exactly if single words do: a product without a high half, a dividend that is `RAX` alone, and
upper halves of `RAX` and `RDX` that come out as the processor keeps or clears them; or, with the
writes lost, if the processor changes no register. -/
theorem liftInstr_wide_iff (hform : di.zydis.WideForm g p) (hs : s.Open) (hnext : 16 ≤ s.nextVregId)
    {f : RegFile} (hexec : di.zydis.execWide m.file g p = some f) :
    ExecutesTo (liftInstr ctx di) s m (fun _ _ m' => m'.file = f) ↔
      WideRight ctx di.zydis s m g p := by
  rw [liftInstr.eq_def]
  dsimp only
  rcases hform.mnemonic with ⟨himul, hcount⟩ | hdiv | hidiv
  · rw [himul]
    exact liftImul_iff hform hs hnext hexec himul hcount
  · rw [hdiv]
    exact liftDiv_iff hform hs hnext hexec hdiv
  · rw [hidiv]
    exact liftDiv_iff hform hs hnext hexec hidiv

/-- `idiv ecx`. -/
def idivEcx : DecodedInstr where
  va := 0
  length := 2
  zydis := {
    mnemonic := .idiv, length := 2, operandCountVisible := 1,
    operands := [{ type := .register, size := 32, reg := .ecx }] }

lemma idivEcx_form : idivEcx.zydis.WideForm .rcx .dword :=
  ⟨Or.inr (Or.inr rfl), rfl, rfl, by decide⟩

/-- Minus seven in `edx:eax`, and two in every other register. -/
def minusSeven : Machine where
  regs := fun id => if id = 0 then 0xfffffff9 else if id = 3 then 0xffffffff else 2
  mem := fun _ => 0
  symbols := fun _ => 0

/-- The processor leaves minus three in `eax` and minus one in `edx`. -/
def minusThree : RegFile :=
  (minusSeven.file.write .rax .dword 0xfffffffd).write .rdx .dword 0xffffffff

/-- The processor divides minus seven by two. -/
lemma execWide_minusSeven : idivEcx.zydis.execWide minusSeven.file .rcx .dword =
    some minusThree := by
  have hresult : ZydisMnemonic.wideResult .idiv (minusSeven.file.read .rax .dword)
      (minusSeven.file.read .rdx .dword) (minusSeven.file.read .rcx .dword) =
        some (0xfffffffd, 0xffffffff) := by
    decide
  exact congrArg (Option.map _) hresult

/-- `idiv ecx` of minus seven by two. -/
theorem liftInstr_wide_iff_minusSeven :
    ExecutesTo (liftInstr bareContext idivEcx) emptyBlock minusSeven
      (fun _ _ m' => m'.file = minusThree) ↔
        WideRight bareContext idivEcx.zydis emptyBlock minusSeven .rcx .dword :=
  liftInstr_wide_iff idivEcx_form emptyBlock_open (by decide) execWide_minusSeven

/-- The code of `idiv ecx` divides `0xfffffff9` by two, with either parameter passing. -/
theorem idivEcx_unsigned :
    idivEcx.zydis.execWide minusSeven.file .rcx .dword = some minusThree ∧
      ∀ ctx : LiftContext, ¬ ExecutesTo (liftInstr ctx idivEcx) emptyBlock minusSeven
        fun _ _ m' => m'.file = minusThree := by
  refine ⟨execWide_minusSeven, fun ctx h => ?_⟩
  have hoperand : codeOperand ctx emptyBlock minusSeven .rcx .dword = 2 := by
    rw [codeOperand, codeRead]
    split_ifs <;> decide
  have hdiv : Divides true (minusSeven.file .rax)
      (codeOperand ctx emptyBlock minusSeven .rcx .dword) := by
    rw [hoperand]
    exact ⟨by decide, fun _ => by decide⟩
  obtain ⟨_, _, m', hright, hcode⟩ := h.and (executesTo_liftDiv idivEcx_form.type idivEcx_form.view
    emptyBlock_open (by decide) hdiv)
  rw [hoperand] at hcode
  have hrax := congrFun (hcode.symm.trans hright) .rax
  rw [codePair] at hrax
  split_ifs at hrax <;> exact absurd hrax (by decide)

end FunctionLifter

end InstaX
