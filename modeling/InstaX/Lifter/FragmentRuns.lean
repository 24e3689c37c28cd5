import InstaX.IR.Agreement
import InstaX.Lifter.Fragment

/-!
# Runs of lifted code

What the language of lifted code says of runs.  A lifted function takes a step from every machine,
unless it is at a label without a block, the block does not end with a branch, or the block comes to
a division or a shift without a value, or to a call (`liftFunction_step_eq_none_iff`).  As the
source is written, its runs change memory and temporaries only (`registers_of_reaches_byValue`); and
if no block loses a read, the temporaries carry nothing from one block to the next
(`agree_of_reaches_byValue`).
-/

namespace InstaX

open RegisterCode StraightLine StateTransition

/-- The operation has no value: a division by zero or one that overflows, or a shift by at least the
width. -/
def Opcode.Undefined {w : ℕ} (op : Opcode) (x y : BitVec w) : Prop :=
  match op with
  | .udiv | .urem => y = 0
  | .sdiv | .srem => y = 0 ∨ x = BitVec.intMin w ∧ y = -1
  | .shl | .lshr | .ashr => w ≤ y.toNat
  | _ => False

/-- An integer operation has no value exactly where it is undefined. -/
lemma Opcode.binop_eq_none_iff {op : Opcode} (hop : op.isIntegerBinop = true) {w : ℕ}
    (x y : BitVec w) :
    op.binop x y = none ↔ op.Undefined x y := by
  revert hop
  cases op <;> simp [binop, Undefined, isIntegerBinop]
  -- the two signed divisions are left
  all_goals exact or_iff_not_imp_left.symm

namespace IRInst

/-- The machine has no step for the instruction: it is a call, or its operation has no value. -/
def Undefined (i : IRInst) (m : Machine) : Prop :=
  i.opcode = .call ∨
    ∃ l r, i.operands = [l, r] ∧ i.opcode.Undefined (m.eval i.resultType l) (m.eval i.resultType r)

variable {ctx : LiftContext} {i : IRInst} {m : Machine}

/-- Of the instructions that are lifted, these are the ones that get stuck. -/
lemma Emitted.step_eq_none_iff (h : i.Emitted ctx) (hsized : ∀ ty, ctx.Moves ty → ty ≠ .void_)
    (hterm : i.isTerminator = false) : i.step m = none ↔ i.Undefined m := by
  have hbyteWidth : ∀ ty, ctx.Moves ty → ∃ n, ty.byteWidth = some n := by
    intro ty hty
    have hne := hsized ty hty
    cases ty <;> first | exact ⟨_, rfl⟩ | exact absurd rfl hne
  cases h with
  | @binop op id name ty v w hop hid =>
    rw [step_makeBinop, Option.map_eq_none_iff, Opcode.binop_eq_none_iff hop]
    have hcall : op ≠ .call := by
      rintro rfl
      cases hop
    simp [Undefined, makeBinop, hcall]
  | @unop op id name ty v hop hid =>
    rw [step_makeUnop hop]
    rcases hop with rfl | rfl <;> simp [Undefined, makeUnop, Opcode.unop]
  | @cast op id name ty v hop hid =>
    have hcast : op.isCast = true := by
      revert hop
      cases op <;> decide
    rw [step_makeCast hcast]
    revert hop
    cases op <;> simp [Undefined, makeCast, Opcode.cast]
  | icmp hid =>
    rw [step_makeIcmp]
    simp [Undefined, makeIcmp, Opcode.Undefined]
  | load hty hid =>
    obtain ⟨n, hn⟩ := hbyteWidth _ hty
    simp [Undefined, makeLoad, step, value, hn]
  | store hty =>
    obtain ⟨n, hn⟩ := hbyteWidth _ hty
    simp [Undefined, makeStore, step, hn, Opcode.Undefined]
  | call hid => simp [Undefined, makeCall, step, value, Opcode.isCast, Opcode.unop]
  | writeMov hpass hid =>
    rw [step_makeMov]
    simp [Undefined, makeMov]
  | writeOr hpass hid =>
    rw [step_makeBinop]
    simp [Undefined, makeBinop, Opcode.binop, Opcode.Undefined]
  | nop => simp [Undefined, makeNop, step]
  | jmp => cases hterm
  | cjmp => cases hterm

/-- A lifted instruction that ends its block is a jump. -/
lemma Emitted.eq_jump (h : i.Emitted ctx) (hterm : i.isTerminator = true) :
    (∃ label, i = makeJmp label) ∨ ∃ cond label label', i = makeCjmp cond label label' := by
  cases h with
  | jmp => exact Or.inl ⟨_, rfl⟩
  | cjmp => exact Or.inr ⟨_, _, _, rfl⟩
  | @binop op id name ty v w hop hid =>
    have hop' : op = .jmp ∨ op = .cjmp ∨ op = .ret := by
      revert hterm
      cases op <;> simp [isTerminator, makeBinop]
    rcases hop' with rfl | rfl | rfl <;> cases hop
  | unop hop hid => rcases hop with rfl | rfl <;> cases hterm
  | @cast op id name ty v hop hid =>
    have hop' : op = .jmp ∨ op = .cjmp ∨ op = .ret := by
      revert hterm
      cases op <;> simp [isTerminator, makeCast]
    rcases hop' with rfl | rfl | rfl <;> simp at hop
  | icmp | load | store | call | writeMov | writeOr | nop => cases hterm

/-- It goes to a label. -/
lemma Emitted.exists_branchLabel (h : i.Emitted ctx) (hterm : i.isTerminator = true) :
    ∃ label, i.branchLabel m = some label := by
  rcases h.eq_jump hterm with ⟨label, rfl⟩ | ⟨cond, label, label', rfl⟩
  · exact ⟨_, rfl⟩
  · exact ⟨_, rfl⟩

/-- What the machine has no step for ends no block. -/
lemma Emitted.isTerminator_of_undefined (h : i.Emitted ctx) (hundef : i.Undefined m) :
    i.isTerminator = false := by
  by_contra hterm
  rcases h.eq_jump (by simpa using hterm) with ⟨label, rfl⟩ | ⟨cond, label, label', rfl⟩
  · simp [Undefined, makeJmp] at hundef
  · simp [Undefined, makeCjmp] at hundef

/-- Only branches go to labels. -/
lemma branchLabel_eq_none (hterm : i.isTerminator = false) : i.branchLabel m = none := by
  unfold branchLabel
  unfold isTerminator at hterm
  cases hop : i.opcode <;> simp_all

/-- Without a reference to the block, only temporaries are written. -/
lemma Emitted.le_of_defines (h : i.Emitted ctx) (hpass : ctx.passing = .byValue) {id : ℕ}
    (hdefines : i.defines id) : 20 ≤ id := by
  obtain ⟨d, hd, rfl⟩ := hdefines
  cases h with
  | binop hop hid | unop hop hid | cast hop hid | load hty hid =>
    cases hd
    exact hid
  | icmp hid | call hid =>
    cases hd
    exact hid
  | writeMov href hid | writeOr href hid => cases hpass.symm.trans href
  | store | nop | jmp | cjmp => cases hd

end IRInst

/-- The step of a block: its code, and the label of its last instruction. -/
lemma IRFunction.step_eq_bind {fn : IRFunction} {label : String} {block : IRBasicBlock}
    {code : List IRInst} {branch : IRInst} (hfind : fn.findBlock label = some block)
    (hcode : block.instructions = code ++ [branch]) (m : Machine) :
    fn.step (label, m) =
      (run IRInst.step code m).bind fun m' => (branch.branchLabel m').map fun l => (l, m') := by
  simp only [step, hfind, hcode, List.dropLast_concat, List.getLast?_concat, Option.bind_eq_bind,
    Option.bind_some]
  refine congrArg _ (funext fun m' => ?_)
  cases branch.branchLabel m' <;> rfl

namespace FunctionLifter

variable {ctx : LiftContext} {fn : IRFunction} {cfgBlocks : List (U64 × List DecodedInstr)}
  {label label' : String} {m m' : Machine}

/-- The blocks of a lifted function, as they are found. -/
lemma emittedBlock_of_findBlock {b : IRBasicBlock}
    (hfind : (liftFunction ctx fn cfgBlocks).findBlock label = some b) :
    EmittedBlock (functionContext ctx cfgBlocks) b := by
  rw [IRFunction.findBlock] at hfind
  exact (emittedBlock_of_mem_liftBlocks cfgBlocks).2 b (List.mem_of_find?_eq_some hfind)

/-- Where a lifted function is stuck: at a label without a block, in a block without a branch at its
end, or at an instruction that the code of the block gets to and that has no step.  Every other
state has a next one. -/
theorem liftFunction_step_eq_none_iff (hsized : ∀ ty, ctx.Moves ty → ty ≠ .void_) :
    (liftFunction ctx fn cfgBlocks).step (label, m) = none ↔
      (liftFunction ctx fn cfgBlocks).findBlock label = none ∨
        ∃ b, (liftFunction ctx fn cfgBlocks).findBlock label = some b ∧ (b.isTerminated = false ∨
          ∃ pre i post m', b.instructions = pre ++ i :: post ∧ run IRInst.step pre m = some m' ∧
            i.Undefined m') := by
  cases hfind : (liftFunction ctx fn cfgBlocks).findBlock label with
  | none => simp [IRFunction.step, hfind]
  | some b =>
    have hb := emittedBlock_of_findBlock hfind
    simp only [reduceCtorEq, Option.some.injEq, exists_eq_left', false_or]
    rcases List.eq_nil_or_concat b.instructions with hnil | ⟨code, branch, hcode⟩
    · simp [IRFunction.step, hfind, IRBasicBlock.isTerminated, hnil]
    · rw [List.concat_eq_append] at hcode
      have hdrop : b.instructions.dropLast = code := by rw [hcode, List.dropLast_concat]
      have hterminated : b.isTerminated = branch.isTerminator := by
        simp [IRBasicBlock.isTerminated, hcode]
      have hbranch : branch.Emitted (functionContext ctx cfgBlocks) :=
        hb.emitted branch (by simp [hcode])
      have hplain : ∀ i ∈ code, i.Emitted (functionContext ctx cfgBlocks) ∧
        i.isTerminator = false := fun i hi =>
        ⟨hb.emitted i (by simp [hcode, hi]), hb.endsLast i (hdrop ▸ hi)⟩
      rw [IRFunction.step_eq_bind hfind hcode, hterminated]
      constructor
      · intro hnone
        cases hrun : run IRInst.step code m with
        | none =>
          obtain ⟨pre, i, post, m', rfl, hpre, hi⟩ := run_eq_none_iff.mp hrun
          obtain ⟨hemitted, hterm⟩ := hplain i (by simp)
          exact Or.inr ⟨pre, i, post ++ [branch], m', by simp [hcode], hpre,
            (hemitted.step_eq_none_iff hsized hterm).mp hi⟩
        | some m₁ =>
          rw [hrun] at hnone
          cases hterm : branch.isTerminator with
          | false => exact Or.inl rfl
          | true =>
            obtain ⟨l, hl⟩ := hbranch.exists_branchLabel (m := m₁) hterm
            simp [hl] at hnone
      · rintro (hterm | ⟨pre, i, post, m', hsplit, hpre, hi⟩)
        · cases run IRInst.step code m with
          | none => rfl
          | some m₁ => simp [IRInst.branchLabel_eq_none hterm]
        · -- an instruction without a step is not the branch, or the block has none
          rcases RegisterCode.split_of_concat (hcode.symm.trans hsplit) with ⟨-, rfl⟩ | ⟨post, rfl⟩
          · have hterm := hbranch.isTerminator_of_undefined hi
            cases run IRInst.step code m with
            | none => rfl
            | some m₁ => simp [IRInst.branchLabel_eq_none hterm]
          · obtain ⟨hemitted, hterm⟩ := hplain i (by simp)
            have hnone := (hemitted.step_eq_none_iff hsized hterm).mpr hi
            rw [run_eq_none_iff.mpr ⟨pre, i, post, m', rfl, hpre, hnone⟩]
            rfl

/-- The types at which this context moves data are those of registers. -/
lemma ne_void_of_moves_byValueContext (ty : IRType) (hty : byValueContext.Moves ty) :
    ty ≠ .void_ := by
  have hreg : ∀ reg, typeOfReg reg ≠ .void_ := by
    intro reg
    cases reg <;> simp [typeOfReg]
  rcases hty with hlist | ⟨x, y, rfl⟩ | ⟨n, rfl⟩
  · rintro rfl
    simp at hlist
  · exact hreg x.reg
  · exact fun h => by cases h

/-- `div rcx` at `0x1000`. -/
def divRcx : DecodedInstr where
  va := 0x1000
  length := 3
  zydis :=
    { mnemonic := .div, length := 3, operandCountVisible := 1,
      operands := [{ type := .register, size := 64, reg := .rcx }] }

/-- `jmp` from `0x1003` back to `0x1000`. -/
def jmpBack : DecodedInstr where
  va := 0x1003
  length := 2
  zydis :=
    { mnemonic := .jmp, length := 2, operandCountVisible := 1,
      operands := [{ type := .immediate, size := 8, imm := { isRelative := true, value := -5 } }] }

/-- Behind the countdown, at the return, the function is stuck, for the block of `ret` is empty; and
in a loop that divides by a zero register it is stuck at the division, behind code that runs. -/
theorem liftFunction_step_eq_none_iff_ret_div :
    (liftFunction byValueContext countdownFunction (CFGBuilder.buildCFG countdown)).step
        (makeLabel 0x1005, zeroMachine) = none ∧
      ∃ b, (liftFunction byValueContext countdownFunction
          (CFGBuilder.buildCFG [divRcx, jmpBack])).findBlock (makeLabel 0x1000) = some b ∧
        b.isTerminated = true ∧ ∃ pre i post m', b.instructions = pre ++ i :: post ∧
          run IRInst.step pre zeroMachine = some m' ∧ i.Undefined m' := by
  constructor
  · have hblock : ((liftFunction byValueContext countdownFunction
        (CFGBuilder.buildCFG countdown)).findBlock (makeLabel 0x1005)).map
          IRBasicBlock.isTerminated =
          some false := by
      decide +kernel
    obtain ⟨b, hfind, hterm⟩ := Option.map_eq_some_iff.mp hblock
    exact (liftFunction_step_eq_none_iff ne_void_of_moves_byValueContext).mpr
      (Or.inr ⟨b, hfind, Or.inl hterm⟩)
  · have hblock : ((liftFunction byValueContext countdownFunction
        (CFGBuilder.buildCFG [divRcx, jmpBack])).findBlock (makeLabel 0x1000)).map
          IRBasicBlock.isTerminated = some true := by
      decide +kernel
    have hstuck : ((liftFunction byValueContext countdownFunction
        (CFGBuilder.buildCFG [divRcx, jmpBack])).step (makeLabel 0x1000, zeroMachine)).isNone := by
      decide +kernel
    obtain ⟨b, hfind, hterm⟩ := Option.map_eq_some_iff.mp hblock
    refine ⟨b, hfind, hterm, ?_⟩
    -- the block is there and ends with a branch, so an instruction of it has no step
    rcases (liftFunction_step_eq_none_iff ne_void_of_moves_byValueContext).mp
      (Option.isNone_iff_eq_none.mp hstuck) with hnone | ⟨b', hfind', hunterminated | hundef⟩
    · rw [hfind] at hnone
      cases hnone
    · rw [hfind] at hfind'
      cases hfind'
      rw [hterm] at hunterminated
      cases hunterminated
    · rw [hfind] at hfind'
      cases hfind'
      exact hundef

/-! ## Registers of the guest -/

/-- A step of a lifted function changes memory and temporaries. -/
lemma sameBut_of_step (hpass : ctx.passing = .byValue)
    (hstep : (liftFunction ctx fn cfgBlocks).step (label, m) = some (label', m')) :
    m.SameBut (Set.Ici 20) m' := by
  cases hfind : (liftFunction ctx fn cfgBlocks).findBlock label with
  | none => simp [IRFunction.step, hfind] at hstep
  | some b =>
    have hb := emittedBlock_of_findBlock hfind
    rcases List.eq_nil_or_concat b.instructions with hnil | ⟨code, branch, hcode⟩
    · simp [IRFunction.step, hfind, hnil] at hstep
    · rw [List.concat_eq_append] at hcode
      rw [IRFunction.step_eq_bind hfind hcode, Option.bind_eq_some_iff] at hstep
      obtain ⟨m₁, hrun, hbranch⟩ := hstep
      obtain ⟨l, -, heq⟩ := Option.map_eq_some_iff.mp hbranch
      cases heq
      refine IRInst.sameBut_of_run hrun fun i hi id hid => ?_
      exact (hb.emitted i (by simp [hcode, hi])).le_of_defines hpass hid

/-- As the source is written, `readReg` and `writeReg` get the block by value.  Whatever is lifted,
its runs then leave every register and every flag of the guest as it was. -/
theorem registers_of_reaches_byValue (hpass : ctx.passing = .byValue)
    (hrun : Reaches (liftFunction ctx fn cfgBlocks).step (label, m) (label', m')) :
    (∀ id < 20, m'.regs id = m.regs id) ∧ m'.symbols = m.symbols := by
  have hsame : ∀ c, Reaches (liftFunction ctx fn cfgBlocks).step (label, m) c →
      m.SameBut (Set.Ici 20) c.2 := by
    intro c hc
    induction hc with
    | refl => exact Machine.SameBut.refl _ m
    | tail _ hstep ih => exact ih.trans (sameBut_of_step hpass hstep)
  obtain ⟨hregs, hsymbols⟩ := hsame _ hrun
  exact ⟨fun id hid => hregs id (Nat.not_le.mpr hid), hsymbols⟩

/-- The guest adds `rbx` to `rax` in every turn of the loop; what is lifted does not. -/
theorem registers_of_reaches_byValue_loop :
    ∃ m', Reaches (liftFunction byValueContext countdownFunction
        (CFGBuilder.buildCFG [addRaxRbx, jmpBack])).step (makeLabel 0x1000, oneAndMax)
      (makeLabel 0x1000, m') ∧ m'.regs Gpr.rax.vregId = 1 ∧ m'.regs 20 = 0 := by
  set run := (fun o : Option (String × Machine) =>
    o.bind (liftFunction byValueContext countdownFunction
    (CFGBuilder.buildCFG [addRaxRbx, jmpBack])).step)^[2] (some (makeLabel 0x1000, oneAndMax))
  have hlabel : run.map Prod.fst = some (makeLabel 0x1000) := by decide +kernel
  have hsum : run.map (fun c => c.2.regs 20) = some 0 := by decide +kernel
  obtain ⟨⟨label, m'⟩, hm', rfl⟩ := Option.map_eq_some_iff.mp hlabel
  rw [hm'] at hsum
  have hreach := CutPoints.reaches_of_iterate 2 hm'
  exact ⟨m', hreach, (registers_of_reaches_byValue rfl hreach).1 _ (by decide),
    Option.some_inj.mp hsum⟩

/-! ## Temporaries -/

/-- No block of the function loses a read: none reads a narrow register, and a conditional jump
reads the record of its own block or one that names no temporary. -/
def LosesNoReads (ctx : LiftContext) (cfgBlocks : List (U64 × List DecodedInstr)) : Prop :=
  ∀ k block, cfgBlocks[k]? = some block →
    NoLostReads (functionContext ctx cfgBlocks)
      (some (liftBlocks (functionContext ctx cfgBlocks) (cfgBlocks.take k)).flagState) block.2

/-- Then every block defines the temporaries it reads. -/
lemma definesReads_liftFunction (hpass : ctx.passing = .byValue)
    (hreads : LosesNoReads ctx cfgBlocks) :
    (liftFunction ctx fn cfgBlocks).DefinesReads (Set.Iio 20) := by
  intro b hb
  have hpass' : (functionContext ctx cfgBlocks).passing = .byValue := hpass
  obtain ⟨k, hk⟩ := List.mem_iff_getElem?.mp hb
  have hlength := (wellFormed_liftBlocks hpass' cfgBlocks).2
  have hlt : k < cfgBlocks.length := hlength ▸ (List.getElem?_eq_some_iff.mp hk).1
  have hblock := List.getElem?_eq_getElem hlt
  exact (definedBeforeUse_iff_of_getElem? hpass' hblock hk).mpr (hreads k _ hblock)

/-- Machines that agree on the registers of the guest, on memory and on symbols go through the same
labels, whatever is in the temporaries. -/
theorem agree_of_reaches_byValue (hpass : ctx.passing = .byValue)
    (hreads : LosesNoReads ctx cfgBlocks)
    {n : Machine} (hagree : m.Agree (Set.Iio 20) n)
    (hrun : Reaches (liftFunction ctx fn cfgBlocks).step (label, m) (label', m')) :
    ∃ n', Reaches (liftFunction ctx fn cfgBlocks).step (label, n) (label', n') ∧
      m'.Agree (Set.Iio 20) n' := by
  have hrespects := IRFunction.respects_step
    (@definesReads_liftFunction ctx fn cfgBlocks hpass hreads)
  have hstart : IRFunction.AgreeAt (Set.Iio 20) (label, m) (label, n) := ⟨rfl, hagree⟩
  obtain ⟨⟨_, n'⟩, ⟨rfl, hagree'⟩, hreach⟩ := tr_reaches hrespects hstart hrun
  exact ⟨n', hreach, hagree'⟩

/-- The loop reads full registers only. -/
lemma losesNoReads_loop :
    LosesNoReads byValueContext (CFGBuilder.buildCFG [addRaxRbx, jmpBack]) := by
  intro k block hblock
  have hcfg : CFGBuilder.buildCFG [addRaxRbx, jmpBack] = [(0x1000, [addRaxRbx, jmpBack])] := by
    decide +kernel
  rw [hcfg] at hblock ⊢
  cases k with
  | zero =>
    obtain rfl := Option.some_inj.mp hblock
    decide +kernel
  | succ k => cases hblock

/-- A turn of the loop, with another value in its temporary at the start. -/
theorem agree_of_reaches_byValue_loop :
    ∃ n', Reaches (liftFunction byValueContext countdownFunction
        (CFGBuilder.buildCFG [addRaxRbx, jmpBack])).step
          (makeLabel 0x1000, oneAndMax.set 20 (7 : U64))
      (makeLabel 0x1000, n') ∧ n'.regs Gpr.rax.vregId = 1 := by
  set run := (fun o : Option (String × Machine) =>
    o.bind (liftFunction byValueContext countdownFunction
    (CFGBuilder.buildCFG [addRaxRbx, jmpBack])).step)^[1] (some (makeLabel 0x1000, oneAndMax))
  have hlabel : run.map Prod.fst = some (makeLabel 0x1000) := by decide +kernel
  have hrax : run.map (fun c => c.2.regs Gpr.rax.vregId) = some 1 := by decide +kernel
  obtain ⟨⟨label, m'⟩, hm', rfl⟩ := Option.map_eq_some_iff.mp hlabel
  rw [hm'] at hrax
  have hagree : oneAndMax.Agree (Set.Iio 20) (oneAndMax.set 20 (7 : U64)) :=
    ⟨fun id hid => (Machine.set_regs_of_ne _ _ (Nat.ne_of_lt hid)).symm, rfl, rfl⟩
  obtain ⟨n', hreach, hagree'⟩ := agree_of_reaches_byValue rfl losesNoReads_loop hagree
    (CutPoints.reaches_of_iterate 1 hm')
  have hlow : Gpr.rax.vregId ∈ Set.Iio 20 := by decide
  exact ⟨n', hreach, (hagree'.regs hlow).symm.trans (Option.some_inj.mp hrax)⟩

end FunctionLifter

end InstaX
