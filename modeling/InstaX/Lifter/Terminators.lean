import InstaX.Lifter.Instr
import InstaX.X86.ControlFlow

/-!
# Terminators

What the lifter appends, as far as branches are concerned: code that ends no block, and after it the
`jmp` or `cjmp` of the instruction, if it has one (`exists_run_liftInstr`).  This holds whether
`readReg` and `writeReg` get the block by value or by reference.

The mnemonics with a branch are control flow to `buildCFG`, which ends a block after every one.  So
lifting the instructions of one block never appends to a block that is ended
(`exists_run_block`).
-/

namespace InstaX

open Throwing

/-! ## Code that ends no block -/

/-- From every state whose block is open, the program returns, and it appends code that ends no
block. -/
def Extends {σ α : Type} (block : σ → IRBasicBlock) (act : Prog σ α) : Prop :=
  ∀ s, (block s).isTerminated = false → ∃ a s' is, act.run s = .ok a s' ∧
    block s' = (block s).append is ∧ ∀ i ∈ is, i.isTerminator = false

namespace Extends

variable {σ α β : Type} {block : σ → IRBasicBlock} {act : Prog σ α}

lemma pure (a : α) : Extends block (pure a) :=
  fun s _ => ⟨a, s, [], rfl, by simp, by simp⟩

/-- Programs extend the block one after the other. -/
lemma bind {f : α → Prog σ β} (h : Extends block act) (hf : ∀ a, Extends block (f a)) :
    Extends block (act >>= f) := by
  intro s hs
  obtain ⟨a, s₁, is, hrun, hblock, his⟩ := h s hs
  have hs₁ : (block s₁).isTerminated = false := by
    rw [hblock]
    exact IRBasicBlock.append_open hs his
  obtain ⟨b, s₂, js, hrun', hblock', hjs⟩ := hf a s₁ hs₁
  refine ⟨b, s₂, is ++ js, by rw [run_bind_of_ok hrun, hrun'], ?_, ?_⟩
  · rw [hblock', hblock, IRBasicBlock.append_append]
  · exact fun i hi => (List.mem_append.mp hi).elim (his i) (hjs i)

/-- A change of state that leaves the block alone. -/
lemma modify {f : σ → σ} (hf : ∀ s, block (f s) = block s) :
    Extends block (modify f : Prog σ PUnit) :=
  fun s _ => ⟨⟨⟩, f s, [], rfl, by simp [hf], by simp⟩

end Extends

namespace FlagState

variable (fs : FlagState) (ids : ℕ → ℕ)

/-- A defined register extends the block by an instruction. -/
lemma extends_define {inst : ℕ → IRInst} (hinst : ∀ id, (inst id).isTerminator = false) :
    Extends Emission.block (EmitM.define ids inst) := by
  rintro ⟨block, k⟩ hopen
  exact ⟨_, _, [inst (ids k)], EmitM.run_define_of_open hopen k ids inst, rfl, by simp [hinst]⟩

/-- That code ends no block holds of the comparisons, and goes through the boolean operations. -/
lemma compositional_extends : Compositional fs ids (Extends Emission.block) where
  not hx := hx.bind fun _ => extends_define ids fun _ => rfl
  and hx hy := hx.bind fun _ => hy.bind fun _ => extends_define ids fun _ => rfl
  or hx hy := hx.bind fun _ => hy.bind fun _ => extends_define ids fun _ => rfl
  xor hx hy := hx.bind fun _ => hy.bind fun _ => extends_define ids fun _ => rfl
  imm _ := Extends.pure _
  icmp _ _ := extends_define ids fun _ => rfl

/-- The code of a condition ends no block. -/
lemma extends_materialise (request : FlagRequest) :
    Extends Emission.block (fs.materialise ids request) :=
  (compositional_extends fs ids).materialise request

end FlagState

namespace FunctionLifter

variable {ctx : LiftContext} {α : Type} {act : LiftM α}

/-! ## Operands -/

/-- So does an instruction that is pushed. -/
lemma extends_pushInst {i : IRInst} (hi : i.isTerminator = false) :
    Extends LiftState.block (pushInst i) :=
  fun s hs => ⟨(), s.emit 0 [i], [i], run_pushInst hs i, rfl, by simpa using hi⟩

/-- Taking an id leaves the block. -/
lemma extends_newTemp : Extends LiftState.block newTemp :=
  fun s _ => ⟨s.nextVregId, s.emit 1 [], [], run_newTemp s, rfl, by simp⟩

/-- Defining a temporary extends the block by an instruction. -/
lemma extends_defineTemp {ty : IRType} {inst : ℕ → IRInst}
    (hinst : ∀ id, (inst id).isTerminator = false) :
    Extends LiftState.block (defineTemp ty inst) :=
  extends_newTemp.bind fun _ => (extends_pushInst (hinst _)).bind fun _ => Extends.pure _

/-- Recording flags extends the block by no branch. -/
lemma extends_setFlags (op : FlagOp) (result lhs rhs : IRValue) (ty : IRType) :
    Extends LiftState.block (setFlags op result lhs rhs ty) :=
  Extends.modify fun _ => rfl

/-- A function that gets the block as an argument may lose what it appends. -/
lemma extends_withBlockArg (h : Extends LiftState.block act) :
    Extends LiftState.block (withBlockArg ctx act) := by
  unfold withBlockArg
  cases ctx.passing with
  | byReference => exact h
  | byValue =>
    intro s hs
    obtain ⟨a, s₁, is, hrun, -, -⟩ := h s hs
    have hget : (get : LiftM LiftState).run s = .ok s s := rfl
    refine ⟨a, { s₁ with block := s.block }, [], ?_, by simp, by simp⟩
    rw [run_bind_of_ok hget, run_bind_of_ok hrun]
    rfl

section Operands

variable (ctx)

/-- Reading a register extends the block by no branch. -/
lemma extends_readReg (reg : ZydisRegister) :
    Extends LiftState.block (withBlockArg ctx (readReg ctx reg)) := by
  apply extends_withBlockArg
  unfold readReg
  dsimp only
  split
  · exact Extends.pure _
  · split
    · exact Extends.pure _
    · exact extends_defineTemp fun _ => rfl

/-- Nor does writing one. -/
lemma extends_writeReg (reg : ZydisRegister) (val : IRValue) :
    Extends LiftState.block (withBlockArg ctx (writeReg ctx reg val)) := by
  have hpush : ∀ i : IRInst, i.isTerminator = false → Extends LiftState.block (pushInst i) :=
    fun _ => extends_pushInst
  apply extends_withBlockArg
  unfold writeReg
  dsimp only
  split
  · exact Extends.pure _
  · split
    · exact hpush _ rfl
    · split
      · exact extends_newTemp.bind fun _ => (hpush _ rfl).bind fun _ => hpush _ rfl
      · exact extends_newTemp.bind fun _ => (hpush _ rfl).bind fun _ =>
          extends_newTemp.bind fun _ => (hpush _ rfl).bind fun _ => hpush _ rfl

/-- The base of an address extends the block by no branch. -/
lemma extends_addrBase (mem : ZydisMem) : Extends LiftState.block (addrBase ctx mem) := by
  unfold addrBase
  split
  · exact extends_readReg ctx _
  · split <;> exact Extends.pure _

/-- Nor does adding the scaled index. -/
lemma extends_addIndex (mem : ZydisMem) (addr : IRValue) :
    Extends LiftState.block (addIndex ctx mem addr) := by
  unfold addIndex scaledIndex
  split
  · refine Extends.bind ((extends_readReg ctx _).bind fun idx => ?_) fun _ =>
      extends_defineTemp fun _ => rfl
    split
    · exact extends_defineTemp fun _ => rfl
    · exact Extends.pure _
  · exact Extends.pure _

/-- Nor does adding the displacement. -/
lemma extends_addDisp (mem : ZydisMem) (addr : IRValue) :
    Extends LiftState.block (addDisp mem addr) := by
  unfold addDisp
  split
  · exact extends_defineTemp fun _ => rfl
  · exact Extends.pure _

/-- Nor does the whole address. -/
lemma extends_computeAddr (op : ZydisDecodedOperand) :
    Extends LiftState.block (computeAddr ctx op) :=
  (extends_addrBase ctx _).bind fun _ => (extends_addIndex ctx _ _).bind fun _ =>
    (extends_addDisp _ _).bind fun _ => extends_defineTemp fun _ => rfl

/-- Reading an operand extends the block by no branch. -/
lemma extends_readOperand (op : ZydisDecodedOperand) (ty : IRType) :
    Extends LiftState.block (readOperand ctx op ty) := by
  unfold readOperand
  split
  · exact extends_readReg ctx _
  · exact Extends.pure _
  · exact (extends_computeAddr ctx _).bind fun _ => extends_defineTemp fun _ => rfl
  · exact Extends.pure _
  · exact Extends.pure _

/-- Nor does writing one. -/
lemma extends_writeOperand (op : ZydisDecodedOperand) (val : IRValue) :
    Extends LiftState.block (writeOperand ctx op val) := by
  unfold writeOperand
  split
  · exact extends_writeReg ctx _ _
  · exact (extends_computeAddr ctx _).bind fun _ => extends_pushInst rfl
  · exact Extends.pure _
  · exact Extends.pure _
  · exact Extends.pure _

end Operands

/-! ## Instructions without a branch -/

section Instructions

variable (ctx)

/-- An extending move extends the block by no branch. -/
lemma extends_liftMovExt {castOp : Opcode} (hcast : castOp = .zext ∨ castOp = .sext) (name : String)
    (z : ZydisDecodedInstruction) : Extends LiftState.block (liftMovExt ctx castOp name z) := by
  refine (extends_readOperand ctx _ _).bind fun _ => Extends.bind ?_ fun _ =>
    extends_writeReg ctx _ _
  rcases hcast with rfl | rfl <;> exact extends_defineTemp fun _ => rfl

/-- The operations of `liftBinop`, `liftShift` and `liftDiv` end no block. -/
lemma extends_liftBinop {op : Opcode} (name : String) (fop : FlagOp) (ty : IRType)
    (x y : ZydisDecodedOperand)
    (hop : ∀ id l r, (IRInst.makeBinop op ⟨id, name⟩ ty l r).isTerminator = false) :
    Extends LiftState.block (liftBinop ctx op name fop ty x y) := by
  unfold liftBinop binopCode
  simp only [bind_assoc, pure_bind]
  refine (extends_readOperand ctx _ _).bind fun l => (extends_readOperand ctx _ _).bind fun r => ?_
  exact (extends_defineTemp fun _ => hop _ _ _).bind fun _ => (extends_setFlags _ _ _ _ _).bind
    fun _ => Extends.pure _

/-- Nor does an arithmetic instruction. -/
lemma extends_liftArith {op : Opcode} (name : String) (fop : FlagOp) (ty : IRType)
    (z : ZydisDecodedInstruction)
    (hop : ∀ id l r, (IRInst.makeBinop op ⟨id, name⟩ ty l r).isTerminator = false) :
    Extends LiftState.block (liftArith ctx op name fop ty z) :=
  (extends_liftBinop ctx name fop ty _ _ hop).bind fun _ => extends_writeOperand ctx _ _

/-- Nor does a comparison. -/
lemma extends_liftCompare {op : Opcode} (name : String) (fop : FlagOp)
    (z : ZydisDecodedInstruction)
    (hop : ∀ id ty l r, (IRInst.makeBinop op ⟨id, name⟩ ty l r).isTerminator = false) :
    Extends LiftState.block (liftCompare ctx op name fop z) :=
  (extends_liftBinop ctx name fop _ _ _ fun id => hop id _).bind fun _ => Extends.pure _

/-- Nor do `NEG` and `NOT`. -/
lemma extends_liftUnary (isNeg : Bool) (z : ZydisDecodedInstruction) :
    Extends LiftState.block (liftUnary ctx isNeg z) := by
  refine (extends_readOperand ctx _ _).bind fun src => ?_
  refine Extends.bind (extends_defineTemp fun _ => by cases isNeg <;> rfl) fun result => ?_
  cases isNeg with
  | true => exact (extends_setFlags _ _ _ _ _).bind fun _ => extends_writeOperand ctx _ _
  | false => exact extends_writeOperand ctx _ _

/-- Nor do `INC` and `DEC`. -/
lemma extends_liftIncDec (isDec : Bool) (z : ZydisDecodedInstruction) :
    Extends LiftState.block (liftIncDec ctx isDec z) := by
  refine (extends_readOperand ctx _ _).bind fun src => ?_
  refine Extends.bind (extends_defineTemp fun _ => by cases isDec <;> rfl) fun result => ?_
  exact (extends_setFlags _ _ _ _ _).bind fun _ => extends_writeOperand ctx _ _

/-- Nor does `IMUL`. -/
lemma extends_liftImul (z : ZydisDecodedInstruction) :
    Extends LiftState.block (liftImul ctx z) := by
  have hbinop : ∀ name ty x y, Extends LiftState.block (liftBinop ctx .mul name .imul ty x y) :=
    fun name ty x y => extends_liftBinop ctx name .imul ty x y fun _ _ _ => rfl
  unfold liftImul
  split
  · refine (extends_readReg ctx _).bind fun _ => (extends_readOperand ctx _ _).bind fun _ => ?_
    refine (extends_defineTemp fun _ => rfl).bind fun _ =>
      (extends_writeReg ctx _ _).bind fun _ => ?_
    exact (extends_writeReg ctx _ _).bind fun _ => extends_setFlags _ _ _ _ _
  · split <;> exact (hbinop _ _ _ _).bind fun _ => extends_writeReg ctx _ _

/-- Nor does a division. -/
lemma extends_liftDiv (isSigned : Bool) (z : ZydisDecodedInstruction) :
    Extends LiftState.block (liftDiv ctx isSigned z) := by
  refine (extends_readReg ctx _).bind fun rax => (extends_readOperand ctx _ _).bind fun src => ?_
  refine extends_newTemp.bind fun qId => extends_newTemp.bind fun rId => ?_
  refine Extends.bind (extends_pushInst (by cases isSigned <;> rfl)) fun _ => ?_
  refine Extends.bind (extends_pushInst (by cases isSigned <;> rfl)) fun _ => ?_
  refine (extends_writeReg ctx _ _).bind fun _ => (extends_writeReg ctx _ _).bind fun _ => ?_
  exact Extends.modify fun _ => rfl

/-- Nor does a shift. -/
lemma extends_liftShift {op : Opcode} (fop : FlagOp) (z : ZydisDecodedInstruction)
    (hop : ∀ id ty l r, (IRInst.makeBinop op ⟨id, "shift"⟩ ty l r).isTerminator = false) :
    Extends LiftState.block (liftShift ctx op fop z) := by
  refine (extends_readOperand ctx _ _).bind fun val =>
    (extends_readOperand ctx _ _).bind fun amt => ?_
  refine (extends_defineTemp fun _ => rfl).bind fun ext => ?_
  refine (extends_defineTemp fun _ => hop _ _ _ _).bind fun result => ?_
  exact (extends_setFlags _ _ _ _ _).bind fun _ => extends_writeOperand ctx _ _

/-- Nor does a call. -/
lemma extends_liftCall (di : DecodedInstr) : Extends LiftState.block (liftCall ctx di) := by
  have htarget : Extends LiftState.block (callTarget ctx di) := by
    unfold callTarget
    dsimp only
    split
    · exact Extends.pure _
    · exact (extends_readOperand ctx _ _).bind fun _ => extends_defineTemp fun _ => rfl
  refine htarget.bind fun _ => (extends_defineTemp fun _ => rfl).bind fun _ => ?_
  exact (extends_writeReg ctx _ _).bind fun _ => Extends.modify fun _ => rfl

/-- Lifting any other instruction than a jump ends no block. -/
theorem extends_liftInstr {di : DecodedInstr} (hjcc : flagRequestForJcc di.zydis.mnemonic = none)
    (hjmp : di.zydis.mnemonic ≠ .jmp) : Extends LiftState.block (liftInstr ctx di) := by
  have harith : ∀ op name fop ty, op = .add ∨ op = .sub ∨ op = .and ∨ op = .or ∨ op = .xor →
      Extends LiftState.block (liftArith ctx op name fop ty di.zydis) := by
    rintro op name fop ty (rfl | rfl | rfl | rfl | rfl) <;>
      exact extends_liftArith ctx name fop ty _ fun _ _ _ => rfl
  rw [liftInstr.eq_def]
  dsimp only
  generalize di.zydis.mnemonic = mnemonic at hjcc hjmp
  cases mnemonic with
  | nop => exact extends_pushInst rfl
  | mov =>
    refine Extends.bind ?_ fun _ => extends_liftMovExt ctx (Or.inl rfl) _ _
    exact (extends_readOperand ctx _ _).bind fun _ => extends_writeOperand ctx _ _
  | movzx => exact extends_liftMovExt ctx (Or.inl rfl) _ _
  | movsx | movsxd => exact extends_liftMovExt ctx (Or.inr rfl) _ _
  | lea =>
    refine (extends_computeAddr ctx _).bind fun _ => Extends.bind ?_ fun _ =>
      extends_writeReg ctx _ _
    exact extends_defineTemp fun _ => rfl
  | add | sub | and | or | xor => exact harith _ _ _ _ (by decide)
  | imul => exact extends_liftImul ctx _
  | idiv | div => exact extends_liftDiv ctx _ _
  | not | neg => exact extends_liftUnary ctx _ _
  | shl | shr | sar => exact extends_liftShift ctx _ _ fun _ _ _ _ => rfl
  | inc | dec => exact extends_liftIncDec ctx _ _
  | cmp | test => exact extends_liftCompare ctx _ _ _ fun _ _ _ _ => rfl
  | jz | jnz | js | jns | jo | jno | jb | jnb | jbe | jnbe | jl | jnl | jle | jnle => cases hjcc
  | jmp => exact absurd rfl hjmp
  | call => exact extends_liftCall ctx _
  | jp | jnp | ret | retf | loop | loope | loopne | other => exact Extends.pure _

end Instructions

/-! ## Jumps -/

section Jumps

variable (ctx)

/-- The branch of an instruction: that of a conditional jump, or of a jump to a block of the
function; other instructions have none. -/
inductive Branch (di : DecodedInstr) : List IRInst → Prop
  | jcc {request : FlagRequest} (hjcc : flagRequestForJcc di.zydis.mnemonic = some request)
      (cond : IRValue) :
      Branch di [.makeCjmp cond (labelAt ctx di.relativeTarget) (labelAt ctx di.nextVA)]
  | jmp {label : String} (hjmp : di.zydis.mnemonic = .jmp)
      (hlabel : ctx.blockNames di.relativeTarget = some label) : Branch di [.makeJmp label]
  | none (hjcc : flagRequestForJcc di.zydis.mnemonic = none)
      (hjmp : di.zydis.mnemonic = .jmp → ctx.blockNames di.relativeTarget = none) : Branch di []

/-- An instruction whose branch does not end the block is no control flow to `buildCFG`. -/
lemma Branch.eq_nil_of_not_isControlFlow {ctx : LiftContext} {di : DecodedInstr}
    {ends : List IRInst} (h : Branch ctx di ends) (hcf : CFGBuilder.isControlFlow di = false) :
    ends = [] := by
  unfold CFGBuilder.isControlFlow at hcf
  cases h with
  | jcc hjcc cond =>
    generalize di.zydis.mnemonic = mnemonic at hjcc hcf
    cases mnemonic <;> first | exact absurd hcf (by decide) | cases hjcc
  | jmp hjmp hlabel =>
    rw [hjmp] at hcf
    cases hcf
  | none => rfl

/-- An instruction ends with one branch at most. -/
lemma Branch.length_le {ctx : LiftContext} {di : DecodedInstr} {ends : List IRInst}
    (h : Branch ctx di ends) : ends.length ≤ 1 := by
  cases h with
  | jcc | jmp => exact le_rfl
  | none => exact Nat.zero_le 1

/-- The condition of a jump extends the block by no branch. -/
lemma extends_materialiseCond (request : FlagRequest) :
    Extends LiftState.block (materialiseCond request) := by
  intro s hs
  obtain ⟨cond, e, is, hrun, hblock, his⟩ :=
    s.flagState.extends_materialise (s.nextVregId + ·) request ⟨s.block, 0⟩ hs
  have hget : (get : LiftM LiftState).run s = .ok s s := rfl
  refine ⟨cond, { s with block := e.block, nextVregId := s.nextVregId + e.taken }, is, ?_,
    hblock, his⟩
  rw [materialiseCond, run_bind_of_ok hget, hrun]
  rfl

/-- Lifting one instruction into an open block appends code that ends no block, and then the branch
of the instruction. -/
theorem exists_run_liftInstr (di : DecodedInstr) {s : LiftState} (hs : s.Open) :
    ∃ t is ends, (liftInstr ctx di).run s = .ok () t ∧ t.block = s.block.append (is ++ ends) ∧
      (∀ i ∈ is, i.isTerminator = false) ∧ Branch ctx di ends := by
  cases hjcc : flagRequestForJcc di.zydis.mnemonic with
  | some request =>
    obtain ⟨cond, s₁, is, hrun, hblock, his⟩ := extends_materialiseCond request s hs
    have hs₁ : s₁.Open := hs.of_append hblock his
    obtain ⟨branch, hbranch⟩ : ∃ i : IRInst, i =
      .makeCjmp cond (labelAt ctx di.relativeTarget) (labelAt ctx di.nextVA) := ⟨_, rfl⟩
    refine ⟨s₁.emit 0 [branch], is, [branch], ?_, ?_, his, hbranch ▸ Branch.jcc hjcc cond⟩
    · simp only [liftInstr_eq_liftJcc hjcc, liftJcc, hjcc]
      rw [run_bind_of_ok hrun, ← hbranch]
      exact run_pushInst hs₁ branch
    · rw [LiftState.emit_block, hblock, IRBasicBlock.append_append]
  | none =>
    by_cases hjmp : di.zydis.mnemonic = .jmp
    · have hlift : liftInstr ctx di = liftJmp ctx di := by
        rw [liftInstr.eq_def]
        dsimp only
        rw [hjmp]
      rw [hlift]
      unfold liftJmp
      cases hlabel : ctx.blockNames di.relativeTarget with
      | some label =>
        exact ⟨_, [], _, run_pushInst hs _, by simp, by simp, Branch.jmp hjmp hlabel⟩
      | none =>
        refine ⟨_, [{ IRInst.makeNop with sourceAddr := di.va }], [], run_pushInst hs _,
          by simp, ?_, Branch.none hjcc fun _ => hlabel⟩
        intro i hi
        rw [List.mem_singleton.mp hi]
        rfl
    · obtain ⟨⟨⟩, t, is, hrun, hblock, his⟩ := extends_liftInstr ctx hjcc hjmp s hs
      exact ⟨t, is, [], hrun, by rw [hblock, List.append_nil], his,
        Branch.none hjcc fun h => absurd h hjmp⟩

/-- Instructions of which only the last may be control flow are lifted without an exception, and
only the last appended instruction may end the block. -/
theorem exists_run_forM_liftInstr {dis : List DecodedInstr}
    (hcf : ∀ di ∈ dis.dropLast, CFGBuilder.isControlFlow di = false) {s : LiftState} (hs : s.Open) :
    ∃ t is, (forM dis (liftInstr ctx)).run s = .ok () t ∧ t.block = s.block.append is ∧
      ∀ i ∈ is.dropLast, i.isTerminator = false := by
  induction dis generalizing s with
  | nil => exact ⟨s, [], rfl, by simp, by simp⟩
  | cons di dis ih =>
    obtain ⟨s₁, is, ends, hrun, hblock, his, hbranch⟩ := exists_run_liftInstr ctx di hs
    rw [List.forM_cons]
    cases dis with
    | nil =>
      refine ⟨s₁, is ++ ends, by rw [run_bind_of_ok hrun]; rfl, hblock, fun i hi => his i ?_⟩
      -- at most the branch is dropped
      have hlength := hbranch.length_le
      have hdrop : (is ++ ends).dropLast.length ≤ is.length := by
        rw [List.length_dropLast, List.length_append]
        omega
      exact (List.prefix_of_prefix_length_le (List.dropLast_prefix _) (List.prefix_append is ends)
        hdrop).subset hi
    | cons di' dis =>
      rw [List.dropLast_cons_cons] at hcf
      obtain rfl := hbranch.eq_nil_of_not_isControlFlow (hcf di List.mem_cons_self)
      rw [List.append_nil] at hblock
      have hs₁ : s₁.Open := hs.of_append hblock his
      obtain ⟨t, js, hrun', hblock', hjs⟩ :=
        ih (fun x hx => hcf x (List.mem_cons_of_mem di hx)) hs₁
      refine ⟨t, is ++ js, by rw [run_bind_of_ok hrun, hrun'], ?_, fun i hi => ?_⟩
      · rw [hblock', hblock, IRBasicBlock.append_append]
      · cases js with
        | nil =>
          rw [List.append_nil] at hi
          exact his i (List.dropLast_subset _ hi)
        | cons j js =>
          rw [List.dropLast_append_of_ne_nil (List.cons_ne_nil j js)] at hi
          exact (List.mem_append.mp hi).elim (his i) (hjs i)

/-- Every block of the graph of a stream is lifted into an empty block without an exception, and
ends at most with its last instruction. -/
theorem terminators_of_buildCFG {instrs : List DecodedInstr}
    (hsorted : instrs.Pairwise fun x y => x.va < y.va) {entry : U64 × List DecodedInstr}
    (hentry : entry ∈ CFGBuilder.buildCFG instrs) {s : LiftState} (hs : s.block.instructions = []) :
    ∃ t, (forM entry.2 (liftInstr ctx)).run s = .ok () t ∧
      ∀ i ∈ t.block.instructions.dropLast, i.isTerminator = false := by
  have hcf := (CFGBuilder.isCut_buildCFG hsorted).controlFlow_last entry hentry
  have hopen : s.Open := by
    rw [LiftState.Open, IRBasicBlock.isTerminated, hs]
    rfl
  obtain ⟨t, is, hrun, hblock, his⟩ := exists_run_forM_liftInstr ctx hcf hopen
  refine ⟨t, hrun, ?_⟩
  rw [hblock, IRBasicBlock.append_instructions, hs, List.nil_append]
  exact his

/-- Two instructions in one block: a `nop` and a jump over nothing. -/
def nopThenJz : List DecodedInstr := [
  { va := 0x1000, length := 1, zydis := { mnemonic := .nop } },
  { va := 0x1001, length := 2, zydis := {
      mnemonic := .jz, length := 2, operandCountVisible := 1,
      operands :=
        [{ type := .immediate, size := 8, imm := { isRelative := true, value := 0 } }] } }]

/-- Both are lifted into one block. -/
theorem terminators_of_buildCFG_nopThenJz :
    ∃ t, (forM nopThenJz (liftInstr bareContext)).run emptyBlock = .ok () t ∧
      ∀ i ∈ t.block.instructions.dropLast, i.isTerminator = false := by
  have hsorted : nopThenJz.Pairwise fun x y => x.va < y.va := by decide
  have hentry : (0x1000, nopThenJz) ∈ CFGBuilder.buildCFG nopThenJz := by decide
  exact terminators_of_buildCFG bareContext hsorted hentry rfl

end Jumps

end FunctionLifter

end InstaX
