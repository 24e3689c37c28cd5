import InstaX.Lifter.Instr

/-!
# A block that is terminated

A block that ends with a `jmp`, `cjmp` or `ret` takes no more instructions: every append throws.
So lifting into such a block leaves the block and the recorded flags alone, whether it returns or
throws (`halts_forM_liftInstr`); only temporaries may be taken.
-/

namespace InstaX

open Throwing

/-- A terminated block refuses every instruction. -/
lemma IRBasicBlock.exists_error_of_terminated {b : IRBasicBlock} (h : b.isTerminated = true)
    (i : IRInst) : ∃ err, b.pushInst i = .error err := by
  simp [pushInst, h]

namespace EmitM

/-- On a terminated block the emitter leaves the block alone. -/
def Halts {α : Type} (act : EmitM α) : Prop :=
  ∀ e e', e.block.isTerminated = true → Leaves act e e' → e'.block = e.block

variable {α β : Type} {act : EmitM α}

lemma halts_pure (a : α) : Halts (pure a) := by
  intro e e' _ hleaves
  rw [hleaves.eq_of_ok rfl]

/-- Programs that leave a terminated block alone do so one after the other. -/
lemma Halts.bind {f : α → EmitM β} (h : Halts act) (hf : ∀ a, Halts (f a)) :
    Halts (act >>= f) := by
  intro e e' he hleaves
  rcases leaves_bind_iff.mp hleaves with ⟨err, herror⟩ | ⟨a, e₁, hok, hleaves'⟩
  · exact h e e' he (Or.inr ⟨err, herror⟩)
  · have hblock := h e e₁ he (Or.inl ⟨a, hok⟩)
    rw [hf a e₁ e' (by rw [hblock]; exact he) hleaves', hblock]

/-- Defining a register leaves a terminated block alone. -/
lemma halts_define (ids : ℕ → ℕ) (inst : ℕ → IRInst) : Halts (define ids inst) := by
  rintro ⟨block, k⟩ e' he hleaves
  obtain ⟨err, herr⟩ := IRBasicBlock.exists_error_of_terminated he (inst (ids k))
  have halloc : (alloc ids).run ⟨block, k⟩ = .ok (ids k) ⟨block, k + 1⟩ := rfl
  have hpush : (pushInst (inst (ids k))).run ⟨block, k + 1⟩ = .error err ⟨block, k + 1⟩ := by
    simp [pushInst, herr]
  have hrun : (define ids inst).run ⟨block, k⟩ = .error err ⟨block, k + 1⟩ := by
    rw [define, run_bind_of_ok halloc, run_bind_of_error hpush]
  rw [hleaves.eq_of_error hrun]

end EmitM

namespace FlagState

open EmitM

variable (fs : FlagState) (ids : ℕ → ℕ)

/-- That the emitter leaves the block alone holds of the comparisons, and goes through the boolean
operations. -/
lemma compositional_halts : Compositional fs ids Halts where
  not hx := hx.bind fun _ => halts_define _ _
  and hx hy := hx.bind fun _ => hy.bind fun _ => halts_define _ _
  or hx hy := hx.bind fun _ => hy.bind fun _ => halts_define _ _
  xor hx hy := hx.bind fun _ => hy.bind fun _ => halts_define _ _
  imm _ := halts_pure _
  icmp _ _ := halts_define _ _

/-- No condition is materialised into a terminated block. -/
lemma halts_materialise (request : FlagRequest) : Halts (fs.materialise ids request) :=
  (compositional_halts fs ids).materialise request

end FlagState

namespace FunctionLifter

/-- What lifting leaves of a state whose block is terminated: temporaries may have been taken. -/
structure Unlifted (s t : LiftState) : Prop where
  block : t.block = s.block
  flags : t.flagState = s.flagState
  next_le : s.nextVregId ≤ t.nextVregId

lemma Unlifted.refl (s : LiftState) : Unlifted s s := ⟨rfl, rfl, le_rfl⟩

lemma Unlifted.trans {s t u : LiftState} (h : Unlifted s t) (h' : Unlifted t u) : Unlifted s u :=
  ⟨h'.block.trans h.block, h'.flags.trans h.flags, h.next_le.trans h'.next_le⟩

/-- On a terminated block the action lifts nothing. -/
def Halts {α : Type} (act : LiftM α) : Prop :=
  ∀ s t, s.block.isTerminated = true → Leaves act s t → Unlifted s t

variable {ctx : LiftContext} {α β : Type} {act : LiftM α}

lemma halts_pure (a : α) : Halts (pure a : LiftM α) := by
  intro s t _ hleaves
  obtain rfl := hleaves.eq_of_ok rfl
  exact Unlifted.refl _

/-- Programs that halt do so one after the other. -/
lemma Halts.bind {f : α → LiftM β} (h : Halts act) (hf : ∀ a, Halts (f a)) :
    Halts (act >>= f) := by
  intro s t hs hleaves
  rcases leaves_bind_iff.mp hleaves with ⟨err, herror⟩ | ⟨a, s₁, hok, hleaves'⟩
  · exact h s t hs (Or.inr ⟨err, herror⟩)
  · have h₁ := h s s₁ hs (Or.inl ⟨a, hok⟩)
    exact h₁.trans (hf a s₁ t (by rw [h₁.block]; exact hs) hleaves')

/-- Taking an id lifts nothing. -/
lemma halts_newTemp : Halts newTemp := by
  intro s t _ hleaves
  obtain rfl := hleaves.eq_of_ok (run_newTemp s)
  exact ⟨by simp, rfl, Nat.le_succ _⟩

/-- An append throws, so that nothing after it happens. -/
lemma halts_pushInst_bind (i : IRInst) (f : Unit → LiftM β) : Halts (pushInst i >>= f) := by
  intro s t hs hleaves
  obtain ⟨err, herr⟩ := IRBasicBlock.exists_error_of_terminated hs i
  have hpush : (pushInst i).run s = .error err s := by simp [pushInst, herr]
  obtain rfl := hleaves.eq_of_error (run_bind_of_error hpush f)
  exact Unlifted.refl _

/-- Pushing into a terminated block throws, and lifts nothing. -/
lemma halts_pushInst (i : IRInst) : Halts (pushInst i) := by
  have h := halts_pushInst_bind i pure
  rwa [bind_pure] at h

/-- Nothing happens after a temporary should have been defined, either. -/
lemma halts_defineTemp_bind (ty : IRType) (inst : ℕ → IRInst) (f : IRValue → LiftM β) :
    Halts (defineTemp ty inst >>= f) := by
  unfold defineTemp
  rw [bind_assoc]
  refine halts_newTemp.bind fun id => ?_
  rw [bind_assoc]
  exact halts_pushInst_bind _ _

/-- Defining a temporary may take its id, but lifts nothing. -/
lemma halts_defineTemp (ty : IRType) (inst : ℕ → IRInst) : Halts (defineTemp ty inst) := by
  have h := halts_defineTemp_bind ty inst pure
  rwa [bind_pure] at h

/-- A block argument halts as the block does. -/
lemma halts_withBlockArg (h : Halts act) : Halts (withBlockArg ctx act) := by
  unfold withBlockArg
  cases ctx.passing with
  | byReference => exact h
  | byValue =>
    intro s t hs hleaves
    have hget : (get : LiftM LiftState).run s = .ok s s := rfl
    rw [leaves_bind_of_ok hget] at hleaves
    rcases leaves_bind_iff.mp hleaves with ⟨err, herror⟩ | ⟨a, s₁, hok, hleaves'⟩
    · exact h s t hs (Or.inr ⟨err, herror⟩)
    · have h₁ := h s s₁ hs (Or.inl ⟨a, hok⟩)
      obtain rfl := hleaves'.eq_of_ok rfl
      exact ⟨rfl, h₁.flags, h₁.next_le⟩

section Operands

variable (ctx)

/-- Reading a register halts. -/
lemma halts_readReg (reg : ZydisRegister) : Halts (withBlockArg ctx (readReg ctx reg)) := by
  apply halts_withBlockArg
  unfold readReg
  dsimp only
  split
  · exact halts_pure _
  · split
    · exact halts_pure _
    · exact halts_newTemp.bind fun _ => halts_pushInst_bind _ _

/-- Writing a register halts. -/
lemma halts_writeReg (reg : ZydisRegister) (val : IRValue) :
    Halts (withBlockArg ctx (writeReg ctx reg val)) := by
  apply halts_withBlockArg
  unfold writeReg
  dsimp only
  split
  · exact halts_pure _
  · split
    · exact halts_pushInst _
    · split
      · exact halts_newTemp.bind fun _ => halts_pushInst_bind _ _
      · exact halts_newTemp.bind fun _ => halts_pushInst_bind _ _

/-- The base of an address halts. -/
lemma halts_addrBase (mem : ZydisMem) : Halts (addrBase ctx mem) := by
  unfold addrBase
  split
  · exact halts_readReg ctx _
  · split <;> exact halts_pure _

/-- Adding the scaled index halts. -/
lemma halts_addIndex (mem : ZydisMem) (addr : IRValue) : Halts (addIndex ctx mem addr) := by
  unfold addIndex scaledIndex
  split
  · refine Halts.bind ((halts_readReg ctx _).bind fun idx => ?_) fun _ => halts_defineTemp _ _
    split
    · exact halts_defineTemp _ _
    · exact halts_pure _
  · exact halts_pure _

/-- Adding the displacement halts. -/
lemma halts_addDisp (mem : ZydisMem) (addr : IRValue) : Halts (addDisp mem addr) := by
  unfold addDisp
  split
  · exact halts_defineTemp _ _
  · exact halts_pure _

/-- After an address nothing happens. -/
lemma halts_computeAddr_bind (op : ZydisDecodedOperand) (f : IRValue → LiftM β) :
    Halts (computeAddr ctx op >>= f) := by
  unfold computeAddr
  simp only [bind_assoc]
  refine (halts_addrBase ctx _).bind fun _ => (halts_addIndex ctx _ _).bind fun _ => ?_
  exact (halts_addDisp _ _).bind fun _ => halts_defineTemp_bind _ _ _

/-- Reading an operand halts. -/
lemma halts_readOperand (op : ZydisDecodedOperand) (ty : IRType) :
    Halts (readOperand ctx op ty) := by
  unfold readOperand
  split
  · exact halts_readReg ctx _
  · exact halts_pure _
  · exact halts_computeAddr_bind ctx _ _
  · exact halts_pure _
  · exact halts_pure _

/-- Writing an operand halts. -/
lemma halts_writeOperand (op : ZydisDecodedOperand) (val : IRValue) :
    Halts (writeOperand ctx op val) := by
  unfold writeOperand
  split
  · exact halts_writeReg ctx _ _
  · exact halts_computeAddr_bind ctx _ _
  · exact halts_pure _
  · exact halts_pure _
  · exact halts_pure _

end Operands

/-! ## Instructions -/

section Instructions

variable (ctx)

/-- After the operation of a binary instruction nothing happens. -/
lemma halts_liftBinop_bind (op : Opcode) (name : String) (fop : FlagOp) (ty : IRType)
    (x y : ZydisDecodedOperand) (f : IRValue → LiftM β) :
    Halts (liftBinop ctx op name fop ty x y >>= f) := by
  unfold liftBinop binopCode
  simp only [bind_assoc]
  refine (halts_readOperand ctx _ _).bind fun _ => (halts_readOperand ctx _ _).bind fun _ => ?_
  exact halts_defineTemp_bind _ _ _

/-- An extending move halts. -/
lemma halts_liftMovExt (castOp : Opcode) (name : String) (z : ZydisDecodedInstruction) :
    Halts (liftMovExt ctx castOp name z) :=
  (halts_readOperand ctx _ _).bind fun _ => halts_defineTemp_bind _ _ _

/-- `IMUL` halts. -/
lemma halts_liftImul (z : ZydisDecodedInstruction) : Halts (liftImul ctx z) := by
  unfold liftImul
  split
  · exact (halts_readReg ctx _).bind fun _ => (halts_readOperand ctx _ _).bind fun _ =>
      halts_defineTemp_bind _ _ _
  · split <;> exact halts_liftBinop_bind ctx _ _ _ _ _ _ _

/-- A division halts. -/
lemma halts_liftDiv (isSigned : Bool) (z : ZydisDecodedInstruction) :
    Halts (liftDiv ctx isSigned z) :=
  (halts_readReg ctx _).bind fun _ => (halts_readOperand ctx _ _).bind fun _ =>
    halts_newTemp.bind fun _ => halts_newTemp.bind fun _ => halts_pushInst_bind _ _

/-- A shift halts. -/
lemma halts_liftShift (op : Opcode) (fop : FlagOp) (z : ZydisDecodedInstruction) :
    Halts (liftShift ctx op fop z) :=
  (halts_readOperand ctx _ _).bind fun _ => (halts_readOperand ctx _ _).bind fun _ =>
    halts_defineTemp_bind _ _ _

/-- A request for a condition halts. -/
lemma halts_materialiseCond (request : FlagRequest) : Halts (materialiseCond request) := by
  intro s t hs hleaves
  have hget : (get : LiftM LiftState).run s = .ok s s := rfl
  rw [materialiseCond, leaves_bind_of_ok hget] at hleaves
  have hhalts := FlagState.halts_materialise s.flagState (s.nextVregId + ·) request ⟨s.block, 0⟩
  cases hrun : (s.flagState.materialise (s.nextVregId + ·) request).run ⟨s.block, 0⟩ with
  | ok cond e =>
    have hblock := hhalts e hs (Or.inl ⟨cond, hrun⟩)
    rw [hrun] at hleaves
    obtain rfl := hleaves.eq_of_ok rfl
    exact ⟨hblock, rfl, Nat.le_add_right _ _⟩
  | error err e =>
    have hblock := hhalts e hs (Or.inr ⟨err, hrun⟩)
    rw [hrun] at hleaves
    obtain rfl := hleaves.eq_of_error rfl
    exact ⟨hblock, rfl, Nat.le_add_right _ _⟩

/-- A conditional jump halts. -/
lemma halts_liftJcc (di : DecodedInstr) : Halts (liftJcc ctx di) := by
  unfold liftJcc
  split
  · exact (halts_materialiseCond _).bind fun _ => halts_pushInst _
  · exact halts_pushInst _

/-- A jump halts. -/
lemma halts_liftJmp (di : DecodedInstr) : Halts (liftJmp ctx di) := by
  unfold liftJmp
  split <;> exact halts_pushInst _

/-- A call halts. -/
lemma halts_liftCall (di : DecodedInstr) : Halts (liftCall ctx di) := by
  have htarget : Halts (callTarget ctx di) := by
    unfold callTarget
    dsimp only
    split
    · exact halts_pure _
    · exact (halts_readOperand ctx _ _).bind fun _ => halts_defineTemp _ _
  exact htarget.bind fun _ => halts_defineTemp_bind _ _ _

/-- No instruction is lifted into a terminated block. -/
theorem halts_liftInstr (di : DecodedInstr) : Halts (liftInstr ctx di) := by
  rw [liftInstr.eq_def]
  dsimp only
  cases di.zydis.mnemonic with
  | nop => exact halts_pushInst _
  | mov =>
    refine Halts.bind ?_ fun _ => halts_liftMovExt ctx _ _ _
    exact (halts_readOperand ctx _ _).bind fun _ => halts_writeOperand ctx _ _
  | movzx | movsx | movsxd => exact halts_liftMovExt ctx _ _ _
  | lea => exact halts_computeAddr_bind ctx _ _
  | add | sub | and | or | xor | cmp | test => exact halts_liftBinop_bind ctx _ _ _ _ _ _ _
  | imul => exact halts_liftImul ctx _
  | idiv | div => exact halts_liftDiv ctx _ _
  | not | neg | inc | dec =>
    exact (halts_readOperand ctx _ _).bind fun _ => halts_defineTemp_bind _ _ _
  | shl | shr | sar => exact halts_liftShift ctx _ _ _
  | jz | jnz | js | jns | jo | jno | jb | jnb | jbe | jnbe | jl | jnl | jle | jnle =>
    exact halts_liftJcc ctx di
  | jmp => exact halts_liftJmp ctx di
  | call => exact halts_liftCall ctx di
  | jp | jnp | ret | retf | loop | loope | loopne | other => exact halts_pure _

/-- Nor is any sequence of instructions. -/
theorem halts_forM_liftInstr (dis : List DecodedInstr) : Halts (forM dis (liftInstr ctx)) := by
  induction dis with
  | nil => exact halts_pure _
  | cons di dis ih =>
    rw [List.forM_cons]
    exact (halts_liftInstr ctx di).bind fun _ => ih

end Instructions

end FunctionLifter

end InstaX
