import InstaX.Lifter.Emitted

/-!
# Operands when the block is passed by value

`readReg` appends the truncation of a narrow register to a copy of the block when it receives the
block by value; the temporary it returns is then defined nowhere.  The lemmas of this file say of
each function that reads or writes an operand when the code built so far is defined before use and
its value is known: exactly when no narrow register was read on the way (`builds_readOperand`).
-/

namespace InstaX

open Throwing RegisterCode View

/-- A register that is read through a truncation. -/
def ZydisRegister.IsNarrow (reg : ZydisRegister) : Prop :=
  (gprVRegId (canonicalReg reg)).isSome = true ∧ typeOfReg reg ≠ .i64

instance (reg : ZydisRegister) : Decidable reg.IsNarrow :=
  inferInstanceAs (Decidable (_ ∧ _))

/-- An address with a narrow base or index. -/
def ZydisMem.HasNarrow (mem : ZydisMem) : Prop := mem.base.IsNarrow ∨ mem.index.IsNarrow

instance (mem : ZydisMem) : Decidable mem.HasNarrow :=
  inferInstanceAs (Decidable (_ ∨ _))

namespace ZydisDecodedOperand

/-- Writing the operand reads a narrow register. -/
def WriteReadsNarrow (op : ZydisDecodedOperand) : Prop := op.type = .memory ∧ op.mem.HasNarrow

/-- Reading the operand reads a narrow register. -/
def ReadsNarrow (op : ZydisDecodedOperand) : Prop :=
  op.type = .register ∧ op.reg.IsNarrow ∨ op.WriteReadsNarrow

instance (op : ZydisDecodedOperand) : Decidable op.WriteReadsNarrow :=
  inferInstanceAs (Decidable (_ ∧ _))

instance (op : ZydisDecodedOperand) : Decidable op.ReadsNarrow :=
  inferInstanceAs (Decidable (_ ∨ _))

end ZydisDecodedOperand

namespace FunctionLifter

/-- The block under construction and the function's register counter. -/
def liftView : View LiftState IRInst where
  base := 20
  code s := s.block.instructions
  next := LiftState.nextVregId
  IsOpen := LiftState.Open

variable {ctx : LiftContext} {s t u : LiftState} {v w : IRValue} {good : Prop}

/-- An operand that reads no register is known. -/
lemma known_of_vregId?_eq_none (hv : v.vregId? = none) (s : LiftState) : liftView.Known s v :=
  fun _ hr => absurd (hv.symm.trans hr) (by simp)

/-- The counter has passed an operand that is no register. -/
lemma passed_of_vregId?_eq_none (hv : v.vregId? = none) (s : LiftState) : liftView.Passed s v :=
  fun _ hr => absurd (hv.symm.trans hr) (by simp)

/-- A constant is known. -/
@[simp] lemma known_makeImm (s : LiftState) (c : BitVec 64) (ty : IRType) :
    liftView.Known s (.makeImm c ty) :=
  known_of_vregId?_eq_none rfl s

/-- An operand was computed: the recorded flags are kept, and the code and the operand are in order
exactly when the condition holds. -/
structure OperandRead (s : LiftState) (good : Prop) (v : IRValue) (t : LiftState) : Prop where
  flags : t.flagState = s.flagState
  outcome : liftView.Outcome s t v good

/-- A temporary was defined: it is known, and the code is in order exactly when the condition
holds. -/
structure TempDefined (s : LiftState) (good : Prop) (v : IRValue) (t : LiftState) : Prop where
  flags : t.flagState = s.flagState
  passed : liftView.Passed t v
  known : liftView.Known t v
  closed : liftView.Closed t ↔ liftView.Closed s ∧ good

/-- A temporary that was defined can be read. -/
lemma TempDefined.operandRead (h : TempDefined s good v t) : OperandRead s good v t :=
  ⟨h.flags, h.passed, by rw [← h.closed]; exact and_iff_left h.known⟩

/-- Take a temporary and define it by an instruction whose operands are in order exactly when the
condition holds. -/
lemma builds_defineTemp {ty : IRType} {inst : ℕ → IRInst} (ht : liftView.Ready t)
    (hflags : t.flagState = s.flagState) (hdst : ∀ id, destination (inst id) = some id)
    (hterm : ∀ id, (inst id).isTerminator = false)
    (hgood : liftView.Closed t ∧ (∀ x ∈ (inst t.nextVregId).operands, liftView.Known t x) ↔
      liftView.Closed s ∧ good) :
    liftView.Builds (defineTemp ty inst) t (TempDefined s good) := by
  have hrun : (defineTemp ty inst).run t =
      .ok (.makeVReg t.nextVregId ty) (t.emit 1 [inst t.nextVregId]) := by
    unfold defineTemp
    rw [run_define ht.isOpen, EStateM.run_pure]
  have hdst' := hdst t.nextVregId
  refine ⟨_, _, hrun, LiftState.Open.emit ht.isOpen 1 (by simp [hterm]),
    Grows.define rfl rfl hdst', hflags, ?_, known_of_destination rfl hdst' rfl, ?_⟩
  · exact (Outcome.define (V := liftView) (s := t) rfl rfl hdst' rfl).passed
  · rw [← hgood]
    exact closed_iff_of_code_eq rfl

/-- A binary operation on two operands. -/
lemma builds_defineBinop {op : Opcode} {name : String} {ty : IRType} (ht : liftView.Ready t)
    (hflags : t.flagState = s.flagState)
    (hterm : ∀ id, (IRInst.makeBinop op ⟨id, name⟩ ty v w).isTerminator = false)
    (hgood : liftView.Closed t ∧ liftView.Known t v ∧ liftView.Known t w ↔
      liftView.Closed s ∧ good) :
    liftView.Builds (defineTemp ty fun id => .makeBinop op ⟨id, name⟩ ty v w) t
      (TempDefined s good) := by
  refine builds_defineTemp ht hflags (fun _ => rfl) hterm ?_
  rw [← hgood]
  simp [IRInst.makeBinop]

/-- A conversion of an operand. -/
lemma builds_defineCast {op : Opcode} {name : String} {ty ty' : IRType} (ht : liftView.Ready t)
    (hflags : t.flagState = s.flagState)
    (hterm : ∀ id, (IRInst.makeCast op ⟨id, name⟩ ty' v).isTerminator = false)
    (hgood : liftView.Closed t ∧ liftView.Known t v ↔ liftView.Closed s ∧ good) :
    liftView.Builds (defineTemp ty fun id => .makeCast op ⟨id, name⟩ ty' v) t
      (TempDefined s good) := by
  refine builds_defineTemp ht hflags (fun _ => rfl) hterm ?_
  rw [← hgood]
  simp [IRInst.makeCast]

/-- A temporary as an operand. -/
lemma builds_operandRead {act : LiftM IRValue} (h : liftView.Builds act t (TempDefined s good)) :
    liftView.Builds act t (OperandRead s good) :=
  h.mono fun _ _ _ hv => hv.operandRead

/-- An operand that reads no register is in order. -/
lemma builds_pure (hs : liftView.Ready s) (hv : v.vregId? = none) (hgood : good) :
    liftView.Builds (pure v) s (OperandRead s good) := by
  refine Builds.pure hs ⟨rfl, passed_of_vregId?_eq_none hv s, ?_⟩
  rw [and_iff_left (known_of_vregId?_eq_none hv s), and_iff_left hgood]

/-- Reading a register is in order exactly when the register is not narrow. -/
lemma builds_readReg (hpass : ctx.passing = .byValue) (hs : liftView.Ready s)
    (reg : ZydisRegister) :
    liftView.Builds (withBlockArg ctx (readReg ctx reg)) s (OperandRead s (¬ reg.IsNarrow)) := by
  cases hid : gprVRegId (canonicalReg reg) with
  | none =>
    have hwide : ¬ reg.IsNarrow := by simp [ZydisRegister.IsNarrow, hid]
    have hrun : (readReg ctx reg).run s = .ok (.makeImm 0 .i64) s := by simp [readReg, hid]
    exact ⟨_, _, run_withBlockArg_byValue hpass hrun, hs.isOpen, Grows.refl s, rfl,
      passed_of_vregId?_eq_none rfl s, by simp [hwide]⟩
  | some id =>
    by_cases hty : typeOfReg reg = .i64
    · have hwide : ¬ reg.IsNarrow := by simp [ZydisRegister.IsNarrow, hty]
      have hrun : (readReg ctx reg).run s =
          .ok (.makeVReg id .i64 (ctx.regName (canonicalReg reg))) s := by
        simp [readReg, hid, hty]
      have hlt : id < 20 := (gprVRegId_lt hid).trans (by omega)
      refine ⟨_, _, run_withBlockArg_byValue hpass hrun, hs.isOpen, Grows.refl s, rfl, ?_, ?_⟩
      · intro r hr
        obtain rfl : id = r := Option.some.inj hr
        exact hlt.trans_le hs.base_le
      · have hknown : liftView.Known s (.makeVReg id .i64 (ctx.regName (canonicalReg reg))) := by
          intro r hr
          obtain rfl : id = r := Option.some.inj hr
          exact Or.inl hlt
        simp [hwide, hknown]
    · -- the truncation is appended to the copy, and the temporary stays undefined
      have hnarrow : reg.IsNarrow := ⟨by rw [hid]; rfl, hty⟩
      have hrun : (readReg ctx reg).run s = .ok (.makeVReg s.nextVregId (typeOfReg reg))
          (s.emit 1 [.makeCast .trunc ⟨s.nextVregId, "sub_" ++ ctx.regName reg⟩ (typeOfReg reg)
            (.makeVReg id .i64 (ctx.regName (canonicalReg reg)))]) := by
        simp only [readReg, hid, if_neg hty]
        rw [run_define hs.isOpen, EStateM.run_pure]
      refine ⟨_, _, run_withBlockArg_byValue hpass hrun, hs.isOpen,
        Grows.of_code_eq rfl (Nat.le_succ _), rfl, ?_, ?_⟩
      · intro r hr
        obtain rfl : s.nextVregId = r := Option.some.inj hr
        exact Nat.lt_succ_self _
      · refine iff_of_false ?_ fun h => h.2 hnarrow
        exact fun h => hs.below.not_available hs.base_le (h.2 s.nextVregId rfl)

/-- Writing a register appends nothing. -/
lemma builds_writeReg (hpass : ctx.passing = .byValue) (hs : liftView.Ready s)
    (reg : ZydisRegister) (val : IRValue) :
    liftView.Builds (withBlockArg ctx (writeReg ctx reg val)) s fun _ t =>
      t.flagState = s.flagState ∧ (liftView.Closed t ↔ liftView.Closed s) := by
  have hwrite : Emits (writeReg ctx reg val) s Set.univ fun _ _ => True :=
    emits_writeReg reg val hs.isOpen (Set.subset_univ _) (Set.subset_univ _)
  obtain ⟨_, t, _, hrun, -, -, hnext, hflags, -⟩ := hwrite
  exact ⟨_, _, run_withBlockArg_byValue hpass hrun, hs.isOpen, Grows.of_code_eq rfl hnext, hflags,
    Iff.rfl⟩

/-! ## Addresses -/

section Addresses

variable (hpass : ctx.passing = .byValue)

include hpass

/-- The base of an address is in order exactly when its register is not narrow. -/
lemma builds_addrBase (hs : liftView.Ready s) (mem : ZydisMem) :
    liftView.Builds (addrBase ctx mem) s (OperandRead s (¬ mem.base.IsNarrow)) := by
  unfold addrBase
  split
  · exact builds_readReg hpass hs mem.base
  · rename_i hbase
    have hwide : ¬ mem.base.IsNarrow := by
      by_cases hnone : mem.base = .none
      · rw [hnone]
        decide
      · have hrip : mem.base = .rip := by
          by_contra hrip
          exact hbase ⟨hnone, hrip⟩
        rw [hrip]
        decide
    split
    · exact builds_pure hs rfl hwide
    · exact builds_pure hs rfl hwide

/-- So is the scaled index, by its own register. -/
lemma builds_scaledIndex (hs : liftView.Ready s) (mem : ZydisMem) :
    liftView.Builds (scaledIndex ctx mem) s (OperandRead s (¬ mem.index.IsNarrow)) := by
  unfold scaledIndex
  refine Builds.bind hs (builds_readReg hpass hs mem.index) fun idx s₁ hs₁ _ hidx => ?_
  split
  · refine builds_operandRead (builds_defineBinop hs₁ hidx.flags (fun _ => rfl) ?_)
    rw [and_iff_left (known_makeImm _ _ _)]
    exact hidx.outcome.iff
  · exact Builds.pure hs₁ hidx

/-- Adding the index is in order when the address is known and the index is not narrow. -/
lemma builds_addIndex (hs : liftView.Ready s) (mem : ZydisMem) {addr : IRValue}
    (haddr : liftView.Passed s addr) :
    liftView.Builds (addIndex ctx mem addr) s
      (OperandRead s (liftView.Known s addr ∧ ¬ mem.index.IsNarrow)) := by
  unfold addIndex
  split
  · refine Builds.bind hs (builds_scaledIndex hpass hs mem) fun idx s₁ hs₁ h₁ hidx => ?_
    exact builds_operandRead (builds_defineBinop hs₁ hidx.flags (fun _ => rfl)
      ((Outcome.refl haddr).both h₁ hidx.outcome))
  · rename_i hindex
    have hwide : ¬ mem.index.IsNarrow := by
      rw [not_not.mp hindex]
      decide
    exact Builds.pure hs ⟨rfl, haddr, by simp [hwide]⟩

omit hpass in
/-- Adding the displacement is in order when the address is known. -/
lemma builds_addDisp (hs : liftView.Ready s) (mem : ZydisMem) {addr : IRValue}
    (haddr : liftView.Passed s addr) :
    liftView.Builds (addDisp mem addr) s (OperandRead s (liftView.Known s addr)) := by
  unfold addDisp
  split
  · refine builds_operandRead (builds_defineBinop hs rfl (fun _ => rfl) ?_)
    rw [and_iff_left (known_makeImm _ _ _)]
  · exact Builds.pure hs ⟨rfl, Outcome.refl haddr⟩

/-- An address is in order exactly when its base and index are not narrow. -/
lemma builds_computeAddr (hs : liftView.Ready s) (op : ZydisDecodedOperand) :
    liftView.Builds (computeAddr ctx op) s (TempDefined s (¬ op.mem.HasNarrow)) := by
  unfold computeAddr
  refine Builds.bind hs (builds_addrBase hpass hs op.mem) fun base s₁ hs₁ _ hbase => ?_
  refine Builds.bind hs₁ (builds_addIndex hpass hs₁ op.mem hbase.outcome.passed)
    fun sum s₂ hs₂ _ hsum => ?_
  refine Builds.bind hs₂ (builds_addDisp hs₂ op.mem hsum.outcome.passed)
    fun addr s₃ hs₃ _ haddr => ?_
  have hgood : liftView.Outcome s s₃ addr
      ((¬ op.mem.base.IsNarrow ∧ ¬ op.mem.index.IsNarrow) ∧ True) :=
    (hbase.outcome.trans hsum.outcome).trans (by simpa using haddr.outcome)
  refine builds_defineCast hs₃ (haddr.flags.trans (hsum.flags.trans hbase.flags))
    (fun _ => rfl) ?_
  simpa [ZydisMem.HasNarrow] using hgood.iff

end Addresses

/-! ## Operands -/

section Operands

variable (hpass : ctx.passing = .byValue)

include hpass

/-- Reading an operand is in order exactly when no narrow register is read. -/
lemma builds_readOperand (hs : liftView.Ready s) (op : ZydisDecodedOperand) (ty : IRType) :
    liftView.Builds (readOperand ctx op ty) s (OperandRead s (¬ op.ReadsNarrow)) := by
  unfold readOperand ZydisDecodedOperand.ReadsNarrow ZydisDecodedOperand.WriteReadsNarrow
  cases op.type with
  | register => simpa using builds_readReg hpass hs op.reg
  | immediate => exact builds_pure hs rfl (by simp)
  | memory =>
    simp only [reduceCtorEq, false_and, true_and, false_or]
    refine Builds.bind hs (builds_computeAddr hpass hs op) fun ptr s₁ hs₁ _ hptr => ?_
    refine builds_operandRead (builds_defineTemp hs₁ hptr.flags (fun _ => rfl) (fun _ => rfl) ?_)
    rw [← hptr.closed]
    simp [IRInst.makeLoad, hptr.known]
  | unused => exact builds_pure hs rfl (by simp)
  | pointer => exact builds_pure hs rfl (by simp)

/-- Writing an operand uses the written value when it is stored. -/
lemma builds_writeOperand (hs : liftView.Ready s) (op : ZydisDecodedOperand) {val : IRValue}
    (hval : liftView.Passed s val) :
    liftView.Builds (writeOperand ctx op val) s fun _ t =>
      t.flagState = s.flagState ∧ (liftView.Closed t ↔
        liftView.Closed s ∧ (op.type = .memory → liftView.Known s val) ∧
          ¬ op.WriteReadsNarrow) := by
  unfold writeOperand ZydisDecodedOperand.WriteReadsNarrow
  cases op.type with
  | register => simpa using builds_writeReg hpass hs op.reg val
  | immediate => exact Builds.pure hs ⟨rfl, by simp⟩
  | memory =>
    simp only [true_and, forall_const]
    refine Builds.bind hs (builds_computeAddr hpass hs op) fun ptr s₁ hs₁ h₁ hptr => ?_
    refine ⟨_, _, run_pushInst hs₁.isOpen _, LiftState.Open.emit hs₁.isOpen 0 (by simp; rfl),
      ⟨_, rfl, Fresh.of_destination_eq_none rfl⟩, hptr.flags, ?_⟩
    have hops : (∀ x ∈ operands (IRInst.makeStore val ptr .unaligned), liftView.Known s₁ x) ↔
        liftView.Known s val := by
      simp [operands, IRInst.makeStore, hptr.known, h₁.known_iff hval]
    rw [closed_iff_of_code_eq (V := liftView) (s := s₁) rfl, hptr.closed, hops, and_right_comm,
      and_assoc]
  | unused => exact Builds.pure hs ⟨rfl, by simp⟩
  | pointer => exact Builds.pure hs ⟨rfl, by simp⟩

end Operands

end FunctionLifter

end InstaX
