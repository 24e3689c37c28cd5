import InstaX.IR.Names
import InstaX.Lifter.OperandTypes

/-!
# Names of operands

The lifter defines every temporary under a name and returns it as an operand without one.  So what
is read is clean only where nothing was defined for it: an immediate, a full register, or a narrow
one whose truncation is lost (`yields_readOperand`).  What is computed never is, and no code may use
it.
-/

namespace InstaX

open Throwing RegisterCode TypeSystem

/-- Nothing is kept of a write of the register. -/
def LiftContext.Discards (ctx : LiftContext) (reg : ZydisRegister) : Prop :=
  ctx.passing = .byReference → gprVRegId (canonicalReg reg) = none

/-- The register is read without a temporary that is defined. -/
def LiftContext.ReadsClean (ctx : LiftContext) (reg : ZydisRegister) : Prop :=
  ctx.passing = .byReference → typeOfReg reg = .i64

namespace ZydisDecodedOperand

/-- The operand is read without a temporary that is defined. -/
def ReadsClean (ctx : LiftContext) (op : ZydisDecodedOperand) : Prop :=
  op.type ≠ .memory ∧ (op.type = .register → ctx.ReadsClean op.reg)

/-- Nothing is kept of a write of the operand. -/
def IsDiscarded (ctx : LiftContext) (op : ZydisDecodedOperand) : Prop :=
  op.type ≠ .memory ∧ (op.type = .register → ctx.Discards op.reg)

end ZydisDecodedOperand

instance (ctx : LiftContext) (reg : ZydisRegister) : Decidable (ctx.Discards reg) :=
  inferInstanceAs (Decidable (_ → _))

instance (ctx : LiftContext) (reg : ZydisRegister) : Decidable (ctx.ReadsClean reg) :=
  inferInstanceAs (Decidable (_ → _))

instance (ctx : LiftContext) (op : ZydisDecodedOperand) : Decidable (op.ReadsClean ctx) :=
  inferInstanceAs (Decidable (_ ∧ (_ → _)))

instance (ctx : LiftContext) (op : ZydisDecodedOperand) : Decidable (op.IsDiscarded ctx) :=
  inferInstanceAs (Decidable (_ ∧ (_ → _)))

namespace FunctionLifter

/-- The code of a function, as in `typedView`, while all of it is plain. -/
def namedView (pre : List IRInst) : View LiftState IRInst where
  base := 20
  code s := pre ++ s.block.instructions
  next := LiftState.nextVregId
  IsOpen s := s.Open ∧ ∀ i ∈ pre ++ s.block.instructions, i.PrintsPlainly

variable {ctx : LiftContext} {pre : List IRInst} {s t : LiftState} {v w : IRValue} {α β : Type}
  {clean clean' good : Prop} {ty : IRType}

/-- No register behind the base of the view is fixed. -/
lemma namedView_fixed (r : ℕ) (h : (namedView pre).base ≤ r) : nameTypes.fixed r = none :=
  nameTypes_fixed_of_ge h

/-! ## Appending instructions -/

/-- An emitted instruction is appended to the code of the view. -/
lemma namedView_code_emit (n : ℕ) (i : IRInst) :
    (namedView pre).code (s.emit n [i]) = (namedView pre).code s ++ [i] := by
  simp [namedView]

/-- Code that prints plainly does so with one more such instruction. -/
lemma plain_emit {n : ℕ} {i : IRInst} (hplain : ∀ j ∈ (namedView pre).code s, j.PrintsPlainly)
    (hi : i.PrintsPlainly) : ∀ j ∈ (namedView pre).code (s.emit n [i]), j.PrintsPlainly := by
  rw [namedView_code_emit]
  simpa [or_imp, forall_and] using ⟨hplain, hi⟩

/-- The view stays open with an instruction that is no terminator. -/
lemma isOpen_emit {n : ℕ} {i : IRInst} (hopen : (namedView pre).IsOpen s)
    (hterm : i.isTerminator = false) (hi : i.PrintsPlainly) :
    (namedView pre).IsOpen (s.emit n [i]) :=
  ⟨hopen.1.emit n (by simpa using hterm), plain_emit hopen.2 hi⟩

section Appending

variable (hopen : (namedView pre).IsOpen s) (hs : nameTypes.Settled (namedView pre) s)

include hopen hs

/-- Appending an instruction that defines nothing, or a fixed register. -/
lemma named_pushInst {i : IRInst} (hterm : i.isTerminator = false) (hprints : i.PrintsRegisters)
    (hdst : ∀ d, i.dst = some d → d.id < 20)
    (hops : ∀ v ∈ i.operands, Unnamed (namedView pre) v s) :
    nameTypes.TypedWhen (namedView pre) (pushInst i) s
      (∀ v ∈ i.operands, nameTypes.Agrees ((namedView pre).code s) v)
      fun _ t => t.flagState = s.flagState := by
  have hplain : i.PrintsPlainly := ⟨hprints, fun v hv => (hops v hv).tempName⟩
  have hdefines : Defines nameTypes (namedView pre) i s (s.emit 0 [i]) := by
    cases hd : i.dst with
    | none => exact Or.inl ⟨by simp [destination, hd], rfl⟩
    | some d =>
      refine Or.inr (Or.inl ⟨⟨d.id, destination_eq_of_dst hd, hdst d hd, ?_⟩, rfl⟩)
      rw [nameTypes_fixed_of_lt (hdst d hd), resultType_eq_of_dst hd,
        VReg.tempName_of_lt (hdst d hd)]
  refine (typedWhen_of_run hs (namedView_code_emit 0 i) (fun v hv => (hops v hv).passed)
    namedView_fixed hdefines (run_pushInst hopen.1 i) (isOpen_emit hopen hterm hplain) rfl).congr ?_
  exact and_iff_right fun v hv => (hops v hv).tempName

/-- Using a temporary that was defined under a name. -/
lemma named_pushInst_of_mem {i : IRInst} (hterm : i.isTerminator = false)
    (hprints : i.PrintsRegisters) (hdst : ∀ d, i.dst = some d → d.id < 20)
    (hops : ∀ v ∈ i.operands, Unnamed (namedView pre) v s) (hv : v ∈ i.operands)
    (hdefined : UsableWhen (namedView pre) False v s) :
    nameTypes.TypedWhen (namedView pre) (pushInst i) s False
      fun _ t => t.flagState = s.flagState :=
  (named_pushInst hopen hs hterm hprints hdst hops).congr
    (iff_of_false (fun h => hdefined.agrees.mp (h v hv)) not_false)

/-- Defining a temporary, whose value is not clean. -/
lemma named_defineTemp {inst : ℕ → IRInst} {ops : List IRValue}
    (hinst : IRInst.DefinesNamed inst ops) (hops : ∀ v ∈ ops, Unnamed (namedView pre) v s) :
    nameTypes.TypedWhen (namedView pre) (defineTemp ty inst) s
      (∀ v ∈ ops, nameTypes.Agrees ((namedView pre).code s) v) fun v t =>
        UsableWhen (namedView pre) False v t ∧
          (v = .makeVReg s.nextVregId ty ∧ t.flagState = s.flagState) := by
  have hplain : (inst s.nextVregId).PrintsPlainly := by
    refine ⟨hinst.prints _, fun v hv => ?_⟩
    rw [hinst.operands] at hv
    exact (hops v hv).tempName
  have hrun : (defineTemp ty inst).run s =
      .ok (.makeVReg s.nextVregId ty) (s.emit 1 [inst s.nextVregId]) := by
    rw [defineTemp, run_define hopen.1, EStateM.run_pure]
  exact typedWhen_defines hinst hs rfl (namedView_code_emit 1 _) rfl hops hrun
    (isOpen_emit hopen (hinst.isTerminator _) hplain) ⟨rfl, rfl⟩

/-- A definition from one operand. -/
lemma named_defineUnary {inst : ℕ → IRInst} (hinst : IRInst.DefinesNamed inst [v])
    (hv : UsableWhen (namedView pre) clean v s) :
    nameTypes.TypedWhen (namedView pre) (defineTemp ty inst) s clean fun v t =>
      UsableWhen (namedView pre) False v t ∧ t.flagState = s.flagState :=
  (named_defineTemp hopen hs hinst (List.forall_mem_singleton.mpr hv.toUnnamed)).mono
    (forall_singleton_agrees_iff hv) fun _ _ _ h => ⟨h.1, h.2.2⟩

/-- A definition from two operands. -/
lemma named_defineBinary {inst : ℕ → IRInst} (hinst : IRInst.DefinesNamed inst [v, w])
    (hv : UsableWhen (namedView pre) clean v s) (hw : UsableWhen (namedView pre) clean' w s) :
    nameTypes.TypedWhen (namedView pre) (defineTemp ty inst) s (clean ∧ clean') fun v t =>
      UsableWhen (namedView pre) False v t ∧ t.flagState = s.flagState :=
  (named_defineTemp hopen hs hinst
    (List.forall_mem_cons.mpr ⟨hv.toUnnamed, List.forall_mem_singleton.mpr hw.toUnnamed⟩)).mono
    (forall_pair_agrees_iff hv hw) fun _ _ _ h => ⟨h.1, h.2.2⟩

end Appending

/-! ## Registers -/

/-- What a function appends to its own copy of the block is lost. -/
lemma named_withBlockArg_byValue {body : LiftM α} {P Q : α → LiftState → Prop}
    (hpass : ctx.passing = .byValue) (hopen : (namedView pre).IsOpen s)
    (hs : nameTypes.Settled (namedView pre) s) (h : Runs nameTypes (namedView pre) body s P)
    (hPQ : ∀ a t, s.nextVregId ≤ t.nextVregId → P a t → Q a { t with block := s.block }) :
    nameTypes.TypedWhen (namedView pre) (withBlockArg ctx body) s True Q := by
  obtain ⟨_, a, t, -, hrun, -, -, -, hnext, -, -, hP⟩ := h
  exact ⟨a, { t with block := s.block }, [], run_withBlockArg_byValue hpass hrun,
    by simp [namedView], hopen, ⟨hs.base_le.trans hnext, fun i hi => (hs.behind i hi).of_le hnext,
    hs.fixed⟩, hnext, later_nil, by simp, hPQ a t hnext hP⟩

section Registers

variable (hopen : (namedView pre).IsOpen s) (hs : nameTypes.Settled (namedView pre) s)

include hopen hs

/-- Reading a register, with the code that is kept or lost. -/
lemma named_readReg (reg : ZydisRegister) :
    nameTypes.TypedWhen (namedView pre) (readReg ctx reg) s True fun v t =>
      UsableWhen (namedView pre) (typeOfReg reg = .i64) v t ∧
        nameTypes.Agrees ((namedView pre).code s) v ∧ t.flagState = s.flagState := by
  unfold readReg
  dsimp only
  split
  · rename_i hid
    have hwide := typeOfReg_of_gprVRegId_eq_none hid
    have hv : UsableWhen (namedView pre) True (.makeImm 0 .i64) s :=
      usableWhen_of_vreg?_eq_none rfl s
    exact TypedWhen.pure hopen hs
      ⟨hv.congr (iff_of_true trivial hwide), hv.agrees.mpr trivial, rfl⟩
  · rename_i id hid
    have hlt : id < 20 := (gprVRegId_lt hid).trans (by decide)
    have hfull : UsableWhen (namedView pre) True
        (.makeVReg id .i64 (ctx.regName (canonicalReg reg))) s := usableWhen_of_lt hs rfl hlt
    split
    · rename_i hwide
      exact TypedWhen.pure hopen hs
        ⟨hfull.congr (iff_of_true trivial hwide), hfull.agrees.mpr trivial, rfl⟩
    · rename_i hnarrow
      have hname : "sub_" ++ ctx.regName reg ≠ "" := by simp
      refine TypedWhen.mono (named_defineTemp hopen hs (IRInst.definesNamed_makeCast hname rfl) ?_)
        (forall_singleton_agrees_iff hfull) ?_
      · exact List.forall_mem_singleton.mpr hfull.toUnnamed
      · rintro v t - ⟨hv, rfl, hflags⟩
        exact ⟨hv.congr (iff_of_false not_false hnarrow), agrees_next hs rfl _, hflags⟩

/-- A register is read clean if it is not narrow, or if its truncation is lost. -/
lemma yields_readReg (reg : ZydisRegister) :
    Yields (namedView pre) (withBlockArg ctx (readReg ctx reg)) s (ctx.ReadsClean reg)
      fun t => t.flagState = s.flagState := by
  refine ⟨True, ?_, fun _ => trivial⟩
  have hkept := @named_readReg ctx pre s hopen hs reg
  unfold LiftContext.ReadsClean
  cases hpass : ctx.passing with
  | byReference =>
    rw [withBlockArg_byReference hpass]
    exact hkept.mono Iff.rfl fun v t _ h => ⟨h.1.congr (by simp), h.2.2⟩
  | byValue =>
    refine named_withBlockArg_byValue hpass hopen hs hkept.runs fun v t _ h =>
      ⟨⟨⟨?_, ?_⟩, ?_⟩, h.2.2⟩
    · exact h.1.tempName
    · exact h.1.passed
    · exact iff_of_true h.2.1 (by simp)

/-- The extended value of a 32-bit write is a temporary, and moving it uses it. -/
lemma named_extendGpr {d : VReg} (hd : d.id < 20) {val : IRValue}
    (hval : UsableWhen (namedView pre) clean val s) :
    nameTypes.TypedWhen (namedView pre) (do
      let zId ← newTemp
      pushInst (.makeCast .zext ⟨zId, "zext32"⟩ .i64 val)
      pushInst (.makeMov d .i64 (.makeVReg zId .i64))) s False
      fun _ t => t.flagState = s.flagState := by
  have hsplit : (do
      let zId ← newTemp
      pushInst (.makeCast .zext ⟨zId, "zext32"⟩ .i64 val)
      pushInst (.makeMov d .i64 (.makeVReg zId .i64))) =
      (defineTemp .i64 fun zId => .makeCast .zext ⟨zId, "zext32"⟩ .i64 val) >>= fun z =>
        pushInst (.makeMov d .i64 z) := by
    simp only [defineTemp, bind_assoc, pure_bind]
  rw [hsplit]
  refine TypedWhen.congr ((named_defineUnary hopen hs (IRInst.definesNamed_makeCast (by decide) rfl)
    hval).bind fun z t hopen' ht _ hz => (named_pushInst_of_mem hopen' ht rfl
      IRInst.printsRegisters_makeMov ?_ ?_ (List.mem_singleton_self z) hz.1).mono Iff.rfl
      fun _ _ _ h => h.trans hz.2) (and_iff_right_of_imp False.elim)
  · rintro _ ⟨⟩
    exact hd
  · exact List.forall_mem_singleton.mpr hz.1.toUnnamed

/-- A partial write merges two temporaries, and merging uses them. -/
lemma named_mergeGpr {d : VReg} (hd : d.id < 20) {val cur mask : IRValue}
    (hval : UsableWhen (namedView pre) clean val s)
    (hcur : UsableWhen (namedView pre) True cur s)
      (hmask : UsableWhen (namedView pre) True mask s) :
    nameTypes.TypedWhen (namedView pre) (do
      let maskedId ← newTemp
      pushInst (.makeBinop .and ⟨maskedId, "masked"⟩ .i64 cur mask)
      let zId ← newTemp
      pushInst (.makeCast .zext ⟨zId, "zext_partial"⟩ .i64 val)
      pushInst (.makeBinop .or d .i64 (.makeVReg maskedId .i64) (.makeVReg zId .i64))) s False
      fun _ t => t.flagState = s.flagState := by
  have hsplit : (do
      let maskedId ← newTemp
      pushInst (.makeBinop .and ⟨maskedId, "masked"⟩ .i64 cur mask)
      let zId ← newTemp
      pushInst (.makeCast .zext ⟨zId, "zext_partial"⟩ .i64 val)
      pushInst (.makeBinop .or d .i64 (.makeVReg maskedId .i64) (.makeVReg zId .i64))) =
      (defineTemp .i64 fun maskedId => .makeBinop .and ⟨maskedId, "masked"⟩ .i64 cur mask) >>=
        fun m => (defineTemp .i64 fun zId => .makeCast .zext ⟨zId, "zext_partial"⟩ .i64 val) >>=
          fun z => pushInst (.makeBinop .or d .i64 m z) := by
    simp only [defineTemp, bind_assoc, pure_bind]
  rw [hsplit]
  refine TypedWhen.congr ((named_defineBinary hopen hs
    (IRInst.definesNamed_makeBinop (by decide) rfl) hcur hmask).bind fun m s₁ hopen₁ hs₁ h₁ hm =>
      (named_defineUnary hopen₁ hs₁ (IRInst.definesNamed_makeCast (by decide) rfl)
        (hval.grows h₁)).bind fun z s₂ hopen₂ hs₂ h₂ hz => (named_pushInst_of_mem hopen₂ hs₂ rfl
          (IRInst.printsRegisters_makeBinop rfl) ?_ ?_ (List.mem_pair.mpr (Or.inl rfl))
          (hm.1.grows h₂)).mono Iff.rfl fun _ _ _ h => h.trans (hz.2.trans hm.2)) ?_
  · rintro _ ⟨⟩
    exact hd
  · exact List.forall_mem_cons.mpr
      ⟨hm.1.toUnnamed.grows h₂, List.forall_mem_singleton.mpr hz.1.toUnnamed⟩
  · tauto

/-- What is kept of a write uses the value, or a temporary that was defined for it. -/
lemma named_writeReg (reg : ZydisRegister) {val : IRValue}
    (hval : UsableWhen (namedView pre) clean val s) :
    nameTypes.TypedWhen (namedView pre) (withBlockArg ctx (writeReg ctx reg val)) s
      (ctx.Discards reg ∨ typeOfReg reg = .i64 ∧ clean) fun _ t => t.flagState = s.flagState := by
  have hkept : nameTypes.TypedWhen (namedView pre) (writeReg ctx reg val) s
      (gprVRegId (canonicalReg reg) = none ∨ typeOfReg reg = .i64 ∧ clean)
      fun _ t => t.flagState = s.flagState := by
    unfold writeReg
    dsimp only
    split
    · rename_i hid
      exact TypedWhen.congr (TypedWhen.pure hopen hs rfl) (by simp [hid])
    · rename_i id hid
      have hlt : id < 20 := (gprVRegId_lt hid).trans (by decide)
      split
      · rename_i hwide
        refine TypedWhen.congr (named_pushInst hopen hs rfl IRInst.printsRegisters_makeMov ?_
          (List.forall_mem_singleton.mpr hval.toUnnamed))
          ((forall_singleton_agrees_iff hval).trans (by simp [hid, hwide]))
        rintro _ ⟨⟩
        exact hlt
      rename_i hnarrow
      have hfalse : False ↔ gprVRegId (canonicalReg reg) = none ∨ typeOfReg reg = .i64 ∧ clean := by
        simp [hid, hnarrow]
      split
      · exact (named_extendGpr hopen hs hlt hval).congr hfalse
      · exact (named_mergeGpr hopen hs hlt hval (usableWhen_of_lt hs rfl hlt)
          (usableWhen_of_vreg?_eq_none rfl s)).congr hfalse
  unfold LiftContext.Discards
  cases hpass : ctx.passing with
  | byReference =>
    rw [withBlockArg_byReference hpass]
    exact hkept.congr (by simp)
  | byValue =>
    exact (named_withBlockArg_byValue hpass hopen hs hkept.runs fun _ _ _ h => h).congr (by simp)

/-- A temporary that was defined under a name is written apart only where nothing is kept of it. -/
lemma named_writeReg_of_defined (reg : ZydisRegister) {val : IRValue}
    (hval : UsableWhen (namedView pre) False val s) :
    nameTypes.TypedWhen (namedView pre) (withBlockArg ctx (writeReg ctx reg val)) s
      (ctx.Discards reg) fun _ t => t.flagState = s.flagState :=
  (named_writeReg hopen hs reg hval).congr (by simp)

end Registers

/-! ## Addresses -/

/-- An operand without a name was read, and the recorded flags are kept. -/
structure ReadUnnamed (pre : List IRInst) (s : LiftState) (v : IRValue) (t : LiftState) : Prop where
  operand : Unnamed (namedView pre) v t
  flags : t.flagState = s.flagState

lemma ReadUnnamed.trans {u : LiftState} (h : ReadUnnamed pre s v t) (h' : ReadUnnamed pre t w u) :
    ReadUnnamed pre s w u := ⟨h'.operand, h'.flags.trans h.flags⟩

section Addresses

variable (hopen : (namedView pre).IsOpen s) (hs : nameTypes.Settled (namedView pre) s)

include hopen hs

/-- A constant has no name. -/
lemma runs_imm (c : BitVec 64) (ty : IRType) :
    Runs nameTypes (namedView pre) (pure (.makeImm c ty)) s (ReadUnnamed pre s) :=
  (TypedWhen.pure hopen hs ⟨(usableWhen_of_vreg?_eq_none rfl s).toUnnamed, rfl⟩).runs

/-- What is read from a register has no name. -/
lemma runs_readReg (reg : ZydisRegister) :
    Runs nameTypes (namedView pre) (withBlockArg ctx (readReg ctx reg)) s (ReadUnnamed pre s) :=
  (yields_readReg hopen hs reg).runs.mono fun _ _ _ h => ⟨h.1.toUnnamed, h.2⟩

/-- Nor has what is computed. -/
lemma runs_binop {op : Opcode} {name : String} (hname : name ≠ "") (hop : op.isBinary = true)
    (hv : Unnamed (namedView pre) v s) (hw : Unnamed (namedView pre) w s) :
    Runs nameTypes (namedView pre) (defineTemp ty fun id => .makeBinop op ⟨id, name⟩ ty v w) s
      (ReadUnnamed pre s) :=
  (named_defineTemp hopen hs (IRInst.definesNamed_makeBinop hname hop)
    (List.forall_mem_cons.mpr ⟨hv, List.forall_mem_singleton.mpr hw⟩)).runs.mono
    fun _ _ _ h => ⟨h.1.toUnnamed, h.2.2⟩

/-- A conversion to a pointer. -/
lemma named_inttoptr {name : String} (hname : name ≠ "") (hv : Unnamed (namedView pre) v s) :
    Runs nameTypes (namedView pre)
      (defineTemp .ptr fun id => .makeCast .inttoptr ⟨id, name⟩ .ptr v) s
      fun v t => UsableWhen (namedView pre) False v t ∧ t.flagState = s.flagState :=
  (named_defineTemp hopen hs (IRInst.definesNamed_makeCast hname rfl)
    (List.forall_mem_singleton.mpr hv)).runs.mono fun _ _ _ h => ⟨h.1, h.2.2⟩

/-- The base of an address has no name. -/
lemma runs_addrBase (mem : ZydisMem) :
    Runs nameTypes (namedView pre) (addrBase ctx mem) s (ReadUnnamed pre s) := by
  unfold addrBase
  split
  · exact runs_readReg hopen hs mem.base
  · split
    · exact runs_imm hopen hs _ _
    · exact runs_imm hopen hs _ _

/-- Nor has the scaled index. -/
lemma runs_scaledIndex (mem : ZydisMem) :
    Runs nameTypes (namedView pre) (scaledIndex ctx mem) s (ReadUnnamed pre s) := by
  unfold scaledIndex
  refine (runs_readReg hopen hs mem.index).bind fun idx t hopen' ht _ hidx => ?_
  split
  · exact (runs_binop hopen' ht (by decide) rfl hidx.operand
      (usableWhen_of_vreg?_eq_none rfl t).toUnnamed).mono fun _ _ _ h => hidx.trans h
  · exact (TypedWhen.pure hopen' ht hidx).runs

/-- Nor has their sum. -/
lemma runs_addIndex (mem : ZydisMem) (hv : Unnamed (namedView pre) v s) :
    Runs nameTypes (namedView pre) (addIndex ctx mem v) s (ReadUnnamed pre s) := by
  unfold addIndex
  split
  · exact (runs_scaledIndex hopen hs mem).bind fun idx t hopen' ht hgrows hidx =>
      (runs_binop hopen' ht (by decide) rfl (hv.grows hgrows) hidx.operand).mono
        fun _ _ _ h => hidx.trans h
  · exact (TypedWhen.pure hopen hs ⟨hv, rfl⟩).runs

/-- Nor has the address with its displacement. -/
lemma runs_addDisp (mem : ZydisMem) (hv : Unnamed (namedView pre) v s) :
    Runs nameTypes (namedView pre) (addDisp mem v) s (ReadUnnamed pre s) := by
  unfold addDisp
  split
  · exact runs_binop hopen hs (by decide) rfl hv (usableWhen_of_vreg?_eq_none rfl s).toUnnamed
  · exact (TypedWhen.pure hopen hs ⟨hv, rfl⟩).runs

/-- An address is a temporary that is defined, whatever it is the sum of. -/
lemma runs_computeAddr (op : ZydisDecodedOperand) :
    Runs nameTypes (namedView pre) (computeAddr ctx op) s
      fun v t => UsableWhen (namedView pre) False v t ∧ t.flagState = s.flagState := by
  unfold computeAddr
  exact (runs_addrBase hopen hs op.mem).bind fun base s₁ hopen₁ hs₁ _ hbase =>
    (runs_addIndex hopen₁ hs₁ op.mem hbase.operand).bind fun sum s₂ hopen₂ hs₂ _ hsum =>
      (runs_addDisp hopen₂ hs₂ op.mem hsum.operand).bind fun addr s₃ hopen₃ hs₃ _ haddr =>
        (named_inttoptr hopen₃ hs₃ (by decide) haddr.operand).mono fun _ _ _ h =>
          ⟨h.1, h.2.trans (hbase.trans (hsum.trans haddr)).flags⟩

end Addresses

/-! ## Operands -/

section Operands

variable (hopen : (namedView pre).IsOpen s) (hs : nameTypes.Settled (namedView pre) s)
  (op : ZydisDecodedOperand)

include hopen hs

/-- A constant is clean. -/
lemma yields_imm (c : BitVec 64) (ty : IRType) :
    Yields (namedView pre) (pure (.makeImm c ty)) s True fun t => t.flagState = s.flagState :=
  ⟨True, TypedWhen.pure hopen hs ⟨usableWhen_of_vreg?_eq_none rfl s, rfl⟩, fun _ => trivial⟩

/-- What is read for an operand is clean where nothing is defined for it. -/
theorem yields_readOperand (hint : IRType) :
    Yields (namedView pre) (readOperand ctx op hint) s (op.ReadsClean ctx)
      fun t => t.flagState = s.flagState := by
  unfold readOperand ZydisDecodedOperand.ReadsClean
  cases op.type with
  | register => exact (yields_readReg hopen hs op.reg).congr (by simp)
  | immediate => exact (yields_imm hopen hs _ _).congr (by simp)
  | memory =>
    refine (yields_of_runs ((runs_computeAddr hopen hs op).bind fun ptr t hopen' ht _ hptr =>
      ((named_defineTemp hopen' ht (IRInst.definesNamed_makeLoad (by decide))
        (List.forall_mem_singleton.mpr hptr.1.toUnnamed)).runs.mono
        fun _ _ _ h => ⟨h.1, h.2.2.trans hptr.2⟩))).congr (by simp)
  | unused => exact (yields_imm hopen hs _ _).congr (by simp)
  | pointer => exact (yields_imm hopen hs _ _).congr (by simp)

/-- A store uses the address that was defined for it. -/
lemma named_writeOperand {val : IRValue} (hval : UsableWhen (namedView pre) clean val s) :
    nameTypes.TypedWhen (namedView pre) (writeOperand ctx op val) s
      (op.type ≠ .memory ∧
        (op.type = .register → ctx.Discards op.reg ∨ typeOfReg op.reg = .i64 ∧ clean))
      fun _ t => t.flagState = s.flagState := by
  unfold writeOperand
  cases op.type with
  | register => exact (named_writeReg hopen hs op.reg hval).congr (by simp)
  | memory =>
    refine TypedWhen.congr ((runs_computeAddr hopen hs op).bind_of_false
      fun ptr t hopen' ht hgrows hptr => (named_pushInst_of_mem hopen' ht rfl
        IRInst.printsRegisters_makeStore (fun _ h => by cases h) ?_
        (List.mem_pair.mpr (Or.inr rfl)) hptr.1).mono Iff.rfl
        fun _ _ _ h => h.trans hptr.2) (by simp)
    exact List.forall_mem_cons.mpr
      ⟨hval.toUnnamed.grows hgrows, List.forall_mem_singleton.mpr hptr.1.toUnnamed⟩
  | immediate => exact TypedWhen.congr (TypedWhen.pure hopen hs rfl) (by simp)
  | unused => exact TypedWhen.congr (TypedWhen.pure hopen hs rfl) (by simp)
  | pointer => exact TypedWhen.congr (TypedWhen.pure hopen hs rfl) (by simp)

/-- A temporary that was defined under a name is written apart only where nothing is kept of it. -/
lemma named_writeOperand_of_defined {val : IRValue}
    (hval : UsableWhen (namedView pre) False val s) :
    nameTypes.TypedWhen (namedView pre) (writeOperand ctx op val) s (op.IsDiscarded ctx)
      fun _ t => t.flagState = s.flagState :=
  (named_writeOperand hopen hs op hval).congr (by simp [ZydisDecodedOperand.IsDiscarded])

end Operands

end FunctionLifter

end InstaX
