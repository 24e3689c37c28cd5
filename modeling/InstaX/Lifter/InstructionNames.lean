import InstaX.Flags.NamedFlags
import InstaX.Lifter.OperandNames

/-!
# Names of lifted instructions

For each instruction, when its occurrences of temporaries have one name each
(`DecodedInstr.LiftsApart`).  That is so if no value is used that was computed for it: it must have
clean operands, and nothing may be kept of its writes.
-/

namespace InstaX

open Throwing RegisterCode TypeSystem FunctionLifter

/-- The call is lifted with the address or the symbol of its target. -/
def ZydisDecodedOperand.IsDirect (op : ZydisDecodedOperand) : Prop :=
  op.type = .immediate ∧ op.imm.isRelative = true

instance (op : ZydisDecodedOperand) : Decidable op.IsDirect :=
  inferInstanceAs (Decidable (_ ∧ _))

/-- What the cases of `liftInstr` use are clean operands only; `fs` are the recorded flags. -/
def DecodedInstr.LiftsApart (ctx : LiftContext) (di : DecodedInstr) (fs : FlagState) : Prop :=
  let z := di.zydis
  match z.mnemonic with
  | .mov => (z.op 1).ReadsClean ctx ∧ (z.op 0).type ≠ .memory ∧ ctx.Discards (z.op 0).reg
  | .movzx | .movsx | .movsxd => (z.op 1).ReadsClean ctx ∧ ctx.Discards (z.op 0).reg
  | .lea | .shl | .shr | .sar => False
  | .add | .sub | .and | .or | .xor =>
    ((z.op 0).ReadsClean ctx ∧ (z.op 1).ReadsClean ctx) ∧ (z.op 0).IsDiscarded ctx
  | .cmp | .test => (z.op 0).ReadsClean ctx ∧ (z.op 1).ReadsClean ctx
  | .not | .neg | .inc | .dec => (z.op 0).ReadsClean ctx ∧ (z.op 0).IsDiscarded ctx
  | .imul =>
    if z.operandCountVisible = 1 then (z.op 0).ReadsClean ctx ∧ ctx.Discards .rax
    else if z.operandCountVisible = 2 then
      ((z.op 0).ReadsClean ctx ∧ (z.op 1).ReadsClean ctx) ∧ ctx.Discards (z.op 0).reg
    else ((z.op 1).ReadsClean ctx ∧ (z.op 2).ReadsClean ctx) ∧ ctx.Discards (z.op 0).reg
  | .idiv | .div => (z.op 0).ReadsClean ctx ∧ ctx.Discards .rax
  | .call => (z.op 0).IsDirect ∧ ctx.Discards .rax
  | _ => ∀ request ∈ flagRequestForJcc z.mnemonic, fs.IsConstant request

instance (ctx : LiftContext) (di : DecodedInstr) (fs : FlagState) :
    Decidable (di.LiftsApart ctx fs) := by
  unfold DecodedInstr.LiftsApart
  dsimp only
  generalize di.zydis.mnemonic = mnemonic
  induction mnemonic using ZydisMnemonic.casesOn <;> infer_instance

namespace FunctionLifter

variable {ctx : LiftContext} {pre : List IRInst} {s t : LiftState} {v w : IRValue} {α β : Type}
  {clean clean' good : Prop} {ty : IRType}

/-! ## The recorded flags -/

/-- The operands of the flag record have no names. -/
def NamedRecord (pre : List IRInst) (s : LiftState) : Prop :=
  FlagState.RecordUnnamed (namedView pre) s s.flagState

/-- A record without names stays one while code is appended. -/
lemma NamedRecord.grows (h : NamedRecord pre s) (hgrows : nameTypes.Grows (namedView pre) s t)
    (hflags : t.flagState = s.flagState) : NamedRecord pre t := by
  unfold NamedRecord
  rw [hflags]
  exact FlagState.RecordUnnamed.grows h hgrows

section Flags

variable (hopen : (namedView pre).IsOpen s) (hs : nameTypes.Settled (namedView pre) s)

include hopen hs

/-- A program that only changes the flag record. -/
lemma named_flags {act : LiftM Unit} {fs : FlagState}
    (hrun : act.run s = .ok () { s with flagState := fs })
    (hrecord : FlagState.RecordUnnamed (namedView pre) s fs) :
    nameTypes.TypedWhen (namedView pre) act s True fun _ t => NamedRecord pre t :=
  ⟨(), { s with flagState := fs }, [], hrun, by simp [namedView], hopen,
    ⟨hs.base_le, hs.behind, hs.fixed⟩, le_rfl, later_nil, by simp,
    fun v hv => ⟨(hrecord v hv).tempName, (hrecord v hv).passed⟩⟩

/-- Recording operands without names keeps the record free of names. -/
lemma named_setFlags {op : FlagOp} {result lhs rhs : IRValue}
    (hresult : Unnamed (namedView pre) result s) (hlhs : Unnamed (namedView pre) lhs s) :
    nameTypes.TypedWhen (namedView pre) (setFlags op result lhs rhs ty) s True
      fun _ t => NamedRecord pre t := by
  refine named_flags hopen hs rfl fun v hv => ?_
  rcases List.mem_pair.mp hv with rfl | rfl
  · exact hresult
  · exact hlhs

/-- Invalidating does so, too. -/
lemma named_invalidateFlags (hrecord : NamedRecord pre s) :
    nameTypes.TypedWhen (namedView pre) invalidateFlags s True fun _ t => NamedRecord pre t :=
  named_flags hopen hs rfl hrecord

/-- A binary operation with its flag record. -/
lemma named_liftBinop {op : Opcode} {name : String} (hname : name ≠ "") (hop : op.isBinary = true)
    (fop : FlagOp) (ty : IRType) (x y : ZydisDecodedOperand) :
    nameTypes.TypedWhen (namedView pre) (liftBinop ctx op name fop ty x y) s
      (x.ReadsClean ctx ∧ y.ReadsClean ctx) fun v t =>
        UsableWhen (namedView pre) False v t ∧ NamedRecord pre t := by
  unfold liftBinop binopCode
  simp only [bind_assoc, pure_bind]
  refine ((yields_readOperand hopen hs x ty).bind_both
    (fun t hopen' ht _ => (yields_readOperand hopen' ht y ty).mono fun _ _ => trivial)
    fun lhs rhs s₁ hopen₁ hs₁ h₁ hlhs hrhs _ => ?_).congr (and_iff_left trivial)
  refine (named_defineBinary hopen₁ hs₁ (IRInst.definesNamed_makeBinop hname hop) hlhs hrhs).bind
    fun result s₂ hopen₂ hs₂ h₂ hresult => ?_
  refine (named_setFlags hopen₂ hs₂ hresult.1.toUnnamed (hlhs.toUnnamed.grows h₂)).bind_of_true
    fun _ s₃ hopen₃ hs₃ h₃ hrecord => ?_
  exact TypedWhen.pure hopen₃ hs₃ ⟨hresult.1.grows h₃, hrecord⟩

end Flags

/-! ## Instructions that record their flags -/

section Recording

variable (hopen : (namedView pre).IsOpen s) (hs : nameTypes.Settled (namedView pre) s)
  (z : ZydisDecodedInstruction)

include hopen hs

/-- An arithmetic instruction is named right exactly if it reads clean operands and its write is
discarded. -/
lemma named_liftArith {op : Opcode} {name : String} (hname : name ≠ "") (hop : op.isBinary = true)
    (fop : FlagOp) (ty : IRType) :
    nameTypes.TypedWhen (namedView pre) (liftArith ctx op name fop ty z) s
      (((z.op 0).ReadsClean ctx ∧ (z.op 1).ReadsClean ctx) ∧ (z.op 0).IsDiscarded ctx)
      fun _ t => NamedRecord pre t := by
  unfold liftArith
  exact (named_liftBinop hopen hs hname hop fop ty _ _).bind fun result t hopen' ht _ hresult =>
    (named_writeOperand_of_defined hopen' ht (z.op 0) hresult.1).mono Iff.rfl
      fun _ _ hgrows hflags => hresult.2.grows hgrows hflags

/-- A comparison is named right exactly if it reads clean operands. -/
lemma named_liftCompare {op : Opcode} {name : String} (hname : name ≠ "")
    (hop : op.isBinary = true) (fop : FlagOp) :
    nameTypes.TypedWhen (namedView pre) (liftCompare ctx op name fop z) s
      ((z.op 0).ReadsClean ctx ∧ (z.op 1).ReadsClean ctx) fun _ t => NamedRecord pre t := by
  unfold liftCompare
  refine TypedWhen.congr ((named_liftBinop hopen hs hname hop fop _ _ _).bind
    fun _ t hopen' ht _ hresult => TypedWhen.pure hopen' ht hresult.2) ?_
  rw [and_true]

/-- `INC` and `DEC` are named right exactly if they read a clean operand and their write is
discarded. -/
lemma named_liftIncDec (isDec : Bool) :
    nameTypes.TypedWhen (namedView pre) (liftIncDec ctx isDec z) s
      ((z.op 0).ReadsClean ctx ∧ (z.op 0).IsDiscarded ctx) fun _ t => NamedRecord pre t := by
  have hname : (if isDec then "dec" else "inc") ≠ "" := by cases isDec <;> decide
  have hop : (if isDec then Opcode.sub else .add).isBinary = true := by cases isDec <;> rfl
  unfold liftIncDec
  refine (yields_readOperand hopen hs _ _).bind fun src s₁ hopen₁ hs₁ h₁ hsrc _ => ?_
  have hone : UsableWhen (namedView pre) True (.makeImm 1 (typeOfReg (z.op 0).reg)) s₁ :=
    usableWhen_of_vreg?_eq_none rfl s₁
  refine TypedWhen.congr ((named_defineBinary hopen₁ hs₁ (IRInst.definesNamed_makeBinop hname hop)
    hsrc hone).bind fun result s₂ hopen₂ hs₂ h₂ hresult => (named_setFlags hopen₂ hs₂
      hresult.1.toUnnamed (hsrc.toUnnamed.grows h₂)).bind_of_true fun _ s₃ hopen₃ hs₃ h₃ hrecord =>
        (named_writeOperand_of_defined hopen₃ hs₃ (z.op 0) (hresult.1.grows h₃)).mono Iff.rfl
          fun _ _ hgrows hflags => hrecord.grows hgrows hflags) ?_
  rw [and_true]

/-- The one-operand product. -/
lemma named_liftImul_one :
    nameTypes.TypedWhen (namedView pre) (do
      let rax ← withBlockArg ctx (readReg ctx .rax)
      let src ← readOperand ctx (z.op 0) .i64
      let lo ← defineTemp .i64 fun id => .makeBinop .mul ⟨id, "imul_lo"⟩ .i64 rax src
      withBlockArg ctx (writeReg ctx .rax lo)
      withBlockArg ctx (writeReg ctx .rdx (.makeImm 0 .i64))
      setFlags .imul lo rax src .i64) s
      ((z.op 0).ReadsClean ctx ∧ ctx.Discards .rax) fun _ t => NamedRecord pre t := by
  have hrax : ctx.ReadsClean .rax := fun _ => rfl
  refine ((yields_readReg hopen hs .rax).bind_both (fun t hopen' ht _ =>
    (yields_readOperand hopen' ht (z.op 0) .i64).mono fun _ _ => trivial)
    fun rax src s₁ hopen₁ hs₁ h₁ hrax hsrc _ => ?_).congr
      (and_congr_left' (and_iff_right hrax))
  refine (named_defineBinary hopen₁ hs₁ (IRInst.definesNamed_makeBinop (by decide) rfl) hrax
    hsrc).bind fun lo s₂ hopen₂ hs₂ h₂ hlo => ?_
  refine TypedWhen.congr ((named_writeReg_of_defined hopen₂ hs₂ .rax hlo.1).bind
    fun _ s₃ hopen₃ hs₃ h₃ _ => (named_writeReg hopen₃ hs₃ .rdx
      (usableWhen_of_vreg?_eq_none rfl s₃)).bind fun _ s₄ hopen₄ hs₄ h₄ _ =>
        named_setFlags hopen₄ hs₄ (hlo.1.toUnnamed.grows (h₃.trans h₄))
          (hrax.toUnnamed.grows (h₂.trans (h₃.trans h₄)))) ?_
  simp [typeOfReg]

/-- The products of two operands. -/
lemma named_liftImul_two {name : String} (hname : name ≠ "") (x y : ZydisDecodedOperand) :
    nameTypes.TypedWhen (namedView pre) (do
      let result ← liftBinop ctx .mul name .imul (typeOfReg (z.op 0).reg) x y
      withBlockArg ctx (writeReg ctx (z.op 0).reg result)) s
      ((x.ReadsClean ctx ∧ y.ReadsClean ctx) ∧ ctx.Discards (z.op 0).reg)
      fun _ t => NamedRecord pre t :=
  (named_liftBinop hopen hs hname rfl _ _ _ _).bind fun _ _ hopen' ht _ hresult =>
    (named_writeReg_of_defined hopen' ht (z.op 0).reg hresult.1).mono Iff.rfl
      fun _ _ hgrows hflags => hresult.2.grows hgrows hflags

/-- When `IMUL` is named right depends on the number of its operands. -/
lemma named_liftImul :
    nameTypes.TypedWhen (namedView pre) (liftImul ctx z) s
      (if z.operandCountVisible = 1 then (z.op 0).ReadsClean ctx ∧ ctx.Discards .rax
      else if z.operandCountVisible = 2 then
        ((z.op 0).ReadsClean ctx ∧ (z.op 1).ReadsClean ctx) ∧ ctx.Discards (z.op 0).reg
      else ((z.op 1).ReadsClean ctx ∧ (z.op 2).ReadsClean ctx) ∧ ctx.Discards (z.op 0).reg)
      fun _ t => NamedRecord pre t := by
  unfold liftImul
  split
  · exact named_liftImul_one hopen hs z
  · split
    · exact named_liftImul_two hopen hs z (by decide) _ _
    · exact named_liftImul_two hopen hs z (by decide) _ _

/-- A shift uses the extended count, which was computed for it. -/
lemma named_liftShift {op : Opcode} (hop : op.isBinary = true) (fop : FlagOp) :
    nameTypes.TypedWhen (namedView pre) (liftShift ctx op fop z) s False
      fun _ t => NamedRecord pre t := by
  unfold liftShift
  refine (yields_readOperand hopen hs _ _).runs.bind_of_false fun val s₁ hopen₁ hs₁ h₁ hval => ?_
  refine (yields_readOperand hopen₁ hs₁ _ _).runs.bind_of_false fun amt s₂ hopen₂ hs₂ h₂ hamt => ?_
  refine (named_defineUnary hopen₂ hs₂ (IRInst.definesNamed_makeCast (by decide) rfl)
    hamt.1).runs.bind_of_false fun ext s₃ hopen₃ hs₃ h₃ hext => ?_
  have hval₃ := hval.1.grows (h₂.trans h₃)
  refine TypedWhen.congr ((named_defineBinary hopen₃ hs₃ (IRInst.definesNamed_makeBinop (by decide)
    hop) hval₃ hext.1).bind fun result s₄ hopen₄ hs₄ h₄ hresult => (named_setFlags hopen₄ hs₄
      hresult.1.toUnnamed (hval₃.toUnnamed.grows h₄)).bind_of_true fun _ s₅ hopen₅ hs₅ h₅ hrecord =>
        (named_writeOperand_of_defined hopen₅ hs₅ (z.op 0) (hresult.1.grows h₅)).mono Iff.rfl
          fun _ _ hgrows hflags => hrecord.grows hgrows hflags) ?_
  simp

end Recording

/-! ## Instructions that keep the recorded flags, or forget them -/

section Keeping

variable (hopen : (namedView pre).IsOpen s) (hs : nameTypes.Settled (namedView pre) s)
  (hrecord : NamedRecord pre s) (z : ZydisDecodedInstruction)

include hopen hs hrecord

/-- An extending move is named right exactly if it reads a clean source and its write is
discarded. -/
lemma named_liftMovExt {castOp : Opcode} (hcast : castOp.isCast = true) {name : String}
    (hname : name ≠ "") :
    nameTypes.TypedWhen (namedView pre) (liftMovExt ctx castOp name z) s
      ((z.op 1).ReadsClean ctx ∧ ctx.Discards (z.op 0).reg) fun _ t => NamedRecord pre t := by
  unfold liftMovExt
  refine (yields_readOperand hopen hs _ _).bind fun src s₁ hopen₁ hs₁ h₁ hsrc hflags₁ => ?_
  exact (named_defineUnary hopen₁ hs₁ (IRInst.definesNamed_makeCast hname hcast) hsrc).bind
    fun val s₂ hopen₂ hs₂ h₂ hval => (named_writeReg_of_defined hopen₂ hs₂ (z.op 0).reg hval.1).mono
      Iff.rfl fun _ _ h₃ hflags₃ => hrecord.grows (h₁.trans (h₂.trans h₃))
        (hflags₃.trans (hval.2.trans hflags₁))

/-- What a `MOV` writes may be clean, but what it writes after its fall through is not. -/
lemma named_liftMov :
    nameTypes.TypedWhen (namedView pre) (do liftMov ctx z; liftMovExt ctx .zext "movzx" z) s
      ((z.op 1).ReadsClean ctx ∧ (z.op 0).type ≠ .memory ∧ ctx.Discards (z.op 0).reg)
      fun _ t => NamedRecord pre t := by
  obtain ⟨good, hmov, hgood, hgood'⟩ := (yields_readOperand hopen hs (z.op 1)
    (movType (z.op 0) (z.op 1))).exists_bind fun src s₁ hopen₁ hs₁ h₁ hsrc hflags₁ =>
      (named_writeOperand hopen₁ hs₁ (z.op 0) hsrc).mono Iff.rfl fun _ _ h₂ hflags₂ =>
        hrecord.grows (h₁.trans h₂) (hflags₂.trans hflags₁)
  refine TypedWhen.congr (TypedWhen.bind hmov fun _ t hopen' ht _ hrecord' =>
    named_liftMovExt hopen' ht hrecord' z rfl (by decide)) ?_
  constructor
  · rintro ⟨hmove, hclean, hdiscards⟩
    exact ⟨hclean, (hgood hmove).1, hdiscards⟩
  · rintro ⟨hclean, htype, hdiscards⟩
    exact ⟨hgood' hclean ⟨htype, fun _ => Or.inl hdiscards⟩, hclean, hdiscards⟩

/-- The temporary of `LEA` uses the address, which was computed for it. -/
lemma named_liftLea :
    nameTypes.TypedWhen (namedView pre) (liftLea ctx z) s False fun _ t => NamedRecord pre t := by
  unfold liftLea
  refine (runs_computeAddr hopen hs _).bind_of_false fun addr s₁ hopen₁ hs₁ h₁ haddr => ?_
  refine TypedWhen.congr ((named_defineUnary hopen₁ hs₁
    (IRInst.definesNamed_makeCast (by decide) rfl)
    haddr.1).bind fun val s₂ hopen₂ hs₂ h₂ hval => (named_writeReg_of_defined hopen₂ hs₂
      (z.op 0).reg hval.1).mono Iff.rfl fun _ _ h₃ hflags₃ => hrecord.grows
        (h₁.trans (h₂.trans h₃)) (hflags₃.trans (hval.2.trans haddr.2))) ?_
  exact and_iff_left_of_imp False.elim

/-- The record of a `NEG`, and the write of its result. -/
lemma named_recordNeg (isNeg : Bool) {src : IRValue} (op : ZydisDecodedOperand)
    (hv : UsableWhen (namedView pre) False v s) :
    nameTypes.TypedWhen (namedView pre) (do
      if isNeg then setFlags .sub v (.makeImm 0 ty) src ty
      writeOperand ctx op v) s (op.IsDiscarded ctx) fun _ t => NamedRecord pre t := by
  cases isNeg with
  | true =>
    have hzero : Unnamed (namedView pre) (.makeImm 0 ty) s :=
      (usableWhen_of_vreg?_eq_none rfl s).toUnnamed
    exact (named_setFlags hopen hs hv.toUnnamed hzero).bind_of_true
      fun _ s₁ hopen₁ hs₁ h₁ hrecord₁ => (named_writeOperand_of_defined hopen₁ hs₁ op
        (hv.grows h₁)).mono Iff.rfl fun _ _ h₂ hflags₂ => hrecord₁.grows h₂ hflags₂
  | false =>
    exact (named_writeOperand_of_defined hopen hs op hv).mono Iff.rfl
      fun _ _ h hflags => hrecord.grows h hflags

/-- `NEG` and `NOT` are named right exactly if they read a clean operand and their write is
discarded. -/
lemma named_liftUnary (isNeg : Bool) :
    nameTypes.TypedWhen (namedView pre) (liftUnary ctx isNeg z) s
      ((z.op 0).ReadsClean ctx ∧ (z.op 0).IsDiscarded ctx) fun _ t => NamedRecord pre t := by
  have hop : (if isNeg then Opcode.neg else .not) = .neg ∨
      (if isNeg then Opcode.neg else .not) = .not := by cases isNeg <;> simp
  unfold liftUnary
  refine (yields_readOperand hopen hs _ _).bind fun src s₁ hopen₁ hs₁ h₁ hsrc hflags₁ => ?_
  exact (named_defineUnary hopen₁ hs₁ (IRInst.definesNamed_makeUnop (by decide) hop) hsrc).bind
    fun result s₂ hopen₂ hs₂ h₂ hresult => named_recordNeg hopen₂ hs₂
      (hrecord.grows (h₁.trans h₂) (hresult.2.trans hflags₁)) isNeg (z.op 0) hresult.1

omit hrecord z in
/-- Two definitions from the same operands, whose temporaries are taken before the first is
appended. -/
lemma named_defineTwo {inst inst' : ℕ → IRInst} (hinst : IRInst.DefinesNamed inst [v, w])
    (hinst' : IRInst.DefinesNamed inst' [v, w]) (hv : UsableWhen (namedView pre) clean v s)
    (hw : UsableWhen (namedView pre) clean' w s) :
    nameTypes.TypedWhen (namedView pre) (do
      let q ← newTemp
      let r ← newTemp
      pushInst (inst q)
      pushInst (inst' r)
      pure (IRValue.makeVReg q ty, IRValue.makeVReg r ty)) s (clean ∧ clean') fun p t =>
        UsableWhen (namedView pre) False p.1 t ∧ UsableWhen (namedView pre) False p.2 t ∧
          t.flagState = s.flagState := by
  have hopen₁ : (s.emit 1 [inst s.nextVregId]).Open :=
    hopen.1.emit 1 (by simpa using hinst.isTerminator _)
  have hrun : (do
      let q ← newTemp
      let r ← newTemp
      pushInst (inst q)
      pushInst (inst' r)
      pure (IRValue.makeVReg q ty, IRValue.makeVReg r ty)).run s = (do
        let q ← defineTemp ty inst
        let r ← defineTemp ty inst'
        pure (q, r)).run s := by
    unfold defineTemp
    simp only [bind_assoc, pure_bind]
    rw [run_defineTwo hopen.1 hinst.isTerminator, run_define hopen.1, run_define hopen₁,
      LiftState.emit_emit]
    rfl
  refine TypedWhen.of_run_eq hrun (TypedWhen.congr ((named_defineBinary hopen hs hinst hv hw).bind
    fun q s₁ hopen₁ hs₁ h₁ hq => (named_defineBinary hopen₁ hs₁ hinst' (hv.grows h₁)
      (hw.grows h₁)).bind fun r s₂ hopen₂ hs₂ h₂ hr => TypedWhen.pure hopen₂ hs₂
        ⟨hq.1.grows h₂, hr.1, hr.2.trans hq.2⟩) ?_)
  tauto

/-- A division is named right exactly if it reads a clean operand and its writes are discarded. -/
lemma named_liftDiv (isSigned : Bool) :
    nameTypes.TypedWhen (namedView pre) (liftDiv ctx isSigned z) s
      ((z.op 0).ReadsClean ctx ∧ ctx.Discards .rax) fun _ t => NamedRecord pre t := by
  have hclean : ctx.ReadsClean .rax := fun _ => rfl
  have hquot : (if isSigned then Opcode.sdiv else .udiv).isBinary = true := by
    cases isSigned <;> rfl
  have hrem : (if isSigned then Opcode.srem else .urem).isBinary = true := by
    cases isSigned <;> rfl
  have hdiscards : ctx.Discards .rdx ↔ ctx.Discards .rax :=
    forall_congr' fun _ => iff_of_false (by decide) (by decide)
  unfold liftDiv
  refine ((yields_readReg hopen hs .rax).bind_both (fun t hopen' ht hflags =>
    (yields_readOperand hopen' ht (z.op 0) .i64).mono fun _ h => h.trans hflags)
    fun rax src s₁ hopen₁ hs₁ h₁ hrax hsrc hflags₁ => ?_).congr
      (and_congr_left' (and_iff_right hclean))
  have hq := @IRInst.definesNamed_makeBinop rax _ "div_q" .i64 src (by decide) hquot
  have hr := @IRInst.definesNamed_makeBinop rax _ "div_r" .i64 src (by decide) hrem
  have hcode := (@named_defineTwo pre s₁ rax src _ _ .i64 hopen₁ hs₁ _ _ hq hr hrax hsrc).bind
      fun p s₂ hopen₂ hs₂ h₂ hp => (@named_writeReg_of_defined ctx pre s₂ hopen₂ hs₂ .rax _
        hp.1).bind
        fun _ s₃ hopen₃ hs₃ h₃ hflags₃ => (@named_writeReg_of_defined ctx pre s₃ hopen₃ hs₃ .rdx _
          (hp.2.1.grows h₃)).bind fun _ s₄ hopen₄ hs₄ h₄ hflags₄ => named_invalidateFlags hopen₄ hs₄
            (hrecord.grows (h₁.trans (h₂.trans (h₃.trans h₄)))
              (hflags₄.trans (hflags₃.trans (hp.2.2.trans hflags₁))))
  simp only [bind_assoc, pure_bind] at hcode
  refine hcode.congr ?_
  rw [hdiscards]
  tauto

omit hrecord z in
/-- The target of a call is clean exactly if it is direct. -/
lemma yields_callTarget (di : DecodedInstr) :
    Yields (namedView pre) (callTarget ctx di) s (di.zydis.op 0).IsDirect
      fun t => t.flagState = s.flagState := by
  unfold callTarget
  dsimp only
  split
  · rename_i hdirect
    refine ⟨True, TypedWhen.pure hopen hs ⟨UsableWhen.congr (usableWhen_of_vreg?_eq_none ?_ s)
      (iff_of_true trivial hdirect), rfl⟩, fun _ => trivial⟩
    split <;> rfl
  · rename_i hindirect
    refine (yields_of_runs ((yields_readOperand hopen hs _ _).runs.bind
      fun addr s₁ hopen₁ hs₁ _ haddr => (named_inttoptr hopen₁ hs₁ (by decide)
        haddr.1.toUnnamed).mono fun _ _ _ h => ⟨h.1, h.2.trans haddr.2⟩)).congr ?_
    exact iff_of_false not_false hindirect

omit z in
/-- A call is named right exactly if it is direct and its result is discarded. -/
lemma named_liftCall (di : DecodedInstr) :
    nameTypes.TypedWhen (namedView pre) (liftCall ctx di) s
      ((di.zydis.op 0).IsDirect ∧ ctx.Discards .rax) fun _ t => NamedRecord pre t := by
  unfold liftCall
  refine (yields_callTarget hopen hs di).bind fun callee s₁ hopen₁ hs₁ h₁ hcallee hflags₁ => ?_
  refine TypedWhen.bind (named_defineUnary hopen₁ hs₁ (IRInst.definesNamed_makeCall (by decide))
    hcallee) fun ret s₂ hopen₂ hs₂ h₂ hret => ?_
  refine TypedWhen.congr ((named_writeReg_of_defined hopen₂ hs₂ .rax hret.1).bind
    fun _ s₃ hopen₃ hs₃ h₃ hflags₃ => named_invalidateFlags hopen₃ hs₃
      (hrecord.grows (h₁.trans (h₂.trans h₃)) (hflags₃.trans (hret.2.trans hflags₁)))) ?_
  rw [and_true]

end Keeping

end FunctionLifter

end InstaX
