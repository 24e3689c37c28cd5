import InstaX.Flags.Consulted
import InstaX.Lifter.OperandCode
import InstaX.Lifter.Terminated

/-!
# Instructions when the block is passed by value

What `liftInstr` appends to a block that is still open: code that is defined before use unless a
narrow register was read (`builds_liftInstr`), and at the end of the block a terminator that may
read a flag record (`exists_run_liftInstr_of_endsBlock`).  A flag record is made of operands that
the code defines, or that it uses before it is defined.
-/

namespace InstaX

open Throwing RegisterCode View

/-- The instructions after which the lifter has a flag record of its own, or none. -/
def ZydisMnemonic.recordsFlags : ZydisMnemonic → Bool
  | .add | .sub | .imul | .idiv | .div | .and | .or | .xor | .neg | .shl | .shr | .sar
  | .inc | .dec | .cmp | .test | .call => true
  | _ => false

/-- Lifting the instruction reads a narrow register. -/
def ZydisDecodedInstruction.ReadsNarrow (z : ZydisDecodedInstruction) : Prop :=
  match z.mnemonic with
  | .mov => (z.op 1).ReadsNarrow ∨ (z.op 0).WriteReadsNarrow
  | .movzx | .movsx | .movsxd => (z.op 1).ReadsNarrow
  | .lea => (z.op 1).mem.HasNarrow
  | .add | .sub | .and | .or | .xor | .shl | .shr | .sar | .cmp | .test =>
    (z.op 0).ReadsNarrow ∨ (z.op 1).ReadsNarrow
  | .not | .neg | .inc | .dec | .idiv | .div | .call => (z.op 0).ReadsNarrow
  | .imul =>
    if z.operandCountVisible = 1 then (z.op 0).ReadsNarrow
    else if z.operandCountVisible = 2 then (z.op 0).ReadsNarrow ∨ (z.op 1).ReadsNarrow
    else (z.op 1).ReadsNarrow ∨ (z.op 2).ReadsNarrow
  | _ => False

instance (z : ZydisDecodedInstruction) : Decidable z.ReadsNarrow := by
  unfold ZydisDecodedInstruction.ReadsNarrow
  split <;> infer_instance

namespace DecodedInstr

/-- The instruction ends its block: a conditional jump, or a jump to a block of the function. -/
def endsBlock (ctx : LiftContext) (di : DecodedInstr) : Bool :=
  (flagRequestForJcc di.zydis.mnemonic).isSome ||
    di.zydis.mnemonic == .jmp && (ctx.blockNames di.relativeTarget).isSome

/-- The operands of a flag record that the instruction reads. -/
def consulted (di : DecodedInstr) (fs : FlagState) : List IRValue :=
  match flagRequestForJcc di.zydis.mnemonic with
  | some request => fs.consulted request
  | none => []

end DecodedInstr

namespace FunctionLifter

variable {ctx : LiftContext} {s t u : LiftState} {v w : IRValue} {good : Prop}

/-! ## The recorded flags -/

/-- The recorded operands that a condition may read are known, if the code is in order. -/
structure RecordKnown (s : LiftState) : Prop where
  passed_result : liftView.Passed s s.flagState.result
  passed_lhs : liftView.Passed s s.flagState.lhs
  known : s.flagState.valid = true → liftView.Closed s →
    liftView.Known s s.flagState.result ∧ liftView.Known s s.flagState.lhs

/-- A record outlives the code that follows. -/
lemma RecordKnown.grows (h : RecordKnown s) (hgrows : liftView.Grows s t)
    (hflags : t.flagState = s.flagState) : RecordKnown t where
  passed_result := hflags ▸ hgrows.passed h.passed_result
  passed_lhs := hflags ▸ hgrows.passed h.passed_lhs
  known hvalid hclosed := by
    rw [hflags] at hvalid ⊢
    rw [hgrows.known_iff h.passed_result, hgrows.known_iff h.passed_lhs]
    exact h.known hvalid (hgrows.closed hclosed)

/-- The result of an operation and its flag record: both are known when the code is in order. -/
structure Recorded (s : LiftState) (good : Prop) (v : IRValue) (t : LiftState) : Prop where
  passed : liftView.Passed t v
  known : liftView.Known t v
  closed : liftView.Closed t ↔ liftView.Closed s ∧ good
  record : RecordKnown t

/-- Record the flags of an operation that defined `v` from a left operand `lhs`. -/
lemma builds_setFlags {op : FlagOp} {lhs rhs : IRValue} {ty : IRType} (ht : liftView.Ready t)
    (h : TempDefined s good v t) (hpassed : liftView.Passed t lhs)
    (hlhs : liftView.Closed t → liftView.Known t lhs) :
    liftView.Builds (setFlags op v lhs rhs ty) t fun _ u => Recorded s good v u :=
  ⟨(), { t with flagState := t.flagState.set op v lhs rhs ty }, rfl, ht.isOpen,
    Grows.of_code_eq rfl le_rfl, h.passed, h.known, h.closed, h.passed, hpassed,
    fun _ hclosed => ⟨h.known, hlhs hclosed⟩⟩

/-- Forget the record. -/
lemma builds_invalidateFlags (ht : liftView.Ready t)
    (hresult : liftView.Passed t t.flagState.result) (hlhs : liftView.Passed t t.flagState.lhs) :
    liftView.Builds invalidateFlags t fun _ u =>
      RecordKnown u ∧ (liftView.Closed u ↔ liftView.Closed t) :=
  ⟨(), { t with flagState := t.flagState.invalidate }, rfl, ht.isOpen, Grows.of_code_eq rfl le_rfl,
    ⟨hresult, hlhs, fun hvalid => absurd hvalid (by simp [FlagState.invalidate])⟩, Iff.rfl⟩

/-- An instruction was lifted: the code is in order exactly when the condition holds, and the flag
record is kept or made anew. -/
structure Lifted (s : LiftState) (good : Prop) (records : Bool) (t : LiftState) : Prop where
  closed : liftView.Closed t ↔ liftView.Closed s ∧ good
  kept : records = false → t.flagState = s.flagState
  record : records = true → RecordKnown t

/-- A piece of code that keeps the record. -/
lemma Lifted.keeping (hclosed : liftView.Closed t ↔ liftView.Closed s ∧ good)
    (hflags : t.flagState = s.flagState) : Lifted s good false t :=
  ⟨hclosed, fun _ => hflags, fun h => by cases h⟩

/-- A piece of code that makes a known record. -/
lemma Lifted.recording (hclosed : liftView.Closed t ↔ liftView.Closed s ∧ good)
    (hrecord : RecordKnown t) : Lifted s good true t :=
  ⟨hclosed, fun h => (by cases h), fun _ => hrecord⟩

section DefineTwo

variable {i j : IRInst} (hi : destination i = some s.nextVregId)

include hi

/-- Two temporaries may be defined one after the other. -/
lemma grows_defineTwo (hj : destination j = some (s.nextVregId + 1)) :
    liftView.Grows s (s.emit 2 [i, j]) :=
  ⟨[i, j], rfl, (Fresh.next hi).append (Fresh.next hj)⟩

/-- The second definition does not read the first one. -/
lemma closed_defineTwo_iff (hpassed : ∀ v ∈ operands j, liftView.Passed s v) :
    liftView.Closed (s.emit 2 [i, j]) ↔ liftView.Closed s ∧
      (∀ v ∈ operands i, liftView.Known s v) ∧ ∀ v ∈ operands j, liftView.Known s v := by
  have hfirst : liftView.Grows s (s.emit 1 [i]) := Grows.define rfl rfl hi
  have hcode : liftView.code (s.emit 2 [i, j]) = liftView.code (s.emit 1 [i]) ++ [j] := by
    simp [liftView]
  have hknown : (∀ v ∈ operands j, liftView.Known (s.emit 1 [i]) v) ↔
      ∀ v ∈ operands j, liftView.Known s v :=
    forall₂_congr fun v hv => hfirst.known_iff (hpassed v hv)
  rw [closed_iff_of_code_eq hcode, closed_iff_of_code_eq (V := liftView) (s := s) (i := i) rfl,
    hknown, and_assoc]

end DefineTwo

section ByValue

variable (hpass : ctx.passing = .byValue)

include hpass

/-! ## Moves -/

/-- A temporary that was defined may be written to a register. -/
lemma builds_writeReg_temp (ht : liftView.Ready t) (h : TempDefined s good v t)
    (reg : ZydisRegister) :
    liftView.Builds (withBlockArg ctx (writeReg ctx reg v)) t fun _ u => Lifted s good false u :=
  (builds_writeReg hpass ht reg v).mono fun _ _ _ hu =>
    Lifted.keeping (by rw [hu.2, h.closed]) (hu.1.trans h.flags)

/-- So may one whose operation was recorded. -/
lemma builds_writeReg_recorded (ht : liftView.Ready t) (h : Recorded s good v t)
    (reg : ZydisRegister) :
    liftView.Builds (withBlockArg ctx (writeReg ctx reg v)) t fun _ u => Lifted s good true u :=
  (builds_writeReg hpass ht reg v).mono fun _ _ hgrows hu =>
    Lifted.recording (by rw [hu.2, h.closed]) (h.record.grows hgrows hu.1)

/-- An extending move uses its source. -/
lemma builds_liftMovExt (hs : liftView.Ready s) {castOp : Opcode}
    (hcast : castOp = .zext ∨ castOp = .sext) (name : String) (z : ZydisDecodedInstruction) :
    liftView.Builds (liftMovExt ctx castOp name z) s fun _ t =>
      Lifted s (¬ (z.op 1).ReadsNarrow) false t := by
  unfold liftMovExt
  refine Builds.bind hs (builds_readOperand hpass hs _ _) fun src s₁ hs₁ _ hsrc => ?_
  refine Builds.bind hs₁ (builds_defineCast hs₁ hsrc.flags (fun _ => ?_) hsrc.outcome.iff)
    fun val s₂ hs₂ _ hval => ?_
  · rcases hcast with rfl | rfl <;> rfl
  · exact builds_writeReg_temp hpass hs₂ hval _

/-- A `MOV` reads its source twice. -/
lemma builds_liftMov (hs : liftView.Ready s) (z : ZydisDecodedInstruction) :
    liftView.Builds (do liftMov ctx z; liftMovExt ctx .zext "movzx" z) s fun _ t =>
      Lifted s (¬ ((z.op 1).ReadsNarrow ∨ (z.op 0).WriteReadsNarrow)) false t := by
  unfold liftMov
  simp only [bind_assoc]
  refine Builds.bind hs (builds_readOperand hpass hs _ _) fun src s₁ hs₁ h₁ hsrc => ?_
  refine Builds.bind hs₁ (builds_writeOperand hpass hs₁ _ hsrc.outcome.passed)
    fun _ s₂ hs₂ _ hwrite => ?_
  refine (builds_liftMovExt hpass hs₂ (Or.inl rfl) _ z).mono fun _ t _ hext => ?_
  refine Lifted.keeping ?_ ((hext.kept rfl).trans (hwrite.1.trans hsrc.flags))
  have hclosed := hsrc.outcome.iff
  rw [hext.closed, hwrite.2]
  constructor
  · rintro ⟨⟨hs₁, -, hwide⟩, hwide'⟩
    exact ⟨h₁.closed hs₁, fun h => h.elim hwide' hwide⟩
  · rintro ⟨hs, hwide⟩
    obtain ⟨hs₁, hknown⟩ := hclosed.mpr ⟨hs, fun h => hwide (Or.inl h)⟩
    exact ⟨⟨hs₁, fun _ => hknown, fun h => hwide (Or.inr h)⟩, fun h => hwide (Or.inl h)⟩

/-- `LEA` uses the registers of the address. -/
lemma builds_liftLea (hs : liftView.Ready s) (z : ZydisDecodedInstruction) :
    liftView.Builds (liftLea ctx z) s fun _ t => Lifted s (¬ (z.op 1).mem.HasNarrow) false t := by
  unfold liftLea
  refine Builds.bind hs (builds_computeAddr hpass hs _) fun addrPtr s₁ hs₁ _ haddr => ?_
  refine Builds.bind hs₁ (builds_defineCast hs₁ haddr.flags (fun _ => rfl)
    haddr.operandRead.outcome.iff) fun val s₂ hs₂ _ hval => ?_
  exact builds_writeReg_temp hpass hs₂ hval _

/-! ## Arithmetic -/

/-- A written operand that was read before. -/
lemma builds_writeOperand_recorded (ht : liftView.Ready t) (h : Recorded s good v t)
    (op : ZydisDecodedOperand) (hop : good → ¬ op.ReadsNarrow) :
    liftView.Builds (writeOperand ctx op v) t fun _ u => Lifted s good true u :=
  (builds_writeOperand hpass ht op h.passed).mono fun _ u hgrows hu => by
    refine Lifted.recording ?_ (h.record.grows hgrows hu.1)
    rw [hu.2, h.closed]
    refine ⟨fun hcode => hcode.1, fun hcode => ⟨hcode, fun _ => h.known, fun hwrite => ?_⟩⟩
    exact hop hcode.2 (Or.inr hwrite)

/-- A binary operation with its flag record. -/
lemma builds_liftBinop (hs : liftView.Ready s) {op : Opcode} (name : String) (fop : FlagOp)
    (ty : IRType) (x y : ZydisDecodedOperand)
    (hterm : ∀ id l r, (IRInst.makeBinop op ⟨id, name⟩ ty l r).isTerminator = false) :
    liftView.Builds (liftBinop ctx op name fop ty x y) s
      (Recorded s (¬ (x.ReadsNarrow ∨ y.ReadsNarrow))) := by
  unfold liftBinop binopCode
  simp only [bind_assoc, pure_bind]
  refine Builds.bind hs (builds_readOperand hpass hs _ _) fun lhs s₁ hs₁ h₁ hlhs => ?_
  refine Builds.bind hs₁ (builds_readOperand hpass hs₁ _ _) fun rhs s₂ hs₂ h₂ hrhs => ?_
  have hboth := hlhs.outcome.both h₂ hrhs.outcome
  rw [← not_or] at hboth
  refine Builds.bind hs₂ (builds_defineBinop hs₂ (hrhs.flags.trans hlhs.flags)
    (fun id => hterm id lhs rhs) hboth) fun result s₃ hs₃ h₃ hresult => ?_
  have hlhs₃ : liftView.Closed s₃ → liftView.Known s₃ lhs := fun hclosed =>
    (h₃.known_iff (h₂.passed hlhs.outcome.passed)).mpr (hboth.mpr (hresult.closed.mp hclosed)).2.1
  refine Builds.bind hs₃ (builds_setFlags hs₃ hresult
    (h₃.passed (h₂.passed hlhs.outcome.passed)) hlhs₃) fun _ s₄ hs₄ _ h => ?_
  exact Builds.pure hs₄ h

/-- An arithmetic instruction uses both operands and records. -/
lemma builds_liftArith (hs : liftView.Ready s) {op : Opcode} (name : String) (fop : FlagOp)
    (ty : IRType) (z : ZydisDecodedInstruction)
    (hterm : ∀ id l r, (IRInst.makeBinop op ⟨id, name⟩ ty l r).isTerminator = false) :
    liftView.Builds (liftArith ctx op name fop ty z) s fun _ t =>
      Lifted s (¬ ((z.op 0).ReadsNarrow ∨ (z.op 1).ReadsNarrow)) true t := by
  unfold liftArith
  refine Builds.bind hs (builds_liftBinop hpass hs name fop ty _ _ hterm)
    fun result s₁ hs₁ _ hresult => ?_
  exact builds_writeOperand_recorded hpass hs₁ hresult _ fun h h' => h (Or.inl h')

/-- So does a comparison. -/
lemma builds_liftCompare (hs : liftView.Ready s) {op : Opcode} (name : String) (fop : FlagOp)
    (z : ZydisDecodedInstruction)
    (hterm : ∀ id ty l r, (IRInst.makeBinop op ⟨id, name⟩ ty l r).isTerminator = false) :
    liftView.Builds (liftCompare ctx op name fop z) s fun _ t =>
      Lifted s (¬ ((z.op 0).ReadsNarrow ∨ (z.op 1).ReadsNarrow)) true t := by
  unfold liftCompare
  refine Builds.bind hs (builds_liftBinop hpass hs name fop _ _ _ fun id => hterm id _)
    fun result s₁ hs₁ _ hresult => ?_
  exact Builds.pure hs₁ (Lifted.recording hresult.closed hresult.record)

/-- `NEG` and `NOT` use their operand, and `NEG` records. -/
lemma builds_liftUnary (hs : liftView.Ready s) (isNeg : Bool) (z : ZydisDecodedInstruction) :
    liftView.Builds (liftUnary ctx isNeg z) s fun _ t =>
      Lifted s (¬ (z.op 0).ReadsNarrow) isNeg t := by
  unfold liftUnary
  refine Builds.bind hs (builds_readOperand hpass hs _ _) fun src s₁ hs₁ _ hsrc => ?_
  refine Builds.bind hs₁ (builds_defineTemp hs₁ hsrc.flags (fun _ => rfl)
    (fun _ => by cases isNeg <;> rfl) (by simpa [IRInst.makeUnop] using hsrc.outcome.iff))
    fun result s₂ hs₂ _ hresult => ?_
  cases isNeg with
  | true =>
    refine Builds.bind hs₂ (builds_setFlags hs₂ hresult (passed_of_vregId?_eq_none rfl s₂)
      (by simp))
      fun _ s₃ hs₃ _ h => ?_
    exact builds_writeOperand_recorded hpass hs₃ h _ id
  | false =>
    refine (builds_writeOperand hpass hs₂ _ hresult.passed).mono fun _ t _ hwrite => ?_
    refine Lifted.keeping ?_ (hwrite.1.trans hresult.flags)
    rw [hwrite.2, hresult.closed]
    refine ⟨fun h => h.1, fun h => ⟨h, fun _ => hresult.known, fun hwrite => ?_⟩⟩
    exact h.2 (Or.inr hwrite)

/-- `INC` and `DEC` use their operand and record. -/
lemma builds_liftIncDec (hs : liftView.Ready s) (isDec : Bool) (z : ZydisDecodedInstruction) :
    liftView.Builds (liftIncDec ctx isDec z) s fun _ t =>
      Lifted s (¬ (z.op 0).ReadsNarrow) true t := by
  unfold liftIncDec
  refine Builds.bind hs (builds_readOperand hpass hs _ _) fun src s₁ hs₁ _ hsrc => ?_
  have hgood := hsrc.outcome.iff
  refine Builds.bind hs₁ (builds_defineBinop hs₁ hsrc.flags (fun _ => by cases isDec <;> rfl)
    (by rwa [and_iff_left (known_makeImm _ _ _)])) fun result s₂ hs₂ h₂ hresult => ?_
  have hsrc₂ : liftView.Closed s₂ → liftView.Known s₂ src := fun hclosed =>
    (h₂.known_iff hsrc.outcome.passed).mpr (hgood.mpr (hresult.closed.mp hclosed)).2
  refine Builds.bind hs₂ (builds_setFlags hs₂ hresult (h₂.passed hsrc.outcome.passed) hsrc₂)
    fun _ s₃ hs₃ _ h => ?_
  exact builds_writeOperand_recorded hpass hs₃ h _ id

/-- A shift uses its operand and its count and records. -/
lemma builds_liftShift (hs : liftView.Ready s) {op : Opcode}
    (hop : op = .shl ∨ op = .lshr ∨ op = .ashr) (fop : FlagOp) (z : ZydisDecodedInstruction) :
    liftView.Builds (liftShift ctx op fop z) s fun _ t =>
      Lifted s (¬ ((z.op 0).ReadsNarrow ∨ (z.op 1).ReadsNarrow)) true t := by
  unfold liftShift
  refine Builds.bind hs (builds_readOperand hpass hs _ _) fun val s₁ hs₁ h₁ hval => ?_
  refine Builds.bind hs₁ (builds_readOperand hpass hs₁ _ _) fun amt s₂ hs₂ h₂ hamt => ?_
  have hboth := hval.outcome.both h₂ hamt.outcome
  rw [← not_or] at hboth
  have hpassed₂ := h₂.passed hval.outcome.passed
  -- the amount is used first; the value is still known then, or still lost
  refine Builds.bind hs₂ (builds_defineCast hs₂ rfl (fun _ => rfl) Iff.rfl)
    fun ext s₃ hs₃ h₃ hext => ?_
  have hclosed₃ : liftView.Closed s₃ ∧ liftView.Known s₃ val ↔
      liftView.Closed s ∧ ¬ ((z.op 0).ReadsNarrow ∨ (z.op 1).ReadsNarrow) := by
    rw [← hboth, hext.closed, h₃.known_iff hpassed₂, and_assoc,
      and_comm (a := liftView.Known s₂ amt)]
  refine Builds.bind hs₃ (builds_defineBinop hs₃
    (hext.flags.trans (hamt.flags.trans hval.flags))
    (fun _ => by rcases hop with rfl | rfl | rfl <;> rfl)
    (by rwa [and_iff_left hext.known])) fun result s₄ hs₄ h₄ hresult => ?_
  have hpassed₄ := h₄.passed (h₃.passed hpassed₂)
  have hval₄ : liftView.Closed s₄ → liftView.Known s₄ val := fun hclosed =>
    (h₄.known_iff (h₃.passed hpassed₂)).mpr (hclosed₃.mpr (hresult.closed.mp hclosed)).2
  refine Builds.bind hs₄ (builds_setFlags hs₄ hresult hpassed₄ hval₄) fun _ s₅ hs₅ _ h => ?_
  exact builds_writeOperand_recorded hpass hs₅ h _ fun hgood hwrite => hgood (Or.inl hwrite)

/-- The fixed register of a one-operand instruction, with its operand. -/
lemma builds_readRax_readOperand (hs : liftView.Ready s) {f : IRValue → IRValue → LiftM Unit}
    {Q : Unit → LiftState → Prop} (op : ZydisDecodedOperand)
    (hf : ∀ rax src t, liftView.Ready t → liftView.Grows s t → t.flagState = s.flagState →
      liftView.Passed t rax → liftView.Passed t src →
      (liftView.Closed t ∧ liftView.Known t rax ∧ liftView.Known t src ↔
        liftView.Closed s ∧ ¬ op.ReadsNarrow) → liftView.Builds (f rax src) t Q) :
    liftView.Builds (do
      let rax ← withBlockArg ctx (readReg ctx .rax)
      let src ← readOperand ctx op .i64
      f rax src) s Q := by
  have hwide : ¬ ZydisRegister.IsNarrow .rax := by decide
  refine Builds.bind hs (builds_readReg hpass hs .rax) fun rax s₁ hs₁ h₁ hrax => ?_
  refine Builds.bind hs₁ (builds_readOperand hpass hs₁ op .i64) fun src s₂ hs₂ h₂ hsrc => ?_
  have hboth := hrax.outcome.both h₂ hsrc.outcome
  simp only [hwide, not_false_eq_true, true_and] at hboth
  exact hf rax src s₂ hs₂ (h₁.trans h₂) (hsrc.flags.trans hrax.flags)
    (h₂.passed hrax.outcome.passed) hsrc.outcome.passed hboth

/-- What `IMUL` uses depends on the number of its operands. -/
lemma builds_liftImul (hs : liftView.Ready s) (z : ZydisDecodedInstruction) :
    liftView.Builds (liftImul ctx z) s fun _ t =>
      Lifted s (¬ if z.operandCountVisible = 1 then (z.op 0).ReadsNarrow
        else if z.operandCountVisible = 2 then (z.op 0).ReadsNarrow ∨ (z.op 1).ReadsNarrow
        else (z.op 1).ReadsNarrow ∨ (z.op 2).ReadsNarrow) true t := by
  unfold liftImul
  split
  · refine builds_readRax_readOperand hpass hs _ fun rax src s₁ hs₁ _ hflags hrax _ hboth => ?_
    refine Builds.bind hs₁ (builds_defineBinop hs₁ hflags (fun _ => rfl) hboth)
      fun lo s₂ hs₂ h₂ hlo => ?_
    refine Builds.bind hs₂ (builds_writeReg hpass hs₂ .rax lo) fun _ s₃ hs₃ h₃ hw₃ => ?_
    refine Builds.bind hs₃ (builds_writeReg hpass hs₃ .rdx _) fun _ s₄ hs₄ h₄ hw₄ => ?_
    have hgrows := h₃.trans h₄
    have hlo₄ : TempDefined s (¬ (z.op 0).ReadsNarrow) lo s₄ :=
      ⟨hw₄.1.trans (hw₃.1.trans hlo.flags), hgrows.passed hlo.passed,
        (hgrows.known_iff hlo.passed).mpr hlo.known, by rw [hw₄.2, hw₃.2, hlo.closed]⟩
    have hrax₄ : liftView.Closed s₄ → liftView.Known s₄ rax := fun hclosed =>
      ((h₂.trans hgrows).known_iff hrax).mpr (hboth.mpr (hlo₄.closed.mp hclosed)).2.1
    refine (builds_setFlags hs₄ hlo₄ ((h₂.trans hgrows).passed hrax) hrax₄).mono fun _ _ _ h => ?_
    exact Lifted.recording h.closed h.record
  · split
    · refine Builds.bind hs (builds_liftBinop hpass hs _ _ _ _ _ fun _ _ _ => rfl)
        fun result s₁ hs₁ _ hresult => ?_
      exact builds_writeReg_recorded hpass hs₁ hresult _
    · refine Builds.bind hs (builds_liftBinop hpass hs _ _ _ _ _ fun _ _ _ => rfl)
        fun result s₁ hs₁ _ hresult => ?_
      exact builds_writeReg_recorded hpass hs₁ hresult _

/-- A division uses its operand. -/
lemma builds_liftDiv (hs : liftView.Ready s) (isSigned : Bool) (z : ZydisDecodedInstruction)
    (hresult : liftView.Passed s s.flagState.result) (hlhs : liftView.Passed s s.flagState.lhs) :
    liftView.Builds (liftDiv ctx isSigned z) s fun _ t =>
      Lifted s (¬ (z.op 0).ReadsNarrow) true t := by
  unfold liftDiv
  refine builds_readRax_readOperand hpass hs _ fun rax src s₁ hs₁ h₁ hflags hrax hsrc hboth => ?_
  set q := IRInst.makeBinop (if isSigned then .sdiv else .udiv) ⟨s₁.nextVregId, "div_q"⟩ .i64 rax
    src with hq
  set r := IRInst.makeBinop (if isSigned then .srem else .urem) ⟨s₁.nextVregId + 1, "div_r"⟩ .i64
    rax src with hr
  have hterm : ∀ i ∈ [q, r], i.isTerminator = false := by
    cases isSigned <;> simp [hq, hr, IRInst.makeBinop, IRInst.isTerminator]
  have hgrows : liftView.Grows s₁ (s₁.emit 2 [q, r]) := grows_defineTwo rfl rfl
  have hs₂ : liftView.Ready (s₁.emit 2 [q, r]) :=
    hs₁.grows hgrows (LiftState.Open.emit hs₁.isOpen 2 hterm)
  have hpassed : ∀ v ∈ operands r, liftView.Passed s₁ v := by
    intro v hv
    rcases List.mem_pair.mp hv with rfl | rfl
    · exact hrax
    · exact hsrc
  have hclosed₂ : liftView.Closed (s₁.emit 2 [q, r]) ↔
      liftView.Closed s ∧ ¬ (z.op 0).ReadsNarrow := by
    rw [closed_defineTwo_iff rfl hpassed, ← hboth]
    simp [operands, hq, hr, IRInst.makeBinop]
  have hwrites : liftView.Builds (do
      withBlockArg ctx (writeReg ctx .rax (.makeVReg s₁.nextVregId .i64))
      withBlockArg ctx (writeReg ctx .rdx (.makeVReg (s₁.nextVregId + 1) .i64))
      invalidateFlags) (s₁.emit 2 [q, r]) fun _ t =>
        Lifted s (¬ (z.op 0).ReadsNarrow) true t := by
    refine Builds.bind hs₂ (builds_writeReg hpass hs₂ .rax _) fun _ s₃ hs₃ h₃ hw₃ => ?_
    refine Builds.bind hs₃ (builds_writeReg hpass hs₃ .rdx _) fun _ s₄ hs₄ h₄ hw₄ => ?_
    have hflags₄ : s₄.flagState = s.flagState := hw₄.1.trans (hw₃.1.trans hflags)
    have hgrows₄ := (h₁.trans hgrows).trans (h₃.trans h₄)
    refine (builds_invalidateFlags hs₄ (hflags₄ ▸ hgrows₄.passed hresult)
      (hflags₄ ▸ hgrows₄.passed hlhs)).mono fun _ _ _ h => ?_
    exact Lifted.recording (by rw [h.2, hw₄.2, hw₃.2, hclosed₂]) h.1
  obtain ⟨a, t, hrun, hopen, hgrows', hQ⟩ := hwrites
  refine ⟨a, t, ?_, hopen, hgrows.trans hgrows', hQ⟩
  rw [← hrun]
  exact run_defineTwo hs₁.isOpen fun _ => by cases isSigned <;> rfl

/-- A call uses the operand that it is made through. -/
lemma builds_liftCall (hs : liftView.Ready s) (di : DecodedInstr)
    (hresult : liftView.Passed s s.flagState.result) (hlhs : liftView.Passed s s.flagState.lhs) :
    liftView.Builds (liftCall ctx di) s fun _ t =>
      Lifted s (¬ (di.zydis.op 0).ReadsNarrow) true t := by
  have htarget : liftView.Builds (callTarget ctx di) s
      (OperandRead s (¬ (di.zydis.op 0).ReadsNarrow)) := by
    unfold callTarget
    dsimp only
    split
    · rename_i hdirect
      have hwide : ¬ (di.zydis.op 0).ReadsNarrow := by
        simp [ZydisDecodedOperand.ReadsNarrow, ZydisDecodedOperand.WriteReadsNarrow, hdirect.1]
      exact builds_pure hs (by split <;> rfl) hwide
    · refine Builds.bind hs (builds_readOperand hpass hs _ _) fun addr s₁ hs₁ _ haddr => ?_
      exact builds_operandRead (builds_defineCast hs₁ haddr.flags (fun _ => rfl)
        haddr.outcome.iff)
  unfold liftCall
  refine Builds.bind hs htarget fun callee s₁ hs₁ h₁ hcallee => ?_
  refine Builds.bind hs₁ (builds_defineTemp hs₁ hcallee.flags (fun _ => rfl) (fun _ => rfl)
    (by simpa [IRInst.makeCall] using hcallee.outcome.iff)) fun ret s₂ hs₂ h₂ hret => ?_
  refine Builds.bind hs₂ (builds_writeReg_temp hpass hs₂ hret .rax) fun _ s₃ hs₃ h₃ hwrite => ?_
  have hgrows := h₁.trans (h₂.trans h₃)
  have hflags := hwrite.kept rfl
  refine (builds_invalidateFlags hs₃ ?_ ?_).mono fun _ _ _ h => ?_
  · rw [hflags]
    exact hgrows.passed hresult
  · rw [hflags]
    exact hgrows.passed hlhs
  · exact Lifted.recording (by rw [h.2, hwrite.closed]) h.1

/-! ## All instructions -/

omit hpass in
/-- An instruction without operands and destination that does not end the block. -/
lemma builds_pushNop (hs : liftView.Ready s) {i : IRInst} (hops : i.operands = [])
    (hdst : i.dst = none) (hterm : i.isTerminator = false) :
    liftView.Builds (pushInst i) s fun _ t => Lifted s (¬ False) false t := by
  refine ⟨_, _, run_pushInst hs.isOpen i, LiftState.Open.emit hs.isOpen 0 (by simpa using hterm),
    ⟨[i], rfl, Fresh.of_destination_eq_none (by simp [destination, hdst])⟩, Lifted.keeping ?_ rfl⟩
  rw [closed_iff_of_code_eq (V := liftView) (s := s) (i := i) rfl]
  simp [operands, hops]

/-- An instruction that does not end its block. -/
theorem builds_liftInstr (hs : liftView.Ready s) {di : DecodedInstr}
    (hends : di.endsBlock ctx = false) (hresult : liftView.Passed s s.flagState.result)
    (hlhs : liftView.Passed s s.flagState.lhs) :
    liftView.Builds (liftInstr ctx di) s fun _ t =>
      Lifted s (¬ di.zydis.ReadsNarrow) di.zydis.mnemonic.recordsFlags t := by
  have hskip : liftView.Builds (pure ()) s fun _ t => Lifted s (¬ False) false t :=
    Builds.pure hs (Lifted.keeping (by simp) rfl)
  rw [liftInstr.eq_def]
  unfold ZydisDecodedInstruction.ReadsNarrow
  unfold DecodedInstr.endsBlock at hends
  dsimp only
  generalize di.zydis.mnemonic = mnemonic at hends
  cases mnemonic with
  | nop => exact builds_pushNop hs rfl rfl rfl
  | mov => exact builds_liftMov hpass hs _
  | movzx => exact builds_liftMovExt hpass hs (Or.inl rfl) _ _
  | movsx | movsxd => exact builds_liftMovExt hpass hs (Or.inr rfl) _ _
  | lea => exact builds_liftLea hpass hs _
  | add | sub | and | or | xor =>
    exact builds_liftArith hpass hs _ _ _ _ fun _ _ _ => rfl
  | imul => exact builds_liftImul hpass hs _
  | idiv | div => exact builds_liftDiv hpass hs _ _ hresult hlhs
  | not | neg => exact builds_liftUnary hpass hs _ _
  | shl => exact builds_liftShift hpass hs (Or.inl rfl) _ _
  | shr => exact builds_liftShift hpass hs (Or.inr (Or.inl rfl)) _ _
  | sar => exact builds_liftShift hpass hs (Or.inr (Or.inr rfl)) _ _
  | inc | dec => exact builds_liftIncDec hpass hs _ _
  | cmp | test => exact builds_liftCompare hpass hs _ _ _ fun _ _ _ _ => rfl
  | jz | jnz | js | jns | jo | jno | jb | jnb | jbe | jnbe | jl | jnl | jle | jnle =>
    simp [flagRequestForJcc] at hends
  | jmp =>
    have hnone : ctx.blockNames di.relativeTarget = none := by
      simpa [flagRequestForJcc] using hends
    simp only [liftJmp, hnone]
    exact builds_pushNop hs rfl rfl rfl
  | call => exact builds_liftCall hpass hs di hresult hlhs
  | jp | jnp | ret | retf | loop | loope | loopne | other => exact hskip

end ByValue

/-- A condition is materialised in order exactly when the operands it reads are known. -/
lemma builds_materialiseCond (hs : liftView.Ready s) (request : FlagRequest)
    (hpassed : ∀ v ∈ s.flagState.consulted request, liftView.Passed s v) :
    liftView.Builds (materialiseCond request) s
      (OperandRead s (∀ v ∈ s.flagState.consulted request, liftView.Known s v)) := by
  have hready : (FlagState.emissionView s.nextVregId).Ready ⟨s.block, 0⟩ :=
    ⟨hs.isOpen, hs.base_le, hs.below⟩
  have hconsults : FlagState.Consults s.nextVregId
      (s.flagState.materialise (s.nextVregId + ·) request) (s.flagState.consulted request) :=
    FlagState.consults_materialise request
  obtain ⟨v, e, hrun, hopen, hgrows, houtcome⟩ := hconsults ⟨s.block, 0⟩ hready hpassed
  refine ⟨v, { s with block := e.block, nextVregId := s.nextVregId + e.taken }, ?_, hopen, hgrows,
    rfl, houtcome.passed, houtcome.iff⟩
  have hget : (get : LiftM LiftState).run s = .ok s s := rfl
  rw [materialiseCond, run_bind_of_ok hget, hrun]
  rfl

/-- Appending a terminator. -/
lemma exists_run_pushInst_of_isTerminator (hs : liftView.Ready s) {i : IRInst}
    (hterm : i.isTerminator = true) (hdst : i.dst = none) :
    ∃ t, (pushInst i).run s = .ok () t ∧ t.block.isTerminated = true ∧ liftView.Grows s t ∧
      t.flagState = s.flagState ∧
      (liftView.Closed t ↔ liftView.Closed s ∧ ∀ v ∈ i.operands, liftView.Known s v) := by
  refine ⟨s.emit 0 [i], run_pushInst hs.isOpen i, ?_,
    ⟨[i], rfl, Fresh.of_destination_eq_none (by simp [destination, hdst])⟩, rfl,
    closed_iff_of_code_eq (V := liftView) (s := s) (i := i) rfl⟩
  simp [IRBasicBlock.isTerminated, hterm]

/-- The instruction that ends a block is in order exactly when the operands it reads from the flag
record are known. -/
theorem exists_run_liftInstr_of_endsBlock (hs : liftView.Ready s) {di : DecodedInstr}
    (hends : di.endsBlock ctx = true)
    (hpassed : ∀ v ∈ di.consulted s.flagState, liftView.Passed s v) :
    ∃ t, (liftInstr ctx di).run s = .ok () t ∧ t.block.isTerminated = true ∧
      liftView.Grows s t ∧ t.flagState = s.flagState ∧ (liftView.Closed t ↔
        liftView.Closed s ∧ ∀ v ∈ di.consulted s.flagState, liftView.Known s v) := by
  cases hrequest : flagRequestForJcc di.zydis.mnemonic with
  | some request =>
    have hconsulted : di.consulted s.flagState = s.flagState.consulted request := by
      simp [DecodedInstr.consulted, hrequest]
    rw [hconsulted] at hpassed ⊢
    obtain ⟨cond, s₁, hrun, hopen, hgrows, hcond⟩ := builds_materialiseCond hs request hpassed
    obtain ⟨t, hpush, hterm, hgrows', hflags, hclosed⟩ := exists_run_pushInst_of_isTerminator
      (hs.grows hgrows hopen) (i := .makeCjmp cond (labelAt ctx di.relativeTarget)
        (labelAt ctx di.nextVA)) rfl rfl
    refine ⟨t, ?_, hterm, hgrows.trans hgrows', hflags.trans hcond.flags, ?_⟩
    · rw [liftInstr_eq_liftJcc hrequest, liftJcc, hrequest]
      exact (run_bind_of_ok hrun _).trans hpush
    · rw [hclosed, ← hcond.outcome.iff]
      simp [IRInst.makeCjmp]
  | none =>
    have hjmp : di.zydis.mnemonic = .jmp ∧ (ctx.blockNames di.relativeTarget).isSome = true := by
      simpa [DecodedInstr.endsBlock, hrequest] using hends
    obtain ⟨label, hlabel⟩ := Option.isSome_iff_exists.mp hjmp.2
    obtain ⟨t, hpush, hterm, hgrows, hflags, hclosed⟩ :=
      exists_run_pushInst_of_isTerminator hs (i := .makeJmp label) rfl rfl
    refine ⟨t, ?_, hterm, hgrows, hflags, ?_⟩
    · have heq : liftInstr ctx di = pushInst (.makeJmp label) := by
        rw [liftInstr.eq_def]
        simp only [hjmp.1, liftJmp, hlabel]
      rw [heq, hpush]
    · rw [hclosed]
      simp [DecodedInstr.consulted, hrequest, IRInst.makeJmp]

end FunctionLifter

end InstaX
