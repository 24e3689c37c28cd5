import InstaX.Lifter.DefinedBeforeUse
import InstaX.Lifter.OperandTypes
import InstaX.Lifter.RegisterWrites

/-!
# Types of lifted instructions

For each instruction, when the code that is lifted from it is typed and every register is written
with a value of its own type (`ZydisDecodedInstruction.LiftsTyped`).  The instructions that compute
ask for operands of one width, and most of them get it; `MOV` extends its source after it was moved,
and `LEA` uses 64 bits of a temporary of 16.
-/

namespace InstaX

open Throwing RegisterCode TypeSystem Tracing FunctionLifter

/-- The value has the type of the register written. -/
def RegWrite.KeepsType (w : RegWrite) : Prop := w.val.type = typeOfReg w.reg

namespace ZydisDecodedOperand

/-- The operand can be read at the type: a register has it, and an address is a sum of words. -/
def ReadsAt (op : ZydisDecodedOperand) (ty : IRType) : Prop :=
  match op.type with
  | .register => typeOfReg op.reg = ty
  | .immediate => True
  | .memory => op.mem.AddsWords
  | .unused | .pointer => ty = .i64

/-- The code that reads the operand at the type is typed, and so is what is read. -/
lemma readsAt_iff {op : ZydisDecodedOperand} {ty : IRType} :
    op.ReadsAt ty ↔ op.AddsWords ∧ op.readType ty = ty := by
  unfold ReadsAt AddsWords readType
  cases op.type <;> simp [eq_comm]

instance (op : ZydisDecodedOperand) (ty : IRType) : Decidable (op.ReadsAt ty) :=
  decidable_of_iff _ readsAt_iff.symm

end ZydisDecodedOperand

namespace ZydisDecodedInstruction

/-- The source of an extending move is narrower than its destination. -/
def Widens (z : ZydisDecodedInstruction) : Prop :=
  ((z.op 1).readType (extSrcType (z.op 1))).Narrower (typeOfReg (z.op 0).reg)

instance (z : ZydisDecodedInstruction) : Decidable z.Widens :=
  inferInstanceAs (Decidable (IRType.Narrower _ _))

/-- What the cases of `liftInstr` count on: addresses that add 64-bit words, operands of the width
of the operation, and values that are narrower than what they are extended to. -/
def LiftsTyped (ctx : LiftContext) (z : ZydisDecodedInstruction) : Prop :=
  match z.mnemonic with
  | .mov =>
    (z.op 0).AddsWords ∧ (z.op 1).AddsWords ∧ z.Widens ∧
      ((z.op 0).type = .register → (z.op 1).ReadsAt (typeOfReg (z.op 0).reg))
  | .movzx | .movsx | .movsxd => (z.op 1).AddsWords ∧ z.Widens
  | .lea =>
    (z.op 1).mem.AddsWords ∧ typeOfReg (z.op 0).reg = .i64 ∧
      (ctx.passing = .byReference → gprVRegId (canonicalReg (z.op 0).reg) = none)
  | .add | .sub =>
    (z.op 0).ReadsAt (arithType (z.op 0)) ∧ (z.op 1).ReadsAt (arithType (z.op 0))
  | .and | .or | .xor =>
    (z.op 0).ReadsAt (ctx.destWidth (z.op 0) (z.op 1)) ∧
      (z.op 1).ReadsAt (ctx.destWidth (z.op 0) (z.op 1))
  | .cmp | .test =>
    (z.op 0).ReadsAt (cmpType ctx (z.op 0)) ∧ (z.op 1).ReadsAt (cmpType ctx (z.op 0))
  | .not | .neg => (z.op 0).AddsWords
  | .inc | .dec => (z.op 0).ReadsAt (typeOfReg (z.op 0).reg)
  | .imul =>
    if z.operandCountVisible = 1 then (z.op 0).ReadsAt .i64
    else if z.operandCountVisible = 2 then
      (z.op 0).ReadsAt (typeOfReg (z.op 0).reg) ∧ (z.op 1).ReadsAt (typeOfReg (z.op 0).reg)
    else (z.op 1).ReadsAt (typeOfReg (z.op 0).reg) ∧ (z.op 2).ReadsAt (typeOfReg (z.op 0).reg)
  | .idiv | .div => (z.op 0).ReadsAt .i64
  | .shl | .shr | .sar =>
    (z.op 0).ReadsAt (typeOfReg (z.op 0).reg) ∧ (z.op 1).AddsWords ∧
      ((z.op 1).readType .i8).Narrower (typeOfReg (z.op 0).reg)
  | .call => (z.op 0).AddsWords
  | _ => True

instance (ctx : LiftContext) (z : ZydisDecodedInstruction) : Decidable (z.LiftsTyped ctx) := by
  unfold LiftsTyped
  generalize z.mnemonic = mnemonic
  induction mnemonic using ZydisMnemonic.casesOn <;> infer_instance

end ZydisDecodedInstruction

/-! ## Recorded programs that append typed code -/

namespace WriteRecord

variable {ctx : LiftContext} {pre : List IRInst} {s t : LiftState} {v w : IRValue} {α β : Type}
  {good good' : Prop} {ty τ : IRType}

/-- The recorded program returns and appends code, in which all is typed and by which every register
is written with a value of its type exactly when the condition holds. -/
def Lifts (pre : List IRInst) (act : Traced RegWrite LiftState α) (s : LiftState) (good : Prop)
    (Q : α → LiftState → Prop) : Prop :=
  ∀ ws, ∃ a t is added, act.run (s, ws) = .ok a (t, ws ++ added) ∧
    (typedView pre).code t = (typedView pre).code s ++ is ∧ irTypes.Settled (typedView pre) t ∧
    s.nextVregId ≤ t.nextVregId ∧ irTypes.Later s.nextVregId is ∧
    ((∀ i ∈ is, irTypes.Typed ((typedView pre).code t) i) ∧ (∀ w ∈ added, w.KeepsType) ↔ good) ∧
    Q a t

/-- The same of a program that leaves the block open. -/
def Checks (pre : List IRInst) (act : Traced RegWrite LiftState α) (s : LiftState) (good : Prop)
    (Q : α → LiftState → Prop) : Prop :=
  Lifts pre act s good fun a t => t.Open ∧ Q a t

section Rules

variable {act : Traced RegWrite LiftState α} {f : α → Traced RegWrite LiftState β}
  {P Q : α → LiftState → Prop} {R : β → LiftState → Prop}

/-- Code in two parts is typed exactly when both parts are. -/
lemma Lifts.bind (h : Lifts pre act s good P)
    (hf : ∀ a t, irTypes.Settled (typedView pre) t → irTypes.Grows (typedView pre) s t → P a t →
      Lifts pre (f a) t good' R) : Lifts pre (act >>= f) s (good ∧ good') R := by
  intro ws
  obtain ⟨a, t, is, added, hrun, hcode, ht, hnext, his, hgood, hP⟩ := h ws
  obtain ⟨b, u, js, added', hrun', hcode', hu, hnext', hjs, hgood', hR⟩ :=
    hf a t ht ⟨hnext, is, hcode, his⟩ hP (ws ++ added)
  refine ⟨b, u, is ++ js, added ++ added', ?_, ?_, hu, hnext.trans hnext', his.append hjs hnext,
    ?_, hR⟩
  · rw [run_bind_of_ok hrun, hrun', List.append_assoc]
  · rw [hcode', hcode, List.append_assoc]
  · have hfirst : (∀ i ∈ is, irTypes.Typed ((typedView pre).code u) i) ↔
        ∀ i ∈ is, irTypes.Typed ((typedView pre).code t) i := by
      refine forall₂_congr fun i hi => Grows.typed_iff ht ⟨hnext', js, hcode', hjs⟩ ?_
      rw [hcode]
      exact List.mem_append_right _ hi
    rw [List.forall_mem_append, List.forall_mem_append, hfirst, ← hgood, ← hgood', and_and_and_comm]

lemma Lifts.mono (h : Lifts pre act s good P) (hiff : good ↔ good')
    (hPQ : ∀ a t, irTypes.Grows (typedView pre) s t → P a t → Q a t) :
    Lifts pre act s good' Q := by
  intro ws
  obtain ⟨a, t, is, added, hrun, hcode, ht, hnext, his, hgood, hP⟩ := h ws
  exact ⟨a, t, is, added, hrun, hcode, ht, hnext, his, hgood.trans hiff,
    hPQ a t ⟨hnext, is, hcode, his⟩ hP⟩

/-- Judgements are made one after the other. -/
lemma Checks.bind (h : Checks pre act s good P)
    (hf : ∀ a t, t.Open → irTypes.Settled (typedView pre) t → irTypes.Grows (typedView pre) s t →
      P a t → Checks pre (f a) t good' R) : Checks pre (act >>= f) s (good ∧ good') R :=
  Lifts.bind h fun a t ht hgrows ⟨hopen, hP⟩ => hf a t hopen ht hgrows hP

lemma Checks.mono (h : Checks pre act s good P) (hiff : good ↔ good')
    (hPQ : ∀ a t, irTypes.Grows (typedView pre) s t → P a t → Q a t) : Checks pre act s good' Q :=
  Lifts.mono h hiff fun a t hgrows ⟨hopen, hP⟩ => ⟨hopen, hPQ a t hgrows hP⟩

lemma Checks.congr (h : Checks pre act s good P) (hiff : good ↔ good') : Checks pre act s good' P :=
  h.mono hiff fun _ _ _ hP => hP

/-- A program that writes no register. -/
lemma Checks.of_silent {act : LiftM α} (h : irTypes.TypedWhen (typedView pre) act s good P) :
    Checks pre (silent act) s good P := by
  intro ws
  obtain ⟨a, t, is, hrun, hcode, hopen, ht, hnext, his, hgood, hP⟩ := h
  refine ⟨a, t, is, [], ?_, hcode, ht, hnext, his, ?_, hopen, hP⟩
  · rw [List.append_nil]
    exact run_silent_eq_ok_iff.mpr ⟨hrun, rfl⟩
  · rw [← hgood]
    simp

/-- Code in two parts, of which the first writes no register. -/
lemma Checks.silent_bind {act : LiftM α} (h : irTypes.TypedWhen (typedView pre) act s good P)
    (hf : ∀ a t, t.Open → irTypes.Settled (typedView pre) t → irTypes.Grows (typedView pre) s t →
      P a t → Checks pre (f a) t good' R) : Checks pre (silent act >>= f) s (good ∧ good') R :=
  (Checks.of_silent h).bind hf

end Rules

/-! ## Writes -/

section Writes

variable (hopen : s.Open) (hs : irTypes.Settled (typedView pre) s)

include hopen hs

/-- When a write to a register is typed and of the width of the register. -/
lemma checks_writeReg_of_passed (reg : ZydisRegister) {val : IRValue}
    (hval : (typedView pre).Passed s val) :
    Checks pre (writeReg ctx reg val) s (WriteKeeps ctx pre reg val s ∧ val.type = typeOfReg reg)
      fun _ t => t.flagState = s.flagState := by
  intro ws
  obtain ⟨a, t, is, hrun, hcode, hopen', ht, hnext, his, hgood, hflags⟩ :=
    @typedWhen_writeReg ctx pre s hopen hs reg val hval
  refine ⟨a, t, is, [⟨reg, val⟩], ?_, hcode, ht, hnext, his, ?_, hopen', hflags⟩
  · rw [writeReg, run_bind_of_ok (run_emit _ _)]
    exact run_silent_eq_ok_iff.mpr ⟨hrun, rfl⟩
  · rw [hgood, List.forall_mem_singleton]
    rfl

/-- Writing a register is typed exactly when the value has the type of the register. -/
lemma checks_writeReg (reg : ZydisRegister) {val : IRValue}
    (hval : irTypes.HasOperand (typedView pre) s val τ) :
    Checks pre (writeReg ctx reg val) s (τ = typeOfReg reg)
      fun _ t => t.flagState = s.flagState := by
  refine (checks_writeReg_of_passed hopen hs reg hval.passed).congr ?_
  have htype : val.type = τ := hval.type
  rw [htype]
  refine and_iff_right_of_imp ?_
  rintro rfl - -
  refine ⟨hval.agrees, fun hne => ?_⟩
  rw [htype]
  exact typeOfReg_narrower hne

/-- Writing a 64-bit value that does not agree with the code is typed where nothing of it is
kept. -/
lemma checks_writeReg_of_not_agrees (reg : ZydisRegister) {val : IRValue} (htype : val.type = .i64)
    (hval : (typedView pre).Passed s val)
    (hagrees : ¬ irTypes.Agrees ((typedView pre).code s) val) :
    Checks pre (writeReg ctx reg val) s (typeOfReg reg = .i64 ∧
      (ctx.passing = .byReference → gprVRegId (canonicalReg reg) = none))
      fun _ t => t.flagState = s.flagState := by
  refine (checks_writeReg_of_passed hopen hs reg hval).congr ?_
  rw [htype, WriteKeeps, and_comm, eq_comm]
  simp [hagrees]

/-- Writing an operand is typed exactly when a register gets a value of its type and an address is a
sum of words. -/
lemma checks_writeOperand (op : ZydisDecodedOperand) {val : IRValue}
    (hval : irTypes.HasOperand (typedView pre) s val τ) :
    Checks pre (writeOperand ctx op val) s
      ((op.type = .register → τ = typeOfReg op.reg) ∧ op.AddsWords)
      fun _ t => t.flagState = s.flagState := by
  unfold writeOperand
  split
  · rename_i hreg
    refine (checks_writeReg hopen hs op.reg hval).congr ?_
    simp [ZydisDecodedOperand.AddsWords, hreg]
  · rename_i hreg
    exact (Checks.of_silent (typedWhen_storeOperand hopen hs op hreg hval)).congr (by simp [hreg])

end Writes

/-! ## The recorded flags -/

/-- The flag record agrees with the code. -/
def RecordTyped (pre : List IRInst) (s : LiftState) : Prop :=
  FlagState.RecordAgrees (typedView pre) s s.flagState

/-- A typed record stays typed while code is appended. -/
lemma RecordTyped.grows (h : RecordTyped pre s) (hgrows : irTypes.Grows (typedView pre) s t)
    (hflags : t.flagState = s.flagState) : RecordTyped pre t := by
  unfold RecordTyped
  rw [hflags]
  exact FlagState.RecordAgrees.grows h hgrows

/-- The result of an operation, whose flags were recorded. -/
structure Recorded (pre : List IRInst) (ty : IRType) (v : IRValue) (t : LiftState) : Prop where
  operand : irTypes.HasOperand (typedView pre) t v ty
  record : RecordTyped pre t

section Flags

variable (hopen : s.Open) (hs : irTypes.Settled (typedView pre) s)

include hopen hs

/-- A program that only changes the flag record. -/
lemma typedWhen_flags {act : LiftM Unit} {fs : FlagState}
    (hrun : act.run s = .ok () { s with flagState := fs })
    (hrecord : FlagState.RecordAgrees (typedView pre) s fs) :
    irTypes.TypedWhen (typedView pre) act s True fun _ t => RecordTyped pre t :=
  ⟨(), { s with flagState := fs }, [], hrun, by simp [typedView], hopen,
    ⟨hs.base_le, hs.behind, hs.fixed⟩, le_rfl, later_nil, by simp, hrecord⟩

/-- Recording typed operands keeps the record typed. -/
lemma typedWhen_setFlags {op : FlagOp} {result lhs rhs : IRValue} {τ' : IRType}
    (hresult : irTypes.HasOperand (typedView pre) s result τ)
    (hlhs : irTypes.HasOperand (typedView pre) s lhs τ') :
    irTypes.TypedWhen (typedView pre) (setFlags op result lhs rhs ty) s True
      fun _ t => RecordTyped pre t := by
  refine typedWhen_flags hopen hs rfl fun v hv => ?_
  rcases List.mem_pair.mp hv with rfl | rfl
  · exact ⟨hresult.passed, hresult.agrees⟩
  · exact ⟨hlhs.passed, hlhs.agrees⟩

/-- Invalidating does so, too. -/
lemma typedWhen_invalidateFlags (hrecord : RecordTyped pre s) :
    irTypes.TypedWhen (typedView pre) invalidateFlags s True fun _ t => RecordTyped pre t :=
  typedWhen_flags hopen hs rfl hrecord

/-- A binary operation with its flag record is typed exactly when both operands are read at its
type. -/
lemma typedWhen_liftBinop {op : Opcode} (hop : op.isBinary = true) {name : String} (fop : FlagOp)
    (ty : IRType) (x y : ZydisDecodedOperand)
    (hterm : ∀ id l r, (IRInst.makeBinop op ⟨id, name⟩ ty l r).isTerminator = false) :
    irTypes.TypedWhen (typedView pre) (liftBinop ctx op name fop ty x y) s
      (x.ReadsAt ty ∧ y.ReadsAt ty) (Recorded pre ty) := by
  unfold liftBinop binopCode
  simp only [bind_assoc, pure_bind]
  refine TypedWhen.congr ((typedWhen_readOperand hopen hs x ty).bind
    fun lhs s₁ hopen₁ hs₁ h₁ hlhs =>
    (typedWhen_readOperand hopen₁ hs₁ y ty).bind fun rhs s₂ hopen₂ hs₂ h₂ hrhs =>
      (typedWhen_defineBinop hop hopen₂ hs₂ (fun id => hterm id lhs rhs) (hlhs.operand.grows h₂)
        hrhs.operand).bind fun result s₃ hopen₃ hs₃ h₃ hresult =>
          (typedWhen_setFlags hopen₃ hs₃ hresult.operand
            (hlhs.operand.grows (h₂.trans h₃))).bind fun _ s₄ hopen₄ hs₄ h₄ hrecord =>
              TypedWhen.pure hopen₄ hs₄ ⟨hresult.operand.grows h₄, hrecord⟩) ?_
  simp only [ZydisDecodedOperand.readsAt_iff]
  tauto

/-- The record of a `NEG`, and the write of its result. -/
lemma checks_recordNeg {src : IRValue} (isNeg : Bool) (hrecord : RecordTyped pre s)
    (op : ZydisDecodedOperand) (hv : irTypes.HasOperand (typedView pre) s v (typeOfReg op.reg)) :
    Checks pre (do
      if isNeg then
        silent (setFlags .sub v (.makeImm 0 (typeOfReg op.reg)) src (typeOfReg op.reg))
      writeOperand ctx op v) s op.AddsWords fun _ t => RecordTyped pre t := by
  cases isNeg with
  | true =>
    refine Checks.congr (Checks.silent_bind (typedWhen_setFlags hopen hs hv
      (computed_imm 0 (typeOfReg op.reg)).operand) fun _ s₁ hopen₁ hs₁ h₁ hrecord₁ => Checks.mono
        (checks_writeOperand hopen₁ hs₁ op (hv.grows h₁)) Iff.rfl
        fun _ t h₂ hflags => hrecord₁.grows h₂ hflags) ?_
    simp
  | false =>
    refine (checks_writeOperand hopen hs op hv).mono ?_ fun _ t h hflags => hrecord.grows h hflags
    simp

end Flags

/-! ## Instructions that record their flags -/

section Recording

variable (hopen : s.Open) (hs : irTypes.Settled (typedView pre) s) (z : ZydisDecodedInstruction)

include hopen hs

/-- When an arithmetic instruction is typed. -/
lemma checks_liftArith {op : Opcode} (hop : op.isBinary = true) (name : String) (fop : FlagOp)
    (ty : IRType)
    (hterm : ∀ id l r, (IRInst.makeBinop op ⟨id, name⟩ ty l r).isTerminator = false) :
    Checks pre (liftArith ctx op name fop ty z) s ((z.op 0).ReadsAt ty ∧ (z.op 1).ReadsAt ty)
      fun _ t => RecordTyped pre t := by
  unfold liftArith
  refine Checks.congr (Checks.silent_bind (typedWhen_liftBinop hopen hs hop fop ty _ _ hterm)
    fun result s₁ hopen₁ hs₁ h₁ hresult => Checks.mono
      (checks_writeOperand hopen₁ hs₁ (z.op 0) hresult.operand) Iff.rfl
      fun _ t h₂ hflags => hresult.record.grows h₂ hflags) ?_
  refine and_iff_left_of_imp ?_
  rintro ⟨hread, -⟩
  obtain ⟨haddr, htype⟩ := ZydisDecodedOperand.readsAt_iff.mp hread
  exact ⟨fun hreg => by rw [← htype, ZydisDecodedOperand.readType, hreg], haddr⟩

/-- When a comparison is typed. -/
lemma checks_liftCompare {op : Opcode} (hop : op.isBinary = true) (name : String) (fop : FlagOp)
    (hterm : ∀ id l r,
      (IRInst.makeBinop op ⟨id, name⟩ (cmpType ctx (z.op 0)) l r).isTerminator = false) :
    Checks pre (silent (liftCompare ctx op name fop z)) s
      ((z.op 0).ReadsAt (cmpType ctx (z.op 0)) ∧ (z.op 1).ReadsAt (cmpType ctx (z.op 0)))
      fun _ t => RecordTyped pre t := by
  unfold liftCompare
  refine Checks.of_silent (TypedWhen.congr ((typedWhen_liftBinop hopen hs hop fop _ _ _ hterm).bind
    fun result s₁ hopen₁ hs₁ _ hresult => TypedWhen.pure hopen₁ hs₁ hresult.record) ?_)
  rw [and_true]

/-- When `INC` and `DEC` are typed. -/
lemma checks_liftIncDec (isDec : Bool) :
    Checks pre (liftIncDec ctx isDec z) s ((z.op 0).ReadsAt (typeOfReg (z.op 0).reg))
      fun _ t => RecordTyped pre t := by
  unfold liftIncDec
  refine Checks.congr (Checks.silent_bind (typedWhen_readOperand hopen hs _ _)
    fun src s₁ hopen₁ hs₁ h₁ hsrc => Checks.silent_bind (typedWhen_defineBinop
      (by cases isDec <;> rfl) hopen₁ hs₁ (fun _ => by cases isDec <;> rfl) hsrc.operand
      (computed_imm 1 (typeOfReg (z.op 0).reg)).operand) fun result s₂ hopen₂ hs₂ h₂ hresult =>
        Checks.silent_bind (typedWhen_setFlags hopen₂ hs₂ hresult.operand (hsrc.operand.grows h₂))
          fun _ s₃ hopen₃ hs₃ h₃ hrecord₃ => Checks.mono
            (checks_writeOperand hopen₃ hs₃ (z.op 0) (hresult.operand.grows h₃)) Iff.rfl
            fun _ t h₄ hflags => hrecord₃.grows h₄ hflags) ?_
  simp [ZydisDecodedOperand.readsAt_iff]
  tauto

/-- When `IMUL` is typed, by the number of its operands. -/
lemma checks_liftImul :
    Checks pre (liftImul ctx z) s (if z.operandCountVisible = 1 then (z.op 0).ReadsAt .i64
      else if z.operandCountVisible = 2 then
        (z.op 0).ReadsAt (typeOfReg (z.op 0).reg) ∧ (z.op 1).ReadsAt (typeOfReg (z.op 0).reg)
      else (z.op 1).ReadsAt (typeOfReg (z.op 0).reg) ∧ (z.op 2).ReadsAt (typeOfReg (z.op 0).reg))
      fun _ t => RecordTyped pre t := by
  unfold liftImul
  split
  · refine Checks.congr (Checks.silent_bind (typedWhen_readReg hopen hs .rax)
      fun rax s₁ hopen₁ hs₁ h₁ hrax => Checks.silent_bind (typedWhen_readOperand hopen₁ hs₁ _ _)
        fun src s₂ hopen₂ hs₂ h₂ hsrc => Checks.silent_bind
          (typedWhen_defineBinop rfl hopen₂ hs₂ (fun _ => rfl) (hrax.operand.grows h₂) hsrc.operand)
          fun lo s₃ hopen₃ hs₃ h₃ hlo => (checks_writeReg hopen₃ hs₃ .rax hlo.operand).bind
            fun _ s₄ hopen₄ hs₄ h₄ _ => (checks_writeReg hopen₄ hs₄ .rdx
              (computed_imm 0 .i64).operand).bind fun _ s₅ hopen₅ hs₅ h₅ _ => Checks.of_silent
                (typedWhen_setFlags hopen₅ hs₅ (hlo.operand.grows (h₄.trans h₅))
                  (hrax.operand.grows (h₂.trans (h₃.trans (h₄.trans h₅)))))) ?_
    simp [ZydisDecodedOperand.readsAt_iff, typeOfReg]
  · split
    · refine Checks.congr (Checks.silent_bind (typedWhen_liftBinop hopen hs rfl .imul _ _ _
        fun _ _ _ => rfl) fun result s₁ hopen₁ hs₁ h₁ hresult => Checks.mono
          (checks_writeReg hopen₁ hs₁ (z.op 0).reg hresult.operand) Iff.rfl
          fun _ t h₂ hflags => hresult.record.grows h₂ hflags) ?_
      simp
    · refine Checks.congr (Checks.silent_bind (typedWhen_liftBinop hopen hs rfl .imul _ _ _
        fun _ _ _ => rfl) fun result s₁ hopen₁ hs₁ h₁ hresult => Checks.mono
          (checks_writeReg hopen₁ hs₁ (z.op 0).reg hresult.operand) Iff.rfl
          fun _ t h₂ hflags => hresult.record.grows h₂ hflags) ?_
      simp

/-- When a shift is typed. -/
lemma checks_liftShift {op : Opcode} (hop : op = .shl ∨ op = .lshr ∨ op = .ashr) (fop : FlagOp) :
    Checks pre (liftShift ctx op fop z) s ((z.op 0).ReadsAt (typeOfReg (z.op 0).reg) ∧
      (z.op 1).AddsWords ∧ ((z.op 1).readType .i8).Narrower (typeOfReg (z.op 0).reg))
      fun _ t => RecordTyped pre t := by
  have hbinary : op.isBinary = true := by
    rcases hop with rfl | rfl | rfl <;> rfl
  unfold liftShift
  refine Checks.congr (Checks.silent_bind (typedWhen_readOperand hopen hs _ _)
    fun val s₁ hopen₁ hs₁ h₁ hval => Checks.silent_bind (typedWhen_readOperand hopen₁ hs₁ _ _)
      fun amt s₂ hopen₂ hs₂ h₂ hamt => Checks.silent_bind
        (typedWhen_defineExt (Or.inl rfl) hopen₂ hs₂ hamt.operand)
        fun ext s₃ hopen₃ hs₃ h₃ hext => Checks.silent_bind
          (typedWhen_defineBinop hbinary hopen₃ hs₃
          (fun _ => by rcases hop with rfl | rfl | rfl <;> rfl)
          (hval.operand.grows (h₂.trans h₃)) hext.operand)
          fun result s₄ hopen₄ hs₄ h₄ hresult => Checks.silent_bind
            (typedWhen_setFlags hopen₄ hs₄ hresult.operand
              (hval.operand.grows (h₂.trans (h₃.trans h₄))))
            fun _ s₅ hopen₅ hs₅ h₅ hrecord₅ => Checks.mono
              (checks_writeOperand hopen₅ hs₅ (z.op 0) (hresult.operand.grows h₅)) Iff.rfl
              fun _ t h₆ hflags => hrecord₅.grows h₆ hflags) ?_
  simp [ZydisDecodedOperand.readsAt_iff]
  tauto

end Recording

/-! ## Instructions that keep the recorded flags, or forget them -/

section Keeping

variable (hopen : s.Open) (hs : irTypes.Settled (typedView pre) s) (hrecord : RecordTyped pre s)
  (z : ZydisDecodedInstruction)

include hopen hs hrecord

/-- When an extending move is typed. -/
lemma checks_liftMovExt {castOp : Opcode} (hcast : castOp = .zext ∨ castOp = .sext)
    (name : String) :
    Checks pre (liftMovExt ctx castOp name z) s ((z.op 1).AddsWords ∧ z.Widens)
      fun _ t => RecordTyped pre t := by
  unfold liftMovExt
  refine Checks.congr (Checks.silent_bind (typedWhen_readOperand hopen hs _ _)
    fun src s₁ hopen₁ hs₁ h₁ hsrc => Checks.silent_bind (typedWhen_defineExt hcast hopen₁ hs₁
      hsrc.operand) fun val s₂ hopen₂ hs₂ h₂ hval => Checks.mono
        (checks_writeReg hopen₂ hs₂ (z.op 0).reg hval.operand) Iff.rfl fun _ t h₃ hflags =>
          hrecord.grows (h₁.trans (h₂.trans h₃)) (hflags.trans (hval.flags.trans hsrc.flags))) ?_
  simp [ZydisDecodedInstruction.Widens]

/-- A `MOV` writes its source, and then falls through and writes it again. -/
lemma checks_liftMov :
    Checks pre (do liftMov ctx z; liftMovExt ctx .zext "movzx" z) s
      ((z.op 0).AddsWords ∧ (z.op 1).AddsWords ∧ z.Widens ∧
        ((z.op 0).type = .register → (z.op 1).ReadsAt (typeOfReg (z.op 0).reg)))
      fun _ t => RecordTyped pre t := by
  have hmov : Checks pre (liftMov ctx z) s ((z.op 1).AddsWords ∧
      ((z.op 0).type = .register →
        (z.op 1).readType (movType (z.op 0) (z.op 1)) = typeOfReg (z.op 0).reg) ∧
      (z.op 0).AddsWords) fun _ t => RecordTyped pre t := by
    unfold liftMov
    exact Checks.silent_bind (typedWhen_readOperand hopen hs _ _) fun src s₁ hopen₁ hs₁ h₁ hsrc =>
      Checks.mono (checks_writeOperand hopen₁ hs₁ (z.op 0) hsrc.operand) Iff.rfl
        fun _ t h₂ hflags => hrecord.grows (h₁.trans h₂) (hflags.trans hsrc.flags)
  refine Checks.congr (hmov.bind fun _ t hopen' ht _ hrecord' =>
    checks_liftMovExt hopen' ht hrecord' z (Or.inl rfl) "movzx") ?_
  have htype : (z.op 0).type = .register →
      movType (z.op 0) (z.op 1) = typeOfReg (z.op 0).reg := fun h => if_pos h
  simp only [ZydisDecodedOperand.readsAt_iff]
  by_cases hreg : (z.op 0).type = .register
  · simp only [hreg, htype hreg, forall_true_left]
    tauto
  · simp only [hreg, false_implies]
    tauto

/-- The temporary of `LEA` is defined at 16 bits, and the write uses it at 64. -/
lemma checks_liftLea :
    Checks pre (liftLea ctx z) s ((z.op 1).mem.AddsWords ∧ typeOfReg (z.op 0).reg = .i64 ∧
      (ctx.passing = .byReference → gprVRegId (canonicalReg (z.op 0).reg) = none))
      fun _ t => RecordTyped pre t := by
  unfold liftLea
  refine Checks.congr (Checks.silent_bind (typedWhen_computeAddr hopen hs _)
    fun addr s₁ hopen₁ hs₁ h₁ haddr => Checks.silent_bind
      (typedWhen_ptrtoint hopen₁ hs₁ "lea" haddr.operand)
      fun val s₂ hopen₂ hs₂ h₂ ⟨htype, hpassed, hagrees, hflags₂⟩ => Checks.mono
        (checks_writeReg_of_not_agrees hopen₂ hs₂ (z.op 0).reg htype hpassed hagrees) Iff.rfl
          fun _ t h₃ hflags => hrecord.grows (h₁.trans (h₂.trans h₃))
            (hflags.trans (hflags₂.trans haddr.flags))) ?_
  simp

/-- When `NEG` and `NOT` are typed. -/
lemma checks_liftUnary (isNeg : Bool) :
    Checks pre (liftUnary ctx isNeg z) s (z.op 0).AddsWords fun _ t => RecordTyped pre t := by
  unfold liftUnary
  refine Checks.congr (Checks.silent_bind (typedWhen_readOperand hopen hs _ _)
    fun src s₁ hopen₁ hs₁ h₁ hsrc => Checks.silent_bind
      (typedWhen_defineUnop isNeg hopen₁ hs₁ hsrc.operand) fun result s₂ hopen₂ hs₂ h₂ hresult =>
        checks_recordNeg hopen₂ hs₂ isNeg (hrecord.grows (h₁.trans h₂)
          (hresult.flags.trans hsrc.flags)) (z.op 0) hresult.operand) ?_
  simp +contextual

omit z in
/-- A division on two operands, with its writes. -/
lemma checks_divCode (isSigned : Bool) {x y : IRValue}
    (hx : irTypes.HasOperand (typedView pre) s x .i64)
    (hy : irTypes.HasOperand (typedView pre) s y τ) :
    Checks pre (do
      let qId ← silent newTemp
      let rId ← silent newTemp
      silent (pushInst (.makeBinop (if isSigned then .sdiv else .udiv) ⟨qId, "div_q"⟩ .i64 x y))
      silent (pushInst (.makeBinop (if isSigned then .srem else .urem) ⟨rId, "div_r"⟩ .i64 x y))
      writeReg ctx .rax (.makeVReg qId .i64)
      writeReg ctx .rdx (.makeVReg rId .i64)
      silent invalidateFlags) s (τ = .i64) fun _ t => RecordTyped pre t := by
  have htwo := @typedWhen_defineTwo pre s x y .i64 .i64 (if isSigned then .sdiv else .udiv)
    (if isSigned then .srem else .urem) "div_q" "div_r" τ (by cases isSigned <;> rfl)
    (by cases isSigned <;> rfl) hopen hs (fun _ => by cases isSigned <;> rfl)
    (fun _ => by cases isSigned <;> rfl) hx hy
  have hwrites : Checks pre _ s _ fun _ t => RecordTyped pre t :=
    Checks.silent_bind htwo fun p s₁ hopen₁ hs₁ h₁ ⟨hq, hr⟩ =>
      (@checks_writeReg ctx pre s₁ _ hopen₁ hs₁ .rax _ hq.operand).bind
        fun _ s₂ hopen₂ hs₂ h₂ hflags₂ =>
          (@checks_writeReg ctx pre s₂ _ hopen₂ hs₂ .rdx _ (hr.operand.grows h₂)).bind
            fun _ s₃ hopen₃ hs₃ h₃ hflags₃ => Checks.of_silent (typedWhen_invalidateFlags hopen₃ hs₃
              (hrecord.grows (h₁.trans (h₂.trans h₃)) (hflags₃.trans (hflags₂.trans hq.flags))))
  simp only [silent_bind, silent_pure, bind_assoc, pure_bind] at hwrites
  refine Checks.congr hwrites ?_
  simp [typeOfReg]

/-- When a division is typed. -/
lemma checks_liftDiv (isSigned : Bool) :
    Checks pre (liftDiv ctx isSigned z) s ((z.op 0).ReadsAt .i64) fun _ t => RecordTyped pre t := by
  unfold liftDiv
  refine Checks.congr (Checks.silent_bind (typedWhen_readReg hopen hs .rax)
    fun rax s₁ hopen₁ hs₁ h₁ hrax => Checks.silent_bind (typedWhen_readOperand hopen₁ hs₁ _ _)
      fun src s₂ hopen₂ hs₂ h₂ hsrc => checks_divCode hopen₂ hs₂
        (hrecord.grows (h₁.trans h₂) (hsrc.flags.trans hrax.flags)) isSigned (hrax.operand.grows h₂)
        hsrc.operand) ?_
  simp [ZydisDecodedOperand.readsAt_iff]

omit z hrecord in
/-- When the target of a call is typed. -/
lemma typedWhen_callTarget (di : DecodedInstr) :
    irTypes.TypedWhen (typedView pre) (callTarget ctx di) s (di.zydis.op 0).AddsWords
      (Computed pre s .ptr) := by
  unfold callTarget
  dsimp only
  split
  · rename_i hdirect
    refine TypedWhen.congr (TypedWhen.pure hopen hs ⟨?_, rfl⟩) ?_
    · split <;> exact hasOperand_of_register_eq_none rfl rfl
    · simp [ZydisDecodedOperand.AddsWords, hdirect.1]
  · refine TypedWhen.congr ((typedWhen_readOperand hopen hs _ _).bind
      fun addr s₁ hopen₁ hs₁ _ haddr =>
      (typedWhen_inttoptr hopen₁ hs₁ "icall_ptr" haddr.operand).mono Iff.rfl
        fun _ _ _ h => haddr.trans h) ?_
    simp

omit z in
/-- When a call is typed. -/
lemma checks_liftCall (di : DecodedInstr) :
    Checks pre (liftCall ctx di) s (di.zydis.op 0).AddsWords fun _ t => RecordTyped pre t := by
  unfold liftCall
  refine Checks.congr (Checks.silent_bind (typedWhen_callTarget hopen hs di)
    fun callee s₁ hopen₁ hs₁ h₁ hcallee => Checks.silent_bind (typedWhen_defineUnary hopen₁ hs₁
      (fun _ => rfl) (fun _ => rfl) (fun _ => rfl) (fun _ => rfl) hcallee.operand
      fun _ => iff_of_true (IRInst.keepsTypes_of_other rfl) trivial)
      fun ret s₂ hopen₂ hs₂ h₂ hret => (checks_writeReg hopen₂ hs₂ .rax hret.operand).bind
        fun _ s₃ hopen₃ hs₃ h₃ hflags => Checks.of_silent (typedWhen_invalidateFlags hopen₃ hs₃
          (hrecord.grows (h₁.trans (h₂.trans h₃))
            (hflags.trans (hret.flags.trans hcallee.flags))))) ?_
  simp [typeOfReg]

end Keeping

end WriteRecord

end InstaX
