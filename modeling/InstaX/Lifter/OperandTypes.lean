import InstaX.Flags.TypedRecord
import InstaX.Lifter.Emitted

/-!
# Types of operands

A register operand is read at the type of its name, and an immediate or a memory operand at the type
that the caller asks for (`ZydisDecodedOperand.readType`); other operands are read as 64-bit zeros.
The code that reads and writes operands is typed, with either parameter passing, except for
addresses: they are summed at 64 bits, which a 32-bit base or index does not have
(`typedWhen_computeAddr`).
-/

namespace InstaX

open Throwing RegisterCode TypeSystem

/-- A register name outside the tables has 64 bits. -/
lemma typeOfReg_of_gprVRegId_eq_none {reg : ZydisRegister}
    (h : gprVRegId (canonicalReg reg) = none) : typeOfReg reg = .i64 := by
  cases reg <;> first | rfl | cases h

/-- A register name that has not 64 bits is narrower. -/
lemma typeOfReg_narrower {reg : ZydisRegister} (h : typeOfReg reg ≠ .i64) :
    (typeOfReg reg).Narrower .i64 := by
  cases reg <;> first | decide | exact absurd rfl h

namespace ZydisMem

/-- The code adds a displacement. -/
def HasDisp (mem : ZydisMem) : Prop := mem.disp.hasDisplacement = true ∧ mem.disp.value ≠ 0

instance (mem : ZydisMem) : Decidable mem.HasDisp := inferInstanceAs (Decidable (_ ∧ _))

/-- The index has 64 bits, and so has a base that something is added to. -/
def AddsWords (mem : ZydisMem) : Prop :=
  typeOfReg mem.index = .i64 ∧ (mem.index ≠ .none ∨ mem.HasDisp → typeOfReg mem.base = .i64)

instance (mem : ZydisMem) : Decidable mem.AddsWords := inferInstanceAs (Decidable (_ ∧ (_ → _)))

end ZydisMem

namespace ZydisDecodedOperand

/-- The address of a memory operand is a sum of 64-bit words. -/
def AddsWords (op : ZydisDecodedOperand) : Prop := op.type = .memory → op.mem.AddsWords

instance (op : ZydisDecodedOperand) : Decidable op.AddsWords :=
  inferInstanceAs (Decidable (_ → _))

/-- The type an operand is read at when the caller asks for `hint`. -/
def readType (op : ZydisDecodedOperand) (hint : IRType) : IRType :=
  match op.type with
  | .register => typeOfReg op.reg
  | .immediate | .memory => hint
  | .unused | .pointer => .i64

end ZydisDecodedOperand

namespace FunctionLifter

/-- The code of a function: what was emitted before, and the block under construction. -/
def typedView (pre : List IRInst) : View LiftState IRInst where
  base := 20
  code s := pre ++ s.block.instructions
  next := LiftState.nextVregId
  IsOpen := LiftState.Open

variable {ctx : LiftContext} {pre : List IRInst} {s t : LiftState} {v w : IRValue} {α β : Type}
  {good : Prop} {ty τ : IRType}

/-- No register behind the base of the view is fixed. -/
lemma typedView_fixed (r : ℕ) (h : (typedView pre).base ≤ r) : irTypes.fixed r = none :=
  irTypes_fixed_of_ge (le_trans (show 16 ≤ 20 by decide) h)

/-- An operand was computed, and the recorded flags are kept. -/
structure Computed (pre : List IRInst) (s : LiftState) (τ : IRType) (v : IRValue) (t : LiftState) :
    Prop where
  operand : irTypes.HasOperand (typedView pre) t v τ
  flags : t.flagState = s.flagState

/-- A constant has the type it is made with. -/
lemma computed_imm (c : BitVec 64) (ty : IRType) : Computed pre s ty (.makeImm c ty) s :=
  ⟨hasOperand_of_register_eq_none rfl rfl, rfl⟩

/-! ## Appending instructions -/

/-- Appending an instruction that defines nothing, or a general purpose register. -/
lemma typedWhen_pushInst {i : IRInst} (hopen : s.Open) (hs : irTypes.Settled (typedView pre) s)
    (hterm : i.isTerminator = false)
    (hdst : i.dst = none ∨ ∃ d, i.dst = some d ∧ d.id < 16 ∧ i.resultType = .i64)
    (hops : ∀ v ∈ i.operands, (typedView pre).Passed s v) :
    irTypes.TypedWhen (typedView pre) (pushInst i) s
      (i.KeepsTypes ∧ ∀ v ∈ i.operands, irTypes.Agrees ((typedView pre).code s) v)
      fun _ t => t.flagState = s.flagState := by
  have hcode : (typedView pre).code (s.emit 0 [i]) = (typedView pre).code s ++ [i] := by
    simp [typedView]
  refine typedWhen_of_run hs hcode hops typedView_fixed ?_ (run_pushInst hopen i)
    (hopen.emit 0 (by simpa using hterm)) rfl
  rcases hdst with hdst | ⟨d, hdst, hlt, htype⟩
  · exact Or.inl ⟨by simp [destination, hdst], rfl⟩
  · have hbase : d.id < 20 := hlt.trans (by decide)
    refine Or.inr (Or.inl ⟨⟨d.id, by simp [destination, hdst], hbase, ?_⟩, rfl⟩)
    rw [irTypes_fixed_of_lt hlt, irTypes_resultType, htype]

/-- Writing a general purpose register by an instruction whose operands are typed. -/
lemma typedWhen_pushGpr {i : IRInst} (hopen : s.Open) (hs : irTypes.Settled (typedView pre) s)
    (hterm : i.isTerminator = false)
    (hdst : ∃ d, i.dst = some d ∧ d.id < 16 ∧ i.resultType = .i64) (hkeeps : i.KeepsTypes)
    (hops : ∀ v ∈ i.operands, (typedView pre).Passed s v ∧
      irTypes.Agrees ((typedView pre).code s) v) :
    irTypes.TypedWhen (typedView pre) (pushInst i) s True fun _ t => t.flagState = s.flagState :=
  (typedWhen_pushInst hopen hs hterm (Or.inr hdst) fun v hv => (hops v hv).1).congr
    (iff_of_true ⟨hkeeps, fun v hv => (hops v hv).2⟩ trivial)

/-- Taking a temporary and appending the instruction that defines it. -/
lemma typedWhen_define {inst : ℕ → IRInst} {f : ℕ → LiftM β} {R : β → LiftState → Prop}
    (hopen : s.Open) (hs : irTypes.Settled (typedView pre) s)
    (hterm : (inst s.nextVregId).isTerminator = false)
    (hdst : destination (inst s.nextVregId) = some s.nextVregId)
    (hops : ∀ v ∈ (inst s.nextVregId).operands, (typedView pre).Passed s v)
    (hf : ∀ t, t.Open → irTypes.Settled (typedView pre) t → irTypes.Grows (typedView pre) s t →
      t.flagState = s.flagState →
      irTypes.HasOperand (typedView pre) t (.makeVReg s.nextVregId (inst s.nextVregId).resultType)
        (inst s.nextVregId).resultType →
      irTypes.TypedWhen (typedView pre) (f s.nextVregId) t good R) :
    irTypes.TypedWhen (typedView pre) (do let id ← newTemp; pushInst (inst id); f id) s
      (((inst s.nextVregId).KeepsTypes ∧
        ∀ v ∈ (inst s.nextVregId).operands, irTypes.Agrees ((typedView pre).code s) v) ∧
          good) R := by
  set i := inst s.nextVregId with hi
  have hcode : (typedView pre).code (s.emit 1 [i]) = (typedView pre).code s ++ [i] := by
    simp [typedView]
  have hsplit : (do let id ← newTemp; pushInst (inst id); f id) =
      (do let id ← newTemp; pushInst (inst id); pure id) >>= f := by
    simp only [bind_assoc, pure_bind]
  have hrun : (do let id ← newTemp; pushInst (inst id); pure id).run s =
      .ok s.nextVregId (s.emit 1 [i]) := by
    rw [run_define hopen, EStateM.run_pure]
  rw [hsplit]
  refine (typedWhen_of_run (Q := fun id t => id = s.nextVregId ∧ t = s.emit 1 [i]) hs hcode hops
    typedView_fixed (Or.inr (Or.inr ⟨hdst, rfl⟩)) hrun (hopen.emit 1 (by simpa using hterm))
    ⟨rfl, rfl⟩).bind ?_
  rintro _ _ hopen' ht hgrows ⟨rfl, rfl⟩
  exact hf _ hopen' ht hgrows rfl (hasOperand_of_defined hs hcode rfl typedView_fixed hdst rfl rfl)

/-- A temporary, as an operand. -/
lemma typedWhen_defineTemp {inst : ℕ → IRInst} (hopen : s.Open)
    (hs : irTypes.Settled (typedView pre) s) (hterm : (inst s.nextVregId).isTerminator = false)
    (hdst : destination (inst s.nextVregId) = some s.nextVregId)
    (htype : (inst s.nextVregId).resultType = ty)
    (hops : ∀ v ∈ (inst s.nextVregId).operands, (typedView pre).Passed s v ∧
      irTypes.Agrees ((typedView pre).code s) v) :
    irTypes.TypedWhen (typedView pre) (defineTemp ty inst) s (inst s.nextVregId).KeepsTypes
      (Computed pre s ty) := by
  unfold defineTemp
  refine TypedWhen.congr (typedWhen_define hopen hs hterm hdst (fun v hv => (hops v hv).1)
    fun t hopen' ht _ hflags hvalue => TypedWhen.pure hopen' ht ⟨htype ▸ hvalue, hflags⟩) ?_
  rw [and_true, and_iff_left fun v hv => (hops v hv).2]

/-- Taking a temporary for a binary operation. -/
lemma typedWhen_binop {op : Opcode} {name : String} {τ' : IRType} {f : ℕ → LiftM β}
    {R : β → LiftState → Prop} (hop : op.isBinary = true) (hopen : s.Open)
    (hs : irTypes.Settled (typedView pre) s)
    (hterm : ∀ id, (IRInst.makeBinop op ⟨id, name⟩ ty v w).isTerminator = false)
    (hv : irTypes.HasOperand (typedView pre) s v τ)
    (hw : irTypes.HasOperand (typedView pre) s w τ')
    (hf : ∀ t, t.Open → irTypes.Settled (typedView pre) t → irTypes.Grows (typedView pre) s t →
      Computed pre s ty (.makeVReg s.nextVregId ty) t →
      irTypes.TypedWhen (typedView pre) (f s.nextVregId) t good R) :
    irTypes.TypedWhen (typedView pre)
      (do let id ← newTemp; pushInst (.makeBinop op ⟨id, name⟩ ty v w); f id) s
      ((τ = ty ∧ τ' = ty) ∧ good) R := by
  have hops : ∀ u ∈ (IRInst.makeBinop op ⟨s.nextVregId, name⟩ ty v w).operands,
      (typedView pre).Passed s u ∧ irTypes.Agrees ((typedView pre).code s) u := by
    intro u hu
    have hmem : u = v ∨ u = w := by simpa [IRInst.makeBinop] using hu
    rcases hmem with rfl | rfl
    · exact ⟨hv.passed, hv.agrees⟩
    · exact ⟨hw.passed, hw.agrees⟩
  refine TypedWhen.congr (typedWhen_define hopen hs (hterm _) rfl (fun u hu => (hops u hu).1)
    fun t hopen' ht hgrows hflags hvalue => hf t hopen' ht hgrows ⟨hvalue, hflags⟩) ?_
  rw [and_iff_left fun u hu => (hops u hu).2, IRInst.keepsTypes_makeBinop hop, ← hv.type,
    ← hw.type]
  rfl

/-- A binary operation on two operands is typed when both have the type of the result. -/
lemma typedWhen_defineBinop {op : Opcode} {name : String} {τ' : IRType} (hop : op.isBinary = true)
    (hopen : s.Open) (hs : irTypes.Settled (typedView pre) s)
    (hterm : ∀ id, (IRInst.makeBinop op ⟨id, name⟩ ty v w).isTerminator = false)
    (hv : irTypes.HasOperand (typedView pre) s v τ)
    (hw : irTypes.HasOperand (typedView pre) s w τ') :
    irTypes.TypedWhen (typedView pre) (defineTemp ty fun id => .makeBinop op ⟨id, name⟩ ty v w) s
      (τ = ty ∧ τ' = ty) (Computed pre s ty) := by
  unfold defineTemp
  refine TypedWhen.congr (typedWhen_binop hop hopen hs hterm hv hw
    fun t hopen' ht _ h => TypedWhen.pure hopen' ht h) ?_
  rw [and_true]

/-- Two operations on the same operands, whose temporaries are taken before the first is
appended. -/
lemma typedWhen_defineTwo {op op' : Opcode} {name name' : String} {τ' : IRType}
    (hop : op.isBinary = true) (hop' : op'.isBinary = true) (hopen : s.Open)
    (hs : irTypes.Settled (typedView pre) s)
    (hterm : ∀ id, (IRInst.makeBinop op ⟨id, name⟩ ty v w).isTerminator = false)
    (hterm' : ∀ id, (IRInst.makeBinop op' ⟨id, name'⟩ ty v w).isTerminator = false)
    (hv : irTypes.HasOperand (typedView pre) s v τ)
    (hw : irTypes.HasOperand (typedView pre) s w τ') :
    irTypes.TypedWhen (typedView pre) (do
      let q ← newTemp
      let r ← newTemp
      pushInst (.makeBinop op ⟨q, name⟩ ty v w)
      pushInst (.makeBinop op' ⟨r, name'⟩ ty v w)
      pure (q, r)) s (τ = ty ∧ τ' = ty) fun p t =>
        Computed pre s ty (.makeVReg p.1 ty) t ∧ Computed pre s ty (.makeVReg p.2 ty) t := by
  have hopen' : (s.emit 1 [.makeBinop op ⟨s.nextVregId, name⟩ ty v w]).Open :=
    hopen.emit 1 (by simpa using hterm _)
  have hrun : (do
      let q ← newTemp
      let r ← newTemp
      pushInst (.makeBinop op ⟨q, name⟩ ty v w)
      pushInst (.makeBinop op' ⟨r, name'⟩ ty v w)
      pure (q, r)).run s = (do
        let q ← newTemp
        pushInst (.makeBinop op ⟨q, name⟩ ty v w)
        let r ← newTemp
        pushInst (.makeBinop op' ⟨r, name'⟩ ty v w)
        pure (q, r)).run s := by
    rw [run_defineTwo hopen hterm, run_define hopen, run_define hopen', LiftState.emit_emit]
    rfl
  refine TypedWhen.of_run_eq hrun (TypedWhen.congr (typedWhen_binop hop hopen hs hterm hv hw
    fun t₁ hopen₁ ht₁ h₁ hq => typedWhen_binop hop' hopen₁ ht₁ hterm' (hv.grows h₁) (hw.grows h₁)
      fun t₂ hopen₂ ht₂ h₂ hr => TypedWhen.pure hopen₂ ht₂
        ⟨⟨hq.operand.grows h₂, hr.flags.trans hq.flags⟩, ⟨hr.operand, hr.flags.trans hq.flags⟩⟩) ?_)
  tauto

/-- An instruction with one operand. -/
lemma typedWhen_defineUnary {inst : ℕ → IRInst} (hopen : s.Open)
    (hs : irTypes.Settled (typedView pre) s) (hterm : ∀ id, (inst id).isTerminator = false)
    (hdst : ∀ id, destination (inst id) = some id) (htype : ∀ id, (inst id).resultType = ty)
    (hops : ∀ id, (inst id).operands = [v]) (hv : irTypes.HasOperand (typedView pre) s v τ)
    (hkeeps : ∀ id, (inst id).KeepsTypes ↔ good) :
    irTypes.TypedWhen (typedView pre) (defineTemp ty inst) s good (Computed pre s ty) := by
  refine (typedWhen_defineTemp hopen hs (hterm _) (hdst _) (htype _) fun u hu => ?_).congr
    (hkeeps _)
  rw [hops, List.mem_singleton] at hu
  rw [hu]
  exact ⟨hv.passed, hv.agrees⟩

/-- An extension is typed when it widens its operand. -/
lemma typedWhen_defineExt {castOp : Opcode} {name : String}
    (hcast : castOp = .zext ∨ castOp = .sext)
    (hopen : s.Open) (hs : irTypes.Settled (typedView pre) s)
    (hv : irTypes.HasOperand (typedView pre) s v τ) :
    irTypes.TypedWhen (typedView pre) (defineTemp ty fun id => .makeCast castOp ⟨id, name⟩ ty v) s
      (τ.Narrower ty) (Computed pre s ty) := by
  have htype : v.type = τ := hv.type
  refine typedWhen_defineUnary hopen hs (fun _ => ?_) (fun _ => rfl) (fun _ => rfl)
    (fun _ => rfl) hv
    fun _ => ?_
  · rcases hcast with rfl | rfl <;> rfl
  · rw [IRInst.keepsTypes_makeExt hcast, htype]

/-- The operation of a `NOT` or `NEG`. -/
lemma typedWhen_defineUnop {name : String} (isNeg : Bool) (hopen : s.Open)
    (hs : irTypes.Settled (typedView pre) s) (hv : irTypes.HasOperand (typedView pre) s v τ) :
    irTypes.TypedWhen (typedView pre)
      (defineTemp ty fun id => .makeUnop (if isNeg then .neg else .not) ⟨id, name⟩ ty v) s True
      (Computed pre s ty) := by
  refine typedWhen_defineUnary hopen hs (fun _ => by cases isNeg <;> rfl) (fun _ => rfl)
    (fun _ => rfl)
    (fun _ => rfl) hv fun _ => iff_of_true ?_ trivial
  cases isNeg with
  | true => exact IRInst.keepsTypes_of_other rfl
  | false => exact IRInst.keepsTypes_of_other rfl

/-! ## Registers -/

/-- What a function appends to its own copy of the block is lost. -/
lemma typedWhen_withBlockArg_byValue {body : LiftM α} {P Q : α → LiftState → Prop}
    (hpass : ctx.passing = .byValue) (hopen : s.Open) (hs : irTypes.Settled (typedView pre) s)
    (h : irTypes.TypedWhen (typedView pre) body s good P)
    (hPQ : ∀ a t is, (typedView pre).code t = (typedView pre).code s ++ is → P a t →
      Q a { t with block := s.block }) :
    irTypes.TypedWhen (typedView pre) (withBlockArg ctx body) s True Q := by
  obtain ⟨a, t, is, hrun, hcode, -, -, hnext, -, -, hP⟩ := h
  refine ⟨a, { t with block := s.block }, [], run_withBlockArg_byValue hpass hrun,
    by simp [typedView], hopen,
    ⟨hs.base_le.trans hnext, fun i hi => (hs.behind i hi).of_le hnext, hs.fixed⟩, hnext,
    later_nil, by simp, hPQ a t is hcode hP⟩

/-- A general purpose register as a 64-bit operand. -/
lemma hasOperand_gpr {id : ℕ} (hs : irTypes.Settled (typedView pre) s) (hid : id < 16)
    (name : String) : irTypes.HasOperand (typedView pre) s (.makeVReg id .i64 name) .i64 :=
  hasOperand_of_fixed hs rfl (lt_trans hid (show 16 < 20 by decide)) (irTypes_fixed_of_lt hid) rfl

/-- Reading a register is typed. -/
lemma typedWhen_readReg (hopen : s.Open) (hs : irTypes.Settled (typedView pre) s)
    (reg : ZydisRegister) :
    irTypes.TypedWhen (typedView pre) (withBlockArg ctx (readReg ctx reg)) s True
      (Computed pre s (typeOfReg reg)) := by
  have hkept : irTypes.TypedWhen (typedView pre) (readReg ctx reg) s True
      (Computed pre s (typeOfReg reg)) := by
    unfold readReg
    dsimp only
    split
    · rename_i hid
      rw [typeOfReg_of_gprVRegId_eq_none hid]
      exact TypedWhen.pure hopen hs (computed_imm 0 .i64)
    · rename_i id hid
      have hfull := hasOperand_gpr hs (gprVRegId_lt hid) (ctx.regName (canonicalReg reg))
      split
      · rename_i hty
        rw [hty]
        exact TypedWhen.pure hopen hs ⟨hfull, rfl⟩
      · rename_i hty
        refine TypedWhen.congr (typedWhen_define hopen hs rfl rfl ?_
          fun t hopen' ht _ hflags hvalue =>
          TypedWhen.pure hopen' ht ⟨hvalue, hflags⟩) ?_
        · simpa [IRInst.makeCast] using hfull.passed
        · rw [IRInst.keepsTypes_makeTrunc]
          simpa [IRInst.makeCast] using ⟨typeOfReg_narrower hty, hfull.agrees⟩
  cases hpass : ctx.passing with
  | byReference =>
    rw [withBlockArg_byReference hpass]
    exact hkept
  | byValue =>
    refine typedWhen_withBlockArg_byValue hpass hopen hs hkept fun v t is hcode hv => ?_
    have hagrees := hv.operand.agrees
    rw [hcode] at hagrees
    exact ⟨⟨hv.operand.type, hv.operand.passed, hagrees.of_append⟩, hv.flags⟩

/-- What the code of a write asks of the value, where it is kept. -/
def WriteKeeps (ctx : LiftContext) (pre : List IRInst) (reg : ZydisRegister) (val : IRValue)
    (s : LiftState) : Prop :=
  ctx.passing = .byReference → (gprVRegId (canonicalReg reg)).isSome = true →
    irTypes.Agrees ((typedView pre).code s) val ∧
      (typeOfReg reg ≠ .i64 → val.type.Narrower .i64)

/-- The extended value of a partial write, merged with the masked register. -/
lemma typedWhen_mergeGpr {id : ℕ} {name : String} {agrees : Prop} {flags : FlagState}
    (hopen : s.Open) (hs : irTypes.Settled (typedView pre) s) (hid : id < 16)
    (hmasked : irTypes.HasOperand (typedView pre) s w .i64) (hval : (typedView pre).Passed s v)
    (hagrees : irTypes.Agrees ((typedView pre).code s) v ↔ agrees) (hflags : s.flagState = flags) :
    irTypes.TypedWhen (typedView pre) (do
      let zId ← newTemp
      pushInst (.makeCast .zext ⟨zId, "zext_partial"⟩ .i64 v)
      pushInst (.makeBinop .or ⟨id, name⟩ .i64 w (.makeVReg zId .i64))) s
      (v.type.Narrower .i64 ∧ agrees) fun _ t => t.flagState = flags := by
  refine TypedWhen.congr (typedWhen_define hopen hs rfl rfl ?_ fun t hopen' ht hgrows hflags' hz =>
    (typedWhen_pushGpr hopen' ht rfl ⟨_, rfl, hid, rfl⟩ ?_ ?_).mono Iff.rfl
      fun _ _ _ h => h.trans (hflags'.trans hflags)) ?_
  · simpa [IRInst.makeCast] using hval
  · exact (IRInst.keepsTypes_makeBinop rfl).mpr ⟨hmasked.type, rfl⟩
  · have hmasked' := hmasked.grows hgrows
    simpa [IRInst.makeBinop] using
      ⟨⟨hmasked'.passed, hmasked'.agrees⟩, ⟨hz.passed, hz.agrees⟩⟩
  · rw [IRInst.keepsTypes_makeExt (Or.inl rfl), ← hagrees]
    simp [IRInst.makeCast]

/-- When a write to a register is typed. -/
lemma typedWhen_writeReg (hopen : s.Open) (hs : irTypes.Settled (typedView pre) s)
    (reg : ZydisRegister) {val : IRValue} (hval : (typedView pre).Passed s val) :
    irTypes.TypedWhen (typedView pre) (withBlockArg ctx (writeReg ctx reg val)) s
      (WriteKeeps ctx pre reg val s) fun _ t => t.flagState = s.flagState := by
  have hkept : irTypes.TypedWhen (typedView pre) (writeReg ctx reg val) s
      ((gprVRegId (canonicalReg reg)).isSome = true →
        irTypes.Agrees ((typedView pre).code s) val ∧
          (typeOfReg reg ≠ .i64 → val.type.Narrower .i64))
      fun _ t => t.flagState = s.flagState := by
    unfold writeReg
    dsimp only
    split
    · rename_i hid
      refine TypedWhen.congr (TypedWhen.pure hopen hs rfl) ?_
      simp [hid]
    · rename_i id hid
      have hlt := gprVRegId_lt hid
      simp only [hid, Option.isSome_some, forall_true_left]
      split
      · rename_i hty
        refine (typedWhen_pushInst hopen hs rfl (Or.inr ⟨_, rfl, hlt, rfl⟩) ?_).congr ?_
        · simpa [IRInst.makeMov] using hval
        · rw [and_iff_right IRInst.keepsTypes_makeMov]
          simp [IRInst.makeMov, hty]
      rename_i hty
      split
      · -- the extended value is moved to the register
        refine TypedWhen.congr (typedWhen_define hopen hs rfl rfl ?_ fun t hopen' ht _ hflags hz =>
          (typedWhen_pushGpr hopen' ht rfl ⟨_, rfl, hlt, rfl⟩ IRInst.keepsTypes_makeMov ?_).mono
            Iff.rfl fun _ _ _ h => h.trans hflags) ?_
        · simpa [IRInst.makeCast] using hval
        · simpa [IRInst.makeMov] using ⟨hz.passed, hz.agrees⟩
        · rw [IRInst.keepsTypes_makeExt (Or.inl rfl)]
          simp [IRInst.makeCast, hty, and_comm]
      · -- the extended value is merged with what the register held
        have hcur := hasOperand_gpr hs hlt (ctx.regName (canonicalReg reg))
        have hmask := (@computed_imm pre s (partialMask (typeOfReg reg)) .i64).operand
        refine TypedWhen.congr (typedWhen_define hopen hs rfl rfl ?_ fun t hopen₁ ht h₁ hflags hm =>
          typedWhen_mergeGpr hopen₁ ht hlt hm (h₁.passed hval) (h₁.agrees_iff hval) hflags) ?_
        · simpa [IRInst.makeBinop] using ⟨hcur.passed, hmask.passed⟩
        · rw [IRInst.keepsTypes_makeBinop rfl]
          simp [IRInst.makeBinop, hty, and_comm, hcur.agrees, hmask.agrees]
  cases hpass : ctx.passing with
  | byReference =>
    rw [withBlockArg_byReference hpass]
    exact hkept.congr (by simp [WriteKeeps, hpass])
  | byValue =>
    exact (typedWhen_withBlockArg_byValue hpass hopen hs hkept fun _ _ _ _ h => h).congr
      (by simp [WriteKeeps, hpass])

/-! ## Addresses -/

/-- A computation after another one. -/
lemma Computed.trans {s₁ : LiftState} {τ₁ : IRType} (h₁ : Computed pre s τ₁ w s₁)
    (h : Computed pre s₁ τ v t) : Computed pre s τ v t :=
  ⟨h.operand, h.flags.trans h₁.flags⟩

section Addresses

variable (hopen : s.Open) (hs : irTypes.Settled (typedView pre) s) (mem : ZydisMem)

include hopen hs

/-- The base of an address is typed as its register. -/
lemma typedWhen_addrBase :
    irTypes.TypedWhen (typedView pre) (addrBase ctx mem) s True
      (Computed pre s (typeOfReg mem.base)) := by
  unfold addrBase
  split
  · exact typedWhen_readReg hopen hs mem.base
  · rename_i hbase
    have hwide : typeOfReg mem.base = .i64 := by
      by_cases hnone : mem.base = .none
      · rw [hnone]
        rfl
      · have hrip : mem.base = .rip := by
          by_contra hrip
          exact hbase ⟨hnone, hrip⟩
        rw [hrip]
        rfl
    rw [hwide]
    split
    · exact TypedWhen.pure hopen hs (computed_imm _ _)
    · exact TypedWhen.pure hopen hs (computed_imm _ _)

/-- A scaled index is typed if a register of 64 bits is scaled. -/
lemma typedWhen_scaledIndex :
    irTypes.TypedWhen (typedView pre) (scaledIndex ctx mem) s
      (1 < mem.scale.toNat → typeOfReg mem.index = .i64)
      (Computed pre s (if 1 < mem.scale.toNat then .i64 else typeOfReg mem.index)) := by
  unfold scaledIndex
  refine (typedWhen_readReg hopen hs mem.index).bind_of_true fun idx t hopen' ht _ hidx => ?_
  split
  · refine (typedWhen_defineBinop rfl hopen' ht (fun _ => rfl) hidx.operand
      (computed_imm (mem.scale.setWidth 64) .i64).operand).mono ?_ fun _ _ _ h => hidx.trans h
    simp [*]
  · exact (TypedWhen.pure hopen' ht hidx).congr (by simp [*])

/-- The sum of an address and an index has 64 bits. -/
lemma typedWhen_addIndex {addr : IRValue}
    (haddr : irTypes.HasOperand (typedView pre) s addr τ) :
    irTypes.TypedWhen (typedView pre) (addIndex ctx mem addr) s
      (mem.index ≠ .none → typeOfReg mem.index = .i64 ∧ τ = .i64)
      (Computed pre s (if mem.index ≠ .none then .i64 else τ)) := by
  unfold addIndex
  split
  · refine TypedWhen.congr ((typedWhen_scaledIndex hopen hs mem).bind
      fun idx t hopen' ht hgrows hidx =>
      (typedWhen_defineBinop rfl hopen' ht (fun _ => rfl) (haddr.grows hgrows) hidx.operand).mono
        Iff.rfl fun _ _ _ h => hidx.trans h) ?_
    by_cases hscale : 1 < mem.scale.toNat
    · simp [*]
    · simp [*]
      tauto
  · exact (TypedWhen.pure hopen hs ⟨haddr, rfl⟩).congr (by simp [*])

/-- The sum of an address and a displacement has 64 bits. -/
lemma typedWhen_addDisp {addr : IRValue} (haddr : irTypes.HasOperand (typedView pre) s addr τ) :
    irTypes.TypedWhen (typedView pre) (addDisp mem addr) s (mem.HasDisp → τ = .i64)
      (Computed pre s (if mem.HasDisp then .i64 else τ)) := by
  unfold addDisp
  by_cases hdisp : mem.HasDisp
  · have hcode : mem.disp.hasDisplacement = true ∧ mem.disp.value ≠ 0 := hdisp
    rw [if_pos hcode, if_pos hdisp]
    refine TypedWhen.congr (typedWhen_defineBinop rfl hopen hs (fun _ => rfl) haddr
      (computed_imm mem.disp.value .i64).operand) ?_
    simp [hdisp]
  · have hcode : ¬ (mem.disp.hasDisplacement = true ∧ mem.disp.value ≠ 0) := hdisp
    rw [if_neg hcode, if_neg hdisp]
    exact (TypedWhen.pure hopen hs ⟨haddr, rfl⟩).congr (by simp [hdisp])

omit mem in
/-- An operand as a pointer. -/
lemma typedWhen_inttoptr (name : String) (hv : irTypes.HasOperand (typedView pre) s v τ) :
    irTypes.TypedWhen (typedView pre)
      (defineTemp .ptr fun id => .makeCast .inttoptr ⟨id, name⟩ .ptr v) s True
      (Computed pre s .ptr) := by
  refine typedWhen_defineUnary hopen hs (fun _ => rfl) (fun _ => rfl) (fun _ => rfl)
    (fun _ => rfl) hv
    fun _ => iff_of_true ?_ trivial
  exact IRInst.keepsTypes_of_other rfl

omit mem in
/-- A temporary that is defined at 16 bits, as a 64-bit operand. -/
lemma typedWhen_ptrtoint (name : String) (hv : irTypes.HasOperand (typedView pre) s v τ) :
    irTypes.TypedWhen (typedView pre)
      (defineTemp .i64 fun id => .makeCast .ptrtoint ⟨id, name⟩ .i16 v) s True fun w t =>
        w.type = .i64 ∧ (typedView pre).Passed t w ∧
          ¬ irTypes.Agrees ((typedView pre).code t) w ∧ t.flagState = s.flagState := by
  set i := IRInst.makeCast .ptrtoint ⟨s.nextVregId, name⟩ .i16 v with hi
  have hcode : (typedView pre).code (s.emit 1 [i]) = (typedView pre).code s ++ [i] := by
    simp [typedView]
  have hkeeps : i.KeepsTypes := IRInst.keepsTypes_of_other rfl
  have hrun : (defineTemp .i64 fun id => IRInst.makeCast .ptrtoint ⟨id, name⟩ .i16 v).run s =
      .ok (.makeVReg s.nextVregId .i64) (s.emit 1 [i]) := by
    rw [defineTemp, run_define hopen, EStateM.run_pure]
  have hops : ∀ w ∈ operands i, (typedView pre).Passed s w ∧
      irTypes.Agrees ((typedView pre).code s) w := by
    intro w hw
    obtain rfl : w = v := by simpa [operands, hi, IRInst.makeCast] using hw
    exact ⟨hv.passed, hv.agrees⟩
  refine TypedWhen.congr (typedWhen_of_run hs hcode (fun w hw => (hops w hw).1) typedView_fixed
    (Or.inr (Or.inr ⟨rfl, rfl⟩)) hrun (hopen.emit 1 (by simp [hi]; rfl)) ⟨rfl, ?_, ?_, rfl⟩)
    (iff_of_true ⟨hkeeps, fun w hw => (hops w hw).2⟩ trivial)
  · intro r hr
    obtain rfl : s.nextVregId = r := Option.some.inj hr
    exact Nat.lt_succ_self _
  · intro h
    have htype := h s.nextVregId rfl .i16 (Or.inr ⟨i, by simp [hcode], rfl, rfl⟩)
    cases htype

omit mem in
/-- A loaded operand. -/
lemma typedWhen_defineLoad {name : String} {flags : MemFlags}
    (hv : irTypes.HasOperand (typedView pre) s v τ) :
    irTypes.TypedWhen (typedView pre)
      (defineTemp ty fun id => .makeLoad ⟨id, name⟩ ty v flags) s True (Computed pre s ty) := by
  refine typedWhen_defineUnary hopen hs (fun _ => rfl) (fun _ => rfl) (fun _ => rfl)
    (fun _ => rfl) hv
    fun _ => iff_of_true ?_ trivial
  exact IRInst.keepsTypes_of_other rfl

omit mem in
/-- An address is typed exactly when only 64-bit words are added. -/
lemma typedWhen_computeAddr (op : ZydisDecodedOperand) :
    irTypes.TypedWhen (typedView pre) (computeAddr ctx op) s op.mem.AddsWords
      (Computed pre s .ptr) := by
  unfold computeAddr
  refine TypedWhen.congr ((typedWhen_addrBase hopen hs op.mem).bind
    fun base s₁ hopen₁ hs₁ _ hbase =>
    (typedWhen_addIndex hopen₁ hs₁ op.mem hbase.operand).bind fun sum s₂ hopen₂ hs₂ _ hsum =>
      (typedWhen_addDisp hopen₂ hs₂ op.mem hsum.operand).bind fun addr s₃ hopen₃ hs₃ _ haddr =>
        (typedWhen_inttoptr hopen₃ hs₃ "mem_ptr" haddr.operand).mono Iff.rfl
          fun _ _ _ h => hbase.trans (hsum.trans (haddr.trans h))) ?_
  have hnone : typeOfReg .none = .i64 := rfl
  unfold ZydisMem.AddsWords
  by_cases hindex : op.mem.index = .none
  · simp [hindex, hnone]
  · simp [hindex]

end Addresses

/-! ## Operands -/

section Operands

variable (hopen : s.Open) (hs : irTypes.Settled (typedView pre) s)

include hopen hs

/-- A store of typed operands is typed. -/
lemma typedWhen_pushStore {τ' : IRType} {flags : MemFlags}
    (hv : irTypes.HasOperand (typedView pre) s v τ)
    (hw : irTypes.HasOperand (typedView pre) s w τ') :
    irTypes.TypedWhen (typedView pre) (pushInst (.makeStore v w flags)) s True
      fun _ t => t.flagState = s.flagState := by
  have hkeeps : (IRInst.makeStore v w flags).KeepsTypes := IRInst.keepsTypes_of_other rfl
  refine (typedWhen_pushInst hopen hs rfl (Or.inl rfl) ?_).congr (iff_of_true ⟨hkeeps, ?_⟩ trivial)
  · simpa [IRInst.makeStore] using ⟨hv.passed, hw.passed⟩
  · simpa [IRInst.makeStore] using ⟨hv.agrees, hw.agrees⟩

/-- Reading an operand is typed exactly when an address is a sum of words. -/
lemma typedWhen_readOperand (op : ZydisDecodedOperand) (hint : IRType) :
    irTypes.TypedWhen (typedView pre) (readOperand ctx op hint) s op.AddsWords
      (Computed pre s (op.readType hint)) := by
  unfold readOperand ZydisDecodedOperand.AddsWords ZydisDecodedOperand.readType
  cases op.type with
  | register => exact (typedWhen_readReg hopen hs op.reg).congr (by simp)
  | immediate => exact (TypedWhen.pure hopen hs (computed_imm _ _)).congr (by simp)
  | memory =>
    refine TypedWhen.congr ((typedWhen_computeAddr hopen hs op).bind fun ptr t hopen' ht _ hptr =>
      (typedWhen_defineLoad hopen' ht hptr.operand).mono Iff.rfl fun _ _ _ h => hptr.trans h) ?_
    simp
  | unused => exact (TypedWhen.pure hopen hs (computed_imm _ _)).congr (by simp)
  | pointer => exact (TypedWhen.pure hopen hs (computed_imm _ _)).congr (by simp)

/-- Storing an operand is typed exactly when its address is a sum of words. -/
lemma typedWhen_storeOperand (op : ZydisDecodedOperand) (htype : op.type ≠ .register)
    {val : IRValue}
    (hval : irTypes.HasOperand (typedView pre) s val τ) :
    irTypes.TypedWhen (typedView pre) (writeOperand ctx op val) s op.AddsWords
      fun _ t => t.flagState = s.flagState := by
  unfold writeOperand ZydisDecodedOperand.AddsWords
  cases hop : op.type with
  | register => exact absurd hop htype
  | immediate => exact TypedWhen.congr (TypedWhen.pure hopen hs rfl) (by simp)
  | memory =>
    refine TypedWhen.congr ((typedWhen_computeAddr hopen hs op).bind
      fun ptr t hopen' ht hgrows hptr =>
      (typedWhen_pushStore hopen' ht (hval.grows hgrows) hptr.operand).mono Iff.rfl
        fun _ _ _ h => h.trans hptr.flags) ?_
    simp
  | unused => exact TypedWhen.congr (TypedWhen.pure hopen hs rfl) (by simp)
  | pointer => exact TypedWhen.congr (TypedWhen.pure hopen hs rfl) (by simp)

end Operands

end FunctionLifter

end InstaX
