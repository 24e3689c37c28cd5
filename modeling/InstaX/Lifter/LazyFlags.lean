import InstaX.Flags.Condition
import InstaX.Lifter.Arithmetic
import InstaX.Lifter.Emitted

/-!
# Captured operands between a flag-setting instruction and its jump

A flag-setting instruction records operands, not values, and the jump that consumes the record may
come later in the block.  The result is captured as a temporary, which no later code defines again.
The left operand is a temporary too, except in a 64-bit instruction, where it is the register
itself: the instruction's own write and every later write to that register change what the record
means.  `lazyFlags_iff` says exactly when this does not change the condition.
-/

namespace InstaX

open Throwing StraightLine

/-- The operation a flag-setting instruction records. -/
def ZydisMnemonic.capturedOp : ZydisMnemonic → Option FlagOp
  | .add => some .add
  | .sub | .cmp => some .sub
  | .and | .test => some .and
  | .or => some .or
  | .xor => some .xor
  | _ => none

/-- A request on the result `r` is answered alike with the left operands `a` and `c`: after an
addition or subtraction the carry flag compares the result with it and the overflow flag reads its
sign. -/
def FlagOp.AnswersAlike {w : ℕ} (op : FlagOp) (request : FlagRequest) (r a c : BitVec w) : Prop :=
  match op with
  | .add =>
      ((request.readsCF = true → r.ult c = r.ult a) ∧
        (request.readsOF = true → c.msb = a.msb)) ∨ (request.readsZF = true ∧ r = 0)
  | .sub =>
      ((request.readsCF = true → c.ult r = a.ult r) ∧
        (request.readsOF = true → c.msb = a.msb)) ∨ (request.readsZF = true ∧ r = 0)
  | _ => True

/-- The recovered flags of two left operands answer a request alike. -/
lemma FlagOp.cond_recoveredFlags_iff {w : ℕ} {mnemonic : ZydisMnemonic} {op : FlagOp}
    (hop : mnemonic.capturedOp = some op) (request : FlagRequest) (r a c : BitVec w) :
    (FlagState.recoveredFlags op r c).cond request =
      (FlagState.recoveredFlags op r a).cond request ↔
      op.AnswersAlike request r a c := by
  rw [X86Flags.cond_eq_iff (f := FlagState.recoveredFlags op r c)
    (g := FlagState.recoveredFlags op r a) request rfl rfl]
  have hsign : (!c.msb && r.msb || c.msb && !r.msb) = (!a.msb && r.msb || a.msb && !r.msb) ↔
      c.msb = a.msb := by
    cases a.msb <;> cases c.msb <;> cases r.msb <;> decide
  cases mnemonic <;> cases hop <;>
    simp [FlagOp.AnswersAlike, FlagState.recoveredFlags, FlagState.recoveredCF,
      FlagState.recoveredOF, hsign]

/-- The recorded operations have a result on all operands. -/
lemma FlagOp.exists_result {w : ℕ} {mnemonic : ZydisMnemonic} {op : FlagOp}
    (hop : mnemonic.capturedOp = some op) (a b : BitVec w) : ∃ r, op.result a b = some r := by
  cases mnemonic <;> cases hop <;> exact ⟨_, rfl⟩

/-- An unchanged left operand changes no answer. -/
lemma FlagOp.answersAlike_self {w : ℕ} (op : FlagOp) (request : FlagRequest) (r a : BitVec w) :
    op.AnswersAlike request r a a := by
  cases op <;> simp [FlagOp.AnswersAlike]

/-- The instruction writes the fixed virtual register of `g`. -/
def IRInst.writesGpr (g : Gpr) (i : IRInst) : Bool := i.dst.any fun d => d.id == g.vregId

/-- The code up to the first write of `g`. -/
def beforeWrite (g : Gpr) (is : List IRInst) : List IRInst := is.takeWhile fun i => !i.writesGpr g

/-- The condition of a conditional branch: its code, run from `m`, and the operand of the branch
that ends it. -/
def branchCondition (js : List IRInst) (m : Machine) : Option (BitVec 1) :=
  match js.getLast?.map IRInst.operands with
  | some [cond] => (run IRInst.step js.dropLast m).map fun m' => m'.eval .i1 cond
  | _ => none

/-- An instruction writes a register if it defines that id. -/
lemma IRInst.writesGpr_iff {g : Gpr} {i : IRInst} : i.writesGpr g = true ↔ i.defines g.vregId := by
  rw [writesGpr, defines]
  cases i.dst <;> simp

namespace FunctionLifter

/-- A flag-setting instruction, instructions that leave the flags alone, and a conditional jump,
lifted into one block: the code of each part, the machine just before the flag-setting instruction
writes its destination, and the machine at the jump. -/
structure FlagTrace (ctx : LiftContext) (fi : DecodedInstr) (mid : List DecodedInstr)
    (jcc : DecodedInstr) (g : Gpr) (s₀ : LiftState) (m₀ : Machine) where
  (s₁ s₂ s₃ : LiftState)
  (is ms js : List IRInst)
  (mW mJ : Machine)
  setter : (liftInstr ctx fi).run s₀ = .ok () s₁
  setter_block : s₁.block = s₀.block.append is
  between : (forM mid (liftInstr ctx)).run s₁ = .ok () s₂
  between_block : s₂.block = s₁.block.append ms
  jump : (liftInstr ctx jcc).run s₂ = .ok () s₃
  jump_block : s₃.block = s₂.block.append js
  run_beforeWrite : run IRInst.step (beforeWrite g is) m₀ = some mW
  run_atJump : run IRInst.step (is ++ ms) m₀ = some mJ

variable {ctx : LiftContext} {s s₁ s₂ : LiftState} {g : Gpr} {p : RegPart}
  {z : ZydisDecodedInstruction}

/-- An operand that is a temporary taken between two states. -/
def IsTemp (s s' : LiftState) (v : IRValue) : Prop :=
  ∃ k, s.nextVregId ≤ k ∧ k < s'.nextVregId ∧ v.vregId? = some k

/-- The captured left operand: the register itself at 64 bits, a temporary at other widths. -/
structure CapturedLhs (s : LiftState) (g : Gpr) (p : RegPart) (lhs : IRValue) (s' : LiftState) :
    Prop where
  type : lhs.type = p.type
  qword : p = .qword → lhs.vregId? = some g.vregId
  narrow : p ≠ .qword → IsTemp s s' lhs

lemma IsTemp.of_le {v : IRValue} (h : IsTemp s s₁ v) (hle : s₁.nextVregId ≤ s₂.nextVregId) :
    IsTemp s s₂ v := by
  obtain ⟨k, hk, hk', hv⟩ := h
  exact ⟨k, hk, hk'.trans_le hle, hv⟩

/-- Code that writes fixed registers and later temporaries keeps a temporary. -/
lemma IsTemp.eval_eq (hnext : 16 ≤ s.nextVregId) {m m' : Machine}
    (hsame : m.SameBut (Set.Iio 16 ∪ Set.Ici s₁.nextVregId) m') {v : IRValue}
    (hv : IsTemp s s₁ v) (ty : IRType) : m'.eval ty v = m.eval ty v := by
  obtain ⟨k, hk, hk', hkv⟩ := hv
  refine hsame.eval_eq ty fun id hid hmem => ?_
  obtain rfl : k = id := by simpa [hkv] using hid
  rcases hmem with hmem | hmem
  · have hlt := Set.mem_Iio.mp hmem
    omega
  · have hge := Set.mem_Ici.mp hmem
    omega

lemma CapturedLhs.of_le {lhs : IRValue} (h : CapturedLhs s g p lhs s₁)
    (hle : s₁.nextVregId ≤ s₂.nextVregId) : CapturedLhs s g p lhs s₂ :=
  ⟨h.type, h.qword, fun hp => (h.narrow hp).of_le hle⟩

/-- A captured left operand names a fixed register or a temporary taken before. -/
lemma CapturedLhs.vregId_lt {lhs : IRValue} (h : CapturedLhs s g p lhs s₁)
    (hnext : 16 ≤ s₁.nextVregId) {id : ℕ} (hid : lhs.vregId? = some id) : id < s₁.nextVregId := by
  by_cases hp : p = .qword
  · obtain rfl : g.vregId = id := by simpa [h.qword hp] using hid
    exact g.vregId_lt.trans_le hnext
  · obtain ⟨k, -, hk, hv⟩ := h.narrow hp
    obtain rfl : k = id := by simpa [hv] using hid
    exact hk

/-- At 64 bits a captured left operand is whatever the register holds. -/
lemma CapturedLhs.eval_qword {lhs : IRValue} (h : CapturedLhs s g .qword lhs s₁) (m : Machine) :
    m.eval .i64 lhs = m.file.read g .qword := by
  rw [Machine.eval_of_vregId (h.qword rfl) h.type]
  simp [RegFile.read, RegPart.read, RegPart.offset, Machine.file]

/-- Reading the first operand of a register instruction. -/
lemma emits_readOperand_lhs (hpass : ctx.passing = .byReference) (hform : z.RegisterForm g p)
    (hs : s.Open) {ty : IRType} :
    Emits (readOperand ctx (z.op 0) ty) s (Set.Ici s.nextVregId) (CapturedLhs s g p) := by
  simp only [readOperand, hform.type, withBlockArg_byReference hpass]
  by_cases hp : p = .qword
  · subst hp
    exact ⟨_, s, [], run_readReg_qword hform.view, by simp, by simp, le_rfl, rfl,
      rfl, fun _ => rfl, fun h => absurd rfl h⟩
  · refine ⟨_, _, _, run_readReg_narrow hform.view hp hs, rfl, ?_, by simp, rfl,
      rfl, fun h => absurd h hp, fun _ => ⟨s.nextVregId, le_rfl, by simp, rfl⟩⟩
    simp only [List.mem_singleton, forall_eq]
    exact IRInst.plain_makeCast _ (Set.mem_Ici.mpr le_rfl) rfl fun _ _ => ⟨_, rfl⟩

/-- The code of a binary operation captures its left operand and its result. -/
lemma emits_binopCode (hpass : ctx.passing = .byReference) (hform : z.RegisterForm g p)
    (hs : s.Open) {op : Opcode} {name : String}
    (hop : ∀ a b : BitVec p.type.width, ∃ v, op.binop a b = some v)
    (hterm : ∀ d l r, (IRInst.makeBinop op d p.type l r).isTerminator = false) :
    Emits (binopCode ctx op name p.type (z.op 0) (z.op 1)) s (Set.Ici s.nextVregId) fun out s' =>
      (out.1.type = p.type ∧ IsTemp s s' out.1) ∧ CapturedLhs s g p out.2.1 s' := by
  have hty : p.type.byteWidth.isSome = true := by cases p <;> rfl
  refine Emits.bind hs (emits_readOperand_lhs hpass hform hs) fun lhs s₁ hs₁ h₁ hlhs => ?_
  refine Emits.bind hs₁ (emits_readOperand hpass _ hty hs₁ (Set.Ici_subset_Ici.mpr h₁))
    fun rhs s₂ hs₂ h₂ _ => ?_
  refine Emits.bind hs₂ (P := fun v s' => (v.type = p.type ∧ IsTemp s s' v) ∧
    s₂.nextVregId ≤ s'.nextVregId) ?_ fun result s₃ _ h₃ hresult => ?_
  · refine Emits.define hs₂ (IRInst.plain_makeBinop _ _ (h₁.trans h₂) hop (hterm _ _ _))
      fun s₃ _ h₃ => Emits.pure ⟨⟨rfl, s₂.nextVregId, h₁.trans h₂, h₃, rfl⟩, h₃.le⟩
  · exact Emits.pure ⟨hresult.1, hlhs.of_le (h₂.trans h₃)⟩

variable (ctx) in
/-- The code of a register write: temporaries, then one instruction that writes the register. -/
lemma writeReg_text {r : ZydisRegister} (h : r.view = some (g, p)) (hs : s.Open) (val : IRValue) :
    ∃ n temps last, (writeReg ctx r val).run s = .ok () (s.emit n (temps ++ [last])) ∧
      (∀ i ∈ temps, i.Plain (Set.Ici s.nextVregId)) ∧ last.Plain {g.vregId} ∧
      last.writesGpr g = true := by
  obtain ⟨hid, hty⟩ := tables_of_view h
  set name := ctx.regName (canonicalReg r) with hname
  set k := s.nextVregId with hk
  have hmov : ∀ v, (IRInst.makeMov ⟨g.vregId, name⟩ .i64 v).Plain {g.vregId} := fun v =>
    IRInst.plain_makeMov _ rfl
  have hor : ∀ l r, (IRInst.makeBinop .or ⟨g.vregId, name⟩ .i64 l r).Plain {g.vregId} := fun l r =>
    IRInst.plain_makeBinop _ _ rfl (fun _ _ => ⟨_, rfl⟩) rfl
  have hand : ∀ l r, (IRInst.makeBinop .and ⟨k, "masked"⟩ .i64 l r).Plain (Set.Ici k) := fun l r =>
    IRInst.plain_makeBinop _ _ (Set.mem_Ici.mpr le_rfl) (fun _ _ => ⟨_, rfl⟩) rfl
  have hzext : ∀ (k' : ℕ) (name : String), k ≤ k' →
      (IRInst.makeCast .zext ⟨k', name⟩ .i64 val).Plain (Set.Ici k) := fun k' name hk' =>
    IRInst.plain_makeCast _ (Set.mem_Ici.mpr hk') rfl fun _ _ => ⟨_, rfl⟩
  simp only [writeReg, hid, hty]
  split
  · exact ⟨0, [], _, run_pushInst hs _, by simp, hmov val,
      by simp [IRInst.writesGpr, IRInst.makeMov]⟩
  · split
    · refine ⟨1, [.makeCast .zext ⟨k, "zext32"⟩ .i64 val],
        .makeMov ⟨g.vregId, name⟩ .i64 (.makeVReg k .i64), ?_,
        List.forall_mem_singleton.mpr (hzext _ _ le_rfl), hmov _,
        by simp [IRInst.writesGpr, IRInst.makeMov]⟩
      rw [run_define hs, run_pushInst (hs.emit 1 (by simp; rfl))]
      simp
      rfl
    · refine ⟨2, [.makeBinop .and ⟨k, "masked"⟩ .i64 (.makeVReg g.vregId .i64 name)
          (.makeImm (partialMask p.type) .i64), .makeCast .zext ⟨k + 1, "zext_partial"⟩ .i64 val],
        .makeBinop .or ⟨g.vregId, name⟩ .i64 (.makeVReg k .i64) (.makeVReg (k + 1) .i64), ?_,
        ?_, hor _ _, by simp [IRInst.writesGpr, IRInst.makeBinop]⟩
      · rw [run_define hs, run_define (hs.emit 1 (by simp; rfl)),
          run_pushInst ((hs.emit 1 (by simp; rfl)).emit 1 (by simp; rfl))]
        simp
        rfl
      · rw [List.forall_mem_cons, List.forall_mem_singleton]
        exact ⟨hand _ _, hzext _ _ (Nat.le_succ k)⟩

/-- The flag-setting instructions are a recorded binary operation and, unless they only compare, a
write of its result. -/
lemma liftInstr_of_capturedOp {di : DecodedInstr} {fop : FlagOp}
    (hop : di.zydis.mnemonic.capturedOp = some fop)
    (hdest : ctx.destWidth (di.zydis.op 0) (di.zydis.op 1) = typeOfReg (di.zydis.op 0).reg)
    (hform : di.zydis.RegisterForm g p) :
    ∃ op name, (∀ a b : BitVec p.type.width, op.binop a b = fop.result a b) ∧
      (∀ a b : BitVec p.type.width, ∃ v, op.binop a b = some v) ∧
      (∀ d l r, (IRInst.makeBinop op d p.type l r).isTerminator = false) ∧
      liftInstr ctx di = (do
        let result ← liftBinop ctx op name fop p.type (di.zydis.op 0) (di.zydis.op 1)
        if di.zydis.mnemonic.discardsResult then return ()
        else writeOperand ctx (di.zydis.op 0) result) := by
  have hreg : typeOfReg (di.zydis.op 0).reg = p.type := (tables_of_view hform.view).2
  have harith : arithType (di.zydis.op 0) = p.type := by rw [arithType, if_pos hform.type, hreg]
  have hcompare : ∀ op name, liftCompare ctx op name fop di.zydis = (do
      let _ ← liftBinop ctx op name fop p.type (di.zydis.op 0) (di.zydis.op 1)
      return ()) := fun op name => by rw [liftCompare, cmpType, if_pos hform.type, hreg]
  rw [hreg] at hdest
  rw [liftInstr.eq_def]
  dsimp only
  generalize di.zydis.mnemonic = mnemonic at hop
  have hterm : ∀ {op : Opcode}, op ∈ [Opcode.add, .sub, .and, .or, .xor] → ∀ d l r,
      (IRInst.makeBinop op d p.type l r).isTerminator = false := by
    intro op hmem d l r
    simp only [List.mem_cons, List.not_mem_nil, or_false] at hmem
    rcases hmem with rfl | rfl | rfl | rfl | rfl <;> rfl
  cases mnemonic with
  | add => cases hop; exact ⟨.add, "add", fun _ _ => rfl, fun _ _ => ⟨_, rfl⟩, hterm (by simp),
      by rw [harith]; rfl⟩
  | sub => cases hop; exact ⟨.sub, "sub", fun _ _ => rfl, fun _ _ => ⟨_, rfl⟩, hterm (by simp),
      by rw [harith]; rfl⟩
  | and => cases hop; exact ⟨.and, "bw", fun _ _ => rfl, fun _ _ => ⟨_, rfl⟩, hterm (by simp),
      by rw [hdest]; rfl⟩
  | or => cases hop; exact ⟨.or, "bw", fun _ _ => rfl, fun _ _ => ⟨_, rfl⟩, hterm (by simp),
      by rw [hdest]; rfl⟩
  | xor => cases hop; exact ⟨.xor, "bw", fun _ _ => rfl, fun _ _ => ⟨_, rfl⟩, hterm (by simp),
      by rw [hdest]; rfl⟩
  | cmp => cases hop; exact ⟨.sub, "cmp_sub", fun _ _ => rfl, fun _ _ => ⟨_, rfl⟩, hterm (by simp),
      hcompare _ _⟩
  | test => cases hop; exact ⟨.and, "test_and", fun _ _ => rfl, fun _ _ => ⟨_, rfl⟩,
      hterm (by simp), hcompare _ _⟩
  | _ => cases hop

/-- At 64 bits the result of the code is the operation on the two operands. -/
lemma binopCode_value (hpass : ctx.passing = .byReference) (hform : z.RegisterForm g .qword)
    (hsource : (z.op 1).IsSource (RegPart.type .qword)) (hs : s.Open) (hnext : 16 ≤ s.nextVregId)
    {op : Opcode} {name : String}
    (hterm : ∀ d l r, (IRInst.makeBinop op d .i64 l r).isTerminator = false)
    {out : IRValue × IRValue × IRValue} {is : List IRInst}
    (hrun : (binopCode ctx op name .i64 (z.op 0) (z.op 1)).run s = .ok out s₁)
    (hblock : s₁.block = s.block.append is) {m m' : Machine} (hm : run IRInst.step is m = some m')
    {r : BitVec 64}
    (hr : op.binop (m.file.read g .qword) ((z.op 1).sourceValue m.file .i64) = some r) :
    m'.eval .i64 out.1 = r := by
  have hdst : (z.op 0).isHighByte = false := by
    simp [ZydisDecodedOperand.isHighByte, hform.view]
  have hhigh : (z.op 1).isHighByte = false := by
    unfold ZydisDecodedOperand.isHighByte
    cases hsource with
    | immediate h => simp [h]
    | register g' p' h hview hty =>
      rw [hview]
      cases p' <;> cases hty
      simp
  have hdstRead := executesTo_readOperand_dst (m := m) hpass hform hdst hs hnext
  refine ((executesTo_binopCode hdstRead ?_ hs hr hterm).of_run hrun hblock hm).1.value
  intro s' m₁ hs' hnext' hsame
  have h := executesTo_readOperand_source (m := m₁) hpass hsource hhigh hs' (hnext.trans hnext')
  rwa [file_eq_of_sameBut hnext hsame] at h

/-- What a flag-setting instruction leaves in the block and in the flag record: code `pre` that only
writes temporaries, then at most one write `wb` of the destination. -/
structure SetterText (ctx : LiftContext) (di : DecodedInstr) (fop : FlagOp) (g : Gpr) (p : RegPart)
    (s s₁ : LiftState) (pre wb : List IRInst) (result lhs rhs : IRValue) : Prop where
  run_eq : (liftInstr ctx di).run s = .ok () s₁
  block : s₁.block = s.block.append (pre ++ wb)
  next_le : s.nextVregId ≤ s₁.nextVregId
  flagState : s₁.flagState = s.flagState.set fop result lhs rhs p.type
  result_type : result.type = p.type
  result_temp : IsTemp s s₁ result
  lhs : CapturedLhs s g p lhs s₁
  pre_plain : ∀ i ∈ pre, i.Plain (Set.Ici s.nextVregId)
  wb_plain : ∀ i ∈ wb, i.Plain {g.vregId}
  wb_writes : ∀ i ∈ wb, i.writesGpr g = true
  /-- At 64 bits the captured result is the operation on the two operands. -/
  value : p = .qword → ∀ m mW, run IRInst.step pre m = some mW → ∀ r,
    fop.result (m.file.read g p) ((di.zydis.op 1).sourceValue m.file p.type) = some r →
      mW.eval p.type result = r

/-- An instruction that captures its operands leaves such a text. -/
lemma exists_setterText (hpass : ctx.passing = .byReference) {di : DecodedInstr} {fop : FlagOp}
    (hop : di.zydis.mnemonic.capturedOp = some fop)
    (hdest : ctx.destWidth (di.zydis.op 0) (di.zydis.op 1) = typeOfReg (di.zydis.op 0).reg)
    (hform : di.zydis.RegisterForm g p) (hs : s.Open) (hnext : 16 ≤ s.nextVregId) :
    ∃ s₁ pre wb result lhs rhs, SetterText ctx di fop g p s s₁ pre wb result lhs rhs := by
  obtain ⟨op, name, hresult, hbinop, hterm, hlift⟩ := liftInstr_of_capturedOp hop hdest hform
  have hsource : (di.zydis.op 1).IsSource p.type := by
    apply hform.source.resolve_left
    generalize di.zydis.mnemonic = mnemonic at hop
    cases mnemonic <;> first | decide | cases hop
  obtain ⟨⟨result, lhs, rhs⟩, sb, is, hrun, hblock, his, hle, hflags, ⟨hrestype, hrestemp⟩, hlhs⟩ :=
    emits_binopCode hpass hform hs hbinop hterm
  set sf : LiftState := { sb with flagState := sb.flagState.set fop result lhs rhs p.type } with hsf
  have hsfopen : sf.Open := by
    show sb.block.isTerminated = false
    rw [hblock]
    exact IRBasicBlock.append_open hs fun i hi => (his i hi).isTerminator
  have hrunf : (liftBinop ctx op name fop p.type (di.zydis.op 0) (di.zydis.op 1)).run s =
      .ok result sf := by
    rw [liftBinop, run_bind_of_ok hrun]
    rfl
  -- the value of the result at the end of its own code
  have hvalue : p = .qword → ∀ m m', run IRInst.step is m = some m' → ∀ r,
      fop.result (m.file.read g p) ((di.zydis.op 1).sourceValue m.file p.type) = some r →
        m'.eval p.type result = r := by
    rintro rfl m m' hm r hr
    exact binopCode_value hpass hform hsource hs hnext hterm hrun hblock hm
      ((hresult _ _).trans hr)
  cases hdisc : di.zydis.mnemonic.discardsResult with
  | true =>
    refine ⟨sf, is, [], result, lhs, rhs, ?_, by simpa using hblock, hle, by simp [hsf, hflags],
      hrestype, hrestemp, hlhs.of_le le_rfl, his, by simp, by simp, hvalue⟩
    rw [hlift, run_bind_of_ok hrunf]
    simp [hdisc]
  | false =>
    obtain ⟨n, temps, last, hwrite, htemps, hlast, hwrites⟩ :=
      writeReg_text ctx hform.view hsfopen result
    refine ⟨sf.emit n (temps ++ [last]), is ++ temps, [last], result, lhs, rhs, ?_, ?_, ?_,
      by simp [hsf, hflags], hrestype, hrestemp.of_le (by simp [hsf]), hlhs.of_le (by simp [hsf]),
      ?_, by simpa using hlast, by simpa using hwrites, ?_⟩
    · rw [hlift, run_bind_of_ok hrunf]
      simp [hdisc, writeOperand, hform.type, withBlockArg_byReference hpass, hwrite]
    · simp [hsf, hblock]
    · exact hle.trans (by simp [hsf])
    · intro i hi
      rcases List.mem_append.mp hi with hi | hi
      · exact his i hi
      · exact (htemps i hi).mono (Set.Ici_subset_Ici.mpr hle)
    · intro hp m mW hmW r hr
      rw [run_append, Option.bind_eq_some_iff] at hmW
      obtain ⟨m', hm', hmW⟩ := hmW
      have hsame := IRInst.sameBut_of_run hmW fun i hi => (htemps i hi).defines
      rw [hsame.eval_eq p.type, hvalue hp m m' hm' r hr]
      intro id hid hmem
      obtain ⟨k, -, hk, hk'⟩ := hrestemp
      obtain rfl : k = id := by simpa [hk'] using hid
      exact absurd (Set.mem_Ici.mp hmem) (by simpa [hsf] using hk)

/-- The code before the write of the destination is the code that computes the result. -/
lemma SetterText.beforeWrite_eq {di : DecodedInstr} {fop : FlagOp} {pre wb : List IRInst}
    {result lhs rhs : IRValue} (h : SetterText ctx di fop g p s s₁ pre wb result lhs rhs)
    (hnext : 16 ≤ s.nextVregId) : beforeWrite g (pre ++ wb) = pre := by
  have hpre : ∀ i ∈ pre, (!i.writesGpr g) = true := by
    intro i hi
    rw [Bool.not_eq_true', Bool.eq_false_iff, ne_eq, IRInst.writesGpr_iff]
    intro hdef
    have := Set.mem_Ici.mp ((h.pre_plain i hi).defines _ hdef)
    have := g.vregId_lt
    omega
  rw [beforeWrite, List.takeWhile_append_of_pos hpre]
  have hwb : wb.takeWhile (fun i => !i.writesGpr g) = [] := by
    cases wb with
    | nil => rfl
    | cons i wb => simp [h.wb_writes i List.mem_cons_self]
  rw [hwb, List.append_nil]

namespace SetterText

variable {di : DecodedInstr} {fop : FlagOp} {pre wb : List IRInst} {result lhs rhs : IRValue}
  (h : SetterText ctx di fop g p s s₁ pre wb result lhs rhs)

include h

/-- The block stays open for the jump. -/
lemma isOpen (hs : s.Open) : s₁.Open := by
  rw [LiftState.Open, h.block]
  refine IRBasicBlock.append_open hs fun i hi => ?_
  exact (List.mem_append.mp hi).elim (fun hi => (h.pre_plain i hi).isTerminator)
    fun hi => (h.wb_plain i hi).isTerminator

/-- The identifiers the jump takes are not those of the captured operands. -/
lemma freshIds (hnext : 16 ≤ s.nextVregId) (hflags : s₂.flagState = s₁.flagState)
    (hle : s₁.nextVregId ≤ s₂.nextVregId) :
    s₂.flagState.FreshIds (s₂.nextVregId + ·) := by
  rw [hflags, h.flagState]
  refine ⟨fun i j hij => by simpa using hij, fun j hj => ?_, fun j hj => ?_⟩
  · obtain ⟨k, -, hk, hkv⟩ := h.result_temp
    obtain rfl : k = s₂.nextVregId + j := by simpa [FlagState.set, hkv] using hj
    omega
  · have hlt := h.lhs.vregId_lt (hnext.trans h.next_le) hj
    omega

/-- Only at 64 bits does the left operand change between its capture and the jump. -/
lemma answersAlike_iff (hop : di.zydis.mnemonic.capturedOp = some fop)
    (hnext : 16 ≤ s.nextVregId) {m₀ mW mJ : Machine} (hmW : run IRInst.step pre m₀ = some mW)
    (hsame : mW.SameBut (Set.Iio 16 ∪ Set.Ici s₁.nextVregId) mJ) (request : FlagRequest) :
    fop.AnswersAlike request (mW.eval p.type result) (mW.eval p.type lhs) (mJ.eval p.type lhs) ↔
      (p = .qword → ∀ r, fop.result (m₀.file.read g p)
          ((di.zydis.op 1).sourceValue m₀.file p.type) = some r →
        fop.AnswersAlike request r (m₀.file.read g p) (mJ.file.read g p)) := by
  by_cases hp : p = .qword
  · subst hp
    have hlhs : mW.eval .i64 lhs = m₀.file.read g .qword := by
      have hpre := IRInst.sameBut_of_run hmW fun i hi => (h.pre_plain i hi).defines
      rw [h.lhs.eval_qword, file_eq_of_sameBut_Ici hnext hpre]
    have hlhs' : mJ.eval .i64 lhs = mJ.file.read g .qword := h.lhs.eval_qword mJ
    rw [hlhs, hlhs']
    constructor
    · intro halike _ r hr
      rwa [h.value rfl m₀ mW hmW r hr] at halike
    · intro halike
      obtain ⟨r, hr⟩ := FlagOp.exists_result hop (m₀.file.read g .qword)
        ((di.zydis.op 1).sourceValue m₀.file .i64)
      rw [h.value rfl m₀ mW hmW r hr]
      exact halike rfl r hr
  · rw [IsTemp.eval_eq hnext hsame (h.lhs.narrow hp)]
    exact ⟨fun _ hq => absurd hq hp, fun _ => FlagOp.answersAlike_self _ _ _ _⟩

end SetterText

/-- A conditional jump appends code whose condition is that of the recovered flags, on whatever the
captured operands then hold. -/
lemma exists_jumpText {jcc : DecodedInstr} {request : FlagRequest}
    (hjcc : flagRequestForJcc jcc.zydis.mnemonic = some request) (hs : s.Open)
    (hvalid : s.flagState.valid = true) (hfresh : s.flagState.FreshIds (s.nextVregId + ·)) :
    ∃ s' js, (liftInstr ctx jcc).run s = .ok () s' ∧ s'.block = s.block.append js ∧
      ∀ r a m, s.flagState.Holds m r a → branchCondition js m =
        some (BitVec.ofBool ((FlagState.recoveredFlags s.flagState.op r a).cond request)) := by
  have hlift : liftInstr ctx jcc = liftJcc ctx jcc := liftInstr_eq_liftJcc hjcc
  obtain ⟨cond, is, n, hrun, hterm, -, -⟩ :=
    FlagState.computes_materialise (r := 0) (a := 0) hvalid hfresh request s.block 0 hs
  have hmat : (materialiseCond request).run s = .ok cond (s.emit n is) := by
    simp [materialiseCond, hrun, LiftState.emit]
  set cjmp := IRInst.makeCjmp cond (labelAt ctx jcc.relativeTarget) (labelAt ctx jcc.nextVA)
    with hcjmp
  refine ⟨s.emit n (is ++ [cjmp]), is ++ [cjmp], ?_, rfl, fun r a m hm => ?_⟩
  · rw [hlift]
    simp only [liftJcc, hjcc]
    rw [run_bind_of_ok hmat, run_pushInst (hs.emit n hterm)]
    simp [hcjmp]
  · obtain ⟨cond', is', n', hrun', -, -, hval⟩ :=
      FlagState.computes_materialise (r := r) (a := a) hvalid hfresh request s.block 0 hs
    obtain ⟨rfl, his, -⟩ : cond' = cond ∧ s.block.append is' = s.block.append is ∧ n' = n := by
      simpa [hrun] using hrun'.symm
    obtain rfl : is' = is := by simpa using congrArg IRBasicBlock.instructions his
    obtain ⟨m', hm', -, hcond⟩ := hval m hm
    simp [branchCondition, hcjmp, IRInst.makeCjmp, hm', hcond]

/-- The condition at the jump is the one on the operands as they were just before the flag-setting
instruction wrote its destination, exactly when the instruction is narrower than 64 bits or the
request is answered alike with the old and with the current content of the destination. -/
theorem lazyFlags_iff (hpass : ctx.passing = .byReference) {fi jcc : DecodedInstr}
    {mid : List DecodedInstr} {fop : FlagOp} {request : FlagRequest}
    (hfi : fi.zydis.mnemonic.capturedOp = some fop)
    (hdest : ctx.destWidth (fi.zydis.op 0) (fi.zydis.op 1) = typeOfReg (fi.zydis.op 0).reg)
    (hform : fi.zydis.RegisterForm g p)
    (hmid : ∀ di ∈ mid, di.zydis.mnemonic.keepsFlags = true)
    (hjcc : flagRequestForJcc jcc.zydis.mnemonic = some request) (hs : s.Open)
    (hnext : 20 ≤ s.nextVregId) (m₀ : Machine) :
    ∃ t : FlagTrace ctx fi mid jcc g s m₀, (branchCondition t.js t.mJ).isSome = true ∧
      (branchCondition t.js t.mJ = branchCondition t.js t.mW ↔
        (p = .qword → ∀ r, fop.result (m₀.file.read g p)
            ((fi.zydis.op 1).sourceValue m₀.file p.type) = some r →
          fop.AnswersAlike request r (m₀.file.read g p) (t.mJ.file.read g p))) := by
  have hnext16 : 16 ≤ s.nextVregId := le_trans (by decide) hnext
  -- the flag-setting instruction
  obtain ⟨s₁, pre, wb, result, lhs, rhs, h⟩ := exists_setterText hpass hfi hdest hform hs hnext16
  have hs₁ : s₁.Open := h.isOpen hs
  -- the instructions between it and the jump
  obtain ⟨⟨⟩, s₂, ms, hrun₂, hblock₂, hms, hnext₂, hflags₂, -⟩ :=
    emits_forM_of_keepsFlags (S := Set.Iio 16 ∪ Set.Ici s₁.nextVregId) hpass hs₁
      Set.subset_union_right Set.subset_union_left hmid
  have hs₂ : s₂.Open := hs₁.of_append hblock₂ fun i hi => (hms i hi).isTerminator
  have hfs : s₂.flagState = s.flagState.set fop result lhs rhs p.type := hflags₂.trans h.flagState
  -- the jump
  obtain ⟨s₃, js, hrun₃, hblock₃, hcond⟩ :=
    exists_jumpText hjcc hs₂ (by rw [hfs]; rfl) (h.freshIds hnext16 hflags₂ hnext₂)
  rw [hfs] at hcond
  -- the two machines; between them only fixed registers and later temporaries change
  obtain ⟨mW, hmW⟩ := exists_run (fun i hi => (h.pre_plain i hi).exists_step) m₀
  have hlaterPlain : ∀ i ∈ wb ++ ms, i.Plain (Set.Iio 16 ∪ Set.Ici s₁.nextVregId) := by
    intro i hi
    rcases List.mem_append.mp hi with hi | hi
    · refine (h.wb_plain i hi).mono fun id hid => Or.inl ?_
      rw [Set.mem_singleton_iff.mp hid]
      exact g.vregId_lt
    · exact hms i hi
  obtain ⟨mJ, hmJ⟩ := exists_run (fun i hi => (hlaterPlain i hi).exists_step) mW
  have hlater : mW.SameBut (Set.Iio 16 ∪ Set.Ici s₁.nextVregId) mJ :=
    IRInst.sameBut_of_run hmJ fun i hi => (hlaterPlain i hi).defines
  refine ⟨⟨s₁, s₂, s₃, pre ++ wb, ms, js, mW, mJ, h.run_eq, h.block, hrun₂, hblock₂, hrun₃, hblock₃,
    by rw [h.beforeWrite_eq hnext16, hmW],
    by rw [List.append_assoc, run_append_of_eq_some hmW hmJ]⟩, ?_⟩
  -- the condition on each of them
  have hW := hcond (mW.eval p.type result) (mW.eval p.type lhs) mW
    ⟨h.result_type, h.lhs.type, rfl, rfl⟩
  have hJ := hcond (mW.eval p.type result) (mJ.eval p.type lhs) mJ
    ⟨h.result_type, h.lhs.type, IsTemp.eval_eq hnext16 hlater h.result_temp p.type, rfl⟩
  have hofBool : ∀ x y, BitVec.ofBool x = BitVec.ofBool y ↔ x = y := by decide
  refine ⟨by rw [hJ]; rfl, ?_⟩
  rw [hJ, hW, Option.some_inj, hofBool]
  exact (FlagOp.cond_recoveredFlags_iff hfi request _ _ _).trans
    (h.answersAlike_iff hfi hnext16 hmW hlater request)

/-- `add rax, rbx` at `0x1000`. -/
def addRaxRbx : DecodedInstr where
  va := 0x1000
  length := 3
  zydis :=
    { mnemonic := .add, length := 3, operandCountVisible := 2,
      operands := [{ type := .register, size := 64, reg := .rax },
        { type := .register, size := 64, reg := .rbx }] }

/-- `jb` to `0x1010`, after it. -/
def jbAfterAdd : DecodedInstr where
  va := 0x1003
  length := 2
  zydis :=
    { mnemonic := .jb, length := 2, operandCountVisible := 1,
      operands :=
        [{ type := .immediate, size := 8, imm := { isRelative := true, value := 0xb } }] }

/-- A machine with 1 in `rax` and the largest word in `rbx`. -/
def oneAndMax : Machine where
  regs := fun id => if id = 0 then 1 else if id = 1 then 0xffffffffffffffff else 0
  mem := fun _ => 0
  symbols := fun _ => 0

/-- `add rax, rbx` and `jb`, lifted into one block. -/
theorem lazyFlags_iff_add_jb :
    ∃ t : FlagTrace bareContext addRaxRbx [] jbAfterAdd .rax emptyBlock oneAndMax,
      (branchCondition t.js t.mJ).isSome = true ∧
        (branchCondition t.js t.mJ = branchCondition t.js t.mW ↔
          (RegPart.qword = .qword → ∀ r, FlagOp.result .add (oneAndMax.file.read .rax .qword)
              ((addRaxRbx.zydis.op 1).sourceValue oneAndMax.file .i64) = some r →
            FlagOp.AnswersAlike .add .cf r (oneAndMax.file.read .rax .qword)
              (t.mJ.file.read .rax .qword))) :=
  lazyFlags_iff (p := .qword) rfl rfl rfl
    ⟨rfl, rfl, Or.inr (.register .rbx .qword rfl rfl rfl)⟩ (by simp) rfl emptyBlock_open
    (by decide) oneAndMax

/-- `1 + (2 ^ 64 - 1)` carries, but after the write `rax` is zero and so is the condition of
`jb`. -/
theorem jb_after_add_rax_rbx :
    ∃ t : FlagTrace bareContext addRaxRbx [] jbAfterAdd .rax emptyBlock oneAndMax,
      branchCondition t.js t.mJ = some 0 ∧ branchCondition t.js t.mW = some 1 := by
  refine ⟨⟨_, _, _, _, _, _, _, _, rfl, rfl, rfl, rfl, rfl, rfl, rfl, rfl⟩, ?_, ?_⟩ <;> decide

end FunctionLifter

end InstaX
