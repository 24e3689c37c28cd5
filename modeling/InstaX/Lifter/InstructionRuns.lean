import InstaX.Flags.WellFormed
import InstaX.IR.Execution
import InstaX.Lifter.Coverage

/-!
# Lifted instructions against the architecture

A covered instruction that does not jump is executed by the architecture, and the code that is
lifted for it takes a machine that holds the guest state before it to one that holds the state after
it (`exec_covers`).  What was known of the recorded flags stays true as `trackAfter` says.  A
covered jump goes where the branch that is lifted for it goes (`exec_coversJump`).
-/

namespace InstaX

open Throwing StraightLine FixedWidth

/-- The flags of an operation are given by it. -/
lemma FlagOp.gives_of_eq {w : ℕ} {op : FlagOp} {a b : BitVec w} {f : X86Flags}
    (h : op.x86Flags a b = some f) : op.Gives a b f :=
  ⟨f, h, rfl, rfl, rfl, fun _ _ => rfl⟩

/-- An arithmetic or logical instruction whose operands have values. -/
lemma X86.execAlu_eq {di : DecodedInstr} {x : X86State} {ty : IRType} {a b r : BitVec ty.width}
    {f : X86Flags} (hty : (di.zydis.op 0).dataType = some ty)
    (ha : x.read di.nextVA (di.zydis.op 0) ty = some a)
    (hb : (if di.zydis.mnemonic.isUnary then some 0 else x.read di.nextVA
      (di.zydis.op 1) ty) = some b)
    (hr : di.zydis.mnemonic.aluResult a b = some r)
    (hf : di.zydis.mnemonic.aluFlags x.flags a b = some f) :
    X86.execAlu di x = if di.zydis.mnemonic.discardsResult then some { x with flags := f }
      else ({ x with flags := f } : X86State).write di.nextVA (di.zydis.op 0) r := by
  cases hunary : di.zydis.mnemonic.isUnary with
  | true =>
    obtain rfl : 0 = b := by simpa [hunary] using hb
    simp only [X86.execAlu, hty, ha, hunary, hr, hf, Option.bind_eq_bind, Option.bind_some,
      reduceIte]
  | false =>
    have hb' : x.read di.nextVA (di.zydis.op 1) ty = some b := by simpa [hunary] using hb
    simp [X86.execAlu, hty, ha, hunary, hb', hr, hf]

namespace FunctionLifter

variable {ctx : LiftContext} {s s₁ : LiftState} {m m₁ : Machine} {x : X86State} {ty : IRType}
  {nextVA : U64} {track : Option FlagTrack} {f : X86Flags}

/-- The value of an instruction was computed, and a flag record holds of the flags. -/
structure ResultPost (track : Option FlagTrack) (f : X86Flags) (s : LiftState) (m : Machine)
    {ty : IRType} (r : BitVec ty.width) (v : IRValue) (s' : LiftState) (m' : Machine) : Prop where
  read : ReadPost s m r v s' m'
  isOpen : s'.Open
  mem : m'.mem = m.mem
  record : ∀ t ∈ track, t.Holds s'.flagState s'.nextVregId m' f

/-- The code of an instruction was executed: the machine holds a guest state, and a flag record
holds of its flags. -/
structure InstrPost (track : Option FlagTrack) (s : LiftState) (x : X86State) (s' : LiftState)
    (m' : Machine) : Prop where
  holds : m'.Holds x
  isOpen : s'.Open
  next_le : s.nextVregId ≤ s'.nextVregId
  record : ∀ t ∈ track, t.Holds s'.flagState s'.nextVregId m' x.flags

/-- The types of data are integers. -/
lemma isInteger_of_dataType {op : ZydisDecodedOperand} (h : op.dataType = some ty) :
    ty.isInteger = true := by
  unfold ZydisDecodedOperand.dataType at h
  split at h
  · obtain ⟨⟨g, p⟩, -, rfl⟩ := Option.map_eq_some_iff.mp h
    cases p <;> rfl
  · split_ifs at h <;> cases h <;> rfl
  · cases h
  · cases h
  · cases h

/-- The value is `a`, and as the left operand of a record it is what is left of an operand. -/
structure LhsPost (lhsTrack : LhsTrack) (m : Machine) (next : ℕ) {ty : IRType} (a : BitVec ty.width)
    (lhs : IRValue) : Prop where
  type : lhs.type = ty
  value : m.eval ty lhs = a
  id : ∀ id, lhs.vregId? = some id → id < next ∧
    (16 ≤ id ∨ lhsTrack = .lost ∨ ∃ g, lhsTrack = .register g ∧ g.vregId = id)

/-- An operand that was read, as a left operand. -/
lemma ValuePost.lhsPost {op : ZydisDecodedOperand} {a : BitVec ty.width} {v : IRValue}
    (h : ValuePost op s m a v s₁ m₁) (hnext : 16 ≤ s.nextVregId) :
    LhsPost op.lhsTrack m₁ s₁.nextVregId a v := by
  refine ⟨h.read.type, h.read.value, fun id hid => ⟨h.read.vregId_lt id hid, ?_⟩⟩
  rcases h.source id hid with ⟨g, hg, rfl⟩ | hge
  · refine Or.inr (Or.inr ⟨g, ?_, rfl⟩)
    simp [ZydisDecodedOperand.lhsTrack, Option.mem_def.mp hg]
  · exact Or.inl (hnext.trans hge)

/-- A left operand survives code that writes later temporaries. -/
lemma LhsPost.extend {lhsTrack : LhsTrack} {next next' : ℕ} {a : BitVec ty.width} {lhs : IRValue}
    (h : LhsPost lhsTrack m next a lhs) (hnext : next ≤ next')
    (hsame : m.SameBut (Set.Ico next next') m₁) : LhsPost lhsTrack m₁ next' a lhs := by
  refine ⟨h.type, ?_, fun id hid => ⟨(h.id id hid).1.trans_le hnext, (h.id id hid).2⟩⟩
  rw [← h.value]
  exact hsame.eval_eq ty fun id hid hmem => absurd (h.id id hid).1 (not_lt.mpr hmem.1)

/-- A result whose flags are recorded. -/
lemma ResultPost.setFlags {lhsTrack : LhsTrack} {fop : FlagOp} {a b r : BitVec ty.width}
    {lhs rhs result : IRValue} (hint : ty.isInteger = true) (hnext : 16 ≤ s.nextVregId)
    (hlhs : LhsPost lhsTrack m₁ s₁.nextVregId a lhs) (hr : fop.result a b = some r)
    (hgives : fop.Gives a b f) (hresult : ReadPost s m r result s₁ m₁)
    (hfresh : ∀ id, result.vregId? = some id → s.nextVregId ≤ id) (hmem : m₁.mem = m.mem)
    (hs₁ : s₁.Open) :
    ExecutesTo (do FunctionLifter.setFlags fop result lhs rhs ty; return result) s₁ m₁
      (ResultPost (some ⟨fop, lhsTrack⟩) f s m r) := by
  refine ExecutesTo.bind hs₁ (ExecutesTo.setFlags (R := fun _ s' m' =>
    ResultPost (some ⟨fop, lhsTrack⟩) f s m r result s' m') ?_) fun _ s₂ m₂ _ h => ExecutesTo.pure h
  refine ⟨⟨hresult.next_le, hresult.same, hresult.type, hresult.vregId_lt, hresult.value⟩,
    hs₁, hmem, fun t ht => ?_⟩
  obtain rfl := Option.some_inj.mp (Option.mem_def.mp ht)
  refine ⟨rfl, rfl, hint, hresult.type, hlhs.type, fun id hid => ?_, hlhs.id, ?_⟩
  · exact ⟨hnext.trans (hfresh id hid), hresult.vregId_lt id hid⟩
  · exact ⟨a, b, hr.trans (congrArg some hresult.value.symm), fun _ => hlhs.value, hgives⟩

/-- A new temporary: its value, and what it leaves alone. -/
lemma executesTo_defineTemp_steady {inst : ℕ → IRInst} {r : BitVec ty.width} (hs : s.Open)
    (hterm : ∀ id, (inst id).isTerminator = false) (hstore : ∀ id, (inst id).opcode ≠ .store)
    (hstep : (inst s.nextVregId).step m = some (m.set s.nextVregId r)) :
    ExecutesTo (defineTemp ty inst) s m fun v s' m' => ReadPost s m r v s' m' ∧ s'.Open ∧
      s'.flagState = s.flagState ∧ m'.mem = m.mem ∧
        ∀ id, v.vregId? = some id → s.nextVregId ≤ id := by
  refine (((executesTo_defineTemp hs (hterm _) hstep).and_steady hs
    (Steady.defineTemp hterm hstore)).and_appends (appends_defineTemp_source hs (hterm _))).mono ?_
  rintro v s' m' ⟨⟨hpost, hopen, hflags, hmem⟩, -, is, hid, -⟩
  refine ⟨hpost, hopen, hflags, hmem, fun id hid' => ?_⟩
  rw [← Option.some_inj.mp (hid.symm.trans hid')]

/-- The architecture writes a covered operand. -/
lemma exists_write (nextVA : U64) {op : ZydisDecodedOperand} (hop : op.Writable ctx ty)
    (x : X86State)
    (v : BitVec ty.width) : ∃ x', x.write nextVA op v = some x' := by
  rcases hop with ⟨-, htype, part, hview, -⟩ | ⟨htype, -⟩
  · exact ⟨_, by rw [X86State.write, htype, Option.mem_def.mp hview]; rfl⟩
  · exact ⟨_, by rw [X86State.write, htype]⟩

/-! ## Arithmetic and logical instructions -/

section Alu

variable {op op' : ZydisDecodedOperand} (nextVA) (hm : m.Holds x) (hs : s.Open)
  (hnext : 16 ≤ s.nextVregId)

include hm hs hnext

/-- A binary operation on covered operands, with its flag record. -/
lemma executesTo_liftBinop_covers {bop : Opcode} (name : String) (fop : FlagOp)
    (hint : ty.isInteger = true) (hop : op.Readable ctx ty) (hop' : op'.Readable ctx ty)
    (hterm : ∀ d l r, (IRInst.makeBinop bop d ty l r).isTerminator = false)
    (hstore : bop ≠ .store) :
    ∃ a b, x.read nextVA op ty = some a ∧ x.read nextVA op' ty = some b ∧
      ∀ r f, bop.binop a b = some r → fop.result a b = some r → fop.Gives a b f →
        ExecutesTo (liftBinop ctx bop name fop ty op op') s m
          (ResultPost (some ⟨fop, op.lhsTrack⟩) f s m r) := by
  obtain ⟨a, ha, hlhs⟩ := executesTo_readOperand_readable nextVA hm hs hnext hop
  obtain ⟨b, hb, -⟩ := executesTo_readOperand_readable nextVA hm hs hnext hop'
  refine ⟨a, b, ha, hb, fun r f hbin hr hgives => ?_⟩
  simp only [liftBinop, binopCode, bind_assoc, pure_bind]
  refine ExecutesTo.bind hs hlhs fun lhs s₁ m₁ hs₁ hl => ?_
  have hnext₁ := hnext.trans hl.read.next_le
  obtain ⟨b', hb', hrhs⟩ := executesTo_readOperand_readable nextVA
    (hl.holds hm hnext) hs₁ hnext₁ hop'
  obtain rfl : b = b' := Option.some_inj.mp (hb.symm.trans hb')
  refine ExecutesTo.bind hs₁ hrhs fun rhs s₂ m₂ hs₂ hr₂ => ?_
  have hlhs₂ := hl.read.extend hr₂.read.next_le hr₂.read.same
  refine ExecutesTo.bind hs₂ (executesTo_defineTemp_steady (r := r) hs₂ (fun _ => hterm _ _ _)
    (fun _ => hstore) ?_) ?_
  · rw [IRInst.step_makeBinop, hlhs₂.value, hr₂.read.value, hbin]
    rfl
  · rintro result s₃ m₃ hs₃ ⟨hresult, -, hflags, hmem, hfresh⟩
    have hresult' := hresult.of_le hlhs₂.next_le hlhs₂.same
    refine ResultPost.setFlags hint hnext ?_ hr hgives hresult' ?_ ?_ hs₃
    · exact ((hl.lhsPost hnext).extend hr₂.read.next_le hr₂.read.same).extend hresult.next_le
        hresult.same
    · exact fun id hid => hlhs₂.next_le.trans (hfresh id hid)
    · rw [hmem, hr₂.mem, hl.mem]

/-- A result that is written to a covered operand. -/
lemma executesTo_writeBack_covers {act : LiftM IRValue} {r : BitVec ty.width}
    (hop : op.Writable ctx ty) (hact : ExecutesTo act s m (ResultPost track f s m r)) :
    ∃ x', ({ x with flags := f } : X86State).write nextVA op r = some x' ∧
      ExecutesTo (do let result ← act; writeOperand ctx op result) s m fun _ =>
        InstrPost (track.map (FlagTrack.clobber op.gpr?)) s x' := by
  obtain ⟨x', hx'⟩ := exists_write nextVA hop { x with flags := f } r
  refine ⟨x', hx', ExecutesTo.bind hs hact fun result s₁ m₁ hs₁ hresult => ?_⟩
  have hm₁ : m₁.Holds { x with flags := f } := by
    have hheld := holds_of_sameBut hm hnext hresult.read.same hresult.mem
    exact ⟨hheld.file, hheld.mem⟩
  obtain ⟨x'', hx'', hflags, hwrite⟩ := executesTo_writeOperand_writable nextVA hm₁ hs₁
    (hnext.trans hresult.read.next_le) hop hresult.read.type hresult.read.vregId_lt
    hresult.read.value
  obtain rfl : x' = x'' := Option.some_inj.mp (hx'.symm.trans hx'')
  refine hwrite.mono fun _ s₂ m₂ hpost => ?_
  refine ⟨hpost.holds, hpost.isOpen, hresult.read.next_le.trans hpost.next_le, fun t ht => ?_⟩
  obtain ⟨t₀, ht₀, rfl⟩ := Option.map_eq_some_iff.mp ht
  rw [hflags, hpost.flags]
  exact (hresult.record t₀ ht₀).clobber _ hpost.next_le hpost.same

variable {di : DecodedInstr} (hty : (di.zydis.op 0).dataType = some ty)
  (hop : (di.zydis.op 0).Readable ctx ty)

include hty hop

/-- The instructions with two operands that write their result. -/
lemma exec_liftArith (hop' : (di.zydis.op 1).Readable ctx ty)
    (hwrite : (di.zydis.op 0).Writable ctx ty)
    {bop : Opcode} {name : String} {fop : FlagOp} (hunary : di.zydis.mnemonic.isUnary = false)
    (hkeep : di.zydis.mnemonic.discardsResult = false)
    (halu : ∀ a b : BitVec ty.width, ∃ r f, bop.binop a b = some r ∧ fop.result a b = some r ∧
      di.zydis.mnemonic.aluResult a b = some r ∧ fop.x86Flags a b = some f ∧
      di.zydis.mnemonic.aluFlags x.flags a b = some f)
    (hterm : ∀ d l r, (IRInst.makeBinop bop d ty l r).isTerminator = false)
    (hstore : bop ≠ .store) :
    ∃ x', X86.execAlu di x = some x' ∧
      ExecutesTo (liftArith ctx bop name fop ty di.zydis) s m fun _ => InstrPost
        (some (FlagTrack.clobber (di.zydis.op 0).gpr? ⟨fop, (di.zydis.op 0).lhsTrack⟩)) s x' := by
  obtain ⟨a, b, ha, hb, hcode⟩ := executesTo_liftBinop_covers di.nextVA hm hs hnext name fop
    (isInteger_of_dataType hty) hop hop' hterm hstore
  obtain ⟨r, f, hbin, hr, hresult, hflags, haluFlags⟩ := halu a b
  obtain ⟨x', hx', hrun⟩ := executesTo_writeBack_covers di.nextVA hm hs hnext hwrite
    (hcode r f hbin hr (FlagOp.gives_of_eq hflags))
  refine ⟨x', ?_, hrun⟩
  rw [X86.execAlu_eq hty ha (by rw [hunary]; exact hb) hresult haluFlags, hkeep]
  exact hx'

/-- The instructions that only compare. -/
lemma exec_liftCompare (hop' : (di.zydis.op 1).Readable ctx ty) {bop : Opcode} {name : String}
    {fop : FlagOp} (hunary : di.zydis.mnemonic.isUnary = false)
    (hdiscard : di.zydis.mnemonic.discardsResult = true) (hcmp : cmpType ctx (di.zydis.op 0) = ty)
    (halu : ∀ a b : BitVec ty.width, ∃ r f, bop.binop a b = some r ∧ fop.result a b = some r ∧
      di.zydis.mnemonic.aluResult a b = some r ∧ fop.x86Flags a b = some f ∧
      di.zydis.mnemonic.aluFlags x.flags a b = some f)
    (hterm : ∀ d l r, (IRInst.makeBinop bop d ty l r).isTerminator = false)
    (hstore : bop ≠ .store) :
    ∃ x', X86.execAlu di x = some x' ∧
      ExecutesTo (liftCompare ctx bop name fop di.zydis) s m fun _ =>
        InstrPost (some ⟨fop, (di.zydis.op 0).lhsTrack⟩) s x' := by
  obtain ⟨a, b, ha, hb, hcode⟩ := executesTo_liftBinop_covers di.nextVA hm hs hnext name fop
    (isInteger_of_dataType hty) hop hop' hterm hstore
  obtain ⟨r, f, hbin, hr, hresult, hflags, haluFlags⟩ := halu a b
  refine ⟨{ x with flags := f }, ?_, ?_⟩
  · rw [X86.execAlu_eq hty ha (by rw [hunary]; exact hb) hresult haluFlags, hdiscard]
    rfl
  · rw [liftCompare, hcmp]
    refine ExecutesTo.bind hs (hcode r f hbin hr (FlagOp.gives_of_eq hflags)) ?_
    intro result s₁ m₁ hs₁ hpost
    have hheld := holds_of_sameBut hm hnext hpost.read.same hpost.mem
    exact ExecutesTo.pure ⟨⟨hheld.file, hheld.mem⟩, hs₁, hpost.read.next_le, hpost.record⟩

/-- `INC` and `DEC`. -/
lemma exec_liftIncDec (hwrite : (di.zydis.op 0).Writable ctx ty)
    (hreg : typeOfReg (di.zydis.op 0).reg = ty) (isDec : Bool)
    (hmnemonic : di.zydis.mnemonic = if isDec then .dec else .inc) :
    ∃ x', X86.execAlu di x = some x' ∧
      ExecutesTo (liftIncDec ctx isDec di.zydis) s m fun _ => InstrPost
        (some (FlagTrack.clobber (di.zydis.op 0).gpr?
          ⟨if isDec then .dec else .inc, (di.zydis.op 0).lhsTrack⟩)) s x' := by
  obtain ⟨a, ha, hsrc⟩ := executesTo_readOperand_readable di.nextVA hm hs hnext hop
  set fop : FlagOp := if isDec then .dec else .inc with hfop
  set r : BitVec ty.width := if isDec then a - 1 else a + 1 with hr
  obtain ⟨f', hf'⟩ : ∃ f', fop.x86Flags a 0 = some f' := by
    cases isDec <;> exact ⟨_, rfl⟩
  have hresult : fop.result a 0 = some r := by cases isDec <;> rfl
  have hgives : fop.Gives a 0 { f' with cf := x.flags.cf } := by
    refine ⟨f', hf', rfl, rfl, rfl, fun hinc hdec => ?_⟩
    cases isDec
    · exact absurd rfl hinc
    · exact absurd rfl hdec
  have hcode : ExecutesTo (do
      let src ← readOperand ctx (di.zydis.op 0) ty
      let result ← defineTemp ty fun id =>
        .makeBinop (if isDec then .sub else .add) ⟨id, if isDec then "dec" else "inc"⟩ ty src
          (.makeImm 1 ty)
      setFlags fop result src (.makeImm 1 ty) ty
      return result) s m (ResultPost (some ⟨fop, (di.zydis.op 0).lhsTrack⟩)
        { f' with cf := x.flags.cf } s m r) := by
    refine ExecutesTo.bind hs hsrc fun src s₁ m₁ hs₁ hl => ?_
    refine ExecutesTo.bind hs₁ (executesTo_defineTemp_steady (r := r) hs₁ (fun _ => ?_)
      (fun _ => ?_) ?_) ?_
    · cases isDec <;> rfl
    · cases isDec <;> exact fun h => by cases h
    · rw [IRInst.step_makeBinop, hl.read.value, Machine.eval_makeImm]
      have hone : BitVec.setWidth ty.width (1 : BitVec 64) = 1 := by
        cases ty <;> rfl
      cases isDec <;> rw [hone] <;> rfl
    · rintro result s₂ m₂ hs₂ ⟨hpost, -, hflags, hmem, hfresh⟩
      refine ResultPost.setFlags (isInteger_of_dataType hty) hnext ?_ hresult hgives
        (hpost.of_le hl.read.next_le hl.read.same) ?_ ?_ hs₂
      · exact (hl.lhsPost hnext).extend hpost.next_le hpost.same
      · exact fun id hid => hl.read.next_le.trans (hfresh id hid)
      · rw [hmem, hl.mem]
  obtain ⟨x', hx', hrun⟩ := executesTo_writeBack_covers di.nextVA hm hs hnext hwrite hcode
  refine ⟨x', ?_, ?_⟩
  · rw [X86.execAlu_eq (b := 0) (r := r) (f := { f' with cf := x.flags.cf }) hty ha]
    · rw [hmnemonic]
      cases isDec <;> exact hx'
    · rw [hmnemonic]
      cases isDec <;> rfl
    · rw [hmnemonic]
      cases isDec <;> rfl
    · rw [hmnemonic]
      cases isDec <;> cases hf' <;> rfl
  · simp only [bind_assoc, pure_bind] at hrun
    rw [liftIncDec, hreg]
    exact hrun

/-- `NEG` records a subtraction from zero; `NOT` leaves the record alone. -/
lemma exec_liftUnary (hwrite : (di.zydis.op 0).Writable ctx ty)
    (hreg : typeOfReg (di.zydis.op 0).reg = ty) (isNeg : Bool)
    (hmnemonic : di.zydis.mnemonic = if isNeg then .neg else .not)
    (hrecord : ∀ t ∈ track, t.Holds s.flagState s.nextVregId m x.flags) :
    ∃ x', X86.execAlu di x = some x' ∧
      ExecutesTo (liftUnary ctx isNeg di.zydis) s m fun _ => InstrPost
        ((if isNeg then some ⟨.sub, .kept⟩ else track).map
          (FlagTrack.clobber (di.zydis.op 0).gpr?)) s x' := by
  obtain ⟨a, ha, hsrc⟩ := executesTo_readOperand_readable di.nextVA hm hs hnext hop
  set r : BitVec ty.width := if isNeg then -a else ~~~a with hr
  obtain ⟨f', hf'⟩ : ∃ f', FlagOp.sub.x86Flags 0 a = some f' := ⟨_, rfl⟩
  have hcode : ExecutesTo (do
      let src ← readOperand ctx (di.zydis.op 0) ty
      let result ← defineTemp ty fun id =>
        .makeUnop (if isNeg then .neg else .not) ⟨id, "unary"⟩ ty src
      if isNeg then setFlags .sub result (.makeImm 0 ty) src ty
      return result) s m (ResultPost (if isNeg then some ⟨.sub, .kept⟩ else track)
        (if isNeg then f' else x.flags) s m r) := by
    refine ExecutesTo.bind hs hsrc fun src s₁ m₁ hs₁ hl => ?_
    refine ExecutesTo.bind hs₁ (executesTo_defineTemp_steady (r := r) hs₁ (fun _ => ?_)
      (fun _ => ?_) ?_) ?_
    · cases isNeg <;> rfl
    · cases isNeg <;> exact fun h => by cases h
    · rw [IRInst.step_makeUnop (by cases isNeg <;> simp), hl.read.value]
      cases isNeg <;> rfl
    · rintro result s₂ m₂ hs₂ ⟨hpost, -, hflags, hmem, hfresh⟩
      have hpost' := hpost.of_le hl.read.next_le hl.read.same
      cases isNeg with
      | true =>
        refine ResultPost.setFlags (isInteger_of_dataType hty) hnext ?_ (congrArg some (zero_sub a))
          (FlagOp.gives_of_eq hf') hpost' ?_ ?_ hs₂
        · exact ⟨rfl, by simp, by simp⟩
        · exact fun id hid => hl.read.next_le.trans (hfresh id hid)
        · rw [hmem, hl.mem]
      | false =>
        refine ExecutesTo.pure ⟨hpost', hs₂, by rw [hmem, hl.mem], fun t ht => ?_⟩
        rw [hflags, hl.flags]
        exact (hrecord t ht).extend hpost'.next_le hpost'.same
  obtain ⟨x', hx', hrun⟩ := executesTo_writeBack_covers di.nextVA hm hs hnext hwrite hcode
  refine ⟨x', ?_, ?_⟩
  · rw [X86.execAlu_eq (b := 0) (r := r) (f := if isNeg then f' else x.flags) hty ha]
    · rw [hmnemonic]
      cases isNeg <;> exact hx'
    · rw [hmnemonic]
      cases isNeg <;> rfl
    · rw [hmnemonic]
      cases isNeg <;> rfl
    · rw [hmnemonic]
      cases isNeg <;> cases hf' <;> rfl
  · cases isNeg <;> simpa only [liftUnary, hreg, bind_assoc, pure_bind, reduceIte,
      Bool.false_eq_true] using hrun

omit hty hop in
/-- The arithmetic and logical instructions. -/
lemma exec_alu (halu : di.zydis.isAlu = true) (hcovers : di.zydis.CoversAlu ctx)
    (hrecord : ∀ t ∈ track, t.Holds s.flagState s.nextVregId m x.flags) :
    ∃ x', X86.exec di x = some x' ∧ ExecutesTo (liftInstr ctx di) s m fun _ =>
      InstrPost (di.zydis.trackAfter track) s x' := by
  obtain ⟨ty, hty, htype, hop, hsource, hwrite⟩ := hcovers
  have hty' := Option.mem_def.mp hty
  have harith := fun hsource hwrite =>
    @exec_liftArith ctx s m x ty hm hs hnext di hty' hop hsource hwrite
  have hcompare := fun hsource => @exec_liftCompare ctx s m x ty hm hs hnext di hty' hop hsource
  have hincdec := fun hwrite => @exec_liftIncDec ctx s m x ty hm hs hnext di hty' hop hwrite
  have hunary := fun hwrite => @exec_liftUnary ctx s m x ty track hm hs hnext di hty' hop hwrite
  rw [liftInstr.eq_def]
  dsimp only
  unfold ZydisDecodedInstruction.trackAfter ZydisDecodedInstruction.written X86.exec
  simp only [ZydisDecodedInstruction.isAlu, decide_eq_true_eq, List.mem_cons, List.not_mem_nil,
    or_false] at halu
  rcases halu with hmn | hmn | hmn | hmn | hmn | hmn | hmn | hmn | hmn | hmn | hmn <;>
    simp only [ZydisDecodedInstruction.aluType, hmn]
      at htype harith hcompare hincdec hunary hsource hwrite ⊢
  case inr.inr.inr.inr.inr.inl => exact hunary (hwrite rfl) htype false rfl hrecord
  case inr.inr.inr.inr.inr.inr.inl => exact hunary (hwrite rfl) htype true rfl hrecord
  case inr.inr.inr.inr.inr.inr.inr.inl => exact hincdec (hwrite rfl) htype false rfl
  case inr.inr.inr.inr.inr.inr.inr.inr.inl => exact hincdec (hwrite rfl) htype true rfl
  all_goals simp only [ZydisMnemonic.discardsResult, reduceCtorEq, Bool.false_eq_true, or_self,
    or_true, if_true, if_false, LhsTrack.clobber_none]
  case inr.inr.inr.inr.inr.inr.inr.inr.inr.inl | inr.inr.inr.inr.inr.inr.inr.inr.inr.inr =>
    refine hcompare (hsource rfl) rfl rfl htype ?_ ?_ ?_
    · exact fun _ _ => ⟨_, _, rfl, rfl, rfl, rfl, rfl⟩
    · exact fun _ _ _ => rfl
    · decide
  all_goals
    subst htype
    refine harith (hsource rfl) (hwrite rfl) rfl rfl ?_ ?_ ?_
    · exact fun _ _ => ⟨_, _, rfl, rfl, rfl, rfl, rfl⟩
    · exact fun _ _ _ => rfl
    · decide

end Alu

/-! ## Moves -/

section Moves

/-- A register that was written holds the value: writing it again changes nothing. -/
lemma write_again {op : ZydisDecodedOperand} (hop : op.HasRegister ctx ty) {v : BitVec ty.width}
    {x' : X86State} (hx' : x.write nextVA op v = some x') : x'.write nextVA op v = some x' := by
  obtain ⟨htype, ⟨g, p⟩, hview, rfl, hhigh, -⟩ := hop
  simp only [X86State.write, htype, Option.mem_def.mp hview, Option.map_some,
    Option.some_inj] at hx' ⊢
  subst hx'
  have hwrite : p.write (p.write (x.regs g) v) v = p.write (x.regs g) v := by
    rw [← RegPart.writeLow_eq_write hhigh, ← RegPart.writeLow_eq_write hhigh,
      RegPart.writeLow_writeLow]
  simp [RegFile.write, hwrite]

/-- A component of an address that is not the written register. -/
lemma component_write {f : RegFile} {g : Gpr} {p : RegPart} {v : BitVec p.type.width}
    {r : ZydisRegister} (hr : ∀ part ∈ r.view, part.1 ≠ g) :
    (f.write g p v).component r = f.component r := by
  unfold RegFile.component
  cases hview : r.view with
  | none => rfl
  | some part =>
    have hne : part.1 ≠ g := hr part hview
    simp [RegFile.read, RegFile.write, hne]

/-- The source of a `MOV` into a register, read again after the write. -/
lemma read_again {z : ZydisDecodedInstruction} (hdst : (z.op 0).HasRegister ctx ty)
    (hsrc : z.MovesTwice ctx ty) {a : BitVec ty.width} (ha : x.read nextVA (z.op 1) ty = some a)
    {x' : X86State} (hx' : x.write nextVA (z.op 0) a = some x') :
    (z.op 1).Readable ctx (extSrcType (z.op 1)) ∧
      ∃ b, x'.read nextVA (z.op 1) (extSrcType (z.op 1)) = some b ∧ b.setWidth ty.width = a := by
  obtain ⟨htype, ⟨g, p⟩, hview, rfl, hhigh, -⟩ := hdst
  have hview' : (z.op 0).reg.view = some (g, p) := hview
  simp only [X86State.write, htype, hview', Option.map_some, Option.some_inj, BitVec.setWidth_eq]
    at hx'
  rcases hsrc with hreg | ⟨himm, hkeep⟩ | ⟨hmem, hext, hbase, hindex⟩
  · obtain ⟨htype', ⟨g', q⟩, hq, hqty, hqhigh, hkept⟩ := hreg
    have hq' : (z.op 1).reg.view = some (g', q) := hq
    have hext : extSrcType (z.op 1) = q.type := extSrcType_register htype' hq'
    rw [hext]
    refine ⟨Or.inr (Or.inl ⟨htype', (g', q), hq, rfl, hqhigh, hkept⟩), x'.regs.read g' q,
      by simp [X86State.read, htype', hq'], ?_⟩
    simp only [X86State.read, htype', hq', Option.map_some, Option.some_inj] at ha
    rw [← hx']
    by_cases hg : g' = g
    · subst hg
      have hlow : q.read (p.write (x.regs g') a) = a.setWidth q.type.width := by
        rw [← RegPart.writeLow_eq_write hhigh, ← RegPart.readLow_eq_read hqhigh]
        exact RegPart.readLow_writeLow hqty _ _
      have hback : (a.setWidth q.type.width).setWidth p.type.width = a := by
        rw [hqty, BitVec.setWidth_eq, BitVec.setWidth_eq]
      simp only [RegFile.read, RegFile.write, Function.update_self]
      rw [hlow, hback]
    · rw [← ha]
      simp [RegFile.read, RegFile.write, hg]
  · refine ⟨Or.inl himm, _, by rw [X86State.read, himm], ?_⟩
    rw [hkeep]
    simpa [X86State.read, himm] using ha
  · obtain ⟨htype', hflat, hmemType⟩ := hmem
    rw [hext]
    refine ⟨Or.inr (Or.inr ⟨htype', hflat, hmemType⟩), a, ?_, BitVec.setWidth_eq a⟩
    have hgpr : (z.op 0).gpr? = some g := by simp [ZydisDecodedOperand.gpr?, htype, hview']
    have haddr : x'.operandAddr nextVA (z.op 1) = x.operandAddr nextVA (z.op 1) := by
      have hbase' : (x.regs.write g p a).component (z.op 1).mem.base =
          x.regs.component (z.op 1).mem.base :=
        component_write fun part hpart heq => hbase part hpart (by rw [hgpr, heq])
      have hindex' : (x.regs.write g p a).component (z.op 1).mem.index =
          x.regs.component (z.op 1).mem.index :=
        component_write fun part hpart heq => hindex part hpart (by rw [hgpr, heq])
      subst hx'
      simp only [X86State.operandAddr, ZydisMem.effectiveAddr, ZydisMem.sum, ZydisMem.baseValue,
        hbase', hindex']
    simp only [X86State.read, htype', Option.some_inj] at ha ⊢
    rw [haddr, ← ha, ← hx']
    rfl

variable {z : ZydisDecodedInstruction} (nextVA) (hm : m.Holds x) (hs : s.Open)
  (hnext : 16 ≤ s.nextVregId) (hrecord : ∀ t ∈ track, t.Holds s.flagState s.nextVregId m x.flags)

include hm hs hnext hrecord

/-- The `MOV` case up to its missing `break`. -/
lemma executesTo_liftMov_covers (hmov : movType (z.op 0) (z.op 1) = ty)
    (hread : (z.op 1).Readable ctx ty) (hwrite : (z.op 0).Writable ctx ty) :
    ∃ a, x.read nextVA (z.op 1) ty = some a ∧ ∃ x', x.write nextVA (z.op 0) a = some x' ∧
      ExecutesTo (liftMov ctx z) s m fun _ =>
        InstrPost (track.map (FlagTrack.clobber (z.op 0).gpr?)) s x' := by
  obtain ⟨a, ha, hsrc⟩ := executesTo_readOperand_readable nextVA hm hs hnext hread
  have hcode : ExecutesTo (readOperand ctx (z.op 1) ty) s m (ResultPost track x.flags s m a) :=
    hsrc.mono fun v s₁ m₁ h => ⟨h.read, h.isOpen, h.mem, fun t ht => by
      rw [h.flags]
      exact (hrecord t ht).extend h.read.next_le h.read.same⟩
  obtain ⟨x', hx', hrun⟩ := executesTo_writeBack_covers nextVA hm hs hnext hwrite hcode
  exact ⟨a, ha, x', hx', by rwa [liftMov, hmov]⟩

/-- A value that was read and extended. -/
lemma executesTo_extend (ty : IRType) (name : String) {castOp : Opcode}
    (hcast : castOp = .zext ∨ castOp = .sext)
    {srcTy : IRType} (hread : (z.op 1).Readable ctx srcTy) :
    ∃ a, x.read nextVA (z.op 1) srcTy = some a ∧ ∀ v, castOp.cast ty.width a = some v →
      ExecutesTo (do
        let src ← readOperand ctx (z.op 1) srcTy
        defineTemp ty fun id => .makeCast castOp ⟨id, name⟩ ty src) s m
        (ResultPost track x.flags s m v) := by
  obtain ⟨a, ha, hsrc⟩ := executesTo_readOperand_readable nextVA hm hs hnext hread
  refine ⟨a, ha, fun v hv => ExecutesTo.bind hs hsrc fun src s₁ m₁ hs₁ h => ?_⟩
  have hisCast : castOp.isCast = true := by rcases hcast with rfl | rfl <;> rfl
  refine (executesTo_defineTemp_steady (r := v) hs₁ (fun _ => ?_) (fun _ => ?_) ?_).mono ?_
  · rcases hcast with rfl | rfl <;> rfl
  · rcases hcast with rfl | rfl <;> exact fun h => by cases h
  · obtain rfl := h.read.type
    rw [IRInst.step_makeCast hisCast, h.read.value, hv]
    rfl
  · rintro val s₂ m₂ ⟨hpost, hopen, hflags, hmem, -⟩
    have hpost' := hpost.of_le h.read.next_le h.read.same
    refine ⟨hpost', hopen, hmem.trans h.mem, fun t ht => ?_⟩
    rw [hflags, h.flags]
    exact (hrecord t ht).extend hpost'.next_le hpost'.same

/-- The `MOVZX` and `MOVSX` cases. -/
lemma executesTo_liftMovExt_covers (name : String) {castOp : Opcode}
    (hcast : castOp = .zext ∨ castOp = .sext) (hpass : ctx.passing = .byReference)
    (hdst : (z.op 0).HasRegister ctx ty) (hread : (z.op 1).Readable ctx (extSrcType (z.op 1))) :
    ∃ a, x.read nextVA (z.op 1) (extSrcType (z.op 1)) = some a ∧
      ∀ v, castOp.cast ty.width a = some v → ∃ x', x.write nextVA (z.op 0) v = some x' ∧
        ExecutesTo (liftMovExt ctx castOp name z) s m fun _ =>
          InstrPost (track.map (FlagTrack.clobber (z.op 0).gpr?)) s x' := by
  obtain ⟨a, ha, hcode⟩ := executesTo_extend nextVA hm hs hnext hrecord ty name
    hcast hread
  refine ⟨a, ha, fun v hv => ?_⟩
  obtain ⟨x', hx', hrun⟩ := executesTo_writeBack_covers nextVA hm hs hnext
    (Or.inl ⟨hpass, hdst⟩) (hcode v hv)
  obtain ⟨htype, ⟨g, p⟩, hview, rfl, -⟩ := hdst
  have hty : typeOfReg (z.op 0).reg = p.type := (tables_of_view hview).2
  refine ⟨x', hx', ?_⟩
  simp only [writeOperand, htype, bind_assoc] at hrun
  rw [liftMovExt, hty]
  exact hrun

/-- What follows the missing `break` of a `MOV` to memory writes nothing. -/
lemma executesTo_liftMovExt_nowhere (hdst : gprVRegId (canonicalReg (z.op 0).reg) = none)
    (hread : (z.op 1).Readable ctx (extSrcType (z.op 1))) :
    ExecutesTo (liftMovExt ctx .zext "movzx" z) s m fun _ => InstrPost track s x := by
  obtain ⟨a, -, hcode⟩ := executesTo_extend 0 hm hs hnext hrecord (typeOfReg (z.op 0).reg)
    "movzx" (Or.inl rfl) hread
  have hwrite : ∀ val, withBlockArg ctx (writeReg ctx (z.op 0).reg val) = pure () := by
    intro val
    have hnothing : writeReg ctx (z.op 0).reg val = pure () := by simp only [writeReg, hdst]
    rw [hnothing]
    cases hpass : ctx.passing with
    | byReference => exact withBlockArg_byReference hpass _
    | byValue =>
      simp only [withBlockArg, hpass]
      rfl
  have hrun := ExecutesTo.bind (f := fun val => withBlockArg ctx (writeReg ctx (z.op 0).reg val))
    (R := fun _ => InstrPost track s x) hs (hcode _ rfl) ?_
  · simp only [bind_assoc] at hrun
    exact hrun
  · intro val s₁ m₁ hs₁ h
    rw [hwrite]
    exact ExecutesTo.pure ⟨holds_of_sameBut hm hnext h.read.same h.mem, hs₁, h.read.next_le,
      h.record⟩

variable {di : DecodedInstr}

/-- A `MOV` into a register is written twice. -/
lemma exec_mov_register (hmn : di.zydis.mnemonic = .mov) (hty : (di.zydis.op 0).dataType = some ty)
    (hpass : ctx.passing = .byReference) (hdst : (di.zydis.op 0).HasRegister ctx ty)
    (hsrc : di.zydis.MovesTwice ctx ty) :
    ∃ x', X86.exec di x = some x' ∧ ExecutesTo (liftInstr ctx di) s m fun _ =>
      InstrPost (track.map (FlagTrack.clobber (di.zydis.op 0).gpr?)) s x' := by
  have hmov : movType (di.zydis.op 0) (di.zydis.op 1) = ty := by
    obtain ⟨htype, ⟨g, p⟩, hview, rfl, -⟩ := hdst
    rw [movType, if_pos htype]
    exact (tables_of_view hview).2
  have hread : (di.zydis.op 1).Readable ctx ty := by
    rcases hsrc with hreg | ⟨himm, -⟩ | ⟨hmem, -⟩
    · exact Or.inr (Or.inl hreg)
    · exact Or.inl himm
    · exact Or.inr (Or.inr hmem)
  obtain ⟨a, ha, x', hx', hrun⟩ := executesTo_liftMov_covers di.nextVA hm hs hnext hrecord
    hmov hread (Or.inl ⟨hpass, hdst⟩)
  refine ⟨x', by simp [X86.exec, X86.execMove, hmn, hty, ha, hx'], ?_⟩
  rw [liftInstr_mov hmn]
  refine ExecutesTo.bind hs hrun fun _ s₁ m₁ hs₁ hfirst => ?_
  obtain ⟨hread', b, hb, hba⟩ := read_again hdst hsrc ha hx'
  obtain ⟨b', hb', hcode⟩ := executesTo_liftMovExt_covers di.nextVA hfirst.holds
    hs₁ (hnext.trans hfirst.next_le) hfirst.record "movzx" (Or.inl rfl) hpass hdst hread'
  obtain rfl : b = b' := Option.some_inj.mp (hb.symm.trans hb')
  obtain ⟨x'', hx'', hsecond⟩ := hcode _ rfl
  rw [hba] at hx''
  obtain rfl : x' = x'' := Option.some_inj.mp ((write_again hdst hx').symm.trans hx'')
  refine hsecond.mono fun _ s₂ m₂ h => ⟨h.holds, h.isOpen, hfirst.next_le.trans h.next_le, ?_⟩
  intro t ht
  refine h.record t ?_
  obtain ⟨t₀, ht₀, rfl⟩ := Option.map_eq_some_iff.mp (Option.mem_def.mp ht)
  simp [ht₀]

/-- A `MOV` to memory. -/
lemma exec_mov_memory (hmn : di.zydis.mnemonic = .mov) (hty : (di.zydis.op 0).dataType = some ty)
    (hmem : (di.zydis.op 0).HasMemory ty)
    (hdst : gprVRegId (canonicalReg (di.zydis.op 0).reg) = none)
    (hmov : movType (di.zydis.op 0) (di.zydis.op 1) = ty)
    (hsrc : (di.zydis.op 1).HasRegister ctx ty ∨ (di.zydis.op 1).type = .immediate) :
    ∃ x', X86.exec di x = some x' ∧ ExecutesTo (liftInstr ctx di) s m fun _ =>
      InstrPost (track.map (FlagTrack.clobber (di.zydis.op 0).gpr?)) s x' := by
  have hread : (di.zydis.op 1).Readable ctx ty :=
    hsrc.elim (fun hreg => Or.inr (Or.inl hreg)) Or.inl
  have hread' : (di.zydis.op 1).Readable ctx (extSrcType (di.zydis.op 1)) := by
    rcases hsrc with hreg | himm
    · have hext : extSrcType (di.zydis.op 1) = ty := by
        obtain ⟨htype, ⟨g, p⟩, hview, rfl, -⟩ := hreg
        exact extSrcType_register htype hview
      exact Or.inr (Or.inl (hext.symm ▸ hreg))
    · exact Or.inl himm
  obtain ⟨a, ha, x', hx', hrun⟩ := executesTo_liftMov_covers di.nextVA hm hs hnext hrecord
    hmov hread (Or.inr hmem)
  refine ⟨x', by simp [X86.exec, X86.execMove, hmn, hty, ha, hx'], ?_⟩
  rw [liftInstr_mov hmn]
  refine ExecutesTo.bind hs hrun fun _ s₁ m₁ hs₁ hfirst => ?_
  refine (executesTo_liftMovExt_nowhere hfirst.holds hs₁ (hnext.trans hfirst.next_le) hfirst.record
    hdst hread').mono fun _ s₂ m₂ h => ?_
  exact ⟨h.holds, h.isOpen, hfirst.next_le.trans h.next_le, h.record⟩

/-- A move into a register with an extension. -/
lemma exec_movExt (hmn : di.zydis.mnemonic ∈ [ZydisMnemonic.movzx, .movsx, .movsxd])
    (hcovers : di.zydis.CoversMovExt ctx) :
    ∃ x', X86.exec di x = some x' ∧ ExecutesTo (liftInstr ctx di) s m fun _ =>
      InstrPost (track.map (FlagTrack.clobber (di.zydis.op 0).gpr?)) s x' := by
  obtain ⟨ty, hty, srcTy, hsrcTy, hpass, hdst, rfl, hread⟩ := hcovers
  have hty' := Option.mem_def.mp hty
  have hsrcTy' := Option.mem_def.mp hsrcTy
  have hcode := fun castOp name hcast => @executesTo_liftMovExt_covers ctx s m x ty di.nextVA track
    di.zydis hm hs hnext hrecord name castOp hcast hpass hdst hread
  rw [liftInstr.eq_def]
  simp only [List.mem_cons, List.not_mem_nil, or_false] at hmn
  rcases hmn with hmn | hmn | hmn <;> simp only [hmn]
  · obtain ⟨a, ha, hrun⟩ := hcode .zext "movzx" (Or.inl rfl)
    obtain ⟨x', hx', hrun⟩ := hrun _ rfl
    exact ⟨x', by simp [X86.exec, X86.execMove, hmn, hty', hsrcTy', ha, hx'], hrun⟩
  all_goals
    obtain ⟨a, ha, hrun⟩ := hcode .sext "movsx" (Or.inr rfl)
    obtain ⟨x', hx', hrun⟩ := hrun _ rfl
    exact ⟨x', by simp [X86.exec, X86.execMove, hmn, hty', hsrcTy', ha, hx'], hrun⟩

end Moves

/-- A covered instruction that does not jump is executed by the architecture and by its code, with
the same effect on the guest state, and the recorded flags are kept track of. -/
theorem exec_covers {di : DecodedInstr} (hcovers : di.zydis.Covers ctx) (hm : m.Holds x)
    (hs : s.Open)
    (hnext : 16 ≤ s.nextVregId)
    (hrecord : ∀ t ∈ track, t.Holds s.flagState s.nextVregId m x.flags) :
    ∃ x', X86.exec di x = some x' ∧ ExecutesTo (liftInstr ctx di) s m fun _ =>
      InstrPost (di.zydis.trackAfter track) s x' := by
  rcases hcovers with hmn | ⟨hmn, hmov⟩ | ⟨hmn, hext⟩ | ⟨halu, hcovers⟩
  · have htrack : di.zydis.trackAfter track = track := by
      cases track <;>
        simp [ZydisDecodedInstruction.trackAfter, ZydisMnemonic.flagOp,
          ZydisDecodedInstruction.written, hmn]
    refine ⟨x, by simp [X86.exec, hmn], ?_⟩
    rw [liftInstr.eq_def, htrack]
    simp only [hmn]
    exact ExecutesTo.pushInst hs rfl rfl ⟨hm, hs.emit 0 (by simp; rfl), le_rfl, hrecord⟩
  · have htrack : di.zydis.trackAfter track =
        track.map (FlagTrack.clobber (di.zydis.op 0).gpr?) := by
      simp [ZydisDecodedInstruction.trackAfter, ZydisMnemonic.flagOp,
        ZydisDecodedInstruction.written, ZydisMnemonic.discardsResult, hmn]
    rw [htrack]
    obtain ⟨ty, hty, ⟨hpass, hdst, hsrc⟩ | ⟨hmem, hdst, hmov, hsrc⟩⟩ := hmov
    · exact exec_mov_register hm hs hnext hrecord hmn hty hpass hdst hsrc
    · exact exec_mov_memory hm hs hnext hrecord hmn hty hmem hdst hmov hsrc
  · have htrack : di.zydis.trackAfter track =
        track.map (FlagTrack.clobber (di.zydis.op 0).gpr?) := by
      simp only [List.mem_cons, List.not_mem_nil, or_false] at hmn
      rcases hmn with hmn | hmn | hmn <;>
        simp [ZydisDecodedInstruction.trackAfter, ZydisMnemonic.flagOp,
          ZydisDecodedInstruction.written, ZydisMnemonic.discardsResult, hmn]
    rw [htrack]
    exact exec_movExt hm hs hnext hrecord hmn hext
  · exact exec_alu hm hs hnext halu hcovers hrecord

/-! ## Jumps -/

/-- Code that defines registers changes no memory. -/
lemma mem_eq_of_dst {i : IRInst} {d : VReg} (hdst : i.dst = some d) {m m' : Machine}
    (h : i.step m = some m') : m'.mem = m.mem := by
  unfold IRInst.step at h
  split at h
  · cases hdst.symm.trans ‹_›
  · cases hdst.symm.trans ‹_›
  · obtain ⟨_, -, rfl⟩ := Option.map_eq_some_iff.mp h
    rfl
  · cases h

/-- The code of a condition computes it, and keeps the guest state. -/
lemma executesTo_materialiseCond {t : FlagTrack} {request : FlagRequest} (hm : m.Holds x)
    (hs : s.Open) (hnext : 16 ≤ s.nextVregId) (ht : t.Holds s.flagState s.nextVregId m x.flags)
    (hanswers : t.Answers request) :
    ExecutesTo (materialiseCond request) s m fun cond s' m' =>
      m'.eval .i1 cond = BitVec.ofBool (x.flags.cond request) ∧ m'.Holds x ∧ s'.Open := by
  obtain ⟨cond, is, n, hrun, hterm, -, hvalue⟩ :=
    FlagState.computes_materialise ht.valid ht.freshIds request s.block 0 hs
  obtain ⟨m', hm', hsame, heval⟩ := hvalue m ht.holds
  obtain ⟨cond₂, js, hrun₂, hcode, -⟩ := @FlagState.appends_materialise
    s.flagState (s.nextVregId + ·) request s.block 0 [] hs FlagState.wellFormedCode_nil
  rw [List.length_nil, IRBasicBlock.append_nil, List.nil_append] at hrun₂
  obtain ⟨-, hblock, -⟩ : cond₂ = cond ∧ s.block.append js = s.block.append is ∧
    0 + js.length = 0 + n := by
    simpa [hrun] using hrun₂.symm
  obtain rfl : js = is := by simpa using congrArg IRBasicBlock.instructions hblock
  have hmem : m'.mem = m.mem := by
    refine run_rel (R := fun m m' => m'.mem = m.mem) (fun _ => rfl) ?_ ?_ hm'
    · intro _ _ _ hfirst hsecond
      exact hsecond.trans hfirst
    · intro i hi _ _ hstep
      obtain ⟨_, _, -, hnext⟩ := hcode.exists_isNext hi
      obtain ⟨d, hdst, -⟩ := Option.map_eq_some_iff.mp hnext.destination
      exact mem_eq_of_dst hdst hstep
  have hfile : m'.file = m.file := by
    refine file_eq_of_sameBut_Ici hnext (hsame.mono ?_)
    rintro _ ⟨j, -, rfl⟩
    exact Nat.le_add_right _ _
  refine ⟨cond, s.emit n js, js, by simp [materialiseCond, hrun, LiftState.emit], rfl,
    hterm, m', hm', ?_, ⟨hfile.trans hm.file, hmem.trans hm.mem⟩, hs.emit n hterm⟩
  rw [heval, ht.cond_eq hanswers]

/-- A block was left by a branch to the label of an address, with the guest state in the machine. -/
def LeavesFor (s : LiftState) (m : Machine) (va : U64) (x : X86State) (s' : LiftState) : Prop :=
  ∃ is branch m', s'.block = s.block.append (is ++ [branch]) ∧ run IRInst.step is m = some m' ∧
    branch.branchLabel m' = some (makeLabel va) ∧ m'.Holds x

variable {starts : List U64}

/-- A covered jump goes to a block, and so does the branch that is lifted for it. -/
theorem exec_coversJump {instrs : List DecodedInstr} {di : DecodedInstr}
    (hsorted : instrs.Pairwise fun x y => x.va < y.va) (hdi : di ∈ instrs)
    (hnames : ∀ va ∈ starts, ctx.blockNames va = some (makeLabel va))
    (hcovers : CoversJump starts track di) (hm : m.Holds x) (hs : s.Open)
    (hnext : 16 ≤ s.nextVregId)
    (hrecord : ∀ t ∈ track, t.Holds s.flagState s.nextVregId m x.flags) :
    ∃ va ∈ starts, X86.step instrs (di.va, x) = some (va, x) ∧
      ∃ s', (liftInstr ctx di).run s = .ok () s' ∧ LeavesFor s m va x s' := by
  obtain ⟨⟨va, hstart, hva⟩, hmn | ⟨request, hjcc, hfall, t, ht, hanswers⟩⟩ := hcovers
  · have htarget : di.relativeTarget = va := by
      rw [DecodedInstr.relativeTarget_eq, hva, Option.getD_some]
    have hlift : liftInstr ctx di = pushInst (.makeJmp (makeLabel va)) := by
      rw [liftInstr.eq_def]
      simp only [hmn, liftJmp, htarget, hnames va hstart]
    refine ⟨va, hstart, X86.step_of_jmp hsorted hdi hmn hva, _, by rw [hlift, run_pushInst hs], ?_⟩
    exact ⟨[], .makeJmp (makeLabel va), m, rfl, rfl, rfl, hm⟩
  · have htarget : labelAt ctx di.relativeTarget = makeLabel va := by
      rw [DecodedInstr.relativeTarget_eq, hva, Option.getD_some, labelAt,
        hnames va hstart, Option.getD_some]
    have hother : labelAt ctx di.nextVA = makeLabel di.nextVA := by
      rw [labelAt, hnames _ hfall, Option.getD_some]
    have hjcc' := Option.mem_def.mp hjcc
    obtain ⟨cond, s₁, is, hrun, hblock, hterm, m', hm', hcond, hheld, hs₁⟩ :=
      executesTo_materialiseCond hm hs hnext (hrecord t ht) hanswers
    refine ⟨if x.flags.cond request then va else di.nextVA, ?_,
      X86.step_of_jcc hsorted hdi hjcc' hva,
      s₁.emit 0 [.makeCjmp cond (makeLabel va) (makeLabel di.nextVA)], ?_, is,
      .makeCjmp cond (makeLabel va) (makeLabel di.nextVA), m', ?_, hm', ?_, hheld⟩
    · split_ifs
      · exact hstart
      · exact hfall
    · rw [liftInstr_eq_liftJcc hjcc']
      simp only [liftJcc, hjcc', htarget, hother]
      rw [run_bind_of_ok hrun, run_pushInst hs₁]
    · rw [LiftState.emit_block, hblock, IRBasicBlock.append_append]
    · have hlabel : (IRInst.makeCjmp cond (makeLabel va) (makeLabel di.nextVA)).branchLabel m' =
          some (if m'.eval .i1 cond = 1 then makeLabel va else makeLabel di.nextVA) := rfl
      rw [hlabel, hcond]
      cases x.flags.cond request <;> rfl

end FunctionLifter

end InstaX
