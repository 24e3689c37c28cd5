import InstaX.Lifter.Moves
import InstaX.Lifter.OperandValues

/-!
# Code the lifter gets right

Which blocks of guest code are lifted without a difference that shows, as a check on the decoded
instructions (`CoversBlock`).  The check goes through a block with what is known of the recorded
flags: the operation that was recorded last, and whether its left operand can still be read
(`FlagTrack`).  A record holds of the flags of the architecture (`FlagTrack.Holds`), survives
instructions that do not write the recorded register (`FlagTrack.Holds.clobber`), and then answers
the conditions that do not depend on what was lost (`FlagTrack.Holds.cond_eq`).
-/

namespace InstaX

open FixedWidth

/-! ## Flag records -/

/-- What has become of the left operand of a flag record: a value that stays, a 64-bit register that
still holds it, or a register that was written since. -/
inductive LhsTrack where
  | kept
  | register (g : Gpr)
  | lost
  deriving DecidableEq, Repr

/-- The left operand after a register was written. -/
def LhsTrack.clobber (dest : Option Gpr) : LhsTrack → LhsTrack
  | .register g => if dest = some g then .lost else .register g
  | lhs => lhs

/-- What is known of the recorded flags. -/
structure FlagTrack where
  op : FlagOp
  lhs : LhsTrack
  deriving DecidableEq, Repr

/-- The record after a register was written. -/
def FlagTrack.clobber (dest : Option Gpr) (track : FlagTrack) : FlagTrack :=
  { track with lhs := track.lhs.clobber dest }

@[simp] lemma LhsTrack.clobber_none (lhs : LhsTrack) : lhs.clobber none = lhs := by
  cases lhs <;> simp [LhsTrack.clobber]

@[simp] lemma FlagTrack.clobber_none (track : FlagTrack) : track.clobber none = track := by
  simp [FlagTrack.clobber]

/-- Writing a register twice loses no more than writing it once. -/
@[simp] lemma FlagTrack.clobber_clobber (dest : Option Gpr) (track : FlagTrack) :
    (track.clobber dest).clobber dest = track.clobber dest := by
  obtain ⟨op, lhs⟩ := track
  cases lhs with
  | register g =>
      by_cases hdest : dest = some g <;> simp [FlagTrack.clobber, LhsTrack.clobber, hdest]
  | kept | lost => rfl

/-- A request reads the left operand of a record: the carry flag of an addition or subtraction, the
overflow flag of an increment or decrement. -/
def FlagOp.consultsLhs (op : FlagOp) (request : FlagRequest) : Bool :=
  match op with
  | .add | .sub => request.readsCF
  | .inc | .dec => request.readsOF
  | .and | .or | .xor | .shl | .shr | .sar | .imul => false

/-- The condition is recovered from the record. -/
def FlagTrack.Answers (track : FlagTrack) (request : FlagRequest) : Prop :=
  track.op.covered request = true ∧ (track.lhs = .lost → track.op.consultsLhs request = false)

instance (track : FlagTrack) (request : FlagRequest) : Decidable (track.Answers request) :=
  inferInstanceAs (Decidable (_ ∧ _))

/-- The flags are those of an operation, except for the carry flag of an increment or decrement. -/
def FlagOp.Gives {w : ℕ} (op : FlagOp) (a b : BitVec w) (f : X86Flags) : Prop :=
  ∃ f', op.x86Flags a b = some f' ∧ f.zf = f'.zf ∧ f.sf = f'.sf ∧ f.of = f'.of ∧
    (op ≠ .inc → op ≠ .dec → f.cf = f'.cf)

namespace FlagTrack

/-- The recorded operands are values of an operation that gave the flags. -/
structure Holds (track : FlagTrack) (fs : FlagState) (next : ℕ) (m : Machine) (f : X86Flags) :
    Prop where
  valid : fs.valid = true
  op : fs.op = track.op
  isInteger : fs.ty.isInteger = true
  result_type : fs.result.type = fs.ty
  lhs_type : fs.lhs.type = fs.ty
  result_id : ∀ id, fs.result.vregId? = some id → 16 ≤ id ∧ id < next
  lhs_id : ∀ id, fs.lhs.vregId? = some id → id < next ∧
    (16 ≤ id ∨ track.lhs = .lost ∨ ∃ g, track.lhs = .register g ∧ g.vregId = id)
  values : ∃ a b : BitVec fs.ty.width, fs.op.result a b = some (m.eval fs.ty fs.result) ∧
    (track.lhs ≠ .lost → m.eval fs.ty fs.lhs = a) ∧ fs.op.Gives a b f

variable {track : FlagTrack} {fs : FlagState} {next next' : ℕ} {m m' : Machine} {f : X86Flags}

/-- The allocator that starts behind the record returns other ids. -/
lemma Holds.freshIds (h : track.Holds fs next m f) : fs.FreshIds (next + ·) where
  injective i j hij := by simpa using hij
  result j hj := by
    have := h.result_id _ hj
    omega
  lhs j hj := by
    have := h.lhs_id _ hj
    omega

/-- The recorded operands have values. -/
lemma Holds.holds (h : track.Holds fs next m f) :
    fs.Holds m (m.eval fs.ty fs.result) (m.eval fs.ty fs.lhs) :=
  ⟨h.result_type, h.lhs_type, rfl, rfl⟩

/-- A record answers as the architecture does. -/
lemma Holds.cond_eq (h : track.Holds fs next m f) {request : FlagRequest}
    (hanswers : track.Answers request) :
    (FlagState.recoveredFlags fs.op (m.eval fs.ty fs.result) (m.eval fs.ty fs.lhs)).cond request =
      f.cond request := by
  obtain ⟨a, b, hresult, hlhs, f', hf', hzf, hsf, hof, hcf⟩ := h.values
  obtain ⟨f₂, hf₂, hzf₂, hsf₂⟩ := FlagState.exists_x86Flags hresult
  obtain rfl : f' = f₂ := Option.some_inj.mp (hf'.symm.trans hf₂)
  obtain ⟨hcovered, hlost⟩ := hanswers
  rw [← h.op] at hcovered hlost
  -- a left operand that the request reads is still there
  have hread : fs.op.consultsLhs request = true → m.eval fs.ty fs.lhs = a := by
    intro hconsults
    refine hlhs fun hlhs => ?_
    rw [hlost hlhs] at hconsults
    cases hconsults
  refine (X86Flags.cond_eq_iff request (hzf₂.symm.trans hzf.symm) (hsf₂.symm.trans hsf.symm)).mpr
    (Or.inl ⟨fun hreads => ?_, fun hreads => ?_⟩)
  · have hinc : fs.op ≠ .inc := fun h => by simp [h, FlagOp.covered, hreads] at hcovered
    have hdec : fs.op ≠ .dec := fun h => by simp [h, FlagOp.covered, hreads] at hcovered
    rw [hcf hinc hdec, ← FlagState.recoveredCF_eq hresult hinc hdec hf']
    change FlagState.recoveredCF fs.op _ _ = _
    cases hop : fs.op with
    | add | sub => rw [hread (by simp [hop, FlagOp.consultsLhs, hreads])]
    | inc => exact absurd hop hinc
    | dec => exact absurd hop hdec
    | and | or | xor | shl | shr | sar | imul => rfl
  · have hadd : fs.op ≠ .add := fun h => by simp [h, FlagOp.covered, hreads] at hcovered
    have hsub : fs.op ≠ .sub := fun h => by simp [h, FlagOp.covered, hreads] at hcovered
    rw [hof, ← FlagState.recoveredOF_eq (IRType.width_pos h.isInteger) hresult hadd hsub hf']
    change FlagState.recoveredOF fs.op _ _ = _
    cases hop : fs.op with
    | inc | dec => rw [hread (by simp [hop, FlagOp.consultsLhs, hreads])]
    | add => exact absurd hop hadd
    | sub => exact absurd hop hsub
    | and | or | xor | shl | shr | sar | imul => rfl

/-- A record outlives code that writes one register and later temporaries. -/
lemma Holds.clobber (h : track.Holds fs next m f) (dest : Option Gpr) (hnext : next ≤ next')
    (hsame : m.SameBut (gprVRegs dest ∪ Set.Ici next) m') :
    (track.clobber dest).Holds fs next' m' f := by
  have hlt : ∀ id, id ∈ gprVRegs dest → id < 16 := by
    rintro id ⟨g, -, rfl⟩
    exact g.vregId_lt
  refine ⟨h.valid, h.op, h.isInteger, h.result_type, h.lhs_type, fun id hid => ?_,
    fun id hid => ?_, ?_⟩
  · have := h.result_id id hid
    omega
  · obtain ⟨hidlt, hid⟩ := h.lhs_id id hid
    refine ⟨hidlt.trans_le hnext, hid.imp_right ?_⟩
    rintro (hlost | ⟨g, hg, rfl⟩)
    · exact Or.inl (by simp [FlagTrack.clobber, LhsTrack.clobber, hlost])
    · by_cases hdest : dest = some g
      · exact Or.inl (by simp [FlagTrack.clobber, LhsTrack.clobber, hg, hdest])
      · exact Or.inr ⟨g, by simp [FlagTrack.clobber, LhsTrack.clobber, hg, hdest], rfl⟩
  · obtain ⟨a, b, hresult, hlhs, hgives⟩ := h.values
    refine ⟨a, b, ?_, fun hkept => ?_, hgives⟩
    · rw [hsame.eval_eq]
      · exact hresult
      · rintro id hid (hmem | hmem)
        · have := h.result_id id hid
          have := hlt id hmem
          omega
        · exact absurd (h.result_id id hid).2 (not_lt.mpr hmem)
    · have hnotLost : track.lhs ≠ .lost := by
        intro hlost
        exact hkept (by simp [FlagTrack.clobber, LhsTrack.clobber, hlost])
      rw [hsame.eval_eq]
      · exact hlhs hnotLost
      · rintro id hid (⟨g, hg, rfl⟩ | hmem)
        · obtain ⟨-, hge | hlost | ⟨g', hlhs', hg'⟩⟩ := h.lhs_id _ hid
          · exact absurd hge (not_le.mpr g.vregId_lt)
          · exact hnotLost hlost
          · obtain rfl := Gpr.vregId_injective hg'
            exact hkept (by simp [FlagTrack.clobber, LhsTrack.clobber, hlhs', Option.mem_def.mp hg])
        · exact absurd (h.lhs_id id hid).1 (not_lt.mpr hmem)

/-- A record outlives code that writes later temporaries. -/
lemma Holds.extend (h : track.Holds fs next m f) (hnext : next ≤ next')
    (hsame : m.SameBut (Set.Ico next next') m') : track.Holds fs next' m' f := by
  have hkept := h.clobber none hnext
    (hsame.mono (Set.Ico_subset_Ici_self.trans Set.subset_union_right))
  rwa [clobber_none] at hkept

end FlagTrack

/-! ## Instructions -/

/-- The operation whose flags an instruction sets. -/
def ZydisMnemonic.flagOp : ZydisMnemonic → Option FlagOp
  | .add => some .add
  | .sub | .cmp | .neg => some .sub
  | .inc => some .inc
  | .dec => some .dec
  | .and | .test => some .and
  | .or => some .or
  | .xor => some .xor
  | _ => none

/-- The left operand of a record that is made from an operand. -/
def ZydisDecodedOperand.lhsTrack (op : ZydisDecodedOperand) : LhsTrack :=
  match op.wholeGpr? with
  | some g => .register g
  | none => .kept

namespace ZydisDecodedInstruction

variable (ctx : LiftContext) (z : ZydisDecodedInstruction)

/-- The register an instruction writes. -/
def written : Option Gpr :=
  if z.mnemonic = .nop ∨ z.mnemonic.discardsResult = true then none else (z.op 0).gpr?

/-- What is known of the recorded flags after an instruction; `NEG` records a subtraction from
zero. -/
def trackAfter (track : Option FlagTrack) : Option FlagTrack :=
  match z.mnemonic.flagOp with
  | some op =>
      let lhs := if z.mnemonic = .neg then .kept else (z.op 0).lhsTrack
      some { op := op, lhs := lhs.clobber z.written }
  | none => track.map (FlagTrack.clobber z.written)

/-- The arithmetic and logical instructions. -/
def isAlu : Bool :=
  z.mnemonic ∈ [.add, .sub, .and, .or, .xor, .not, .neg, .inc, .dec, .cmp, .test]

/-- The type at which the lifter takes an arithmetic or logical instruction. -/
def aluType : IRType :=
  match z.mnemonic with
  | .add | .sub => FunctionLifter.arithType (z.op 0)
  | .and | .or | .xor => ctx.destWidth (z.op 0) (z.op 1)
  | .cmp | .test => FunctionLifter.cmpType ctx (z.op 0)
  | _ => typeOfReg (z.op 0).reg

/-- The lifter takes the instruction at the type of its first operand, and its operands are
right. -/
def CoversAlu : Prop :=
  ∃ ty ∈ (z.op 0).dataType, z.aluType ctx = ty ∧ (z.op 0).Readable ctx ty ∧
    (z.mnemonic.isUnary = false → (z.op 1).Readable ctx ty) ∧
    (z.mnemonic.discardsResult = false → (z.op 0).Writable ctx ty)

/-- A source that the second write of a `MOV` into a register does not spoil: a register of the same
width, an immediate that loses no bits at its encoded size, or memory of the same width at an
address that does not depend on the destination. -/
def MovesTwice (ty : IRType) : Prop :=
  (z.op 1).HasRegister ctx ty ∨
    (z.op 1).type = .immediate ∧
      ((z.op 1).imm.value.setWidth (FunctionLifter.extSrcType (z.op 1)).width).setWidth ty.width =
        (z.op 1).imm.value.setWidth ty.width ∨
    (z.op 1).HasMemory ty ∧ FunctionLifter.extSrcType (z.op 1) = ty ∧
      (∀ part ∈ (z.op 1).mem.base.view, some part.1 ≠ (z.op 0).gpr?) ∧
      ∀ part ∈ (z.op 1).mem.index.view, some part.1 ≠ (z.op 0).gpr?

/-- A `MOV` into a register, or from a register or an immediate to memory.  In the second case what
follows the missing `break` finds no register to write. -/
def CoversMov : Prop :=
  ∃ ty ∈ (z.op 0).dataType,
    ctx.passing = .byReference ∧ (z.op 0).HasRegister ctx ty ∧ z.MovesTwice ctx ty ∨
    (z.op 0).HasMemory ty ∧ gprVRegId (canonicalReg (z.op 0).reg) = none ∧
      FunctionLifter.movType (z.op 0) (z.op 1) = ty ∧
      ((z.op 1).HasRegister ctx ty ∨ (z.op 1).type = .immediate)

/-- A move into a register with an extension. -/
def CoversMovExt : Prop :=
  ∃ ty ∈ (z.op 0).dataType, ∃ srcTy ∈ (z.op 1).dataType,
    ctx.passing = .byReference ∧ (z.op 0).HasRegister ctx ty ∧
      FunctionLifter.extSrcType (z.op 1) = srcTy ∧ (z.op 1).Readable ctx srcTy

/-- The instruction does not jump and is lifted right. -/
def Covers : Prop :=
  z.mnemonic = .nop ∨ z.mnemonic = .mov ∧ z.CoversMov ctx ∨
    z.mnemonic ∈ [.movzx, .movsx, .movsxd] ∧ z.CoversMovExt ctx ∨ z.isAlu = true ∧ z.CoversAlu ctx

variable {ctx z} in
/-- What is covered on its own does not jump. -/
lemma Covers.not_jump (h : z.Covers ctx) :
    flagRequestForJcc z.mnemonic = none ∧ z.mnemonic ≠ .jmp := by
  have hjump : ∀ mnemonic ∈ [ZydisMnemonic.nop, .mov, .movzx, .movsx, .movsxd, .add, .sub,
    .and, .or,
      .xor, .not, .neg, .inc, .dec, .cmp, .test],
      flagRequestForJcc mnemonic = none ∧ mnemonic ≠ .jmp := by decide
  apply hjump
  rcases h with hmn | ⟨hmn, -⟩ | ⟨hmn, -⟩ | ⟨halu, -⟩
  · simp [hmn]
  · simp [hmn]
  · simp only [List.mem_cons, List.not_mem_nil, or_false] at hmn ⊢
    tauto
  · simp only [isAlu, decide_eq_true_eq, List.mem_cons, List.not_mem_nil, or_false] at halu ⊢
    tauto

instance : Decidable (z.CoversAlu ctx) := inferInstanceAs (Decidable (∃ _, _))

instance (ty : IRType) : Decidable (z.MovesTwice ctx ty) := inferInstanceAs (Decidable (_ ∨ _))

instance : Decidable (z.CoversMov ctx) := inferInstanceAs (Decidable (∃ _, _))

instance : Decidable (z.CoversMovExt ctx) := inferInstanceAs (Decidable (∃ _, _))

instance : Decidable (z.Covers ctx) := inferInstanceAs (Decidable (_ ∨ _))

end ZydisDecodedInstruction

/-! ## Blocks -/

section Blocks

variable (ctx : LiftContext) (starts : List U64)

/-- A jump between blocks; a conditional one asks for a condition that the record answers. -/
def CoversJump (track : Option FlagTrack) (di : DecodedInstr) : Prop :=
  (∃ va ∈ starts, di.takenVA = some va) ∧ (di.zydis.mnemonic = .jmp ∨
    ∃ request ∈ flagRequestForJcc di.zydis.mnemonic, di.nextVA ∈ starts ∧
      ∃ record ∈ track, record.Answers request)

/-- Instructions that are lifted right up to a jump at the end. -/
def CoversFrom : Option FlagTrack → List DecodedInstr → Prop
  | _, [] => False
  | track, [di] => CoversJump starts track di
  | track, di :: dis => di.zydis.Covers ctx ∧ CoversFrom (di.zydis.trackAfter track) dis

/-- A block that is lifted right; nothing is known of the flags where it starts. -/
def CoversBlock (dis : List DecodedInstr) : Prop := CoversFrom ctx starts none dis

instance (track : Option FlagTrack) (di : DecodedInstr) : Decidable (CoversJump starts track di) :=
  have : Decidable (∃ va ∈ starts, di.takenVA = some va) := List.decidableBEx _ starts
  inferInstanceAs (Decidable (_ ∧ _))

instance decidableCoversFrom : ∀ (track : Option FlagTrack) (dis : List DecodedInstr),
    Decidable (CoversFrom ctx starts track dis)
  | _, [] => inferInstanceAs (Decidable False)
  | track, [di] => inferInstanceAs (Decidable (CoversJump starts track di))
  | track, di :: di' :: dis =>
      have := decidableCoversFrom (di.zydis.trackAfter track) (di' :: dis)
      inferInstanceAs (Decidable (_ ∧ _))

instance (dis : List DecodedInstr) : Decidable (CoversBlock ctx starts dis) :=
  decidableCoversFrom ctx starts none dis

end Blocks

end InstaX
