import InstaX.Flags.FlagState
import InstaX.IR.Names

/-!
# Names in materialised flags

The code of a request defines each of its temporaries under a name and uses it without one.  So its
value is not clean, unless the request is answered by a constant (`yields_materialise`): that is the
carry or the overflow flag, where it is not recovered but taken for zero.
-/

namespace InstaX

open Throwing RegisterCode TypeSystem

namespace FlagOp

/-- The carry flag is taken for zero. -/
def ConstantCF : FlagOp → Prop
  | .add | .sub => False
  | .inc | .dec | .and | .or | .xor | .shl | .shr | .sar | .imul => True

/-- The overflow flag is taken for zero. -/
def ConstantOF : FlagOp → Prop
  | .add | .sub | .inc | .dec => False
  | .and | .or | .xor | .shl | .shr | .sar | .imul => True

instance (op : FlagOp) : Decidable op.ConstantCF := by
  cases op <;> unfold ConstantCF <;> infer_instance

instance (op : FlagOp) : Decidable op.ConstantOF := by
  cases op <;> unfold ConstantOF <;> infer_instance

end FlagOp

namespace FlagState

/-- The request is answered by a constant, without code. -/
def IsConstant (fs : FlagState) (request : FlagRequest) : Prop :=
  fs.valid = true → request = .cf ∧ fs.op.ConstantCF ∨ request = .of ∧ fs.op.ConstantOF

instance (fs : FlagState) (request : FlagRequest) : Decidable (fs.IsConstant request) :=
  inferInstanceAs (Decidable (_ → _))

/-- The operands of the record that a request may read have no names. -/
def RecordUnnamed {σ : Type} (V : View σ IRInst) (s : σ) (fs : FlagState) : Prop :=
  ∀ v ∈ [fs.result, fs.lhs], Unnamed V v s

/-- A record without named operands stays one while code is appended. -/
lemma RecordUnnamed.grows {σ : Type} {V : View σ IRInst} {s t : σ} {fs : FlagState}
    (h : RecordUnnamed V s fs) (hgrows : nameTypes.Grows V s t) : RecordUnnamed V t fs :=
  fun v hv => (h v hv).grows hgrows

/-- An emission after the code `pre`, whose allocator returns consecutive ids from `n`, while all
code is plain. -/
def namedView (pre : List IRInst) (n : ℕ) : View Emission IRInst where
  base := 20
  code e := pre ++ e.block.instructions
  next e := n + e.taken
  IsOpen e := e.block.isTerminated = false ∧ ∀ i ∈ pre ++ e.block.instructions, i.PrintsPlainly

variable {fs : FlagState} {pre : List IRInst} {n : ℕ} {clean clean' : Prop} {x y : EmitM IRValue}

/-- The emitter appends plain code and returns an operand that is clean under the condition. -/
def YieldsBool (fs : FlagState) (pre : List IRInst) (n : ℕ) (act : EmitM IRValue) (clean : Prop) :
    Prop :=
  ∀ e, (namedView pre n).IsOpen e → nameTypes.Settled (namedView pre n) e →
    RecordUnnamed (namedView pre n) e fs → Yields (namedView pre n) act e clean fun _ => True

/-- A constant is a clean boolean. -/
lemma yieldsBool_imm (c : BitVec 64) : YieldsBool fs pre n (return .makeImm c .i1) True :=
  fun e hopen he _ => ⟨True, TypedWhen.pure hopen he ⟨usableWhen_of_vreg?_eq_none rfl e, trivial⟩,
    fun _ => trivial⟩

/-- A definition is run, and its value is not clean. -/
lemma yields_define {inst : ℕ → IRInst} {ops : List IRValue} {e : Emission}
    (hinst : IRInst.DefinesNamed inst ops) (hopen : (namedView pre n).IsOpen e)
    (he : nameTypes.Settled (namedView pre n) e)
    (hops : ∀ v ∈ ops, Unnamed (namedView pre n) v e) :
    Yields (namedView pre n) (EmitM.define (n + ·) inst) e False fun _ => True := by
  obtain ⟨block, k⟩ := e
  have hcode : (namedView pre n).code ⟨block.append [inst (n + k)], k + 1⟩ =
      (namedView pre n).code ⟨block, k⟩ ++ [inst (n + k)] := by
    simp [namedView]
  have hplain : (inst (n + k)).PrintsPlainly := by
    refine ⟨hinst.prints _, fun v hv => ?_⟩
    rw [hinst.operands] at hv
    exact (hops v hv).tempName
  have hopen' : (namedView pre n).IsOpen ⟨block.append [inst (n + k)], k + 1⟩ := by
    refine ⟨IRBasicBlock.append_open hopen.1 (by simp [hinst.isTerminator]), fun i hi => ?_⟩
    have hmem : i ∈ (namedView pre n).code ⟨block, k⟩ ∨ i = inst (n + k) := by
      have hi' : i ∈ (namedView pre n).code ⟨block.append [inst (n + k)], k + 1⟩ := hi
      rw [hcode] at hi'
      simpa using hi'
    rcases hmem with hi | rfl
    · exact hopen.2 i hi
    · exact hplain
  exact ⟨_, typedWhen_defines hinst he rfl hcode rfl hops
    (EmitM.run_define_of_open hopen.1 k (n + ·) inst) hopen' trivial, False.elim⟩

/-- A comparison of operands of the record with each other or with a constant. -/
lemma yieldsBool_emitIcmp {cond : IcmpCond} {name : String} {v w : IRValue} (hname : name ≠ "")
    (hv : v = fs.result ∨ v = fs.lhs) (hw : w = fs.lhs ∨ w.vreg? = none) :
    YieldsBool fs pre n (emitIcmp (n + ·) cond name v w) False := by
  intro e hopen he hrecord
  refine yields_define (IRInst.definesNamed_makeIcmp hname) hopen he fun u hu => ?_
  rcases List.mem_pair.mp hu with rfl | rfl
  · exact hrecord u (List.mem_pair.mpr hv)
  · rcases hw with hw | hw
    · exact hrecord u (List.mem_pair.mpr (Or.inr hw))
    · exact (usableWhen_of_vreg?_eq_none hw e).toUnnamed

section Rules

/-- Two emitters in sequence, combined by a boolean operation. -/
lemma YieldsBool.emitBool {op : Opcode} {name : String} (hname : name ≠ "")
    (hx : YieldsBool fs pre n x clean) (hy : YieldsBool fs pre n y clean')
    (hop : op.isBinary = true) :
    YieldsBool fs pre n (do
      let vx ← x
      let vy ← y
      FlagState.emitBool (n + ·) op name vx vy) False := by
  intro e hopen he hrecord
  have hruns : Runs nameTypes (namedView pre n) (do
      let vx ← x
      let vy ← y
      FlagState.emitBool (n + ·) op name vx vy) e
      fun v t => UsableWhen (namedView pre n) False v t ∧ True := by
    refine (hx e hopen he hrecord).runs.bind fun vx e₁ hopen₁ he₁ h₁ hvx => ?_
    refine (hy e₁ hopen₁ he₁ (hrecord.grows h₁)).runs.bind fun vy e₂ hopen₂ he₂ h₂ hvy => ?_
    refine (yields_define (IRInst.definesNamed_makeBinop hname hop) hopen₂ he₂ fun u hu => ?_).runs
    rcases List.mem_pair.mp hu with rfl | rfl
    · exact hvx.1.toUnnamed.grows h₂
    · exact hvy.1.toUnnamed
  exact yields_of_runs hruns

/-- A conjunction is a boolean that no code may use. -/
lemma YieldsBool.emitAnd (hx : YieldsBool fs pre n x clean) (hy : YieldsBool fs pre n y clean') :
    YieldsBool fs pre n (do let vx ← x; let vy ← y; FlagState.emitAnd (n + ·) vx vy) False :=
  hx.emitBool (by decide) hy rfl

/-- So is a disjunction. -/
lemma YieldsBool.emitOr (hx : YieldsBool fs pre n x clean) (hy : YieldsBool fs pre n y clean') :
    YieldsBool fs pre n (do let vx ← x; let vy ← y; FlagState.emitOr (n + ·) vx vy) False :=
  hx.emitBool (by decide) hy rfl

/-- So is an exclusive disjunction. -/
lemma YieldsBool.emitXor (hx : YieldsBool fs pre n x clean) (hy : YieldsBool fs pre n y clean') :
    YieldsBool fs pre n (do let vx ← x; let vy ← y; FlagState.emitXor (n + ·) vx vy) False :=
  hx.emitBool (by decide) hy rfl

/-- Negation, an exclusive or with a constant. -/
lemma YieldsBool.emitNot (hx : YieldsBool fs pre n x clean) :
    YieldsBool fs pre n (do let vx ← x; FlagState.emitNot (n + ·) vx) False := by
  have h : YieldsBool fs pre n (do
      let vx ← x
      let vy ← pure (.makeImm 1 .i1)
      FlagState.emitBool (n + ·) .xor "not" vx vy) False :=
    hx.emitBool (by decide) (yieldsBool_imm 1) rfl
  simp only [pure_bind] at h
  exact h

end Rules

/-! ## The flags -/

/-- The zero flag is computed, and hence never clean. -/
lemma yieldsBool_emitZF : YieldsBool fs pre n (emitZF fs (n + ·)) False :=
  yieldsBool_emitIcmp (by decide) (Or.inl rfl) (Or.inr rfl)

/-- Nor is the sign flag. -/
lemma yieldsBool_emitSF : YieldsBool fs pre n (emitSF fs (n + ·)) False :=
  yieldsBool_emitIcmp (by decide) (Or.inl rfl) (Or.inr rfl)

/-- The carry flag is clean exactly for the operations that make it a constant. -/
lemma yieldsBool_emitCF : YieldsBool fs pre n (emitCF fs (n + ·)) fs.op.ConstantCF := by
  unfold emitCF
  cases fs.op with
  | add => exact yieldsBool_emitIcmp (by decide) (Or.inl rfl) (Or.inl rfl)
  | sub => exact yieldsBool_emitIcmp (by decide) (Or.inl rfl) (Or.inl rfl)
  | _ => exact yieldsBool_imm 0

/-- The test for an upward overflow is computed. -/
lemma yieldsBool_emitPosOverflow : YieldsBool fs pre n (emitPosOverflow fs (n + ·)) False :=
  (yieldsBool_emitIcmp (by decide) (Or.inr rfl) (Or.inr rfl)).emitAnd
    (yieldsBool_emitIcmp (by decide) (Or.inl rfl) (Or.inr rfl))

/-- The test for a downward overflow is computed. -/
lemma yieldsBool_emitNegOverflow : YieldsBool fs pre n (emitNegOverflow fs (n + ·)) False :=
  (yieldsBool_emitIcmp (by decide) (Or.inr rfl) (Or.inr rfl)).emitAnd
    (yieldsBool_emitIcmp (by decide) (Or.inl rfl) (Or.inr rfl))

/-- The overflow flag is clean exactly for the operations that make it a constant. -/
lemma yieldsBool_emitOF : YieldsBool fs pre n (emitOF fs (n + ·)) fs.op.ConstantOF := by
  unfold emitOF
  cases fs.op with
  | add => exact yieldsBool_emitPosOverflow.emitOr yieldsBool_emitNegOverflow
  | sub => exact yieldsBool_emitPosOverflow.emitOr yieldsBool_emitNegOverflow
  | inc => exact yieldsBool_emitPosOverflow
  | dec => exact yieldsBool_emitNegOverflow
  | _ => exact yieldsBool_imm 0

/-- An operation on conditions is never a constant. -/
lemma composes_yieldsBool :
    Composes (n + ·) ⟨fun _ => False, fun _ _ => False, fun _ _ => False, fun _ _ => False⟩
      (YieldsBool fs pre n) where
  not hx := hx.emitNot
  and hx hy := hx.emitAnd hy
  or hx hy := hx.emitOr hy
  xor hx hy := hx.emitXor hy

/-- The value of a request is clean exactly if it is a constant. -/
theorem yieldsBool_materialise (request : FlagRequest) :
    YieldsBool fs pre n (fs.materialise (n + ·) request) (fs.IsConstant request) := by
  cases hvalid : fs.valid with
  | false =>
    rw [materialise_of_invalid hvalid]
    have hconst : fs.IsConstant request := fun h => absurd (hvalid.symm.trans h) (by decide)
    exact fun e hopen he hrecord =>
      (yieldsBool_imm 0 e hopen he hrecord).congr (iff_of_true trivial hconst)
  | true =>
    have h := (@composes_yieldsBool fs pre n).materialise hvalid
      yieldsBool_emitZF yieldsBool_emitSF yieldsBool_emitCF yieldsBool_emitOF request
    refine fun e hopen he hrecord => (h e hopen he hrecord).congr ?_
    unfold IsConstant
    cases request <;> simp [hvalid, FlagRequest.combine]

end FlagState

end InstaX
