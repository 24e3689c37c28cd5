import InstaX.Flags.FlagState
import InstaX.IR.Typing

/-!
# Types of materialised flags

The code of a request compares the operands of the flag record, and combines booleans.  It is typed
whenever the result and the left operand of the record are used at the types they were defined at
(`booleans_materialise`).
-/

namespace InstaX

open Throwing RegisterCode TypeSystem

namespace FlagState

/-- The operands of the record that a request may read are behind the counter, and agree with the
code. -/
def RecordAgrees {σ : Type} (V : View σ IRInst) (s : σ) (fs : FlagState) : Prop :=
  ∀ v ∈ [fs.result, fs.lhs], V.Passed s v ∧ irTypes.Agrees (V.code s) v

/-- A record that agrees with the code agrees with it as it grows. -/
lemma RecordAgrees.grows {σ : Type} {V : View σ IRInst} {s t : σ} {fs : FlagState}
    (h : RecordAgrees V s fs) (hgrows : irTypes.Grows V s t) : RecordAgrees V t fs :=
  fun v hv => ⟨hgrows.passed (h v hv).1, (hgrows.agrees_iff (h v hv).1).mpr (h v hv).2⟩

/-- An emission after the code `pre`, whose allocator returns consecutive ids from `n`. -/
def typedView (pre : List IRInst) (n : ℕ) : View Emission IRInst where
  base := 20
  code e := pre ++ e.block.instructions
  next e := n + e.taken
  IsOpen e := e.block.isTerminated = false

variable {fs : FlagState} {pre : List IRInst} {n : ℕ}

/-- The emitter appends typed code and returns a boolean, where the record agrees with the code. -/
def Booleans (fs : FlagState) (pre : List IRInst) (n : ℕ) (act : EmitM IRValue) : Prop :=
  ∀ e, (typedView pre n).IsOpen e → irTypes.Settled (typedView pre n) e →
    RecordAgrees (typedView pre n) e fs →
      irTypes.TypedWhen (typedView pre n) act e True fun v e' =>
        irTypes.HasOperand (typedView pre n) e' v .i1

/-- A boolean constant. -/
lemma booleans_imm (c : BitVec 64) : Booleans fs pre n (return .makeImm c .i1) :=
  fun _ hopen he _ => TypedWhen.pure hopen he (hasOperand_of_register_eq_none rfl rfl)

/-- Defining a boolean by an instruction whose operands are typed. -/
lemma typedWhen_define {inst : ℕ → IRInst} {e : Emission} (hopen : (typedView pre n).IsOpen e)
    (he : irTypes.Settled (typedView pre n) e) (hdst : ∀ id, destination (inst id) = some id)
    (htype : ∀ id, (inst id).resultType = .i1) (hterm : ∀ id, (inst id).isTerminator = false)
    (hkeeps : ∀ id, (inst id).KeepsTypes)
    (hops : ∀ id, ∀ v ∈ (inst id).operands, (typedView pre n).Passed e v ∧
      irTypes.Agrees ((typedView pre n).code e) v) :
    irTypes.TypedWhen (typedView pre n) (EmitM.define (n + ·) inst) e True fun v e' =>
      irTypes.HasOperand (typedView pre n) e' v .i1 := by
  obtain ⟨block, k⟩ := e
  have hcode : (typedView pre n).code ⟨block.append [inst (n + k)], k + 1⟩ =
      (typedView pre n).code ⟨block, k⟩ ++ [inst (n + k)] := by
    simp [typedView]
  have hfixed : ∀ r, (typedView pre n).base ≤ r → irTypes.fixed r = none := fun r hr =>
    irTypes_fixed_of_ge (le_trans (show 16 ≤ 20 by decide) hr)
  have hvalue : irTypes.HasOperand (typedView pre n) ⟨block.append [inst (n + k)], k + 1⟩
      (.makeVReg (n + k) .i1) .i1 := by
    rw [← htype (n + k)]
    exact hasOperand_of_defined he hcode rfl hfixed (hdst _) rfl rfl
  refine TypedWhen.congr (typedWhen_of_run he hcode (fun v hv => (hops _ v hv).1) hfixed
    (Or.inr (Or.inr ⟨hdst _, rfl⟩)) (EmitM.run_define_of_open hopen k (n + ·) inst)
    (IRBasicBlock.append_open hopen (by simp [hterm])) hvalue) ?_
  exact iff_of_true ⟨hkeeps _, fun v hv => (hops _ v hv).2⟩ trivial

/-- A comparison of operands of the record with each other or with a constant. -/
lemma booleans_emitIcmp {cond : IcmpCond} {name : String} {v w : IRValue}
    (hv : v = fs.result ∨ v = fs.lhs) (hw : w = fs.lhs ∨ w.vregId? = none) :
    Booleans fs pre n (emitIcmp (n + ·) cond name v w) := by
  intro e hopen he hrecord
  refine typedWhen_define hopen he (fun _ => rfl) (fun _ => rfl) (fun _ => rfl) (fun id => ?_) ?_
  · exact IRInst.keepsTypes_of_other rfl
  · intro id u hu
    have hmem : u = v ∨ u = w := by simpa [IRInst.makeIcmp] using hu
    rcases hmem with rfl | rfl
    · exact hrecord u (List.mem_pair.mpr hv)
    · rcases hw with hw | hw
      · exact hrecord u (List.mem_pair.mpr (Or.inr hw))
      · exact ⟨fun _ hr => absurd (hw.symm.trans hr) (by simp), agrees_of_register_eq_none hw⟩

section Rules

variable {x y : EmitM IRValue}

/-- Two emitters in sequence, combined by a boolean operation. -/
lemma Booleans.emitBool {op : Opcode} {name : String} (hx : Booleans fs pre n x)
    (hy : Booleans fs pre n y) (hop : op.isBinary = true)
    (hterm : ∀ id v v', (IRInst.makeBinop op ⟨id, name⟩ .i1 v v').isTerminator = false) :
    Booleans fs pre n (do
      let vx ← x
      let vy ← y
      FlagState.emitBool (n + ·) op name vx vy) := by
  intro e hopen he hrecord
  refine (hx e hopen he hrecord).bind_of_true fun vx e₁ hopen₁ he₁ h₁ hvx => ?_
  refine (hy e₁ hopen₁ he₁ (hrecord.grows h₁)).bind_of_true fun vy e₂ hopen₂ he₂ h₂ hvy => ?_
  have hvx₂ := hvx.grows h₂
  refine typedWhen_define hopen₂ he₂ (fun _ => rfl) (fun _ => rfl) (fun id => hterm id vx vy)
    (fun id => (IRInst.keepsTypes_makeBinop hop).mpr ⟨hvx₂.type, hvy.type⟩) fun id u hu => ?_
  have hmem : u = vx ∨ u = vy := by simpa [IRInst.makeBinop] using hu
  rcases hmem with rfl | rfl
  · exact ⟨hvx₂.passed, hvx₂.agrees⟩
  · exact ⟨hvy.passed, hvy.agrees⟩

/-- A conjunction of booleans is one. -/
lemma Booleans.emitAnd (hx : Booleans fs pre n x) (hy : Booleans fs pre n y) :
    Booleans fs pre n (do let vx ← x; let vy ← y; FlagState.emitAnd (n + ·) vx vy) :=
  hx.emitBool hy rfl fun _ _ _ => rfl

/-- A disjunction of booleans is one. -/
lemma Booleans.emitOr (hx : Booleans fs pre n x) (hy : Booleans fs pre n y) :
    Booleans fs pre n (do let vx ← x; let vy ← y; FlagState.emitOr (n + ·) vx vy) :=
  hx.emitBool hy rfl fun _ _ _ => rfl

/-- An exclusive disjunction of booleans is one. -/
lemma Booleans.emitXor (hx : Booleans fs pre n x) (hy : Booleans fs pre n y) :
    Booleans fs pre n (do let vx ← x; let vy ← y; FlagState.emitXor (n + ·) vx vy) :=
  hx.emitBool hy rfl fun _ _ _ => rfl

/-- Negation, an exclusive or with a constant. -/
lemma Booleans.emitNot (hx : Booleans fs pre n x) :
    Booleans fs pre n (do let vx ← x; FlagState.emitNot (n + ·) vx) := by
  have h : Booleans fs pre n (do
      let vx ← x
      let vy ← pure (.makeImm 1 .i1)
      FlagState.emitBool (n + ·) .xor "not" vx vy) :=
    hx.emitBool (booleans_imm 1) rfl fun _ _ _ => rfl
  simp only [pure_bind] at h
  exact h

end Rules

/-- That the value is a boolean holds of the comparisons, and goes through the boolean
operations. -/
lemma compositional_booleans : Compositional fs (n + ·) (Booleans fs pre n) where
  not hx := hx.emitNot
  and hx hy := hx.emitAnd hy
  or hx hy := hx.emitOr hy
  xor hx hy := hx.emitXor hy
  imm := booleans_imm
  icmp := booleans_emitIcmp

/-- The code of a request is typed, and its value is a boolean. -/
theorem booleans_materialise (request : FlagRequest) :
    Booleans fs pre n (fs.materialise (n + ·) request) :=
  compositional_booleans.materialise request

end FlagState

end InstaX
