import InstaX.Flags.FlagState

/-!
# What materialised flags read

The operands of a flag record that the code of a request reads (`FlagState.consulted`).  That code
is defined before use exactly when these operands are known where it is emitted
(`consults_materialise`); whether the record was made by the block that asks for the condition is
not checked by the source.
-/

namespace InstaX

open Throwing RegisterCode View

namespace FlagState

/-- The operands that the recovered carry flag reads. -/
def consultedByCF (fs : FlagState) : List IRValue :=
  match fs.op with
  | .add | .sub => [fs.result, fs.lhs]
  | .inc | .dec | .and | .or | .xor | .shl | .shr | .sar | .imul => []

/-- The operands that the recovered overflow flag reads. -/
def consultedByOF (fs : FlagState) : List IRValue :=
  match fs.op with
  | .add | .sub | .inc | .dec => [fs.lhs, fs.result]
  | .and | .or | .xor | .shl | .shr | .sar | .imul => []

/-- The operands that the code of a request reads; an invalid record is not read. -/
def consulted (fs : FlagState) (request : FlagRequest) : List IRValue :=
  if fs.valid = false then []
  else match request with
  | .zf | .notZf | .sf | .notSf => [fs.result]
  | .cf | .notCf => fs.consultedByCF
  | .of | .notOf => fs.consultedByOF
  | .cfOrZf | .notCfAndNotZf => fs.consultedByCF ++ [fs.result]
  | .sfXorOf | .notSfXorOf | .zfOrSfXorOf | .notZfAndNotSfXorOf => fs.result :: fs.consultedByOF

variable {fs : FlagState} {n : ℕ}

/-- The carry flag consults nothing but the result and the left operand. -/
lemma eq_of_mem_consultedByCF {v : IRValue} (hv : v ∈ fs.consultedByCF) :
    v = fs.result ∨ v = fs.lhs := by
  unfold consultedByCF at hv
  cases hop : fs.op <;> simp [hop] at hv <;> exact hv

/-- Nor does the overflow flag. -/
lemma eq_of_mem_consultedByOF {v : IRValue} (hv : v ∈ fs.consultedByOF) :
    v = fs.result ∨ v = fs.lhs := by
  unfold consultedByOF at hv
  cases hop : fs.op <;> simp [hop] at hv <;> exact hv.symm

/-- Only the result and the left operand of a valid record are read. -/
lemma eq_of_mem_consulted {request : FlagRequest} {v : IRValue} (hv : v ∈ fs.consulted request) :
    fs.valid = true ∧ (v = fs.result ∨ v = fs.lhs) := by
  unfold consulted at hv
  split at hv
  · simp at hv
  · rename_i hvalid
    refine ⟨by simpa using hvalid, ?_⟩
    cases request <;>
      simp only [List.mem_append, List.mem_cons] at hv <;>
      grind [eq_of_mem_consultedByCF, eq_of_mem_consultedByOF]

/-- An emission whose allocator returns consecutive ids from `n`. -/
def emissionView (n : ℕ) : View Emission IRInst where
  base := 20
  code e := e.block.instructions
  next e := n + e.taken
  IsOpen e := e.block.isTerminated = false

/-- The emitter appends fresh code that is defined before use, with its value, exactly when the
given operands are known. -/
def Consults (n : ℕ) (act : EmitM IRValue) (vs : List IRValue) : Prop :=
  ∀ e, (emissionView n).Ready e → (∀ v ∈ vs, (emissionView n).Passed e v) →
    (emissionView n).Builds act e fun v e' =>
      (emissionView n).Outcome e e' v (∀ u ∈ vs, (emissionView n).Known e u)

section Rules

variable {x y : EmitM IRValue} {vs ws : List IRValue}

/-- Only the operands that read a register matter. -/
lemma Consults.congr (h : Consults n x vs) (hmem : ∀ v, v.vregId? ≠ none → (v ∈ vs ↔ v ∈ ws)) :
    Consults n x ws := by
  have hforall : ∀ P : IRValue → Prop, (∀ v, v.vregId? = none → P v) →
      ((∀ v ∈ vs, P v) ↔ ∀ v ∈ ws, P v) := by
    intro P hP
    refine forall_congr' fun v => ?_
    by_cases hv : v.vregId? = none
    · simp [hP v hv]
    · rw [hmem v hv]
  intro e he hpassed
  have hknown := hforall ((emissionView n).Known e) fun v hv r hr => by
    exact absurd (hv.symm.trans hr) (by simp)
  rw [← hknown]
  exact h e he ((hforall _ fun v hv r hr => absurd (hv.symm.trans hr) (by simp)).mpr hpassed)

/-- A constant is known. -/
lemma consults_imm (c : BitVec 64) (ty : IRType) : Consults n (return .makeImm c ty) [] := by
  intro e he _
  refine Builds.pure he ⟨?_, ?_⟩
  · intro r hr
    cases hr
  · have hknown : (emissionView n).Known e (.makeImm c ty) := by
      intro r hr
      cases hr
    simp [hknown]

/-- Defining a register reads the operands of the defining instruction. -/
lemma consults_define (inst : ℕ → IRInst) (hdst : ∀ id, destination (inst id) = some id)
    (hops : ∀ id, (inst id).operands = vs) (hterm : ∀ id, (inst id).isTerminator = false) :
    Consults n (EmitM.define (n + ·) inst) vs := by
  rintro ⟨block, k⟩ he _
  have hdst' := hdst ((emissionView n).next ⟨block, k⟩)
  refine ⟨_, _, EmitM.run_define_of_open he.isOpen k (n + ·) inst,
    IRBasicBlock.append_open he.isOpen (by simp [hterm]), Grows.define rfl rfl hdst', ?_⟩
  rw [← hops (n + k)]
  exact Outcome.define rfl rfl hdst' rfl

/-- Two emitters in sequence, combined by a boolean operation. -/
lemma Consults.emitBool {op : Opcode} {name : String} (hx : Consults n x vs)
    (hy : Consults n y ws)
    (hterm : ∀ id v v', (IRInst.makeBinop op ⟨id, name⟩ .i1 v v').isTerminator = false) :
    Consults n (do
      let vx ← x
      let vy ← y
      FlagState.emitBool (n + ·) op name vx vy) (vs ++ ws) := by
  intro e he hpassed
  simp only [List.forall_mem_append] at hpassed ⊢
  refine Builds.bind he (hx e he hpassed.1) fun vx e₁ he₁ h₁ hvx => ?_
  have hpassed₁ : ∀ w ∈ ws, (emissionView n).Passed e₁ w := fun w hw => h₁.passed (hpassed.2 w hw)
  refine Builds.bind he₁ (hy e₁ he₁ hpassed₁) fun vy e₂ he₂ h₂ hvy => ?_
  have hpassed₂ : ∀ v ∈ [vx, vy], (emissionView n).Passed e₂ v := by
    simpa using ⟨h₂.passed hvx.passed, hvy.passed⟩
  have hbool : Consults n (FlagState.emitBool (n + ·) op name vx vy) [vx, vy] :=
    consults_define (fun id => .makeBinop op ⟨id, name⟩ .i1 vx vy) (fun _ => rfl)
      (fun _ => rfl) fun id => hterm id vx vy
  refine (hbool e₂ he₂ hpassed₂).mono fun v e₃ _ hv => ⟨hv.passed, ?_⟩
  -- the operands of the second emitter were known before the first one appended anything
  have hws : (∀ w ∈ ws, (emissionView n).Known e₁ w) ↔ ∀ w ∈ ws, (emissionView n).Known e w :=
    forall₂_congr fun w hw => h₁.known_iff (hpassed.2 w hw)
  have hboth := hvx.both h₂ hvy
  rw [hws] at hboth
  rw [← hboth, hv.iff]
  simp

/-- A conjunction consults what its sides consult. -/
lemma Consults.emitAnd (hx : Consults n x vs) (hy : Consults n y ws) :
    Consults n (do let vx ← x; let vy ← y; FlagState.emitAnd (n + ·) vx vy) (vs ++ ws) :=
  hx.emitBool hy fun _ _ _ => rfl

/-- A disjunction consults what its sides consult. -/
lemma Consults.emitOr (hx : Consults n x vs) (hy : Consults n y ws) :
    Consults n (do let vx ← x; let vy ← y; FlagState.emitOr (n + ·) vx vy) (vs ++ ws) :=
  hx.emitBool hy fun _ _ _ => rfl

/-- An exclusive disjunction consults what its sides consult. -/
lemma Consults.emitXor (hx : Consults n x vs) (hy : Consults n y ws) :
    Consults n (do let vx ← x; let vy ← y; FlagState.emitXor (n + ·) vx vy) (vs ++ ws) :=
  hx.emitBool hy fun _ _ _ => rfl

/-- Negation, an exclusive or with a constant. -/
lemma Consults.emitNot (hx : Consults n x vs) :
    Consults n (do let vx ← x; FlagState.emitNot (n + ·) vx) vs := by
  have h : Consults n (do
      let vx ← x
      let vy ← pure (.makeImm 1 .i1)
      FlagState.emitBool (n + ·) .xor "not" vx vy) (vs ++ []) :=
    hx.emitBool (consults_imm 1 .i1) fun _ _ _ => rfl
  simp only [pure_bind, List.append_nil] at h
  exact h

end Rules

/-! ## The flags -/

/-- A comparison of two operands. -/
lemma consults_emitIcmp (cond : IcmpCond) (name : String) (v w : IRValue) :
    Consults n (emitIcmp (n + ·) cond name v w) [v, w] :=
  consults_define _ (fun _ => rfl) (fun _ => rfl) fun _ => rfl

/-- A comparison with a constant. -/
lemma consults_emitIcmp_imm (cond : IcmpCond) (name : String) (v : IRValue) (c : BitVec 64)
    (ty : IRType) : Consults n (emitIcmp (n + ·) cond name v (.makeImm c ty)) [v] := by
  refine (consults_emitIcmp cond name v (.makeImm c ty)).congr fun u hu => ?_
  have hne : u ≠ .makeImm c ty := by
    rintro rfl
    exact hu rfl
  simp [hne]

/-- The zero flag is a comparison of the result. -/
lemma consults_emitZF : Consults n (emitZF fs (n + ·)) [fs.result] :=
  consults_emitIcmp_imm _ _ _ _ _

/-- So is the sign flag. -/
lemma consults_emitSF : Consults n (emitSF fs (n + ·)) [fs.result] :=
  consults_emitIcmp_imm _ _ _ _ _

/-- What the carry flag consults depends on the recorded operation. -/
lemma consults_emitCF : Consults n (emitCF fs (n + ·)) fs.consultedByCF := by
  unfold emitCF consultedByCF
  cases fs.op with
  | add => exact consults_emitIcmp _ _ _ _
  | sub => exact consults_emitIcmp _ _ _ _
  | _ => exact consults_imm 0 .i1

/-- The test for an upward overflow compares the left operand and the result. -/
lemma consults_emitPosOverflow : Consults n (emitPosOverflow fs (n + ·)) [fs.lhs, fs.result] :=
  (consults_emitIcmp_imm .sge "lhs_nn" fs.lhs 0 fs.ty).emitAnd
    (consults_emitIcmp_imm .slt "res_neg" fs.result 0 fs.ty)

/-- So does the test for a downward overflow. -/
lemma consults_emitNegOverflow : Consults n (emitNegOverflow fs (n + ·)) [fs.lhs, fs.result] :=
  (consults_emitIcmp_imm .slt "lhs_neg" fs.lhs 0 fs.ty).emitAnd
    (consults_emitIcmp_imm .sge "res_nn" fs.result 0 fs.ty)

/-- What the overflow flag consults depends on the recorded operation. -/
lemma consults_emitOF : Consults n (emitOF fs (n + ·)) fs.consultedByOF := by
  have hpos : Consults n (emitPosOverflow fs (n + ·)) [fs.lhs, fs.result] :=
    consults_emitPosOverflow
  have hneg : Consults n (emitNegOverflow fs (n + ·)) [fs.lhs, fs.result] :=
    consults_emitNegOverflow
  have hboth := hpos.emitOr hneg
  have hboth' : Consults n _ [fs.lhs, fs.result] := hboth.congr fun v _ => by grind
  unfold emitOF consultedByOF
  cases fs.op with
  | add => exact hboth'
  | sub => exact hboth'
  | inc => exact hpos
  | dec => exact hneg
  | _ => exact consults_imm 0 .i1

/-- What is consulted goes through the boolean operations. -/
lemma composes_consults :
    Composes (n + ·) ⟨id, (· ++ ·), (· ++ ·), (· ++ ·)⟩ (Consults n) where
  not hx := hx.emitNot
  and hx hy := hx.emitAnd hy
  or hx hy := hx.emitOr hy
  xor hx hy := hx.emitXor hy

/-- The code of a request reads exactly the consulted operands. -/
theorem consults_materialise (request : FlagRequest) :
    Consults n (fs.materialise (n + ·) request) (fs.consulted request) := by
  cases hvalid : fs.valid with
  | false =>
    rw [materialise_of_invalid hvalid, consulted.eq_def, if_pos hvalid]
    exact consults_imm 0 .i1
  | true =>
    have h := composes_consults.materialise hvalid (consults_emitZF (n := n)) consults_emitSF
      consults_emitCF consults_emitOF request
    refine h.congr fun v _ => ?_
    rw [consulted.eq_def, if_neg (by simp [hvalid])]
    cases request <;> simp [FlagRequest.combine]

end FlagState

end InstaX
