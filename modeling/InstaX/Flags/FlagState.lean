import InstaX.IR.Syntax

/-!
# Lazy flags

`Flags::FlagState` (`src/ir/Flagstate.hpp`, `src/ir/Flagstate.cpp`).  An instruction that sets the
x86 flags does not compute them; it records its operation, operands and result with
`FlagState.set`.  A conditional branch later asks for one condition, and `FlagState.materialise`
emits the code that recovers it from the record, one boolean temporary at a time.

The allocator that `materialise` receives (a `std::function<uint32_t()>`) is the sequence of ids
that its successive calls return; an `Emission` counts the calls and holds the block that is being
extended.
-/

namespace InstaX

open Throwing

/-- The instruction that last wrote the flags. -/
inductive FlagOp where
  | add | sub | inc | dec | and | or | xor | shl | shr | sar | imul
  deriving DecidableEq, Repr

/-- The condition a consuming instruction asks for. -/
inductive FlagRequest where
  | zf | notZf
  | sf | notSf
  | cf | notCf
  | of | notOf
  | cfOrZf | notCfAndNotZf
  | sfXorOf | notSfXorOf
  | zfOrSfXorOf | notZfAndNotSfXorOf
  deriving DecidableEq, Repr

/-- What the last flag-setting instruction recorded. -/
structure FlagState where
  valid : Bool := false
  op : FlagOp := .add
  ty : IRType := .i64
  result : IRValue := .makeImm 0 .i64
  lhs : IRValue := .makeImm 0 .i64
  rhs : IRValue := .makeImm 0 .i64
  deriving DecidableEq, Repr

/-- A block under construction, and how many ids its allocator has handed out. -/
structure Emission where
  block : IRBasicBlock
  taken : ℕ
  deriving DecidableEq, Repr

/-- A program that emits code. -/
abbrev EmitM (α : Type) := Prog Emission α

namespace EmitM

/-- Call the allocator. -/
def alloc (ids : ℕ → ℕ) : EmitM ℕ := do
  let e ← get
  set { e with taken := e.taken + 1 }
  return ids e.taken

/-- Append an instruction to the block. -/
def pushInst (i : IRInst) : EmitM Unit := do
  let e ← get
  match e.block.pushInst i with
  | .ok b => set { e with block := b }
  | .error err => throw err

/-- Allocate an id and append the instruction that defines it as a boolean. -/
def define (ids : ℕ → ℕ) (inst : ℕ → IRInst) : EmitM IRValue := do
  let id ← alloc ids
  pushInst (inst id)
  return .makeVReg id .i1

/-- Pushing to a block that is still open appends. -/
lemma run_pushInst_of_open {b : IRBasicBlock} (h : b.isTerminated = false) (k : ℕ) (i : IRInst) :
    (pushInst i).run ⟨b, k⟩ = .ok () ⟨b.append [i], k⟩ := by
  simp [pushInst, IRBasicBlock.pushInst_of_open h]

/-- A definition in a block that is still open takes the next id and appends one instruction. -/
lemma run_define_of_open {b : IRBasicBlock} (h : b.isTerminated = false) (k : ℕ) (ids : ℕ → ℕ)
    (inst : ℕ → IRInst) :
    (define ids inst).run ⟨b, k⟩ =
      .ok (.makeVReg (ids k) .i1) ⟨b.append [inst (ids k)], k + 1⟩ := by
  have halloc : (alloc ids).run ⟨b, k⟩ = .ok (ids k) ⟨b, k + 1⟩ := rfl
  rw [define, run_bind_of_ok halloc, run_bind_of_ok (run_pushInst_of_open h (k + 1) _),
    EStateM.run_pure]

end EmitM

namespace FlagState

open EmitM

/-- Record a flag-setting instruction. -/
def set (_ : FlagState) (op : FlagOp) (result lhs rhs : IRValue) (ty : IRType) : FlagState :=
  { valid := true, op := op, result := result, lhs := lhs, rhs := rhs, ty := ty }

/-- Forget the record. -/
def invalidate (fs : FlagState) : FlagState := { fs with valid := false }

/-- Allocate an id and define it by a comparison. -/
def emitIcmp (ids : ℕ → ℕ) (cond : IcmpCond) (name : String) (lhs rhs : IRValue) :
    EmitM IRValue :=
  define ids fun id => .makeIcmp cond ⟨id, name⟩ lhs rhs

/-- Allocate an id and define it by a boolean operation. -/
def emitBool (ids : ℕ → ℕ) (op : Opcode) (name : String) (a b : IRValue) : EmitM IRValue :=
  define ids fun id => .makeBinop op ⟨id, name⟩ .i1 a b

/-- Negation, as an exclusive or with one. -/
def emitNot (ids : ℕ → ℕ) (val : IRValue) : EmitM IRValue :=
  emitBool ids .xor "not" val (.makeImm 1 .i1)

/-- Conjunction. -/
def emitAnd (ids : ℕ → ℕ) (a b : IRValue) : EmitM IRValue := emitBool ids .and "and" a b

/-- Disjunction. -/
def emitOr (ids : ℕ → ℕ) (a b : IRValue) : EmitM IRValue := emitBool ids .or "or" a b

/-- Exclusive or. -/
def emitXor (ids : ℕ → ℕ) (a b : IRValue) : EmitM IRValue := emitBool ids .xor "xor" a b

variable (fs : FlagState) (ids : ℕ → ℕ)

/-- The zero flag: the result is zero. -/
def emitZF : EmitM IRValue := emitIcmp ids .eq "zf" fs.result (.makeImm 0 fs.ty)

/-- The sign flag: the result is negative. -/
def emitSF : EmitM IRValue := emitIcmp ids .slt "sf" fs.result (.makeImm 0 fs.ty)

/-- The carry flag, recovered from the result and the left operand. -/
def emitCF : EmitM IRValue :=
  match fs.op with
  | .add => emitIcmp ids .ult "cf_add" fs.result fs.lhs
  | .sub => emitIcmp ids .ugt "cf_sub" fs.result fs.lhs
  | .inc | .dec => return .makeImm 0 .i1
  | .and | .or | .xor => return .makeImm 0 .i1
  | .shl | .shr | .sar | .imul => return .makeImm 0 .i1

/-- The left operand is non-negative and the result negative. -/
def emitPosOverflow : EmitM IRValue := do
  let lhsNn ← emitIcmp ids .sge "lhs_nn" fs.lhs (.makeImm 0 fs.ty)
  let resNeg ← emitIcmp ids .slt "res_neg" fs.result (.makeImm 0 fs.ty)
  emitAnd ids lhsNn resNeg

/-- The left operand is negative and the result non-negative. -/
def emitNegOverflow : EmitM IRValue := do
  let lhsNeg ← emitIcmp ids .slt "lhs_neg" fs.lhs (.makeImm 0 fs.ty)
  let resNn ← emitIcmp ids .sge "res_nn" fs.result (.makeImm 0 fs.ty)
  emitAnd ids lhsNeg resNn

/-- The overflow flag.  The right operand is never consulted. -/
def emitOF : EmitM IRValue :=
  match fs.op with
  | .add | .sub => do
      let posOv ← emitPosOverflow fs ids
      let negOv ← emitNegOverflow fs ids
      emitOr ids posOv negOv
  | .inc => emitPosOverflow fs ids
  | .dec => emitNegOverflow fs ids
  | .and | .or | .xor | .shl | .shr | .sar | .imul => return .makeImm 0 .i1

/-- Emit the code for a condition and return the `i1` value that holds it.  Without a record the
source warns on `std::cerr` and the condition is false. -/
def materialise (request : FlagRequest) : EmitM IRValue :=
  if fs.valid = false then return .makeImm 0 .i1
  else match request with
  | .zf => emitZF fs ids
  | .notZf => do emitNot ids (← emitZF fs ids)
  | .sf => emitSF fs ids
  | .notSf => do emitNot ids (← emitSF fs ids)
  | .cf => emitCF fs ids
  | .notCf => do emitNot ids (← emitCF fs ids)
  | .of => emitOF fs ids
  | .notOf => do emitNot ids (← emitOF fs ids)
  | .cfOrZf => do
      let cf ← emitCF fs ids
      let zf ← emitZF fs ids
      emitOr ids cf zf
  | .notCfAndNotZf => do
      let ncf ← emitNot ids (← emitCF fs ids)
      let nzf ← emitNot ids (← emitZF fs ids)
      emitAnd ids ncf nzf
  | .sfXorOf => do
      let sf ← emitSF fs ids
      let of ← emitOF fs ids
      emitXor ids sf of
  | .notSfXorOf => do
      let sf ← emitSF fs ids
      let of ← emitOF fs ids
      let xorVal ← emitXor ids sf of
      emitNot ids xorVal
  | .zfOrSfXorOf => do
      let zf ← emitZF fs ids
      let sf ← emitSF fs ids
      let of ← emitOF fs ids
      let sfXorOf ← emitXor ids sf of
      emitOr ids zf sfXorOf
  | .notZfAndNotSfXorOf => do
      let nzf ← emitNot ids (← emitZF fs ids)
      let sf ← emitSF fs ids
      let of ← emitOF fs ids
      let sfEqOf ← emitNot ids (← emitXor ids sf of)
      emitAnd ids nzf sfEqOf

end FlagState

/-! ## Properties of conditions -/

/-- Boolean operations on descriptions of emitters. -/
structure BoolOps (V : Type) where
  not : V → V
  and : V → V → V
  or : V → V → V
  xor : V → V → V

/-- No description. -/
def BoolOps.trivial : BoolOps Unit := ⟨fun _ => (), fun _ _ => (), fun _ _ => (), fun _ _ => ()⟩

/-- The description of a condition, from those of the four flags. -/
def FlagRequest.combine {V : Type} (o : BoolOps V) (zf sf cf of : V) : FlagRequest → V
  | .zf => zf
  | .notZf => o.not zf
  | .sf => sf
  | .notSf => o.not sf
  | .cf => cf
  | .notCf => o.not cf
  | .of => of
  | .notOf => o.not of
  | .cfOrZf => o.or cf zf
  | .notCfAndNotZf => o.and (o.not cf) (o.not zf)
  | .sfXorOf => o.xor sf of
  | .notSfXorOf => o.not (o.xor sf of)
  | .zfOrSfXorOf => o.or zf (o.xor sf of)
  | .notZfAndNotSfXorOf => o.and (o.not zf) (o.not (o.xor sf of))

namespace FlagState

variable {fs : FlagState} {ids : ℕ → ℕ} {V : Type} {o : BoolOps V} {P : EmitM IRValue → V → Prop}

/-- A property of an emitter and its description that goes through the boolean operations. -/
structure Composes (ids : ℕ → ℕ) (o : BoolOps V) (P : EmitM IRValue → V → Prop) : Prop where
  not {x : EmitM IRValue} {v : V} (hx : P x v) : P (do let vx ← x; emitNot ids vx) (o.not v)
  and {x y : EmitM IRValue} {v w : V} (hx : P x v) (hy : P y w) :
    P (do let vx ← x; let vy ← y; emitAnd ids vx vy) (o.and v w)
  or {x y : EmitM IRValue} {v w : V} (hx : P x v) (hy : P y w) :
    P (do let vx ← x; let vy ← y; emitOr ids vx vy) (o.or v w)
  xor {x y : EmitM IRValue} {v w : V} (hx : P x v) (hy : P y w) :
    P (do let vx ← x; let vy ← y; emitXor ids vx vy) (o.xor v w)

/-- Such a property holds of every condition, if it holds of the four flags. -/
theorem Composes.materialise (h : Composes ids o P) (hvalid : fs.valid = true) {zf sf cf of : V}
    (hzf : P (emitZF fs ids) zf) (hsf : P (emitSF fs ids) sf) (hcf : P (emitCF fs ids) cf)
    (hof : P (emitOF fs ids) of) (request : FlagRequest) :
    P (fs.materialise ids request) (request.combine o zf sf cf of) := by
  have hxor := h.xor hsf hof
  rw [FlagState.materialise.eq_def, if_neg (by simp [hvalid])]
  cases request with
  | zf => exact hzf
  | notZf => exact h.not hzf
  | sf => exact hsf
  | notSf => exact h.not hsf
  | cf => exact hcf
  | notCf => exact h.not hcf
  | of => exact hof
  | notOf => exact h.not hof
  | cfOrZf => exact h.or hcf hzf
  | notCfAndNotZf =>
    have hand := h.and (h.not hcf) (h.not hzf)
    simp only [bind_assoc] at hand
    exact hand
  | sfXorOf => exact hxor
  | notSfXorOf =>
    have hnot := h.not hxor
    simp only [bind_assoc] at hnot
    exact hnot
  | zfOrSfXorOf =>
    have hor := h.or hzf hxor
    simp only [bind_assoc] at hor
    exact hor
  | notZfAndNotSfXorOf =>
    have hand := h.and (h.not hzf) (h.not hxor)
    simp only [bind_assoc] at hand
    exact hand

/-- Without a record the condition is the constant zero. -/
lemma materialise_of_invalid (hinvalid : fs.valid = false) (request : FlagRequest) :
    fs.materialise ids request = return .makeImm 0 .i1 :=
  if_pos hinvalid

/-- A property of emitters without a description, which also holds of constants and of comparisons
of an operand of the record with the left operand or a constant. -/
structure Compositional (fs : FlagState) (ids : ℕ → ℕ) (P : EmitM IRValue → Prop) : Prop
    extends Composes ids BoolOps.trivial fun x _ => P x where
  imm (c : BitVec 64) : P (return .makeImm c .i1)
  icmp {cond : IcmpCond} {name : String} {v w : IRValue} (hv : v = fs.result ∨ v = fs.lhs)
    (hw : w = fs.lhs ∨ w.vregId? = none) : P (emitIcmp ids cond name v w)

namespace Compositional

variable {P : EmitM IRValue → Prop} {x y : EmitM IRValue} {u v : IRValue}

/-- The conjunction of two comparisons. -/
lemma icmp_and_icmp (h : Compositional fs ids P) {c c' : IcmpCond} {name name' : String}
    (hu : u = fs.result ∨ u = fs.lhs) (hv : v = fs.result ∨ v = fs.lhs) {z : IRValue}
    (hz : z.vregId? = none) :
    P (do
      let a ← emitIcmp ids c name u z
      let b ← emitIcmp ids c' name' v z
      emitAnd ids a b) :=
  @Composes.and Unit ids _ _ h.toComposes _ _ () () (h.icmp hu (Or.inr hz)) (h.icmp hv (Or.inr hz))

/-- A compositional property holds of the emitter of the carry flag. -/
lemma emitCF (h : Compositional fs ids P) : P (FlagState.emitCF fs ids) := by
  unfold FlagState.emitCF
  cases fs.op with
  | add => exact h.icmp (Or.inl rfl) (Or.inl rfl)
  | sub => exact h.icmp (Or.inl rfl) (Or.inl rfl)
  | _ => exact h.imm 0

/-- It holds of the emitter of the overflow flag. -/
lemma emitOF (h : Compositional fs ids P) : P (FlagState.emitOF fs ids) := by
  have hpos : P (emitPosOverflow fs ids) := h.icmp_and_icmp (Or.inr rfl) (Or.inl rfl) rfl
  have hneg : P (emitNegOverflow fs ids) := h.icmp_and_icmp (Or.inr rfl) (Or.inl rfl) rfl
  have hor : P (do
      let posOv ← emitPosOverflow fs ids
      let negOv ← emitNegOverflow fs ids
      emitOr ids posOv negOv) :=
    @Composes.or Unit ids _ _ h.toComposes _ _ () () hpos hneg
  unfold FlagState.emitOF
  cases fs.op with
  | add => exact hor
  | sub => exact hor
  | inc => exact hpos
  | dec => exact hneg
  | _ => exact h.imm 0

/-- Such a property holds of every condition. -/
theorem materialise (h : Compositional fs ids P) (request : FlagRequest) :
    P (fs.materialise ids request) := by
  have hzf : P (emitZF fs ids) := h.icmp (Or.inl rfl) (Or.inr rfl)
  have hsf : P (emitSF fs ids) := h.icmp (Or.inl rfl) (Or.inr rfl)
  cases hvalid : fs.valid with
  | false =>
    rw [materialise_of_invalid hvalid]
    exact h.imm 0
  | true =>
    exact @Composes.materialise fs ids Unit _ _ h.toComposes hvalid () () () () hzf hsf h.emitCF
      h.emitOF request

end Compositional

end FlagState

end InstaX
