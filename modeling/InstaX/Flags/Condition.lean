import InstaX.Flags.Materialise
import InstaX.Foundation.FixedWidth

/-!
# Materialised flags against the x86 conditions

What the status flags are after an operation is stated on exact integers (`FlagOp.x86Flags`): the
carry flag says that the unsigned reading of the result is not the exact result, the overflow flag
says it of the signed reading.  Two results compare this with what `FlagState.materialise` recovers
from the result and the left operand.

* `meetsX86_of_covered`: wherever the overflow flag after an addition or subtraction is not read,
  and the carry flag after an increment or decrement is not read, the condition is right.
* `meetsX86_overflow_iff`: after an addition or subtraction the overflow flag is recovered from a
  change of sign between the left operand and the result.  The sign of the right operand is not
  consulted, and the condition is right exactly when that makes no difference.
-/

namespace InstaX

open Throwing FixedWidth

namespace FlagRequest

/-- The request reads the carry flag. -/
def readsCF : FlagRequest → Bool
  | .cf | .notCf | .cfOrZf | .notCfAndNotZf => true
  | _ => false

/-- The request reads the zero flag. -/
def readsZF : FlagRequest → Bool
  | .zf | .notZf | .cfOrZf | .notCfAndNotZf | .zfOrSfXorOf | .notZfAndNotSfXorOf => true
  | _ => false

/-- The request reads the overflow flag. -/
def readsOF : FlagRequest → Bool
  | .of | .notOf | .sfXorOf | .notSfXorOf | .zfOrSfXorOf | .notZfAndNotSfXorOf => true
  | _ => false

/-- No request reads both the carry and the overflow flag. -/
lemma readsCF_eq_false_of_readsOF {request : FlagRequest} (h : request.readsOF = true) :
    request.readsCF = false := by
  cases request <;> first | rfl | exact absurd h (by decide)

/-- The comparison a request stands for after `cmp`, where it stands for one. -/
def comparison {w : ℕ} : FlagRequest → Option (BitVec w → BitVec w → Bool)
  | .zf => some fun a b => a == b
  | .notZf => some fun a b => a != b
  | .cf => some fun a b => a.ult b
  | .notCf => some fun a b => b.ule a
  | .cfOrZf => some fun a b => a.ule b
  | .notCfAndNotZf => some fun a b => b.ult a
  | .sfXorOf => some fun a b => a.slt b
  | .notSfXorOf => some fun a b => b.sle a
  | .zfOrSfXorOf => some fun a b => a.sle b
  | .notZfAndNotSfXorOf => some fun a b => b.slt a
  | .sf | .notSf | .of | .notOf => none

end FlagRequest

namespace FlagOp

variable {w : ℕ}

/-- The result of an operation on two words; the increment and decrement ignore the second one.
Shifts and multiplications are left out: nothing here depends on their flags. -/
def result (op : FlagOp) (a b : BitVec w) : Option (BitVec w) :=
  match op with
  | .add => some (a + b)
  | .sub => some (a - b)
  | .inc => some (a + 1)
  | .dec => some (a - 1)
  | .and => some (a &&& b)
  | .or => some (a ||| b)
  | .xor => some (a ^^^ b)
  | .shl | .shr | .sar | .imul => none

/-- The status flags of the exact result `zu` on unsigned and `zs` on signed readings, wrapped
to `r`. -/
def arithmeticFlags (r : BitVec w) (zu zs : ℤ) : X86Flags :=
  { cf := unsignedOverflow r zu, zf := r == 0, sf := r.msb, of := signedOverflow r zs }

/-- The status flags of a logical result: no carry, no overflow. -/
def logicalFlags (r : BitVec w) : X86Flags :=
  { cf := false, zf := r == 0, sf := r.msb, of := false }

/-- The status flags of the architecture after an operation.  The increment and decrement keep the
carry flag of the processor; what stands here for it is never compared with anything. -/
def x86Flags (op : FlagOp) (a b : BitVec w) : Option X86Flags :=
  match op with
  | .add => some (arithmeticFlags (a + b) (a.toNat + b.toNat) (a.toInt + b.toInt))
  | .sub => some (arithmeticFlags (a - b) (a.toNat - b.toNat) (a.toInt - b.toInt))
  | .inc => some (arithmeticFlags (a + 1) (a.toNat + 1) (a.toInt + 1))
  | .dec => some (arithmeticFlags (a - 1) (a.toNat - 1) (a.toInt - 1))
  | .and => some (logicalFlags (a &&& b))
  | .or => some (logicalFlags (a ||| b))
  | .xor => some (logicalFlags (a ^^^ b))
  | .shl | .shr | .sar | .imul => none

/-- The requests whose flags are recovered without the right operand. -/
def covered (op : FlagOp) (request : FlagRequest) : Bool :=
  match op with
  | .add | .sub => !request.readsOF
  | .and | .or | .xor => true
  | .inc | .dec => !request.readsCF
  | .shl | .shr | .sar | .imul => false

/-- A change of sign between the left operand and the result is an overflow exactly when the signs
of the operands say so: an addition of operands with different signs keeps the sign of the left
one, and so does a subtraction of operands with one sign. -/
def SignsDecide (op : FlagOp) (a b r : BitVec w) : Prop :=
  match op with
  | .add => a.msb ≠ b.msb → r.msb = a.msb
  | .sub => a.msb = b.msb → r.msb = a.msb
  | _ => True

end FlagOp

namespace X86Flags

/-- Flags with one zero and one sign flag answer a request alike exactly when the carry and overflow
flags it reads agree, or it reads the zero flag and that flag is set. -/
lemma cond_eq_iff {f g : X86Flags} (request : FlagRequest) (hzf : f.zf = g.zf) (hsf : f.sf = g.sf) :
    f.cond request = g.cond request ↔
      ((request.readsCF = true → f.cf = g.cf) ∧ (request.readsOF = true → f.of = g.of)) ∨
        (request.readsZF = true ∧ f.zf = true) := by
  obtain ⟨cf, zf, sf, of⟩ := f
  obtain ⟨cf', _, _, of'⟩ := g
  obtain ⟨rfl, rfl⟩ : zf = _ ∧ sf = _ := ⟨hzf, hsf⟩
  cases request <;>
    simp only [cond, FlagRequest.readsCF, FlagRequest.readsOF, FlagRequest.readsZF] <;>
    revert cf cf' zf sf of of' <;> decide

/-- After a subtraction the x86 conditions are the comparisons of its operands. -/
lemma cond_arithmeticFlags_sub {w : ℕ} (hw : 0 < w) (a b : BitVec w) {request : FlagRequest}
    {g : BitVec w → BitVec w → Bool} (hg : request.comparison = some g) :
    (FlagOp.arithmeticFlags (a - b) (a.toNat - b.toNat) (a.toInt - b.toInt)).cond request =
      g a b := by
  have hcf := unsignedOverflow_sub_eq_ult a b
  have hzf := sub_beq_zero a b
  have hsf := msb_xor_signedOverflow_sub hw a b
  have hbe := ult_or_beq a b
  have hle := beq_or_slt a b
  cases request <;> cases hg <;> simp only [cond, FlagOp.arithmeticFlags, hcf, hzf, hsf]
  case notZf => rfl
  case notCf => rw [BitVec.ule_eq_not_ult]
  case cfOrZf => exact hbe
  case notCfAndNotZf =>
    rw [← Bool.not_or, hbe, BitVec.ule_eq_not_ult, Bool.not_not]
  case notSfXorOf => rw [BitVec.sle_eq_not_slt]
  case zfOrSfXorOf => exact hle
  case notZfAndNotSfXorOf =>
    rw [← Bool.not_or, hle, BitVec.sle_eq_not_slt, Bool.not_not]

end X86Flags

namespace FlagState

variable {w : ℕ}

/-- An operation with a result has flags; zero and sign are those of the result. -/
lemma exists_x86Flags {op : FlagOp} {a b r : BitVec w} (hr : op.result a b = some r) :
    ∃ f, op.x86Flags a b = some f ∧ f.zf = (r == 0) ∧ f.sf = r.msb := by
  cases op <;> cases hr <;> exact ⟨_, rfl, rfl, rfl⟩

/-- The recovered carry flag is right except after an increment or decrement. -/
lemma recoveredCF_eq {op : FlagOp} {a b r : BitVec w} (hr : op.result a b = some r)
    (hinc : op ≠ .inc) (hdec : op ≠ .dec) {f : X86Flags} (hf : op.x86Flags a b = some f) :
    recoveredCF op r a = f.cf := by
  cases op with
  | add => cases hr; cases hf; exact ult_add_eq a b
  | sub => cases hr; cases hf; exact ult_sub_eq a b
  | inc => exact absurd rfl hinc
  | dec => exact absurd rfl hdec
  | and | or | xor => cases hr; cases hf; rfl
  | shl | shr | sar | imul => cases hr

/-- The recovered overflow flag is right after an increment, a decrement or a logical operation. -/
lemma recoveredOF_eq (hw : 0 < w) {op : FlagOp} {a b r : BitVec w} (hr : op.result a b = some r)
    (hadd : op ≠ .add) (hsub : op ≠ .sub) {f : X86Flags} (hf : op.x86Flags a b = some f) :
    recoveredOF op r a = f.of := by
  cases op with
  | add => exact absurd rfl hadd
  | sub => exact absurd rfl hsub
  | inc => cases hr; cases hf; exact (signedOverflow_add_one_eq hw a).symm
  | dec => cases hr; cases hf; exact (signedOverflow_sub_one_eq hw a).symm
  | and | or | xor => cases hr; cases hf; rfl
  | shl | shr | sar | imul => cases hr

/-- After an addition or subtraction the recovered overflow flag is right exactly when the signs
of the operands decide it. -/
lemma recoveredOF_eq_iff (hw : 0 < w) {op : FlagOp} {a b r : BitVec w}
    (hr : op.result a b = some r) (hop : op = .add ∨ op = .sub) {f : X86Flags}
    (hf : op.x86Flags a b = some f) : recoveredOF op r a = f.of ↔ op.SignsDecide a b r := by
  rcases hop with rfl | rfl <;> cases hr <;> cases hf
  · simp only [FlagOp.arithmeticFlags, signedOverflow_add_eq hw, FlagOp.SignsDecide, recoveredOF]
    cases a.msb <;> cases b.msb <;> cases (a + b).msb <;> decide
  · simp only [FlagOp.arithmeticFlags, signedOverflow_sub_eq hw, FlagOp.SignsDecide, recoveredOF]
    cases a.msb <;> cases b.msb <;> cases (a - b).msb <;> decide

variable {fs : FlagState} {ids : ℕ → ℕ} {e : Emission} {m : Machine}

/-- The materialised condition is the x86 condition of the operation on `a` and `b`; after a
subtraction it is in particular the comparison of `a` and `b` that the request stands for. -/
def MeetsX86 (fs : FlagState) (ids : ℕ → ℕ) (request : FlagRequest) (e : Emission) (m : Machine)
    (a b : BitVec fs.ty.width) : Prop :=
  fs.condition ids request e m =
      (fs.op.x86Flags a b).map (fun f => BitVec.ofBool (f.cond request)) ∧
    (fs.op = .sub → ∀ g, request.comparison = some g →
      fs.condition ids request e m = some (BitVec.ofBool (g a b)))

/-- A materialised condition is right exactly when the recovered flags and those of the
architecture answer the request alike. -/
lemma meetsX86_iff (hvalid : fs.valid = true) (hint : fs.ty.isInteger = true)
    (hfresh : fs.FreshIds ids) {request : FlagRequest} (hopen : e.block.isTerminated = false)
    {a b r : BitVec fs.ty.width} (hm : fs.Holds m r a) {f : X86Flags}
    (hf : fs.op.x86Flags a b = some f) :
    fs.MeetsX86 ids request e m a b ↔
      (recoveredFlags fs.op r a).cond request = f.cond request := by
  have hcond := condition_eq hvalid hfresh request hopen hm
  have hofBool : ∀ x y, BitVec.ofBool x = BitVec.ofBool y ↔ x = y := by decide
  rw [MeetsX86, hcond, hf, Option.map_some, Option.some_inj, hofBool]
  refine ⟨And.left, fun h => ⟨h, fun hsub g hg => ?_⟩⟩
  rw [h]
  rw [hsub] at hf
  cases hf
  rw [X86Flags.cond_arithmeticFlags_sub (IRType.width_pos hint) a b hg]

/-! ## One comparison, for the instances below -/

/-- The record of `cmp eax, ebx`: result, left and right operand in temporaries. -/
def cmpRecord : FlagState :=
  FlagState.set {} .sub (.makeVReg 22 .i32) (.makeVReg 20 .i32) (.makeVReg 21 .i32) .i32

/-- An empty block. -/
def emptyEmission : Emission := ⟨{ name := "b" }, 0⟩

/-- A machine in which `1 - 2` has been computed. -/
def oneMinusTwo : Machine where
  regs := fun id => if id = 20 then 1 else if id = 21 then 2 else if id = 22 then 0xffffffff else 0
  mem := fun _ => 0
  symbols := fun _ => 0

lemma cmpRecord_freshIds : cmpRecord.FreshIds (23 + ·) where
  injective _ _ h := by simpa using h
  result j := by simp [cmpRecord, FlagState.set]; omega
  lhs j := by simp [cmpRecord, FlagState.set]; omega

lemma cmpRecord_holds : cmpRecord.Holds oneMinusTwo (1 - 2) 1 :=
  ⟨rfl, rfl, by decide, by decide⟩

/-! ## The conditions -/

/-- Every condition on flags that the result and the left operand determine is materialised
correctly, at every width. -/
theorem meetsX86_of_covered (hvalid : fs.valid = true) (hint : fs.ty.isInteger = true)
    (hfresh : fs.FreshIds ids) (hopen : e.block.isTerminated = false)
    {a b r : BitVec fs.ty.width} (hm : fs.Holds m r a) (hr : fs.op.result a b = some r)
    {request : FlagRequest} (hcovered : fs.op.covered request = true) :
    fs.MeetsX86 ids request e m a b := by
  obtain ⟨f, hf, hzf, hsf⟩ := exists_x86Flags hr
  rw [meetsX86_iff hvalid hint hfresh hopen hm hf]
  refine (X86Flags.cond_eq_iff request hzf.symm hsf.symm).mpr
    (Or.inl ⟨fun hreads => ?_, fun hreads => ?_⟩)
  · refine recoveredCF_eq hr (fun h => ?_) (fun h => ?_) hf <;>
      simp [h, FlagOp.covered, hreads] at hcovered
  · refine recoveredOF_eq (IRType.width_pos hint) hr (fun h => ?_) (fun h => ?_) hf <;>
      simp [h, FlagOp.covered, hreads] at hcovered

/-- `cmp 1, 2` then `jb`. -/
theorem meetsX86_of_covered_cmp : cmpRecord.MeetsX86 (23 + ·) .cf emptyEmission oneMinusTwo 1 2 :=
  meetsX86_of_covered rfl rfl cmpRecord_freshIds rfl cmpRecord_holds rfl rfl

/-- After an addition or subtraction a condition that reads the overflow flag is materialised
correctly exactly when the signs of the operands decide the overflow, or the request also reads
the zero flag and the result is zero. -/
theorem meetsX86_overflow_iff (hvalid : fs.valid = true) (hint : fs.ty.isInteger = true)
    (hfresh : fs.FreshIds ids) (hopen : e.block.isTerminated = false)
    {a b r : BitVec fs.ty.width} (hm : fs.Holds m r a) (hr : fs.op.result a b = some r)
    (hop : fs.op = .add ∨ fs.op = .sub) {request : FlagRequest}
    (hreads : request.readsOF = true) :
    fs.MeetsX86 ids request e m a b ↔
      fs.op.SignsDecide a b r ∨ (request.readsZF = true ∧ r = 0) := by
  obtain ⟨f, hf, hzf, hsf⟩ := exists_x86Flags hr
  have hcf : request.readsCF = false := FlagRequest.readsCF_eq_false_of_readsOF hreads
  have hzero : (recoveredFlags fs.op r a).zf = true ↔ r = 0 := by simp [recoveredFlags]
  rw [meetsX86_iff hvalid hint hfresh hopen hm hf, X86Flags.cond_eq_iff request hzf.symm hsf.symm,
    hzero, ← recoveredOF_eq_iff (IRType.width_pos hint) hr hop hf]
  simp [hcf, hreads, recoveredFlags]

/-- `cmp 1, 2` then `jl`. -/
theorem meetsX86_overflow_iff_cmp :
    cmpRecord.MeetsX86 (23 + ·) .sfXorOf emptyEmission oneMinusTwo 1 2 ↔
      FlagOp.SignsDecide .sub (1 : BitVec 32) 2 (1 - 2) ∨
        (FlagRequest.readsZF .sfXorOf = true ∧ (1 - 2 : BitVec 32) = 0) :=
  meetsX86_overflow_iff rfl rfl cmpRecord_freshIds rfl cmpRecord_holds rfl (Or.inr rfl) rfl

/-- `cmp 1, 2` then `jl` falls through: the condition is materialised as false, although one is
less than two. -/
theorem jl_after_cmp_one_two :
    cmpRecord.FreshIds (23 + ·) ∧ cmpRecord.Holds oneMinusTwo (1 - 2) 1 ∧
      cmpRecord.condition (23 + ·) .sfXorOf emptyEmission oneMinusTwo = some 0 ∧
      (1 : BitVec 32).slt 2 = true ∧
      ¬ cmpRecord.MeetsX86 (23 + ·) .sfXorOf emptyEmission oneMinusTwo 1 2 :=
  ⟨cmpRecord_freshIds, cmpRecord_holds, by decide, by decide, fun h => absurd h.1 (by decide)⟩

end FlagState

end InstaX
