import InstaX.Flags.Condition

/-!
# The carry flag across increments

On the processor `INC` and `DEC` leave the carry flag as it was, so that a condition on it after a
run of increments is about the last instruction before them.  `FlagState::set`
(`src/ir/Flagstate.cpp`) overwrites the whole record, and `FlagState::emitCF` answers a request for
the carry flag of an increment with the constant zero.

The flags of the processor are a second run over the same instructions (`flagsAfter`).  The
conditions on the carry flag that are materialised after the increments are those of the processor
exactly if the last instruction before them left the carry flag clear (`carryKept_iff`).
-/

namespace InstaX

open FixedWidth

namespace FlagOp

/-- The operations that define the carry flag from their operands (`cmp` records a subtraction and
`test` a conjunction). -/
def definesCF : FlagOp → Bool
  | .add | .sub | .and | .or | .xor => true
  | .inc | .dec | .shl | .shr | .sar | .imul => false

/-- The operations that leave the carry flag of the processor as it is. -/
def keepsCF : FlagOp → Bool
  | .inc | .dec => true
  | _ => false

end FlagOp

namespace FlagState

/-- An instruction that was recorded, with the values of its operands. -/
structure Recording where
  op : FlagOp
  ty : IRType
  result : IRValue
  lhs : IRValue
  rhs : IRValue
  a : BitVec ty.width
  b : BitVec ty.width

namespace Recording

/-- The record of the instruction. -/
def record (fs : FlagState) (i : Recording) : FlagState := fs.set i.op i.result i.lhs i.rhs i.ty

/-- The flags of the processor after the instruction. -/
def exec (f : X86Flags) (i : Recording) : X86Flags :=
  match i.op.x86Flags i.a i.b with
  | some g => if i.op.keepsCF then { g with cf := f.cf } else g
  | none => f

/-- The captured operands hold the values of the instruction. -/
structure HeldIn (i : Recording) (m : Machine) : Prop where
  result_type : i.result.type = i.ty
  lhs_type : i.lhs.type = i.ty
  lhs : m.eval i.ty i.lhs = i.a
  result : i.op.result i.a i.b = some (m.eval i.ty i.result)

/-- The unsigned sum is out of range, or the unsigned difference borrows. -/
def Carries (i : Recording) : Prop :=
  match i.op with
  | .add => 2 ^ i.ty.width ≤ i.a.toNat + i.b.toNat
  | .sub => i.a.toNat < i.b.toNat
  | _ => False

end Recording

open Recording

/-- The record after a run of instructions. -/
def recordAll (fs : FlagState) (is : List Recording) : FlagState := is.foldl record fs

/-- The flags of the processor after a run of instructions. -/
def flagsAfter (f : X86Flags) (is : List Recording) : X86Flags := is.foldl exec f

/-! ## The processor -/

variable {f : X86Flags} {i : Recording}

/-- An increment or decrement leaves the carry flag of the processor alone. -/
lemma cf_exec_of_keepsCF (hi : i.op.keepsCF = true) : (exec f i).cf = f.cf := by
  unfold exec
  split
  · rw [if_pos hi]
  · rfl

/-- Increments keep the carry flag. -/
lemma cf_flagsAfter {is : List Recording} (his : ∀ i ∈ is, i.op.keepsCF = true) :
    (flagsAfter f is).cf = f.cf := by
  unfold flagsAfter
  induction is generalizing f with
  | nil => rfl
  | cons i is ih =>
    rw [List.forall_mem_cons] at his
    rw [List.foldl_cons, ih his.2, cf_exec_of_keepsCF his.1]

/-- An instruction that defines the carry flag sets it when it carries. -/
lemma cf_exec_eq_false_iff (hi : i.op.definesCF = true) :
    (exec f i).cf = false ↔ ¬ i.Carries := by
  obtain ⟨op, ty, result, lhs, rhs, a, b⟩ := i
  cases op with
  | add =>
    have hcf : (exec f ⟨.add, ty, result, lhs, rhs, a, b⟩).cf =
        decide (2 ^ ty.width ≤ a.toNat + b.toNat) := unsignedOverflow_add_eq a b
    rw [hcf, decide_eq_false_iff_not, Carries]
  | sub =>
    have hcf : (exec f ⟨.sub, ty, result, lhs, rhs, a, b⟩).cf = a.ult b :=
      unsignedOverflow_sub_eq_ult a b
    rw [hcf, BitVec.ult_eq_decide, decide_eq_false_iff_not, Carries]
  | and | or | xor => exact iff_of_true rfl id
  | inc | dec | shl | shr | sar | imul => cases hi

/-- The zero and sign flag are those of the result. -/
lemma exec_of_result {r : BitVec i.ty.width} (hr : i.op.result i.a i.b = some r) :
    (exec f i).zf = (r == 0) ∧ (exec f i).sf = r.msb := by
  obtain ⟨g, hg, hzf, hsf⟩ := exists_x86Flags hr
  rw [exec, hg]
  cases i.op.keepsCF <;> exact ⟨hzf, hsf⟩

/-! ## The record -/

variable {ids : ℕ → ℕ} {e : Emission} {m : Machine} {fs : FlagState}

lemma recordAll_append_singleton (is : List Recording) (i : Recording) :
    recordAll fs (is ++ [i]) = record (recordAll fs is) i := by
  unfold recordAll
  rw [List.foldl_append, List.foldl_cons, List.foldl_nil]

lemma flagsAfter_append_singleton (is : List Recording) (i : Recording) :
    flagsAfter f (is ++ [i]) = exec (flagsAfter f is) i := by
  unfold flagsAfter
  rw [List.foldl_append, List.foldl_cons, List.foldl_nil]

/-- A condition on the carry flag after an increment, against the flags of the processor. -/
lemma condition_record_eq_iff (hi : i.op.keepsCF = true) (hheld : i.HeldIn m)
    (hopen : e.block.isTerminated = false) (hfresh : (record fs i).FreshIds ids)
    (request : FlagRequest) (hreads : request.readsCF = true) :
    (record fs i).condition ids request e m = some (BitVec.ofBool ((exec f i).cond request)) ↔
      f.cf = false ∨ (request.readsZF = true ∧ (exec f i).zf = true) := by
  have hholds : (record fs i).Holds m (m.eval i.ty i.result) i.a :=
    ⟨hheld.result_type, hheld.lhs_type, rfl, hheld.lhs⟩
  obtain ⟨hzf, hsf⟩ := exec_of_result (f := f) hheld.result
  have hcf : recoveredCF i.op (m.eval i.ty i.result) i.a = false := by
    unfold recoveredCF
    cases hop : i.op <;> first | rfl | (rw [hop] at hi; cases hi)
  have hof : request.readsOF = true → False := fun h => by
    have := FlagRequest.readsCF_eq_false_of_readsOF h
    rw [hreads] at this
    cases this
  have hofBool : ∀ p q, BitVec.ofBool p = BitVec.ofBool q ↔ p = q := by decide
  rw [condition_eq rfl hfresh request hopen hholds, Option.some_inj, hofBool,
    eq_comm, X86Flags.cond_eq_iff request hzf hsf, cf_exec_of_keepsCF hi]
  have hrec : (recoveredFlags (record fs i).op (m.eval i.ty i.result) i.a).cf = false := hcf
  refine or_congr_left ⟨fun h => (h.1 hreads).trans hrec, fun h => ⟨fun _ => h.trans hrec.symm, ?_⟩⟩
  exact fun h => (hof h).elim

/-- After an instruction that defines the carry flag and any increments after it, the conditions on
the carry flag are those of the processor exactly if that instruction left the flag clear. -/
theorem carryKept_iff (f : X86Flags) {writer last : Recording} {incs : List Recording}
    (hwriter : writer.op.definesCF = true) (hincs : ∀ i ∈ incs, i.op.keepsCF = true)
    (hlast : last.op.keepsCF = true) (hheld : last.HeldIn m) (hopen : e.block.isTerminated = false)
    (hfresh : (recordAll fs (writer :: incs ++ [last])).FreshIds ids) :
    (∀ request : FlagRequest, request.readsCF = true →
      (recordAll fs (writer :: incs ++ [last])).condition ids request e m =
        some (BitVec.ofBool ((flagsAfter f (writer :: incs ++ [last])).cond request))) ↔
      ¬ writer.Carries := by
  have hkept : (flagsAfter f (writer :: incs)).cf = (exec f writer).cf := cf_flagsAfter hincs
  rw [recordAll_append_singleton] at hfresh
  rw [recordAll_append_singleton, flagsAfter_append_singleton,
    ← cf_exec_eq_false_iff hwriter, ← hkept]
  have hrequest := condition_record_eq_iff
    (f := flagsAfter f (writer :: incs)) hlast hheld hopen hfresh
  constructor
  · intro h
    rcases (hrequest .cf rfl).mp (h .cf rfl) with hclear | ⟨hzf, -⟩
    · exact hclear
    · cases hzf
  · exact fun h request hreads => (hrequest request hreads).mpr (Or.inl h)

/-- `1 - 2`, from constants. -/
def oneSubTwo : Recording where
  op := .sub
  ty := .i32
  result := .makeImm 0xffffffff .i32
  lhs := .makeImm 1 .i32
  rhs := .makeImm 2 .i32
  a := 1
  b := 2

/-- `1 + 1` as an increment, from constants. -/
def incOne : Recording where
  op := .inc
  ty := .i32
  result := .makeImm 2 .i32
  lhs := .makeImm 1 .i32
  rhs := .makeImm 1 .i32
  a := 1
  b := 1

lemma incOne_heldIn : incOne.HeldIn oneMinusTwo := ⟨rfl, rfl, rfl, by decide⟩

/-- The ids after the increment are fresh, whatever was recorded before it. -/
lemma incOne_freshIds {is : List Recording} :
    (recordAll {} (is ++ [incOne])).FreshIds (23 + ·) := by
  rw [recordAll_append_singleton]
  exact ⟨fun _ _ h => by simpa using h, by simp [record, incOne, set],
    by simp [record, incOne, set]⟩

/-- `1 - 2` and an increment. -/
theorem carryKept_iff_oneSubTwo :
    (∀ request : FlagRequest, request.readsCF = true →
      (recordAll {} ([oneSubTwo] ++ [incOne])).condition
        (23 + ·) request emptyEmission oneMinusTwo =
        some (BitVec.ofBool ((flagsAfter ⟨false, false, false, false⟩
          ([oneSubTwo] ++ [incOne])).cond request))) ↔ ¬ oneSubTwo.Carries :=
  carryKept_iff _ rfl (by simp) rfl incOne_heldIn rfl incOne_freshIds

/-- The borrow of `1 - 2` is lost in the increment after it: a jump on the carry flag is not
taken. -/
theorem carry_lost_after_increment :
    (flagsAfter ⟨false, false, false, false⟩ [oneSubTwo, incOne]).cond .cf = true ∧
      incOne.HeldIn oneMinusTwo ∧ (recordAll {} [oneSubTwo, incOne]).FreshIds (23 + ·) ∧
      (recordAll {} [oneSubTwo, incOne]).condition (23 + ·) .cf emptyEmission oneMinusTwo =
        some 0 :=
  ⟨by decide, incOne_heldIn, @incOne_freshIds [oneSubTwo], by decide⟩

end FlagState

end InstaX
