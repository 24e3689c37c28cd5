import InstaX.Flags.Materialise
import InstaX.Foundation.FixedWidth
import InstaX.Lifter.Arithmetic

/-!
# Flags computed at once

`FunctionLifter::emitFlagsForArith` (`src/backend/x86/X86Lifter.cpp`) computes the four status flags
of an addition or subtraction right after it, into the registers that are reserved for them.  The
lazy path records the operation and recovers a flag when it is asked for.

Both recover a flag from the result and the left operand alone.  They compare alike for the zero,
the sign and the carry flag (`eagerFlags`).  For the overflow flag the lazy path compares the result
with zero and this one compares it with the left operand, so that the two disagree where the result
is closer to zero than the left operand, on the same side (`emitFlagsForArith_agrees_iff`).
-/

namespace InstaX

open Throwing StraightLine FixedWidth

/-- The flags that have a register of their own. -/
inductive StatusFlag where
  | cf | zf | sf | of
  deriving DecidableEq, Repr

namespace StatusFlag

/-- The register of a flag. -/
def vreg : StatusFlag → ℕ
  | .cf => FlagsVReg.CF
  | .zf => FlagsVReg.ZF
  | .sf => FlagsVReg.SF
  | .of => FlagsVReg.OF

/-- The request that asks for a flag. -/
def request : StatusFlag → FlagRequest
  | .cf => .cf
  | .zf => .zf
  | .sf => .sf
  | .of => .of

/-- The registers of the flags. -/
def vregs : Set ℕ := Set.range vreg

/-- The four flags have registers of their own. -/
lemma vreg_injective : Function.Injective vreg := by
  intro f g h
  cases f <;> cases g <;> first | rfl | exact absurd h (by decide)

/-- The registers of the flags lie below the temporaries. -/
lemma vreg_lt (f : StatusFlag) : f.vreg < 20 := by
  cases f <;> decide

end StatusFlag

namespace FunctionLifter

/-! ## The code -/

/-- Compare, and move the outcome into the register of a flag. -/
def emitFlag (flag : VReg) (cond : IcmpCond) (name : String) (x y : IRValue) : LiftM Unit := do
  let cmp ← defineTemp .i1 fun id => .makeIcmp cond ⟨id, name⟩ x y
  pushInst (.makeMov flag .i1 cmp)

/-- The overflow flag: the left operand is non-negative and the result lies below it, or it is
negative and the result lies above it. -/
def emitOverflow (result lhs : IRValue) (ty : IRType) : LiftM Unit := do
  let lhsNn ← defineTemp .i1 fun id => .makeIcmp .sge ⟨id, "lhs_nn"⟩ lhs (.makeImm 0 ty)
  let lhsNeg ← defineTemp .i1 fun id => .makeIcmp .slt ⟨id, "lhs_neg"⟩ lhs (.makeImm 0 ty)
  let rLtL ← defineTemp .i1 fun id => .makeIcmp .slt ⟨id, "r_lt_l"⟩ result lhs
  let rGtL ← defineTemp .i1 fun id => .makeIcmp .sgt ⟨id, "r_gt_l"⟩ result lhs
  let posOv ← defineTemp .i1 fun id => .makeBinop .and ⟨id, "pos_ov"⟩ .i1 lhsNn rLtL
  let negOv ← defineTemp .i1 fun id => .makeBinop .and ⟨id, "neg_ov"⟩ .i1 lhsNeg rGtL
  let of ← defineTemp .i1 fun id => .makeBinop .or ⟨id, "of_cmp"⟩ .i1 posOv negOv
  pushInst (.makeMov ⟨FlagsVReg.OF, "of"⟩ .i1 of)

/-- Compute the four flags into their registers. -/
def emitFlagsForArith (result lhs : IRValue) (ty : IRType) (isSub : Bool) : LiftM Unit := do
  emitFlag ⟨FlagsVReg.ZF, "zf"⟩ .eq "zf_cmp" result (.makeImm 0 ty)
  emitFlag ⟨FlagsVReg.SF, "sf"⟩ .slt "sf_cmp" result (.makeImm 0 ty)
  emitFlag ⟨FlagsVReg.CF, "cf"⟩ (if isSub then .ugt else .ult) "cf_cmp" result lhs
  emitOverflow result lhs ty

/-! ## What the code computes -/

/-- The flags that are computed at once, from the result `r` and the left operand `a`. -/
def eagerFlags {w : ℕ} (isSub : Bool) (r a : BitVec w) : X86Flags where
  cf := if isSub then a.ult r else r.ult a
  zf := r == 0
  sf := r.msb
  of := !a.msb && r.slt a || a.msb && a.slt r

/-- An operand that flag code can read: it has the type of the operation, holds `x`, and names
neither a flag nor a temporary that is yet to be taken. -/
structure HoldsOperand (v : IRValue) {ty : IRType} (x : BitVec ty.width) (s : LiftState)
    (m : Machine) : Prop where
  type : v.type = ty
  value : m.eval ty v = x
  vregId : ∀ id, v.vregId? = some id → id < s.nextVregId ∧ id ∉ StatusFlag.vregs

/-- The register of the flag holds `b`, and beside it only later temporaries were written. -/
structure FlagPost (flag : StatusFlag) (b : Bool) (s : LiftState) (m : Machine) (s' : LiftState)
    (m' : Machine) : Prop where
  next_le : s.nextVregId ≤ s'.nextVregId
  same : m.SameBut ({flag.vreg} ∪ Set.Ico s.nextVregId s'.nextVregId) m'
  value : m'.eval .i1 (.makeVReg flag.vreg .i1) = BitVec.ofBool b

/-- A readable boolean. -/
abbrev BoolPost (s : LiftState) (m : Machine) (b : Bool) : IRValue → LiftState → Machine → Prop :=
  @ReadPost s m .i1 (BitVec.ofBool b)

variable {v : IRValue} {ty : IRType} {x : BitVec ty.width} {s s' s₀ s₁ : LiftState}
  {m m' m₀ m₁ : Machine} {flag : StatusFlag} {b : Bool}

/-- An operand keeps its value while flags and later temporaries are written. -/
lemma HoldsOperand.of_sameBut (h : HoldsOperand v x s m) (hnext : s.nextVregId ≤ s'.nextVregId)
    (hsame : m.SameBut (StatusFlag.vregs ∪ Set.Ico s.nextVregId s'.nextVregId) m') :
    HoldsOperand v x s' m' where
  type := h.type
  value := by
    rw [← h.value]
    refine hsame.eval_eq ty fun id hid => ?_
    obtain ⟨hlt, hflag⟩ := h.vregId id hid
    rintro (hmem | hmem)
    · exact hflag hmem
    · exact absurd hlt (not_lt.mpr hmem.1)
  vregId id hid := ⟨(h.vregId id hid).1.trans_le hnext, (h.vregId id hid).2⟩

/-- An operand keeps its value while a flag is written. -/
lemma HoldsOperand.of_flagPost (h : HoldsOperand v x s m) (hflag : FlagPost flag b s m s' m') :
    HoldsOperand v x s' m' := by
  refine h.of_sameBut hflag.next_le (hflag.same.mono (Set.union_subset_union_left _ ?_))
  exact Set.singleton_subset_iff.mpr ⟨flag, rfl⟩

/-- It keeps its value while a boolean is computed. -/
lemma HoldsOperand.of_boolPost {u : IRValue} (h : HoldsOperand v x s m)
    (hbool : BoolPost s m b u s' m') : HoldsOperand v x s' m' :=
  h.of_sameBut hbool.next_le (hbool.same.mono Set.subset_union_right)

/-- A flag keeps its value while another one is computed. -/
lemma FlagPost.eval_of_ne (h : FlagPost flag b s m s' m') (hnext : 20 ≤ s.nextVregId)
    {other : StatusFlag} (hne : other ≠ flag) :
    m'.eval .i1 (.makeVReg other.vreg .i1) = m.eval .i1 (.makeVReg other.vreg .i1) := by
  refine h.same.eval_eq .i1 fun id hid => ?_
  obtain rfl : other.vreg = id := by simpa using hid
  rintro (hflag | hmem)
  · exact hne (StatusFlag.vreg_injective hflag)
  · exact absurd (other.vreg_lt.trans_le hnext) (not_lt.mpr hmem.1)

/-! ## One flag -/

/-- A comparison into a fresh temporary. -/
lemma executesTo_icmp {cond : IcmpCond} {name : String} {y : IRValue} (hs : s.Open)
    (hb : cond.holds (m.eval v.type v) (m.eval v.type y) = b) :
    ExecutesTo (defineTemp .i1 fun id => .makeIcmp cond ⟨id, name⟩ v y) s m (BoolPost s m b) :=
  executesTo_defineTemp hs rfl (by rw [IRInst.step_makeIcmp, hb])

/-- An operand compared with zero. -/
lemma executesTo_icmp_zero {cond : IcmpCond} {name : String} (hs : s.Open)
    (hv : HoldsOperand v x s m) (hb : cond.holds x 0 = b) :
    ExecutesTo (defineTemp .i1 fun id => .makeIcmp cond ⟨id, name⟩ v (.makeImm 0 ty)) s m
      (BoolPost s m b) := by
  refine executesTo_icmp hs ?_
  rw [hv.type, hv.value, Machine.eval_makeImm, ← hb]
  simp

/-- Two operands compared. -/
lemma executesTo_icmp_operands {cond : IcmpCond} {name : String} {y : IRValue}
    {x' : BitVec ty.width} (hs : s.Open) (hv : HoldsOperand v x s m) (hy : HoldsOperand y x' s m)
    (hb : cond.holds x x' = b) :
    ExecutesTo (defineTemp .i1 fun id => .makeIcmp cond ⟨id, name⟩ v y) s m (BoolPost s m b) := by
  refine executesTo_icmp hs ?_
  rw [hv.type, hv.value, hy.value, hb]

/-- `AND` of one bit is conjunction. -/
lemma binop_and_ofBool (p q : Bool) :
    Opcode.and.binop (BitVec.ofBool p) (BitVec.ofBool q) = some (BitVec.ofBool (p && q)) := by
  cases p <;> cases q <;> rfl

/-- `OR` of one bit is disjunction. -/
lemma binop_or_ofBool (p q : Bool) :
    Opcode.or.binop (BitVec.ofBool p) (BitVec.ofBool q) = some (BitVec.ofBool (p || q)) := by
  cases p <;> cases q <;> rfl

/-- A boolean operation on two readable operands. -/
lemma executesTo_bool {op : Opcode} {name : String} {y : IRValue} {bx cy : Bool} (hs : s.Open)
    (hv : BoolPost s₀ m₀ bx v s m) (hy : BoolPost s₁ m₁ cy y s m)
    (hop : op.binop (BitVec.ofBool bx) (BitVec.ofBool cy) = some (BitVec.ofBool b))
    (hterm : ∀ id, (IRInst.makeBinop op ⟨id, name⟩ .i1 v y).isTerminator = false) :
    ExecutesTo (defineTemp .i1 fun id => .makeBinop op ⟨id, name⟩ .i1 v y) s m
      (BoolPost s m b) := by
  refine executesTo_defineTemp hs (hterm _) ?_
  rw [IRInst.step_makeBinop, hv.value, hy.value, hop]
  rfl

/-- A readable boolean, moved into the register of a flag. -/
lemma executesTo_moveFlag (flag : StatusFlag) {name : String} (hs : s.Open)
    (hv : BoolPost s₀ m₀ b v s m) :
    ExecutesTo (pushInst (.makeMov ⟨flag.vreg, name⟩ .i1 v)) s m fun _ =>
      FlagPost flag b s₀ m₀ := by
  refine ExecutesTo.pushInst hs rfl (IRInst.step_makeMov _ _ _ _) ⟨?_, ?_, ?_⟩
  · simpa using hv.next_le
  · refine (hv.same.mono ?_).trans (Machine.SameBut.set (by simp) m _)
    simp
  · rw [Machine.eval_makeVReg, Machine.setWidth_set_self _ _ _ (by decide), hv.value]

/-- An operand compared with zero, into the register of a flag. -/
lemma executesTo_emitFlag_zero (flag : StatusFlag) {cond : IcmpCond} {name flagName : String}
    (hs : s.Open)
    (hv : HoldsOperand v x s m) (hb : cond.holds x 0 = b) :
    ExecutesTo (emitFlag ⟨flag.vreg, flagName⟩ cond name v (.makeImm 0 ty)) s m fun _ =>
      FlagPost flag b s m := by
  refine ExecutesTo.bind hs (executesTo_icmp_zero hs hv hb) fun cmp s₁ m₁ hs₁ hcmp => ?_
  exact executesTo_moveFlag flag hs₁ hcmp

/-- Two operands compared, into the register of a flag. -/
lemma executesTo_emitFlag_operands (flag : StatusFlag) {cond : IcmpCond} {name flagName : String}
    {y : IRValue}
    {x' : BitVec ty.width} (hs : s.Open) (hv : HoldsOperand v x s m) (hy : HoldsOperand y x' s m)
    (hb : cond.holds x x' = b) :
    ExecutesTo (emitFlag ⟨flag.vreg, flagName⟩ cond name v y) s m fun _ => FlagPost flag b s m := by
  refine ExecutesTo.bind hs (executesTo_icmp_operands hs hv hy hb) fun cmp s₁ m₁ hs₁ hcmp => ?_
  exact executesTo_moveFlag flag hs₁ hcmp

/-! ## All flags -/

variable {result lhs : IRValue} {r a : BitVec ty.width}

/-- The overflow flag. -/
lemma executesTo_emitOverflow (isSub : Bool) (hs : s.Open) (hr : HoldsOperand result r s m)
    (ha : HoldsOperand lhs a s m) :
    ExecutesTo (emitOverflow result lhs ty) s m fun _ =>
      FlagPost .of (eagerFlags isSub r a).of s m := by
  have hnn : IcmpCond.sge.holds a 0 = !a.msb := zero_sle_eq_not_msb a
  have hneg : IcmpCond.slt.holds a 0 = a.msb := slt_zero_eq_msb a
  refine ExecutesTo.bind hs (executesTo_icmp_zero hs ha hnn) fun lhsNn s₁ m₁ hs₁ h₁ => ?_
  have hr₁ := hr.of_boolPost h₁
  have ha₁ := ha.of_boolPost h₁
  refine ExecutesTo.bind hs₁ (executesTo_icmp_zero hs₁ ha₁ hneg) fun lhsNeg s₂ m₂ hs₂ h₂ => ?_
  have hr₂ := hr₁.of_boolPost h₂
  have ha₂ := ha₁.of_boolPost h₂
  refine ExecutesTo.bind hs₂ (executesTo_icmp_operands hs₂ hr₂ ha₂ rfl) fun rLtL s₃ m₃ hs₃ h₃ => ?_
  have hr₃ := hr₂.of_boolPost h₃
  have ha₃ := ha₂.of_boolPost h₃
  refine ExecutesTo.bind hs₃ (executesTo_icmp_operands hs₃ hr₃ ha₃ rfl) fun rGtL s₄ m₄ hs₄ h₄ => ?_
  -- the four comparisons are still readable
  have h₁₂ := h₁.extend h₂.next_le h₂.same
  have h₁₃ := h₁₂.extend h₃.next_le h₃.same
  have h₁₄ := h₁₃.extend h₄.next_le h₄.same
  have h₂₃ := h₂.extend h₃.next_le h₃.same
  have h₂₄ := h₂₃.extend h₄.next_le h₄.same
  have h₃₄ := h₃.extend h₄.next_le h₄.same
  refine ExecutesTo.bind hs₄ (executesTo_bool hs₄ h₁₄ h₃₄ (binop_and_ofBool _ _) fun _ => rfl) ?_
  intro posOv s₅ m₅ hs₅ h₅
  have h₂₅ := h₂₄.extend h₅.next_le h₅.same
  have h₄₅ := h₄.extend h₅.next_le h₅.same
  refine ExecutesTo.bind hs₅ (executesTo_bool hs₅ h₂₅ h₄₅ (binop_and_ofBool _ _) fun _ => rfl) ?_
  intro negOv s₆ m₆ hs₆ h₆
  have h₅₆ := h₅.extend h₆.next_le h₆.same
  refine ExecutesTo.bind hs₆ (executesTo_bool hs₆ h₅₆ h₆ (binop_or_ofBool _ _) fun _ => rfl) ?_
  intro of s₇ m₇ hs₇ h₇
  have h₁₅ := h₁₄.extend h₅.next_le h₅.same
  have h₁₆ := h₁₅.extend h₆.next_le h₆.same
  exact executesTo_moveFlag .of hs₇ (h₇.of_le h₁₆.next_le h₁₆.same)

/-- The code leaves the flags in their registers. -/
lemma executesTo_emitFlagsForArith (isSub : Bool) (hs : s.Open) (hnext : 20 ≤ s.nextVregId)
    (hr : HoldsOperand result r s m) (ha : HoldsOperand lhs a s m) :
    ExecutesTo (emitFlagsForArith result lhs ty isSub) s m fun _ _ m' => ∀ flag : StatusFlag,
      m'.eval .i1 (.makeVReg flag.vreg .i1) =
        BitVec.ofBool ((eagerFlags isSub r a).cond flag.request) := by
  have hsf : IcmpCond.slt.holds r 0 = r.msb := slt_zero_eq_msb r
  have hcf : (if isSub then IcmpCond.ugt else .ult).holds r a = (eagerFlags isSub r a).cf := by
    cases isSub <;> rfl
  refine ExecutesTo.bind hs (executesTo_emitFlag_zero .zf hs hr rfl) fun _ s₁ m₁ hs₁ hz => ?_
  have hr₁ := hr.of_flagPost hz
  have ha₁ := ha.of_flagPost hz
  have hnext₁ := hnext.trans hz.next_le
  refine ExecutesTo.bind hs₁ (executesTo_emitFlag_zero .sf hs₁ hr₁ hsf) ?_
  intro _ s₂ m₂ hs₂ hsign
  have hr₂ := hr₁.of_flagPost hsign
  have ha₂ := ha₁.of_flagPost hsign
  have hnext₂ := hnext₁.trans hsign.next_le
  refine ExecutesTo.bind hs₂ (executesTo_emitFlag_operands .cf hs₂ hr₂ ha₂ hcf) ?_
  intro _ s₃ m₃ hs₃ hcarry
  have hr₃ := hr₂.of_flagPost hcarry
  have ha₃ := ha₂.of_flagPost hcarry
  have hnext₃ := hnext₂.trans hcarry.next_le
  refine (executesTo_emitOverflow isSub hs₃ hr₃ ha₃).mono fun _ s₄ m₄ hover flag => ?_
  cases flag with
  | of => exact hover.value
  | cf => exact (hover.eval_of_ne hnext₃ (by decide)).trans hcarry.value
  | sf =>
    exact (hover.eval_of_ne hnext₃ (by decide)).trans
      ((hcarry.eval_of_ne hnext₂ (by decide)).trans hsign.value)
  | zf =>
    exact (hover.eval_of_ne hnext₃ (by decide)).trans
      ((hcarry.eval_of_ne hnext₂ (by decide)).trans
        ((hsign.eval_of_ne hnext₁ (by decide)).trans hz.value))

/-! ## Both paths -/

/-- The exact result of an operation on signed operands. -/
def exactResult (isSub : Bool) (a b : ℤ) : ℤ := if isSub then a - b else a + b

/-- The record of an addition or subtraction. -/
def arithRecord (result lhs rhs : IRValue) (ty : IRType) (isSub : Bool) : FlagState :=
  FlagState.set {} (if isSub then .sub else .add) result lhs rhs ty

/-- The flags computed at once are those recovered from the record, but for the overflow flag. -/
lemma recoveredFlags_eq_eagerFlags_iff {w : ℕ} (isSub : Bool) {a b r : BitVec w}
    (hr : r = if isSub then a - b else a + b) :
    (∀ flag : StatusFlag,
      (FlagState.recoveredFlags (if isSub then .sub else .add) r a).cond flag.request =
        (eagerFlags isSub r a).cond flag.request) ↔
      ¬ MovesInward a.toInt (exactResult isSub a.toInt b.toInt) := by
  have hlo := BitVec.le_two_mul_toInt (x := b)
  have hhi := BitVec.two_mul_toInt_lt (x := b)
  have hof : (FlagState.recoveredOF (if isSub then .sub else .add) r a =
    (eagerFlags isSub r a).of) ↔
      ¬ MovesInward a.toInt (exactResult isSub a.toInt b.toInt) := by
    cases isSub with
    | false =>
      refine overflow_tests_eq_iff ?_ (by simp [exactResult]; omega) (by simp [exactResult]; omega)
      rw [hr]
      exact BitVec.toInt_add a b
    | true =>
      refine overflow_tests_eq_iff ?_ (by simp [exactResult]; omega) (by simp [exactResult]; omega)
      rw [hr]
      exact BitVec.toInt_sub
  rw [← hof]
  refine ⟨fun h => h .of, fun h flag => ?_⟩
  cases flag with
  | of => exact h
  | zf | sf => rfl
  | cf => cases isSub <;> rfl

variable {ids : ℕ → ℕ} {e : Emission} {rhs : IRValue} {b : BitVec ty.width}

/-- The flags that the code leaves in their registers are those that the record gives when it is
asked for them, exactly if the exact signed result is not closer to zero than the left operand, on
its side of zero. -/
theorem emitFlagsForArith_agrees_iff (isSub : Bool) (hs : s.Open) (hnext : 20 ≤ s.nextVregId)
    (hr : HoldsOperand result (if isSub then a - b else a + b) s m) (ha : HoldsOperand lhs a s m)
    (hopen : e.block.isTerminated = false)
    (hfresh : (arithRecord result lhs rhs ty isSub).FreshIds ids) :
    ExecutesTo (emitFlagsForArith result lhs ty isSub) s m (fun _ _ m' => ∀ flag : StatusFlag,
      (arithRecord result lhs rhs ty isSub).condition ids flag.request e m =
        some (m'.eval .i1 (.makeVReg flag.vreg .i1))) ↔
      ¬ MovesInward a.toInt (exactResult isSub a.toInt b.toInt) := by
  have heager := executesTo_emitFlagsForArith isSub hs hnext hr ha
  have hholds : (arithRecord result lhs rhs ty isSub).Holds m (if isSub then a - b else a + b) a :=
    ⟨hr.type, ha.type, hr.value, ha.value⟩
  have hlazy : ∀ request, (arithRecord result lhs rhs ty isSub).condition ids request e m = some
      (BitVec.ofBool ((FlagState.recoveredFlags (if isSub then .sub else .add)
        (if isSub then a - b else a + b) a).cond request)) := fun request =>
    FlagState.condition_eq rfl hfresh request hopen hholds
  have hofBool : ∀ p q, BitVec.ofBool p = BitVec.ofBool q ↔ p = q := by decide
  rw [← recoveredFlags_eq_eagerFlags_iff isSub rfl]
  constructor
  · intro h flag
    obtain ⟨_, _, m', hagree, hvalue⟩ := h.and heager
    have hflag := hagree flag
    rw [hlazy, hvalue, Option.some_inj, hofBool] at hflag
    exact hflag
  · intro h
    refine heager.mono fun _ _ m' hvalue flag => ?_
    rw [hlazy, hvalue, h flag]

/-- A machine in which `a - b` was computed from the first two temporaries into the third. -/
def afterSub (a b : BitVec 32) : Machine where
  regs := fun id =>
    if id = 20 then a.setWidth 64 else if id = 21 then b.setWidth 64
    else if id = 22 then (a - b).setWidth 64 else 0
  mem := fun _ => 0
  symbols := fun _ => 0

/-- A state in which three temporaries were taken. -/
def threeTaken : LiftState := { emptyBlock with nextVregId := 23 }

/-- The flags of `a - b` computed at once are those recovered from its record. -/
def AgreesAfterSub (a b : BitVec 32) : Prop :=
  ExecutesTo (emitFlagsForArith (.makeVReg 22 .i32) (.makeVReg 20 .i32) .i32 true) threeTaken
    (afterSub a b) fun _ _ m' => ∀ flag : StatusFlag,
      (arithRecord (.makeVReg 22 .i32) (.makeVReg 20 .i32) (.makeVReg 21 .i32) .i32 true).condition
        (23 + ·) flag.request ⟨{ name := "b" }, 0⟩ (afterSub a b) =
          some (m'.eval .i1 (.makeVReg flag.vreg .i1))

/-- An operand whose id is one of the three taken is held. -/
lemma holdsOperand_threeTaken {m : Machine} {x : BitVec 32} (id : ℕ) (hid : 20 ≤ id ∧ id < 23)
    (hx : m.eval .i32 (.makeVReg id .i32) = x) :
    @HoldsOperand (.makeVReg id .i32) .i32 x threeTaken m := by
  refine ⟨rfl, hx, fun id' hid' => ?_⟩
  obtain rfl : id = id' := by simpa using hid'
  refine ⟨hid.2, ?_⟩
  rintro ⟨flag, hflag⟩
  have := flag.vreg_lt
  omega

/-- The result of the subtraction is held. -/
lemma holdsOperand_result (a b : BitVec 32) :
    @HoldsOperand (.makeVReg 22 .i32) .i32 (a - b) threeTaken (afterSub a b) :=
  holdsOperand_threeTaken 22 (by decide) (by simp [afterSub])

/-- Its left operand is held. -/
lemma holdsOperand_lhs (a b : BitVec 32) :
    @HoldsOperand (.makeVReg 20 .i32) .i32 a threeTaken (afterSub a b) :=
  holdsOperand_threeTaken 20 (by decide) (by simp [afterSub])

/-- The ids behind the subtraction are fresh. -/
lemma freshIds_afterSub :
    (arithRecord (.makeVReg 22 .i32) (.makeVReg 20 .i32) (.makeVReg 21 .i32) .i32 true).FreshIds
      (23 + ·) where
  injective _ _ h := by simpa using h
  result j := by simp [arithRecord, FlagState.set]; omega
  lhs j := by simp [arithRecord, FlagState.set]; omega

/-- `1 - 2` crosses zero: both paths say overflow. -/
theorem emitFlagsForArith_agrees_iff_oneSubTwo :
    AgreesAfterSub 1 2 ↔ ¬ MovesInward (1 : BitVec 32).toInt
      (exactResult true (1 : BitVec 32).toInt (2 : BitVec 32).toInt) :=
  emitFlagsForArith_agrees_iff true rfl (by decide) (holdsOperand_result 1 2)
    (holdsOperand_lhs 1 2) rfl freshIds_afterSub

/-- `2 - 1`: the result lies below the left operand, and the code takes this for an overflow. -/
theorem emitFlagsForArith_twoSubOne :
    @HoldsOperand (.makeVReg 22 .i32) .i32 (2 - 1) threeTaken (afterSub 2 1) ∧
      @HoldsOperand (.makeVReg 20 .i32) .i32 2 threeTaken (afterSub 2 1) ∧
      ¬ AgreesAfterSub 2 1 := by
  refine ⟨holdsOperand_result 2 1, holdsOperand_lhs 2 1, fun h => ?_⟩
  obtain ⟨_, _, m', hagree, hvalue⟩ := h.and (executesTo_emitFlagsForArith true rfl (by decide)
    (holdsOperand_result 2 1) (holdsOperand_lhs 2 1))
  have hof := hagree .of
  rw [hvalue .of] at hof
  exact absurd hof (by decide)

end FunctionLifter

end InstaX
