import Mathlib.Order.Interval.Set.Basic
import InstaX.Flags.FlagState
import InstaX.Foundation.FixedWidth
import InstaX.IR.Machine

/-!
# What materialised flags compute

`FlagState.condition` runs `FlagState.materialise`, executes the code it appended and reads the
returned `i1` value.  The main result, `condition_eq`, is its closed form: the flags recovered from
the recorded result and left operand alone (`recoveredFlags`), combined as the request asks.

The proof is a small calculus of boolean emitters.  `Computes` says of an emitter that it only
appends, that the code it appends always runs and keeps every register it did not allocate, and
that the value it returns holds a given truth value; the rules `computes_emitIcmp` and
`Computes.emitBool` follow the structure of `materialise`.
-/

namespace InstaX

open Throwing StraightLine FixedWidth

/-- The four status flags. -/
structure X86Flags where
  cf : Bool
  zf : Bool
  sf : Bool
  of : Bool
  deriving DecidableEq, Repr

/-- The x86 conditions, as functions of the status flags. -/
def X86Flags.cond (f : X86Flags) : FlagRequest → Bool
  | .zf => f.zf
  | .notZf => !f.zf
  | .sf => f.sf
  | .notSf => !f.sf
  | .cf => f.cf
  | .notCf => !f.cf
  | .of => f.of
  | .notOf => !f.of
  | .cfOrZf => f.cf || f.zf
  | .notCfAndNotZf => !f.cf && !f.zf
  | .sfXorOf => f.sf ^^ f.of
  | .notSfXorOf => !(f.sf ^^ f.of)
  | .zfOrSfXorOf => f.zf || (f.sf ^^ f.of)
  | .notZfAndNotSfXorOf => !f.zf && !(f.sf ^^ f.of)

namespace FlagState

/-- The carry flag as `emitCF` recovers it from the result `r` and the left operand `a`. -/
def recoveredCF {w : ℕ} (op : FlagOp) (r a : BitVec w) : Bool :=
  match op with
  | .add => r.ult a
  | .sub => a.ult r
  | _ => false

/-- The overflow flag as `emitOF` recovers it from the result `r` and the left operand `a`. -/
def recoveredOF {w : ℕ} (op : FlagOp) (r a : BitVec w) : Bool :=
  match op with
  | .add | .sub => !a.msb && r.msb || a.msb && !r.msb
  | .inc => !a.msb && r.msb
  | .dec => a.msb && !r.msb
  | _ => false

/-- The flags recovered from the result `r` and the left operand `a`. -/
def recoveredFlags {w : ℕ} (op : FlagOp) (r a : BitVec w) : X86Flags :=
  { cf := recoveredCF op r a, zf := r == 0, sf := r.msb, of := recoveredOF op r a }

/-- The value of a request: the code `materialise` appends to the block, run from `m`. -/
def condition (fs : FlagState) (ids : ℕ → ℕ) (request : FlagRequest) (e : Emission)
    (m : Machine) : Option (BitVec 1) :=
  match (fs.materialise ids request).run e with
  | .ok v e' =>
      (run IRInst.step (e'.block.instructions.drop e.block.instructions.length) m).map
        fun m' => m'.eval .i1 v
  | .error _ _ => none

/-- The ids an allocator hands out are pairwise distinct and none of them is the register of a
captured operand. -/
structure FreshIds (fs : FlagState) (ids : ℕ → ℕ) : Prop where
  injective : Function.Injective ids
  result : ∀ j, fs.result.vregId? ≠ some (ids j)
  lhs : ∀ j, fs.lhs.vregId? ≠ some (ids j)

/-- The captured operands have the recorded type, and in the machine `m` they hold the recorded
result `r` and left operand `a`. -/
structure Holds (fs : FlagState) (m : Machine) (r a : BitVec fs.ty.width) : Prop where
  result_type : fs.result.type = fs.ty
  lhs_type : fs.lhs.type = fs.ty
  result : m.eval fs.ty fs.result = r
  lhs : m.eval fs.ty fs.lhs = a

/-- The registers allocated between two counts. -/
def allocatedIds (ids : ℕ → ℕ) (k k' : ℕ) : Set ℕ := ids '' Set.Ico k k'

variable {fs : FlagState} {ids : ℕ → ℕ}

/-- Allocation between two counts includes allocation between closer ones. -/
lemma allocatedIds_mono {k k' j j' : ℕ} (hk : k ≤ j) (hk' : j' ≤ k') :
    allocatedIds ids j j' ⊆ allocatedIds ids k k' :=
  Set.image_mono (Set.Ico_subset_Ico hk hk')

/-- The captured operands survive the allocation of fresh registers. -/
lemma Holds.of_sameBut {m m' : Machine} {r a : BitVec fs.ty.width} (h : fs.Holds m r a)
    (hfresh : fs.FreshIds ids) {k k' : ℕ} (hsame : m.SameBut (allocatedIds ids k k') m') :
    fs.Holds m' r a where
  result_type := h.result_type
  lhs_type := h.lhs_type
  result := by
    rw [← h.result]
    refine hsame.eval_eq _ fun id hid => ?_
    rintro ⟨j, -, rfl⟩
    exact hfresh.result j hid
  lhs := by
    rw [← h.lhs]
    refine hsame.eval_eq _ fun id hid => ?_
    rintro ⟨j, -, rfl⟩
    exact hfresh.lhs j hid

/-- A boolean operand that later allocations do not disturb: it names no register, or one allocated
before the count `k`. -/
structure Settled (ids : ℕ → ℕ) (k : ℕ) (v : IRValue) : Prop where
  type : v.type = .i1
  allocated : ∀ id, v.vregId? = some id → ∃ j < k, id = ids j

/-- A settled operand keeps its value through later allocations. -/
lemma Settled.eval_eq {k k' k'' : ℕ} {v : IRValue} (hv : Settled ids k v)
    (hinj : Function.Injective ids) (hk : k ≤ k') {m m' : Machine}
    (hsame : m.SameBut (allocatedIds ids k' k'') m') : m'.eval .i1 v = m.eval .i1 v := by
  refine hsame.eval_eq _ fun id hid => ?_
  obtain ⟨i, hi, rfl⟩ := hv.allocated id hid
  rintro ⟨j, ⟨hj, -⟩, hij⟩
  have : j = i := hinj hij
  omega

/-- The emitter appends code that runs wherever the captured operands hold `r` and `a`, changes
only the registers it allocates, and returns a settled operand whose value is then `b`. -/
def Computes (fs : FlagState) (ids : ℕ → ℕ) (r a : BitVec fs.ty.width) (act : EmitM IRValue)
    (b : Bool) : Prop :=
  ∀ (block : IRBasicBlock) (k : ℕ), block.isTerminated = false →
    ∃ v is n, act.run ⟨block, k⟩ = .ok v ⟨block.append is, k + n⟩ ∧
      (∀ i ∈ is, i.isTerminator = false) ∧ Settled ids (k + n) v ∧
      ∀ m, fs.Holds m r a → ∃ m', run IRInst.step is m = some m' ∧
        m.SameBut (allocatedIds ids k (k + n)) m' ∧ m'.eval .i1 v = BitVec.ofBool b

/-- A constant emits nothing. -/
lemma computes_imm (r a : BitVec fs.ty.width) :
    Computes fs ids r a (return .makeImm 0 .i1) false := by
  intro block k _
  refine ⟨.makeImm 0 .i1, [], 0, by simp, by simp, ⟨rfl, by simp⟩, fun m _ => ?_⟩
  exact ⟨m, rfl, Machine.SameBut.refl _ _, by simp⟩

/-- Defining a fresh boolean register by an instruction whose value is known. -/
lemma computes_define {r a : BitVec fs.ty.width} {b : Bool} {inst : ℕ → IRInst}
    (hterm : ∀ id, (inst id).isTerminator = false)
    (hstep : ∀ m, fs.Holds m r a → ∀ id, (inst id).step m = some (m.set id (BitVec.ofBool b))) :
    Computes fs ids r a (EmitM.define ids inst) b := by
  intro block k hopen
  refine ⟨.makeVReg (ids k) .i1, [inst (ids k)], 1, EmitM.run_define_of_open hopen k ids inst,
    by simp [hterm], ⟨rfl, fun id hid => ⟨k, by omega, by simpa using hid.symm⟩⟩, fun m hm => ?_⟩
  have hmem : ids k ∈ allocatedIds ids k (k + 1) :=
    Set.mem_image_of_mem ids ⟨le_rfl, Nat.lt_succ_self k⟩
  refine ⟨m.set (ids k) (BitVec.ofBool b), by rw [run_singleton, hstep m hm],
    Machine.SameBut.set hmem m _, ?_⟩
  rw [Machine.eval_makeVReg, Machine.setWidth_set_self _ _ _ (by decide)]

/-- A comparison of two operands of the recorded type whose outcome the captured values fix. -/
lemma computes_emitIcmp {r a : BitVec fs.ty.width} {cond : IcmpCond} {name : String}
    {x y : IRValue} {b : Bool}
    (hb : ∀ m, fs.Holds m r a → x.type = fs.ty ∧
      cond.holds (m.eval fs.ty x) (m.eval fs.ty y) = b) :
    Computes fs ids r a (emitIcmp ids cond name x y) b := by
  refine computes_define (fun _ => rfl) fun m hm id => ?_
  obtain ⟨hx, hcond⟩ := hb m hm
  rw [IRInst.step_makeIcmp, hx, hcond]

/-- Two emitters in sequence, combined by a boolean operation. -/
lemma Computes.emitBool {r a : BitVec fs.ty.width} {x y : EmitM IRValue} {bx cy b : Bool}
    {op : Opcode} {name : String} (hfresh : fs.FreshIds ids) (hx : Computes fs ids r a x bx)
    (hy : Computes fs ids r a y cy)
    (hop : op.binop (BitVec.ofBool bx) (BitVec.ofBool cy) = some (BitVec.ofBool b))
    (hterm : ∀ id v v', (IRInst.makeBinop op ⟨id, name⟩ .i1 v v').isTerminator = false) :
    Computes fs ids r a (do
      let vx ← x
      let vy ← y
      FlagState.emitBool ids op name vx vy) b := by
  intro block k hopen
  obtain ⟨vx, is, n, hxrun, hisT, hvx, hxm⟩ := hx block k hopen
  have hopen₁ := IRBasicBlock.append_open hopen hisT
  obtain ⟨vy, js, n', hyrun, hjsT, hvy, hym⟩ := hy (block.append is) (k + n) hopen₁
  have hopen₂ := IRBasicBlock.append_open hopen₁ hjsT
  set id := ids (k + n + n') with hid
  set last := IRInst.makeBinop op ⟨id, name⟩ .i1 vx vy with hlast
  refine ⟨.makeVReg id .i1, is ++ (js ++ [last]), n + (n' + 1), ?_, ?_, ⟨rfl, ?_⟩, ?_⟩
  · rw [run_bind_of_ok hxrun, run_bind_of_ok hyrun, FlagState.emitBool,
      EmitM.run_define_of_open hopen₂, ← hid, ← hlast]
    simp [Nat.add_assoc]
  · intro i hi
    simp only [List.mem_append, List.mem_singleton] at hi
    rcases hi with hi | hi | rfl
    · exact hisT i hi
    · exact hjsT i hi
    · exact hterm _ _ _
  · exact fun id' hid' => ⟨k + n + n', by omega, by simpa [hid] using hid'.symm⟩
  · intro m hm
    obtain ⟨m₁, hrun₁, hsame₁, hval₁⟩ := hxm m hm
    obtain ⟨m₂, hrun₂, hsame₂, hval₂⟩ := hym m₁ (hm.of_sameBut hfresh hsame₁)
    -- the first operand was settled before the second emitter allocated anything
    have hval₁' : m₂.eval .i1 vx = BitVec.ofBool bx := by
      rw [hvx.eval_eq hfresh.injective le_rfl hsame₂, hval₁]
    have hlaststep : last.step m₂ = some (m₂.set id (BitVec.ofBool b)) := by
      rw [hlast, IRInst.step_makeBinop, hval₁', hval₂, hop]
      rfl
    have hmem : id ∈ allocatedIds ids k (k + (n + (n' + 1))) :=
      Set.mem_image_of_mem ids ⟨by omega, by omega⟩
    refine ⟨m₂.set id (BitVec.ofBool b), ?_, ?_, ?_⟩
    · refine run_append_of_eq_some hrun₁ (run_append_of_eq_some hrun₂ ?_)
      rw [run_singleton, hlaststep]
    · exact ((hsame₁.mono (allocatedIds_mono (by omega) (by omega))).trans
        (hsame₂.mono (allocatedIds_mono (by omega) (by omega)))).trans
          (Machine.SameBut.set hmem m₂ _)
    · rw [Machine.eval_makeVReg, Machine.setWidth_set_self _ _ _ (by decide)]

section Rules

variable {r a : BitVec fs.ty.width} {x y : EmitM IRValue} {b c : Bool}

/-- Conjunction of two emitters. -/
lemma Computes.emitAnd (hfresh : fs.FreshIds ids) (hx : Computes fs ids r a x b)
    (hy : Computes fs ids r a y c) :
    Computes fs ids r a (do let vx ← x; let vy ← y; FlagState.emitAnd ids vx vy) (b && c) :=
  hx.emitBool hfresh hy (by cases b <;> cases c <;> rfl) fun _ _ _ => rfl

/-- Disjunction of two emitters. -/
lemma Computes.emitOr (hfresh : fs.FreshIds ids) (hx : Computes fs ids r a x b)
    (hy : Computes fs ids r a y c) :
    Computes fs ids r a (do let vx ← x; let vy ← y; FlagState.emitOr ids vx vy) (b || c) :=
  hx.emitBool hfresh hy (by cases b <;> cases c <;> rfl) fun _ _ _ => rfl

/-- Exclusive or of two emitters. -/
lemma Computes.emitXor (hfresh : fs.FreshIds ids) (hx : Computes fs ids r a x b)
    (hy : Computes fs ids r a y c) :
    Computes fs ids r a (do let vx ← x; let vy ← y; FlagState.emitXor ids vx vy) (b ^^ c) :=
  hx.emitBool hfresh hy (by cases b <;> cases c <;> rfl) fun _ _ _ => rfl

/-- The constant one, the second operand of a negation. -/
lemma computes_one : Computes fs ids r a (return .makeImm 1 .i1) true := by
  intro block k _
  refine ⟨.makeImm 1 .i1, [], 0, by simp, by simp, ⟨rfl, by simp⟩, fun m _ => ?_⟩
  exact ⟨m, rfl, Machine.SameBut.refl _ _, by rw [Machine.eval_makeImm]; rfl⟩

/-- Negation of an emitter: an exclusive or with the constant one. -/
lemma Computes.emitNot (hfresh : fs.FreshIds ids) (hx : Computes fs ids r a x b) :
    Computes fs ids r a (do let vx ← x; FlagState.emitNot ids vx) (!b) := by
  have h : Computes fs ids r a (do
      let vx ← x
      let vy ← pure (.makeImm 1 .i1)
      FlagState.emitBool ids .xor "not" vx vy) (!b) :=
    hx.emitBool hfresh computes_one (by cases b <;> rfl) fun _ _ _ => rfl
  simp only [pure_bind] at h
  exact h

end Rules

/-! ## The flags -/

section Flags

variable {r a : BitVec fs.ty.width}

/-- A comparison of the recorded result with zero. -/
private lemma computes_icmp_result_zero (cond : IcmpCond) (name : String) :
    Computes fs ids r a (emitIcmp ids cond name fs.result (.makeImm 0 fs.ty))
      (cond.holds r 0) :=
  computes_emitIcmp fun m hm =>
    ⟨hm.result_type, by rw [hm.result, Machine.eval_makeImm]; simp⟩

/-- A comparison of the recorded left operand with zero. -/
private lemma computes_icmp_lhs_zero (cond : IcmpCond) (name : String) :
    Computes fs ids r a (emitIcmp ids cond name fs.lhs (.makeImm 0 fs.ty))
      (cond.holds a 0) :=
  computes_emitIcmp fun m hm =>
    ⟨hm.lhs_type, by rw [hm.lhs, Machine.eval_makeImm]; simp⟩

/-- A comparison of the recorded result with the recorded left operand. -/
private lemma computes_icmp_result_lhs (cond : IcmpCond) (name : String) :
    Computes fs ids r a (emitIcmp ids cond name fs.result fs.lhs) (cond.holds r a) :=
  computes_emitIcmp fun m hm => ⟨hm.result_type, by rw [hm.result, hm.lhs]⟩

/-- The zero flag. -/
lemma computes_emitZF : Computes fs ids r a (emitZF fs ids) (r == 0) :=
  computes_icmp_result_zero .eq "zf"

/-- The sign flag. -/
lemma computes_emitSF : Computes fs ids r a (emitSF fs ids) r.msb := by
  have h : Computes fs ids r a (emitSF fs ids) (r.slt 0) := computes_icmp_result_zero .slt "sf"
  rwa [slt_zero_eq_msb] at h

/-- The carry flag. -/
lemma computes_emitCF : Computes fs ids r a (emitCF fs ids) (recoveredCF fs.op r a) := by
  unfold emitCF
  cases fs.op with
  | add => exact computes_icmp_result_lhs .ult "cf_add"
  | sub => exact computes_icmp_result_lhs .ugt "cf_sub"
  | _ => exact computes_imm r a

/-- The left operand is non-negative and the result negative. -/
lemma computes_emitPosOverflow (hfresh : fs.FreshIds ids) :
    Computes fs ids r a (emitPosOverflow fs ids) (!a.msb && r.msb) := by
  have h : Computes fs ids r a (emitPosOverflow fs ids) (BitVec.sle 0 a && r.slt 0) :=
    (computes_icmp_lhs_zero .sge "lhs_nn").emitAnd hfresh (computes_icmp_result_zero .slt "res_neg")
  rwa [slt_zero_eq_msb, zero_sle_eq_not_msb] at h

/-- The left operand is negative and the result non-negative. -/
lemma computes_emitNegOverflow (hfresh : fs.FreshIds ids) :
    Computes fs ids r a (emitNegOverflow fs ids) (a.msb && !r.msb) := by
  have h : Computes fs ids r a (emitNegOverflow fs ids) (a.slt 0 && BitVec.sle 0 r) :=
    (computes_icmp_lhs_zero .slt "lhs_neg").emitAnd hfresh (computes_icmp_result_zero .sge "res_nn")
  rwa [slt_zero_eq_msb, zero_sle_eq_not_msb] at h

/-- The overflow flag. -/
lemma computes_emitOF (hfresh : fs.FreshIds ids) :
    Computes fs ids r a (emitOF fs ids) (recoveredOF fs.op r a) := by
  have hpos := computes_emitPosOverflow (r := r) (a := a) hfresh
  have hneg := computes_emitNegOverflow (r := r) (a := a) hfresh
  unfold emitOF
  cases fs.op with
  | add => exact hpos.emitOr hfresh hneg
  | sub => exact hpos.emitOr hfresh hneg
  | inc => exact hpos
  | dec => exact hneg
  | _ => exact computes_imm r a

/-- What is computed goes through the boolean operations. -/
lemma composes_computes (hfresh : fs.FreshIds ids) :
    Composes ids ⟨(! ·), (· && ·), (· || ·), (· ^^ ·)⟩ (Computes fs ids r a) where
  not hx := hx.emitNot hfresh
  and hx hy := hx.emitAnd hfresh hy
  or hx hy := hx.emitOr hfresh hy
  xor hx hy := hx.emitXor hfresh hy

/-- Materialising a request computes its condition on the recovered flags. -/
lemma computes_materialise (hvalid : fs.valid = true) (hfresh : fs.FreshIds ids)
    (request : FlagRequest) :
    Computes fs ids r a (fs.materialise ids request) ((recoveredFlags fs.op r a).cond request) := by
  have h := (composes_computes (r := r) (a := a) hfresh).materialise hvalid computes_emitZF
    computes_emitSF computes_emitCF (computes_emitOF hfresh) request
  cases request <;> exact h

/-- The closed form of a materialised condition. -/
theorem condition_eq (hvalid : fs.valid = true) (hfresh : fs.FreshIds ids)
    (request : FlagRequest) {e : Emission} (hopen : e.block.isTerminated = false) {m : Machine}
    (hm : fs.Holds m r a) :
    fs.condition ids request e m =
      some (BitVec.ofBool ((recoveredFlags fs.op r a).cond request)) := by
  obtain ⟨v, is, n, hrun, -, -, hval⟩ :=
    computes_materialise (r := r) (a := a) hvalid hfresh request e.block e.taken hopen
  obtain ⟨m', hm', -, hv⟩ := hval m hm
  have hdrop : (e.block.append is).instructions.drop e.block.instructions.length = is := by
    rw [IRBasicBlock.append_instructions, List.drop_left]
  simp only [condition, hrun, hdrop, hm', Option.map_some, hv]

end Flags

end FlagState

end InstaX
