import Mathlib.Data.Set.Basic
import InstaX.Foundation.StraightLine
import InstaX.IR.Syntax

/-!
# Executing the intermediate representation

The meaning of straight-line code.  A machine holds one 64-bit container for every virtual
register, the guest memory and the addresses of symbols.  An instruction reads its operands at the
width of their types and writes its result zero-extended into the container of its destination,
with two's complement arithmetic.  Operations without a defined value (a division by zero, a shift
by at least the width) and opcodes this file gives no meaning to (calls, floating point) do not
step.
-/

namespace InstaX

open StraightLine

/-- The state straight-line code runs in. -/
structure Machine where
  /-- One container for every virtual register. -/
  regs : ℕ → BitVec 64
  /-- The guest memory. -/
  mem : U64 → BitVec 8
  /-- The addresses of the symbols operands can name. -/
  symbols : String → U64

namespace Machine

/-- The 64-bit content of what an operand refers to. -/
def content (m : Machine) : Payload → BitVec 64
  | .vreg r => m.regs r.id
  | .imm v => v
  | .global name => m.symbols name

/-- An operand read at type `ty`: its own type cuts its content, then the reader takes `ty`. -/
def eval (m : Machine) (ty : IRType) (v : IRValue) : BitVec ty.width :=
  ((m.content v.payload).setWidth v.type.width).setWidth ty.width

/-- Write a result into the container of a virtual register. -/
def set {w : ℕ} (m : Machine) (id : ℕ) (x : BitVec w) : Machine :=
  { m with regs := Function.update m.regs id (x.setWidth 64) }

/-- The `n` bytes from `addr` on, read as a little-endian word of any width. -/
def loadBytes (m : Machine) (addr : U64) (w : ℕ) : ℕ → BitVec w
  | 0 => 0
  | n + 1 => (m.mem addr).setWidth w ||| (m.loadBytes (addr + 1) w n) <<< 8

/-- Write the `n` low bytes of a word to memory, little-endian. -/
def storeBytes {w : ℕ} (m : Machine) (addr : U64) (x : BitVec w) : ℕ → Machine
  | 0 => m
  | n + 1 =>
      storeBytes { m with mem := Function.update m.mem addr (x.setWidth 8) } (addr + 1) (x >>> 8) n

@[simp] lemma set_regs_self {w : ℕ} (m : Machine) (id : ℕ) (x : BitVec w) :
    (m.set id x).regs id = x.setWidth 64 := by
  simp [set]

lemma set_regs_of_ne {w : ℕ} (m : Machine) {id id' : ℕ} (x : BitVec w) (h : id' ≠ id) :
    (m.set id x).regs id' = m.regs id' := by
  simp [set, h]

@[simp] lemma set_mem {w : ℕ} (m : Machine) (id : ℕ) (x : BitVec w) :
    (m.set id x).mem = m.mem := rfl

@[simp] lemma set_symbols {w : ℕ} (m : Machine) (id : ℕ) (x : BitVec w) :
    (m.set id x).symbols = m.symbols := rfl

/-- Storing changes no register. -/
@[simp] lemma storeBytes_regs {w : ℕ} (m : Machine) (addr : U64) (x : BitVec w) (n : ℕ) :
    (m.storeBytes addr x n).regs = m.regs := by
  induction n generalizing m addr x with
  | zero => rfl
  | succ n ih => rw [storeBytes, ih]

/-- Storing changes no symbol address. -/
@[simp] lemma storeBytes_symbols {w : ℕ} (m : Machine) (addr : U64) (x : BitVec w) (n : ℕ) :
    (m.storeBytes addr x n).symbols = m.symbols := by
  induction n generalizing m addr x with
  | zero => rfl
  | succ n ih => rw [storeBytes, ih]

/-- A register operand read at its own type is the low part of its container. -/
@[simp] lemma eval_makeVReg (m : Machine) (id : ℕ) (ty : IRType) (name : String) :
    m.eval ty (.makeVReg id ty name) = (m.regs id).setWidth ty.width := by
  simp [eval, content, IRValue.makeVReg]

/-- A constant read at its own type is the low part of the constant. -/
@[simp] lemma eval_makeImm (m : Machine) (v : BitVec 64) (ty : IRType) :
    m.eval ty (.makeImm v ty) = v.setWidth ty.width := by
  simp [eval, content, IRValue.makeImm]

/-- An operand that reads a register at its own type is the low part of its container. -/
lemma eval_of_vregId {m : Machine} {v : IRValue} {id : ℕ} {ty : IRType}
    (h : v.vregId? = some id) (hty : v.type = ty) :
      m.eval ty v = (m.regs id).setWidth ty.width := by
  subst hty
  rcases hp : v.payload with r | x | n
  · obtain rfl : r.id = id := by simpa [IRValue.vregId?, hp] using h
    simp [eval, content, hp]
  · simp [IRValue.vregId?, hp] at h
  · simp [IRValue.vregId?, hp] at h

/-- A value written at a width and read back at that width is the value. -/
lemma setWidth_set_self {w : ℕ} (m : Machine) (id : ℕ) (x : BitVec w) (hw : w ≤ 64) :
    ((m.set id x).regs id).setWidth w = x := by
  rw [set_regs_self, BitVec.setWidth_setWidth_of_le _ hw, BitVec.setWidth_eq]

/-- The machine `m'` differs from `m` in the registers of `S` and in memory at most. -/
structure SameBut (S : Set ℕ) (m m' : Machine) : Prop where
  regs : ∀ id, id ∉ S → m'.regs id = m.regs id
  symbols : m'.symbols = m.symbols

namespace SameBut

variable {S T : Set ℕ} {m m' m'' : Machine}

lemma refl (S : Set ℕ) (m : Machine) : SameBut S m m := ⟨fun _ _ => rfl, rfl⟩

lemma mono (h : SameBut S m m') (hST : S ⊆ T) : SameBut T m m' :=
  ⟨fun id hid => h.regs id fun hS => hid (hST hS), h.symbols⟩

/-- Differences accumulate. -/
lemma trans (h : SameBut S m m') (h' : SameBut S m' m'') : SameBut S m m'' :=
  ⟨fun id hid => (h'.regs id hid).trans (h.regs id hid), h'.symbols.trans h.symbols⟩

/-- Writing a register changes that register. -/
lemma set {w : ℕ} {id : ℕ} (hid : id ∈ S) (m : Machine) (x : BitVec w) :
    SameBut S m (m.set id x) :=
  ⟨fun _ hid' => m.set_regs_of_ne x fun he => hid' (he ▸ hid), rfl⟩

/-- Writing one register on both sides changes no difference elsewhere. -/
lemma set_set (h : SameBut S m m') {w : ℕ} (id : ℕ) (x : BitVec w) :
    SameBut S (m.set id x) (m'.set id x) := by
  refine ⟨fun id' hid' => ?_, h.symbols⟩
  by_cases he : id' = id
  · rw [he, set_regs_self, set_regs_self]
  · rw [set_regs_of_ne _ _ he, set_regs_of_ne _ _ he, h.regs id' hid']

/-- An operand that names none of the changed registers reads the same. -/
lemma eval_eq (h : SameBut S m m') {v : IRValue} (ty : IRType)
    (hv : ∀ id, v.vregId? = some id → id ∉ S) : m'.eval ty v = m.eval ty v := by
  have hcontent : m'.content v.payload = m.content v.payload := by
    rcases hp : v.payload with r | x | n
    · exact h.regs r.id (hv r.id (by simp [IRValue.vregId?, hp]))
    · rfl
    · simp [content, h.symbols]
  rw [eval, eval, hcontent]

end SameBut

end Machine

/-! ## Operations -/

/-- The order tests of `icmp`. -/
def IcmpCond.holds {w : ℕ} : IcmpCond → BitVec w → BitVec w → Bool
  | .eq, x, y => x == y
  | .ne, x, y => x != y
  | .slt, x, y => x.slt y
  | .sle, x, y => x.sle y
  | .sgt, x, y => y.slt x
  | .sge, x, y => y.sle x
  | .ult, x, y => x.ult y
  | .ule, x, y => x.ule y
  | .ugt, x, y => y.ult x
  | .uge, x, y => y.ule x

/-- The value of a binary operation, where it has one. -/
def Opcode.binop {w : ℕ} (op : Opcode) (x y : BitVec w) : Option (BitVec w) :=
  match op with
  | .add => some (x + y)
  | .sub => some (x - y)
  | .mul => some (x * y)
  | .sdiv => if y = 0 ∨ x = BitVec.intMin w ∧ y = -1 then none else some (x.sdiv y)
  | .udiv => if y = 0 then none else some (x / y)
  | .srem => if y = 0 ∨ x = BitVec.intMin w ∧ y = -1 then none else some (x.srem y)
  | .urem => if y = 0 then none else some (x % y)
  | .and => some (x &&& y)
  | .or => some (x ||| y)
  | .xor => some (x ^^^ y)
  | .shl => if y.toNat < w then some (x <<< y.toNat) else none
  | .lshr => if y.toNat < w then some (x >>> y.toNat) else none
  | .ashr => if y.toNat < w then some (x.sshiftRight y.toNat) else none
  | _ => none

/-- The value of a move or a unary operation. -/
def Opcode.unop {w : ℕ} (op : Opcode) (x : BitVec w) : Option (BitVec w) :=
  match op with
  | .mov => some x
  | .neg => some (-x)
  | .not => some (~~~x)
  | _ => none

/-- The opcodes that change the type of their operand. -/
def Opcode.isCast : Opcode → Bool
  | .zext | .sext | .trunc | .fpext | .fptrunc | .fptosi | .fptoui | .sitofp | .uitofp
  | .inttoptr | .ptrtoint | .bitcast => true
  | _ => false

/-- The value of a conversion from a `w`-bit to a `w'`-bit value. -/
def Opcode.cast {w : ℕ} (op : Opcode) (w' : ℕ) (x : BitVec w) : Option (BitVec w') :=
  match op with
  | .zext | .trunc | .inttoptr | .ptrtoint | .bitcast => some (x.setWidth w')
  | .sext => some (x.signExtend w')
  | _ => none

namespace IRInst

/-- The value an instruction computes for its destination. -/
def value (i : IRInst) (m : Machine) : Option (BitVec i.resultType.width) :=
  match i.opcode, i.operands with
  | .icmp, [l, r] => i.icmpCond.map fun c =>
      (BitVec.ofBool (c.holds (m.eval l.type l) (m.eval l.type r))).setWidth _
  | .load, [p] => i.resultType.byteWidth.map fun n => m.loadBytes (m.eval .ptr p) _ n
  | .select, [c, t, f] =>
      some (if m.eval .i1 c = 1 then m.eval i.resultType t else m.eval i.resultType f)
  | op, [x] =>
      if op.isCast then op.cast i.resultType.width (m.eval x.type x)
      else op.unop (m.eval i.resultType x)
  | op, [l, r] => op.binop (m.eval i.resultType l) (m.eval i.resultType r)
  | _, _ => none

/-- One step of straight-line code. -/
def step (i : IRInst) (m : Machine) : Option Machine :=
  match i.opcode, i.dst, i.operands with
  | .store, none, [v, p] => v.type.byteWidth.map fun n =>
      m.storeBytes (m.eval .ptr p) (m.eval v.type v) n
  | .nop, none, [] => some m
  | _, some d, _ => (i.value m).map (m.set d.id)
  | _, _, _ => none

/-- A binary operation writes its value to its destination. -/
lemma step_makeBinop (op : Opcode) (d : VReg) (ty : IRType) (l r : IRValue) (m : Machine) :
    (makeBinop op d ty l r).step m = (op.binop (m.eval ty l) (m.eval ty r)).map (m.set d.id) := by
  cases op <;> rfl

/-- A comparison writes its truth value to its destination. -/
lemma step_makeIcmp (c : IcmpCond) (d : VReg) (l r : IRValue) (m : Machine) :
    (makeIcmp c d l r).step m =
      some (m.set d.id (BitVec.ofBool (c.holds (m.eval l.type l) (m.eval l.type r)))) := by
  simp [makeIcmp, step, value, IRType.width]

/-- A conversion writes its value to its destination. -/
lemma step_makeCast {op : Opcode} (hop : op.isCast = true) (d : VReg) (ty : IRType) (x : IRValue)
    (m : Machine) :
    (makeCast op d ty x).step m = (op.cast ty.width (m.eval x.type x)).map (m.set d.id) := by
  cases op <;> first | rfl | exact absurd hop (by decide)

/-- A unary operation writes its value to its destination. -/
lemma step_makeUnop {op : Opcode} (hop : op = .neg ∨ op = .not) (d : VReg) (ty : IRType)
    (x : IRValue) (m : Machine) :
    (makeUnop op d ty x).step m = (op.unop (m.eval ty x)).map (m.set d.id) := by
  rcases hop with rfl | rfl <;> rfl

/-- A move copies its operand to its destination. -/
lemma step_makeMov (d : VReg) (ty : IRType) (x : IRValue) (m : Machine) :
    (makeMov d ty x).step m = some (m.set d.id (m.eval ty x)) := rfl

/-- The virtual register an instruction writes, if it writes one. -/
def defines (i : IRInst) (id : ℕ) : Prop := ∃ d, i.dst = some d ∧ d.id = id

/-- A step changes no register but its destination. -/
lemma sameBut_of_step {i : IRInst} {m m' : Machine} (h : i.step m = some m') {S : Set ℕ}
    (hS : ∀ id, i.defines id → id ∈ S) : m.SameBut S m' := by
  have hset : ∀ d, i.dst = some d → (i.value m).map (m.set d.id) = some m' → m.SameBut S m' := by
    intro d hd hv
    obtain ⟨x, -, rfl⟩ := Option.map_eq_some_iff.mp hv
    exact Machine.SameBut.set (hS d.id ⟨d, hd, rfl⟩) m x
  unfold step at h
  split at h
  · obtain ⟨n, -, rfl⟩ := Option.map_eq_some_iff.mp h
    exact ⟨by simp, by simp⟩
  · obtain rfl : m = m' := by simpa using h
    exact Machine.SameBut.refl S m
  · exact hset _ ‹_› h
  · cases h

/-- Straight-line code that defines registers of `S` only changes no other register. -/
lemma sameBut_of_run {is : List IRInst} {m m' : Machine} (h : run step is m = some m') {S : Set ℕ}
    (hS : ∀ i ∈ is, ∀ id, i.defines id → id ∈ S) : m.SameBut S m' :=
  run_rel (Machine.SameBut.refl S) (fun _ _ _ => Machine.SameBut.trans)
    (fun i hi _ _ hi' => sameBut_of_step hi' (hS i hi)) h

end IRInst

end InstaX
