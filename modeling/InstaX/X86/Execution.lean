import InstaX.Foundation.ByteStore
import InstaX.Flags.Condition
import InstaX.Lifter.BranchTargets
import InstaX.Lifter.EffectiveAddress

/-!
# Executing guest code

The architecture's account of the moves, the arithmetic and logical instructions and the direct
jumps that the lifter translates: a state holds the general purpose registers, four status flags and
the memory, and a program is a stream of decoded instructions that does not change while it runs.
An instruction works at the width of its first operand.  Instructions that are left out here do not
step.
-/

namespace InstaX

open ByteStore

/-- The state of the guest. -/
structure X86State where
  regs : RegFile
  flags : X86Flags
  mem : U64 → BitVec 8

/-- The type of the data in an operand: that of a register, or of the encoded size in memory. -/
def ZydisDecodedOperand.dataType (op : ZydisDecodedOperand) : Option IRType :=
  match op.type with
  | .register => op.reg.view.map fun part => part.2.type
  | .memory =>
    if op.size = 8 then some .i8
    else if op.size = 16 then some .i16
    else if op.size = 32 then some .i32
    else if op.size = 64 then some .i64
    else none
  | .immediate | .unused | .pointer => none

/-- The address size: that of the registers of the address, and 64 bits without one. -/
def ZydisMem.addrPart (mem : ZydisMem) : RegPart :=
  if mem.base.view.map Prod.snd = some .dword ∨ mem.index.view.map Prod.snd =
    some .dword then .dword
  else .qword

namespace X86State

/-- A little-endian word in memory. -/
def load (x : X86State) (addr : U64) (ty : IRType) : BitVec ty.width :=
  leWord ty.width (fun k => x.mem (addr + BitVec.ofNat 64 k)) (ty.width / 8)

/-- Store the bytes of a word. -/
def store {w : ℕ} (x : X86State) (addr : U64) (v : BitVec w) : X86State :=
  { x with mem := fun a =>
      if (a - addr).toNat < w / 8 then leByte v (a - addr).toNat else x.mem a }

/-- The address of a memory operand of an instruction that ends at `nextVA`. -/
def operandAddr (x : X86State) (nextVA : U64) (op : ZydisDecodedOperand) : U64 :=
  op.mem.effectiveAddr x.regs nextVA op.mem.addrPart

/-- The value of an operand at a type; immediates come extended to 64 bits. -/
def read (x : X86State) (nextVA : U64) (op : ZydisDecodedOperand) (ty : IRType) :
    Option (BitVec ty.width) :=
  match op.type with
  | .register => op.reg.view.map fun part => (x.regs.read part.1 part.2).setWidth ty.width
  | .immediate => some (op.imm.value.setWidth ty.width)
  | .memory => some (x.load (x.operandAddr nextVA op) ty)
  | .unused | .pointer => none

/-- Write an operand. -/
def write {w : ℕ} (x : X86State) (nextVA : U64) (op : ZydisDecodedOperand) (v : BitVec w) :
    Option X86State :=
  match op.type with
  | .register => op.reg.view.map fun part =>
      { x with regs := x.regs.write part.1 part.2 (v.setWidth part.2.type.width) }
  | .memory => some (x.store (x.operandAddr nextVA op) v)
  | .immediate | .unused | .pointer => none

end X86State

namespace ZydisMnemonic

/-- The status flags after an arithmetic or logical instruction.  A negation is a subtraction from
zero; an increment or decrement keeps the carry flag, and a complement all flags. -/
def aluFlags {w : ℕ} (mnemonic : ZydisMnemonic) (old : X86Flags) (a b : BitVec w) :
    Option X86Flags :=
  match mnemonic with
  | .add => FlagOp.add.x86Flags a b
  | .sub | .cmp => FlagOp.sub.x86Flags a b
  | .and | .test => FlagOp.and.x86Flags a b
  | .or => FlagOp.or.x86Flags a b
  | .xor => FlagOp.xor.x86Flags a b
  | .neg => FlagOp.sub.x86Flags 0 a
  | .inc => (FlagOp.inc.x86Flags a b).map fun f => { f with cf := old.cf }
  | .dec => (FlagOp.dec.x86Flags a b).map fun f => { f with cf := old.cf }
  | .not => some old
  | _ => none

/-- The condition under which a conditional jump is taken. -/
def jumpCondition : ZydisMnemonic → Option (X86Flags → Bool)
  | .jz => some fun f => f.zf
  | .jnz => some fun f => !f.zf
  | .js => some fun f => f.sf
  | .jns => some fun f => !f.sf
  | .jo => some fun f => f.of
  | .jno => some fun f => !f.of
  | .jb => some fun f => f.cf
  | .jnb => some fun f => !f.cf
  | .jbe => some fun f => f.cf || f.zf
  | .jnbe => some fun f => !(f.cf || f.zf)
  | .jl => some fun f => f.sf != f.of
  | .jnl => some fun f => f.sf == f.of
  | .jle => some fun f => f.zf || f.sf != f.of
  | .jnle => some fun f => !f.zf && f.sf == f.of
  | _ => none

end ZydisMnemonic

namespace X86

/-- Execute a move. -/
def execMove (di : DecodedInstr) (x : X86State) : Option X86State := do
  let dst := di.zydis.op 0
  let src := di.zydis.op 1
  let ty ← dst.dataType
  match di.zydis.mnemonic with
  | .mov => x.write di.nextVA dst (← x.read di.nextVA src ty)
  | .movzx => x.write di.nextVA dst ((← x.read di.nextVA src (← src.dataType)).setWidth ty.width)
  | .movsx | .movsxd =>
      x.write di.nextVA dst ((← x.read di.nextVA src (← src.dataType)).signExtend ty.width)
  | _ => none

/-- Execute an arithmetic or logical instruction. -/
def execAlu (di : DecodedInstr) (x : X86State) : Option X86State := do
  let mnemonic := di.zydis.mnemonic
  let ty ← (di.zydis.op 0).dataType
  let a ← x.read di.nextVA (di.zydis.op 0) ty
  let b ← if mnemonic.isUnary then some 0 else x.read di.nextVA (di.zydis.op 1) ty
  let r ← mnemonic.aluResult a b
  let f ← mnemonic.aluFlags x.flags a b
  let x' : X86State := { x with flags := f }
  if mnemonic.discardsResult then some x' else x'.write di.nextVA (di.zydis.op 0) r

/-- Execute an instruction that does not jump. -/
def exec (di : DecodedInstr) (x : X86State) : Option X86State :=
  match di.zydis.mnemonic with
  | .nop => some x
  | .mov | .movzx | .movsx | .movsxd => execMove di x
  | _ => execAlu di x

/-- One step of a stream from an address and a state. -/
def step (instrs : List DecodedInstr) (c : U64 × X86State) : Option (U64 × X86State) := do
  let di ← instrs.find? fun di => di.va == c.1
  match di.zydis.mnemonic.jumpCondition with
  | some taken => di.takenVA.map fun va => (if taken c.2.flags then va else di.nextVA, c.2)
  | none =>
    if di.zydis.mnemonic = .jmp then di.takenVA.map fun va => (va, c.2)
    else (exec di c.2).map fun x => (di.nextVA, x)

variable {instrs : List DecodedInstr} {di : DecodedInstr} {x x' : X86State}

/-- A conditional jump is taken on the condition that the lifter asks for. -/
lemma jumpCondition_eq (mnemonic : ZydisMnemonic) :
    mnemonic.jumpCondition = (flagRequestForJcc mnemonic).map fun request f => f.cond request := by
  cases mnemonic <;> try rfl
  all_goals
    refine congrArg some (funext fun f => ?_)
    obtain ⟨cf, zf, sf, of⟩ := f
    revert cf zf sf of
    decide

/-- In a stream with increasing addresses an instruction is found at its address. -/
lemma find?_va (hsorted : instrs.Pairwise fun x y => x.va < y.va) (hdi : di ∈ instrs) :
    (instrs.find? fun di' => di'.va == di.va) = some di := by
  induction instrs with
  | nil => cases hdi
  | cons front rest ih =>
    rw [List.pairwise_cons] at hsorted
    rcases List.mem_cons.mp hdi with rfl | hrest
    · simp
    · have hne : ¬ front.va = di.va := fun heq =>
        absurd (heq ▸ hsorted.1 di hrest) (BitVec.lt_irrefl _)
      rw [List.find?_cons_of_neg (by simpa using hne)]
      exact ih hsorted.2 hrest

/-- The step of an instruction that does not jump. -/
lemma step_of_exec (hsorted : instrs.Pairwise fun x y => x.va < y.va) (hdi : di ∈ instrs)
    (hjcc : flagRequestForJcc di.zydis.mnemonic = none) (hjmp : di.zydis.mnemonic ≠ .jmp)
    (hexec : exec di x = some x') : step instrs (di.va, x) = some (di.nextVA, x') := by
  simp [step, find?_va hsorted hdi, jumpCondition_eq, hjcc, hjmp, hexec]

/-- The step of a conditional jump. -/
lemma step_of_jcc (hsorted : instrs.Pairwise fun x y => x.va < y.va) (hdi : di ∈ instrs)
    {request : FlagRequest} (hjcc : flagRequestForJcc di.zydis.mnemonic = some request) {va : U64}
    (htaken : di.takenVA = some va) :
    step instrs (di.va, x) = some (if x.flags.cond request then va else di.nextVA, x) := by
  simp [step, find?_va hsorted hdi, jumpCondition_eq, hjcc, htaken]

/-- The step of a direct jump. -/
lemma step_of_jmp (hsorted : instrs.Pairwise fun x y => x.va < y.va) (hdi : di ∈ instrs)
    (hjmp : di.zydis.mnemonic = .jmp) {va : U64} (htaken : di.takenVA = some va) :
    step instrs (di.va, x) = some (va, x) := by
  have hcond : ZydisMnemonic.jumpCondition .jmp = none := rfl
  simp [step, find?_va hsorted hdi, hjmp, hcond, htaken]

end X86

end InstaX
