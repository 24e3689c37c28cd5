import InstaX.Lifter.MemoryWidth
import InstaX.X86.Execution

/-!
# Operands against the architecture

The operands that the lifter reads and writes as the architecture does, whichever way the block is
passed: immediates, registers that start at bit zero, and memory at addresses of 64-bit registers.
For these the code that reads an operand leaves its value, and the code that writes one takes a
machine that holds a guest state to one that holds the state after the write
(`executesTo_readOperand_readable`, `executesTo_writeOperand_writable`).

What the code leaves alone is said once for all operands: it stores nothing unless it writes memory,
and keeps the flag record (`Steady`).
-/

namespace InstaX

open Throwing StraightLine ByteStore

/-- The machine holds the registers and the memory of the guest. -/
structure Machine.Holds (m : Machine) (x : X86State) : Prop where
  file : m.file = x.regs
  mem : m.mem = x.mem

/-! ## Memory -/

namespace Machine

/-- The bytes of a load, the lowest first. -/
lemma loadBytes_eq (m : Machine) (addr : U64) (w n : ℕ) :
    m.loadBytes addr w n = leWord w (fun k => m.mem (addr + BitVec.ofNat 64 k)) n := by
  induction n generalizing addr with
  | zero => rfl
  | succ n ih =>
    have hfirst : addr + BitVec.ofNat 64 0 = addr := BitVec.add_zero addr
    have hnext : ∀ k, addr + BitVec.ofNat 64 (k + 1) = addr + 1 + BitVec.ofNat 64 k := by
      intro k
      rw [BitVec.ofNat_add, add_assoc, add_comm 1]
      rfl
    rw [loadBytes, ih, leWord_succ_eq, hfirst, funext fun k => congrArg m.mem (hnext k)]

/-- The bytes of a store. -/
lemma storeBytes_mem {w : ℕ} (m : Machine) (addr : U64) (v : BitVec w) {n : ℕ} (hn : n < 2 ^ 64) :
    (m.storeBytes addr v n).mem = fun a =>
      if (a - addr).toNat < n then leByte v (a - addr).toNat else m.mem a := by
  induction n generalizing m addr v with
  | zero => simp [storeBytes]
  | succ n ih =>
    rw [storeBytes, ih _ _ _ (by omega)]
    funext a
    have hsub : a - (addr + 1) = a - addr - 1 := by rw [← sub_sub]
    by_cases ha : a = addr
    · -- the first byte lies behind the others
      subst ha
      have hlast : ¬ (a - (a + 1)).toNat < n := by
        have hminus : a - (a + 1) = (-1 : U64) := by rw [hsub, sub_self, zero_sub]
        rw [hminus]
        change ¬ 2 ^ 64 - 1 < n
        omega
      have hzero : (a - a).toNat = 0 := by rw [sub_self]; rfl
      dsimp only
      rw [if_neg hlast, Function.update_self, hzero, if_pos (Nat.succ_pos n), leByte_zero]
    · have hpos : 0 < (a - addr).toNat := by
        rw [Nat.pos_iff_ne_zero]
        intro hzero
        exact ha (sub_eq_zero.mp (BitVec.eq_of_toNat_eq hzero))
      have hprev : (a - (addr + 1)).toNat + 1 = (a - addr).toNat := by
        rw [hsub, BitVec.toNat_sub_of_le]
        · change (a - addr).toNat - 1 + 1 = _
          omega
        · rw [BitVec.le_def]
          change 1 ≤ _
          omega
      dsimp only
      rw [Function.update_of_ne ha, ← hprev, leByte_ushiftRight]
      by_cases hlt : (a - (addr + 1)).toNat < n
      · rw [if_pos hlt, if_pos (by omega)]
      · rw [if_neg hlt, if_neg (by omega)]

end Machine

/-! ## Operands the lifter gets right -/

/-- The registers of the address have 64 bits, and the scale is one that can be encoded. -/
def ZydisMem.IsFlat (mem : ZydisMem) : Prop :=
  (mem.base = .none ∨ mem.base.view.map Prod.snd = some .qword) ∧
    (mem.index = .none ∨ mem.index.view.map Prod.snd = some .qword ∧ mem.scale ∈ [1, 2, 4, 8])

instance (mem : ZydisMem) : Decidable mem.IsFlat := inferInstanceAs (Decidable (_ ∧ _))

namespace ZydisMem.IsFlat

variable {mem : ZydisMem}

/-- A register whose part is known. -/
private lemma exists_view {r : ZydisRegister} (h : r.view.map Prod.snd = some .qword) :
    ∃ g, r.view = some (g, .qword) := by
  obtain ⟨⟨g, p⟩, hview, rfl⟩ := Option.map_eq_some_iff.mp h
  exact ⟨g, hview⟩

/-- A flat address has the form of one of 64 bits. -/
lemma form (h : mem.IsFlat) : mem.Form .qword where
  size := Or.inr rfl
  base := h.1.imp id fun hview => Or.inr (exists_view hview)
  index := h.2.imp id fun hview => exists_view hview.1
  scale hindex := (h.2.resolve_left hindex).2

/-- Its base is not the instruction pointer. -/
lemma base_ne_rip (h : mem.IsFlat) : mem.base ≠ .rip := by
  rcases h.1 with hbase | hview
  · rw [hbase]
    decide
  · intro hrip
    rw [hrip] at hview
    cases hview

/-- It is computed from whole registers. -/
lemma addrPart (h : mem.IsFlat) : mem.addrPart = .qword := by
  have hpart : ∀ r : ZydisRegister, (r = .none ∨ r.view.map Prod.snd = some .qword) →
      ¬ r.view.map Prod.snd = some .dword := by
    rintro r (rfl | hview) hdword
    · cases hdword
    · rw [hview] at hdword
      cases hdword
  rw [ZydisMem.addrPart, if_neg]
  rintro (hbase | hindex)
  · exact hpart mem.base h.1 hbase
  · exact hpart mem.index (h.2.imp id And.left) hindex

end ZydisMem.IsFlat

namespace ZydisDecodedOperand

variable (ctx : LiftContext) (op : ZydisDecodedOperand) (ty : IRType)

/-- The operand is a register of the type that starts at bit zero, and narrow ones are not lost. -/
def HasRegister : Prop :=
  op.type = .register ∧ ∃ part ∈ op.reg.view, part.2.type = ty ∧ part.2 ≠ .high8 ∧
    (part.2 = .qword ∨ ctx.passing = .byReference)

/-- The operand is in memory, at a sum of 64-bit registers. -/
def HasMemory : Prop := op.type = .memory ∧ op.mem.IsFlat ∧ ty ∈ [.i8, .i16, .i32, .i64]

/-- The operand is read as the architecture does. -/
def Readable : Prop := op.type = .immediate ∨ op.HasRegister ctx ty ∨ op.HasMemory ty

/-- The operand is written as the architecture does. -/
def Writable : Prop := ctx.passing = .byReference ∧ op.HasRegister ctx ty ∨ op.HasMemory ty

instance : Decidable (op.HasRegister ctx ty) := inferInstanceAs (Decidable (_ ∧ _))

instance : Decidable (op.HasMemory ty) := inferInstanceAs (Decidable (_ ∧ _))

instance : Decidable (op.Readable ctx ty) := inferInstanceAs (Decidable (_ ∨ _))

instance : Decidable (op.Writable ctx ty) := inferInstanceAs (Decidable (_ ∨ _))

/-- The 64-bit register that is handed on when the operand is read. -/
def wholeGpr? : Option Gpr :=
  if op.type = .register then
    op.reg.view.bind fun part => if part.2 = .qword then some part.1 else none
  else none

/-- The register that is written when the operand is. -/
def gpr? : Option Gpr := if op.type = .register then op.reg.view.map Prod.fst else none

end ZydisDecodedOperand

/-- The virtual register of a general purpose register, if there is one. -/
def gprVRegs (g : Option Gpr) : Set ℕ := {id | ∃ h ∈ g, h.vregId = id}

namespace FunctionLifter

variable {α β : Type} {act : LiftM α} {ctx : LiftContext} {s s₁ : LiftState} {m m₁ : Machine}

/-! ## Steady code -/

/-- Whatever the state, the action stores nothing and keeps the flag record. -/
def Steady (act : LiftM α) : Prop :=
  ∀ s : LiftState, s.Open → Appends act s fun _ s' is =>
    s'.flagState = s.flagState ∧ ∀ i ∈ is, i.opcode ≠ .store

namespace Steady

lemma pure (a : α) : Steady (pure a) := fun _ hs => Appends.pure hs ⟨rfl, by simp⟩

/-- Steady programs are steady one after the other. -/
lemma bind {f : α → LiftM β} (h : Steady act) (hf : ∀ a, Steady (f a)) : Steady (act >>= f) := by
  intro s hs
  refine (h s hs).bind fun a s' is hs' hfirst => (hf a s' hs').mono fun b s'' js hsecond => ?_
  refine ⟨hsecond.1.trans hfirst.1, fun i hi => ?_⟩
  exact (List.mem_append.mp hi).elim (hfirst.2 i) (hsecond.2 i)

/-- Taking an id is steady. -/
lemma newTemp : Steady newTemp :=
  fun s hs => ⟨_, _, [], run_newTemp s, rfl, hs.emit 1 (by simp), rfl, by simp⟩

/-- Pushing an instruction that stores nothing is steady. -/
lemma pushInst {i : IRInst} (hterm : i.isTerminator = false) (hi : i.opcode ≠ .store) :
    Steady (pushInst i) :=
  fun _ hs => Appends.pushInst hs hterm ⟨rfl, by simpa using hi⟩

/-- So is defining a temporary. -/
lemma defineTemp {ty : IRType} {inst : ℕ → IRInst} (hterm : ∀ id, (inst id).isTerminator = false)
    (hinst : ∀ id, (inst id).opcode ≠ .store) : Steady (defineTemp ty inst) :=
  newTemp.bind fun id => (pushInst (hterm id) (hinst id)).bind fun _ => pure _

/-- So is steady code on a block argument. -/
lemma withBlockArg (h : Steady act) : Steady (withBlockArg ctx act) := by
  cases hpass : ctx.passing with
  | byReference => rwa [withBlockArg_byReference hpass]
  | byValue =>
    intro s hs
    obtain ⟨a, t, is, hrun, -, -, hflags, -⟩ := h s hs
    exact ⟨a, _, [], run_withBlockArg_byValue hpass hrun, by simp, hs, hflags, by simp⟩

variable (ctx)

/-- Reading a register is steady. -/
lemma readReg (reg : ZydisRegister) :
    Steady (FunctionLifter.withBlockArg ctx (readReg ctx reg)) := by
  apply withBlockArg
  unfold FunctionLifter.readReg
  dsimp only
  split
  · exact pure _
  · split
    · exact pure _
    · exact defineTemp (fun _ => rfl) fun _ h => by cases h

/-- Writing a register is steady. -/
lemma writeReg (reg : ZydisRegister) (val : IRValue) :
    Steady (FunctionLifter.withBlockArg ctx (writeReg ctx reg val)) := by
  apply withBlockArg
  unfold FunctionLifter.writeReg
  dsimp only
  split
  · exact pure _
  · split
    · exact pushInst rfl fun h => by cases h
    · split
      · refine newTemp.bind fun zId => (pushInst rfl fun h => by cases h).bind fun _ => ?_
        exact pushInst rfl fun h => by cases h
      · refine newTemp.bind fun maskedId => (pushInst rfl fun h => by cases h).bind fun _ => ?_
        refine newTemp.bind fun zId => (pushInst rfl fun h => by cases h).bind fun _ => ?_
        exact pushInst rfl fun h => by cases h

/-- The base of an address is steady. -/
lemma addrBase (mem : ZydisMem) : Steady (addrBase ctx mem) := by
  unfold FunctionLifter.addrBase
  split
  · exact readReg ctx _
  · split <;> exact pure _

/-- Adding the scaled index is steady. -/
lemma addIndex (mem : ZydisMem) (addr : IRValue) : Steady (addIndex ctx mem addr) := by
  have hdefine : ∀ {op : Opcode} {name : String} {x y : IRValue},
      op = .mul ∨ op = .add →
      Steady (FunctionLifter.defineTemp .i64 fun id => .makeBinop op ⟨id, name⟩ .i64 x y) := by
    rintro op name x y (rfl | rfl) <;> exact defineTemp (fun _ => rfl) fun _ h => by cases h
  unfold FunctionLifter.addIndex scaledIndex
  split
  · refine bind ((readReg ctx _).bind fun idx => ?_) fun _ => hdefine (Or.inr rfl)
    split
    · exact hdefine (Or.inl rfl)
    · exact pure _
  · exact pure _

/-- Adding the displacement is steady. -/
lemma addDisp (mem : ZydisMem) (addr : IRValue) : Steady (addDisp mem addr) := by
  unfold FunctionLifter.addDisp
  split
  · exact defineTemp (fun _ => rfl) fun _ h => by cases h
  · exact pure _

/-- The whole address is steady. -/
lemma computeAddr (op : ZydisDecodedOperand) : Steady (computeAddr ctx op) :=
  (addrBase ctx _).bind fun _ => (addIndex ctx _ _).bind fun _ => (addDisp _ _).bind fun _ =>
    defineTemp (fun _ => rfl) fun _ h => by cases h

/-- Reading an operand stores nothing. -/
lemma readOperand (op : ZydisDecodedOperand) (ty : IRType) : Steady (readOperand ctx op ty) := by
  unfold FunctionLifter.readOperand
  split
  · exact readReg ctx _
  · exact pure _
  · exact (computeAddr ctx op).bind fun _ => defineTemp (fun _ => rfl) fun _ h => by cases h
  · exact pure _
  · exact pure _

end Steady

/-- What is known of the text of an action goes with what is known of its meaning. -/
lemma ExecutesTo.and_appends {Q : α → LiftState → Machine → Prop}
    {P : α → LiftState → List IRInst → Prop} (h : ExecutesTo act s m Q) (ha : Appends act s P) :
    ExecutesTo act s m fun a s' m' =>
      Q a s' m' ∧ s'.Open ∧ ∃ is, P a s' is ∧ run IRInst.step is m = some m' := by
  obtain ⟨a, s', is, hrun, hblock, hterm, m', hm', hQ⟩ := h
  obtain ⟨a₂, s₂, is₂, hrun₂, hblock₂, hopen, hP⟩ := ha
  obtain ⟨rfl, rfl⟩ : a₂ = a ∧ s₂ = s' := by simpa [hrun] using hrun₂.symm
  obtain rfl : is₂ = is := by
    simpa using congrArg IRBasicBlock.instructions (hblock₂.symm.trans hblock)
  exact ⟨a₂, s₂, is₂, hrun, hblock, hterm, m', hm', hQ, hopen, is₂, hP, hm'⟩

/-- Steady code keeps the memory and the flag record. -/
lemma ExecutesTo.and_steady {Q : α → LiftState → Machine → Prop} (hs : s.Open)
    (h : ExecutesTo act s m Q) (hact : Steady act) :
    ExecutesTo act s m fun a s' m' =>
      Q a s' m' ∧ s'.Open ∧ s'.flagState = s.flagState ∧ m'.mem = m.mem := by
  refine (h.and_appends (hact s hs)).mono ?_
  rintro a s' m' ⟨hQ, hopen, is, ⟨hflags, his⟩, hm'⟩
  exact ⟨hQ, hopen, hflags, IRInst.mem_eq_of_run his hm'⟩

/-- Quiet code writes temporaries only. -/
lemma ExecutesTo.and_quiet {Q : α → LiftState → Machine → Prop} (hs : s.Open)
    (h : ExecutesTo act s m Q) (hact : QuietCode act) :
    ExecutesTo act s m fun a s' m' => Q a s' m' ∧ s.nextVregId ≤ s'.nextVregId ∧
      m.SameBut (Set.Ico s.nextVregId s'.nextVregId) m' := by
  refine (h.and_appends (hact s hs)).mono ?_
  rintro a s' m' ⟨hQ, -, is, hquiet, hm'⟩
  exact ⟨hQ, hquiet.next_le, IRInst.sameBut_of_run hm' hquiet.defines⟩

/-! ## Reading and writing -/

/-- The operand was read: its value is readable, in a temporary or the register itself, and besides
temporaries nothing has changed. -/
structure ValuePost (op : ZydisDecodedOperand) (s : LiftState) (m : Machine) {ty : IRType}
    (a : BitVec ty.width) (v : IRValue) (s' : LiftState) (m' : Machine) : Prop where
  read : ReadPost s m a v s' m'
  isOpen : s'.Open
  flags : s'.flagState = s.flagState
  mem : m'.mem = m.mem
  source : ∀ id, v.vregId? = some id → id ∈ gprVRegs op.wholeGpr? ∨ s.nextVregId ≤ id

/-- Code leaves a guest state in the machine: besides temporaries and the registers of `S` none has
changed, and the flag record is kept. -/
structure StatePost (S : Set ℕ) (s : LiftState) (m : Machine) (x : X86State) (s' : LiftState)
    (m' : Machine) : Prop where
  holds : m'.Holds x
  isOpen : s'.Open
  flags : s'.flagState = s.flagState
  next_le : s.nextVregId ≤ s'.nextVregId
  same : m.SameBut (S ∪ Set.Ici s.nextVregId) m'

variable {x : X86State} {op : ZydisDecodedOperand} {ty : IRType} {nextVA : U64}

/-- Changes of temporaries keep the guest state. -/
lemma holds_of_sameBut {k k' : ℕ} (hm : m.Holds x) (hk : 16 ≤ k)
    (hsame : m.SameBut (Set.Ico k k') m₁)
    (hmem : m₁.mem = m.mem) : m₁.Holds x :=
  ⟨(file_eq_of_sameBut hk hsame).trans hm.file, hmem.trans hm.mem⟩

/-- Reading an operand leaves the guest state. -/
lemma ValuePost.holds {a : BitVec ty.width} {v : IRValue} (h : ValuePost op s m a v s₁ m₁)
    (hm : m.Holds x) (hnext : 16 ≤ s.nextVregId) : m₁.Holds x :=
  holds_of_sameBut hm hnext h.read.same h.mem

/-- The width of a type that can be in memory, in bytes. -/
lemma byteWidth_of_mem (hty : ty ∈ [IRType.i8, .i16, .i32, .i64]) :
    ty.byteWidth = some (ty.width / 8) := by
  simp only [List.mem_cons, List.not_mem_nil, or_false] at hty
  rcases hty with rfl | rfl | rfl | rfl <;> rfl

/-- A temporary is the next one. -/
lemma appends_defineTemp_source {inst : ℕ → IRInst} (hs : s.Open)
    (hterm : (inst s.nextVregId).isTerminator = false) :
    Appends (defineTemp ty inst) s fun v _ _ => v.vregId? = some s.nextVregId :=
  Appends.defineTemp hs hterm rfl

/-- A register is read into a temporary, unless it is read whole. -/
lemma appends_readReg_source {r : ZydisRegister} {g : Gpr} {p : RegPart}
    (hview : r.view = some (g, p))
    (hs : s.Open) :
    Appends (withBlockArg ctx (readReg ctx r)) s fun v _ _ =>
      v.vregId? = some (if p = .qword then g.vregId else s.nextVregId) := by
  have hread : Appends (readReg ctx r) s fun v _ _ =>
      v.vregId? = some (if p = .qword then g.vregId else s.nextVregId) := by
    by_cases hq : p = .qword
    · subst hq
      exact ⟨_, s, [], run_readReg_qword hview, by simp, hs, rfl⟩
    · refine ⟨_, _, _, run_readReg_narrow hview hq hs, rfl, hs.emit 1 ?_, by simp [hq]⟩
      simp only [List.mem_singleton, forall_eq]
      rfl
  cases hpass : ctx.passing with
  | byReference => rwa [withBlockArg_byReference hpass]
  | byValue =>
    obtain ⟨v, t, is, hrun, -, -, hv⟩ := hread
    exact ⟨v, _, [], run_withBlockArg_byValue hpass hrun, by simp, hs, hv⟩

variable (nextVA) (hm : m.Holds x) (hs : s.Open) (hnext : 16 ≤ s.nextVregId)

include hm hs hnext

/-- The address of an operand in memory. -/
lemma executesTo_computeAddr_flat (hflat : op.mem.IsFlat) :
    ExecutesTo (computeAddr ctx op) s m fun ptr s' m' =>
      m'.eval .ptr ptr = x.operandAddr nextVA op ∧ s'.Open ∧ s.nextVregId ≤ s'.nextVregId ∧
        m.SameBut (Set.Ico s.nextVregId s'.nextVregId) m' ∧ s'.flagState = s.flagState ∧
        m'.mem = m.mem := by
  have hnarrow := not_hasNarrow_of_qword hflat.form
  have hlost : LostHolds ctx op.mem 0 s m := fun _ h => absurd h hnarrow
  have hcode : ExecutesTo (computeAddr ctx op) s m fun ptr _ m' =>
      m'.eval .ptr ptr = codeAddr ctx m.file 0 op.mem :=
    executesTo_computeAddr hflat.form hs hnext hlost rfl
  have haddr : codeAddr ctx m.file 0 op.mem = x.operandAddr nextVA op := by
    rw [@codeAddr_eq_sum ctx 0 op.mem m.file nextVA (fun h => absurd h hnarrow)
      (fun h => absurd h hflat.base_ne_rip), X86State.operandAddr, hflat.addrPart,
      ZydisMem.effectiveAddr_qword, hm.file]
  refine ((hcode.and_quiet hs (QuietCode.computeAddr ctx op)).and_steady hs
    (Steady.computeAddr ctx op)).mono ?_
  rintro ptr s' m' ⟨⟨hptr, hle, hsame⟩, hopen, hflags, hmem⟩
  exact ⟨hptr.trans haddr, hopen, hle, hsame, hflags, hmem⟩

/-- A register is read. -/
lemma executesTo_readOperand_hasRegister (hop : op.HasRegister ctx ty) :
    ∃ a, x.read nextVA op ty = some a ∧
      ExecutesTo (readOperand ctx op ty) s m (ValuePost op s m a) := by
  obtain ⟨htype, ⟨g, p⟩, hview, hty, hhigh, hkept⟩ := hop
  have hview' : op.reg.view = some (g, p) := hview
  dsimp only at hty hhigh hkept
  subst hty
  refine ⟨x.regs.read g p, by simp [X86State.read, htype, hview'], ?_⟩
  have hcode : codeRead ctx m s.nextVregId g p = x.regs.read g p := by
    rw [codeRead, if_neg, RegPart.readLow_eq_read hhigh, hm.file]
    · rfl
    · rintro ⟨hpass, hp⟩
      cases hpass.symm.trans (hkept.resolve_left hp)
  have hread := @executesTo_readReg_code ctx s m g p op.reg hview' hs hnext
  simp only [readOperand, htype]
  refine ((hread.and_steady hs (Steady.readReg ctx op.reg)).and_appends
    (appends_readReg_source hview' hs)).mono ?_
  rintro v s' m' ⟨⟨⟨hpost, -⟩, hopen, hflags, hmem⟩, -, is, hsource, -⟩
  rw [hcode] at hpost
  refine ⟨hpost, hopen, hflags, hmem, fun id hid => ?_⟩
  obtain rfl := Option.some_inj.mp (hsource.symm.trans hid)
  by_cases hq : p = .qword
  · exact Or.inl ⟨g, by simp [ZydisDecodedOperand.wholeGpr?, htype, hview', hq], by rw [if_pos hq]⟩
  · exact Or.inr (by rw [if_neg hq])

/-- A covered operand is read as the architecture does. -/
theorem executesTo_readOperand_readable (hop : op.Readable ctx ty) :
    ∃ a, x.read nextVA op ty = some a ∧
      ExecutesTo (readOperand ctx op ty) s m (ValuePost op s m a) := by
  rcases hop with himm | hreg | ⟨htype, hflat, hty⟩
  · refine ⟨op.imm.value.setWidth ty.width, by simp [X86State.read, himm], ?_⟩
    simp only [readOperand, himm]
    exact ExecutesTo.pure ⟨⟨le_rfl, Machine.SameBut.refl _ m, rfl, by simp, by simp⟩, hs, rfl, rfl,
      by simp⟩
  · exact executesTo_readOperand_hasRegister nextVA hm hs hnext hreg
  · refine ⟨x.load (x.operandAddr nextVA op) ty, by simp [X86State.read, htype], ?_⟩
    simp only [readOperand, htype]
    refine ExecutesTo.bind hs (executesTo_computeAddr_flat nextVA hm hs hnext hflat) ?_
    rintro ptr s₁ m₁ hs₁ ⟨hptr, -, hle, hsame, hflags, hmem⟩
    have hload : (IRInst.makeLoad ⟨s₁.nextVregId, "mem_load"⟩ ty ptr .unaligned).step m₁ =
        some (m₁.set s₁.nextVregId (x.load (x.operandAddr nextVA op) ty)) := by
      have hvalue : m₁.loadBytes (x.operandAddr nextVA op) ty.width (ty.width / 8) =
          x.load (x.operandAddr nextVA op) ty := by
        rw [Machine.loadBytes_eq, hmem, hm.mem]
        rfl
      simp [IRInst.makeLoad, IRInst.step, IRInst.value, byteWidth_of_mem hty, hptr, hvalue]
    refine (((executesTo_defineTemp hs₁ rfl hload).and_steady hs₁
      (Steady.defineTemp (fun _ => rfl) fun _ h => by cases h)).and_appends
      (appends_defineTemp_source hs₁ rfl)).mono ?_
    rintro v s₂ m₂ ⟨⟨hpost, hopen, hflags', hmem'⟩, -, is, hsource, -⟩
    refine ⟨hpost.of_le hle hsame, hopen, hflags'.trans hflags, hmem'.trans hmem, fun id hid => ?_⟩
    obtain rfl := Option.some_inj.mp (hsource.symm.trans hid)
    exact Or.inr hle

/-- A covered operand is written as the architecture does. -/
theorem executesTo_writeOperand_writable (hop : op.Writable ctx ty) {val : IRValue}
    {v : BitVec ty.width} (hty : val.type = ty)
    (hval : ∀ id, val.vregId? = some id → id < s.nextVregId) (hv : m.eval ty val = v) :
    ∃ x', x.write nextVA op v = some x' ∧ x'.flags = x.flags ∧
      ExecutesTo (writeOperand ctx op val) s m fun _ => StatePost (gprVRegs op.gpr?) s m x' := by
  rcases hop with ⟨hpass, htype, ⟨g, p⟩, hview, rfl, hhigh, -⟩ | ⟨htype, hflat, hmem⟩
  · have hview' : op.reg.view = some (g, p) := hview
    refine ⟨{ x with regs := x.regs.write g p v },
      by simp [X86State.write, htype, hview'], rfl, ?_⟩
    simp only [writeOperand, htype]
    refine ((executesTo_writeReg_code hview' hs hty hval m).and_steady hs
      (Steady.writeReg ctx op.reg val)).mono ?_
    rintro _ s' m' ⟨⟨hwrite, -, -⟩, hopen, hflags, hmem⟩
    refine ⟨⟨?_, hmem.trans hm.mem⟩, hopen, hflags, hwrite.next_le, ?_⟩
    · rw [file_eq_of_sameBut hnext hwrite.same, file_set, codeWrite, if_neg (by simp [hpass]),
        RegPart.writeLow_eq_write hhigh, hm.file, ← hv]
      rfl
    · have hg : g.vregId ∈ gprVRegs op.gpr? :=
        ⟨g, by simp [ZydisDecodedOperand.gpr?, htype, hview'], rfl⟩
      exact (Machine.SameBut.set (Or.inl hg) m _).trans (hwrite.same.mono
        (Set.Ico_subset_Ici_self.trans Set.subset_union_right))
  · refine ⟨x.store (x.operandAddr nextVA op) v, by simp [X86State.write, htype], rfl, ?_⟩
    simp only [writeOperand, htype]
    refine ExecutesTo.bind hs (executesTo_computeAddr_flat nextVA hm hs hnext hflat) ?_
    rintro ptr s₁ m₁ hs₁ ⟨hptr, -, hle, hsame, hflags, hmem₁⟩
    have hval₁ : m₁.eval ty val = v := by
      rw [← hv]
      refine hsame.eval_eq ty fun id hid hmem => ?_
      exact absurd (hval id hid) (not_lt.mpr hmem.1)
    have hstore : (IRInst.makeStore val ptr .unaligned).step m₁ =
        some (m₁.storeBytes (x.operandAddr nextVA op) v (ty.width / 8)) := by
      subst hty
      simp [IRInst.makeStore, IRInst.step, byteWidth_of_mem hmem, hptr, hval₁]
    have hlt : ty.width / 8 < 2 ^ 64 := by
      have hwidth := ty.width_le
      omega
    refine ExecutesTo.pushInst hs₁ rfl hstore ⟨⟨?_, ?_⟩, hs₁.emit 0 (by simp; rfl), hflags, hle, ?_⟩
    · refine Eq.trans ?_ ((file_eq_of_sameBut hnext hsame).trans hm.file)
      funext g
      exact congrFun (Machine.storeBytes_regs _ _ _ _) _
    · rw [Machine.storeBytes_mem _ _ _ hlt, hmem₁, hm.mem]
      rfl
    · refine ⟨fun id hid => ?_, ?_⟩
      · rw [Machine.storeBytes_regs]
        exact hsame.regs id fun h => hid (Or.inr h.1)
      · rw [Machine.storeBytes_symbols]
        exact hsame.symbols

end FunctionLifter

end InstaX
