import Mathlib.Order.Interval.Set.Basic
import InstaX.Lifter.State

/-!
# Reading and writing registers

`readReg` and `writeReg`.  A read of a narrow register truncates the full register; a write follows
the three schemes of the architecture.  Both take every part to start at bit zero
(`RegPart.readLow`, `RegPart.writeLow`), which is right for all parts but the high bytes: a write
followed by a read gives the architectural result exactly when no high byte register makes the
difference visible (`writeReg_readReg_iff`).
-/

namespace InstaX

open Throwing StraightLine FixedWidth

/-- The part of a register of the given width, taken from bit zero. -/
def RegPart.readLow (p : RegPart) (x : BitVec 64) : BitVec p.type.width := x.setWidth p.type.width

/-- A register after a write of the given width at bit zero. -/
def RegPart.writeLow (p : RegPart) (x : BitVec 64) (v : BitVec p.type.width) : BitVec 64 :=
  match p with
  | .qword => v
  | .dword => v.setWidth 64
  | .low8 | .high8 | .word => insertBits x 0 v

/-- Every part but the high byte starts at bit zero. -/
lemma RegPart.readLow_eq_read {p : RegPart} (hp : p ≠ .high8) (x : BitVec 64) :
    p.readLow x = p.read x := by
  cases p <;> first | exact absurd rfl hp | simp [readLow, read, offset]

/-- Every part but the high byte is written at bit zero. -/
lemma RegPart.writeLow_eq_write {p : RegPart} (hp : p ≠ .high8) (x : BitVec 64)
    (v : BitVec p.type.width) : p.writeLow x v = p.write x v := by
  cases p <;> first | exact absurd rfl hp | rfl

/-- The register file a machine holds. -/
def Machine.file (m : Machine) : RegFile := fun g => m.regs g.vregId

namespace FunctionLifter

variable (ctx : LiftContext)

/-- The value of a register: the fixed virtual register itself, or a truncation of it.  Registers
outside the tables read as zero. -/
def readReg (reg : ZydisRegister) : LiftM IRValue :=
  let canon := canonicalReg reg
  let ty := typeOfReg reg
  match gprVRegId canon with
  | none => return .makeImm 0 .i64
  | some id =>
    let full := IRValue.makeVReg id .i64 (ctx.regName canon)
    if ty = .i64 then return full
    else do
      let truncId ← newTemp
      pushInst (.makeCast .trunc ⟨truncId, "sub_" ++ ctx.regName reg⟩ ty full)
      return .makeVReg truncId ty

/-- The bits a partial write keeps. -/
def partialMask (ty : IRType) : BitVec 64 := ~~~((1 : BitVec 64) <<< (ty.byteWidth.getD 0 * 8) - 1)

/-- Write a register: a full write, a zero-extended 32-bit write, or a merge with the bits that an
8-bit or 16-bit write keeps. -/
def writeReg (reg : ZydisRegister) (val : IRValue) : LiftM Unit :=
  let canon := canonicalReg reg
  let ty := typeOfReg reg
  match gprVRegId canon with
  | none => return ()
  | some id =>
    let gprVReg : VReg := ⟨id, ctx.regName canon⟩
    if ty = .i64 then
      pushInst (.makeMov gprVReg .i64 val)
    else if ty = .i32 then do
      let zId ← newTemp
      pushInst (.makeCast .zext ⟨zId, "zext32"⟩ .i64 val)
      pushInst (.makeMov gprVReg .i64 (.makeVReg zId .i64))
    else do
      let cur := IRValue.makeVReg id .i64 (ctx.regName canon)
      let maskedId ← newTemp
      pushInst (.makeBinop .and ⟨maskedId, "masked"⟩ .i64 cur (.makeImm (partialMask ty) .i64))
      let zId ← newTemp
      pushInst (.makeCast .zext ⟨zId, "zext_partial"⟩ .i64 val)
      pushInst (.makeBinop .or gprVReg .i64 (.makeVReg maskedId .i64) (.makeVReg zId .i64))

variable {ctx} {r : ZydisRegister} {g : Gpr} {p : RegPart} {s : LiftState}

/-- A 64-bit register is read as itself, with no code. -/
lemma run_readReg_qword (h : r.view = some (g, .qword)) :
    (readReg ctx r).run s = .ok (.makeVReg g.vregId .i64 (ctx.regName (canonicalReg r))) s := by
  obtain ⟨hid, hty⟩ := tables_of_view h
  simp [readReg, hid, hty]

/-- A narrower register is read through one truncation into a temporary. -/
lemma run_readReg_narrow (h : r.view = some (g, p)) (hp : p ≠ .qword) (hs : s.Open) :
    (readReg ctx r).run s = .ok (.makeVReg s.nextVregId p.type)
      (s.emit 1 [.makeCast .trunc ⟨s.nextVregId, "sub_" ++ ctx.regName r⟩ p.type
        (.makeVReg g.vregId .i64 (ctx.regName (canonicalReg r)))]) := by
  obtain ⟨hid, hty⟩ := tables_of_view h
  have hp' : p.type ≠ .i64 := by cases p <;> first | decide | exact absurd rfl hp
  simp only [readReg, hid, hty, if_neg hp']
  rw [run_bind_of_ok (run_newTemp s), run_bind_of_ok (run_pushInst (s := s.emit 1 []) (by simpa
    [LiftState.Open] using hs) _)]
  simp

/-- The mask of a partial write clears the bits of the part. -/
lemma partialMask_type (p : RegPart) :
    partialMask p.type = ~~~((BitVec.allOnes p.type.width).setWidth 64 <<< 0) := by
  cases p <;> decide

/-- Reading a register executes to the low bits of the register; the value stays readable while
only later temporaries are written. -/
structure ReadPost (s : LiftState) (m : Machine) {ty : IRType} (x : BitVec ty.width) (v : IRValue)
    (s' : LiftState) (m' : Machine) : Prop where
  next_le : s.nextVregId ≤ s'.nextVregId
  same : m.SameBut (Set.Ico s.nextVregId s'.nextVregId) m'
  type : v.type = ty
  vregId_lt : ∀ id, v.vregId? = some id → id < s'.nextVregId
  value : m'.eval ty v = x

/-- The part of a register at bit zero is what a read returns. -/
lemma executesTo_readReg (h : r.view = some (g, p)) (hs : s.Open) (hnext : 16 ≤ s.nextVregId)
    (m : Machine) :
    ExecutesTo (readReg ctx r) s m (ReadPost s m (p.readLow (m.file g))) := by
  by_cases hp : p = .qword
  · subst hp
    refine ⟨_, s, [], run_readReg_qword h, by simp, by simp, m, rfl, le_rfl,
      Machine.SameBut.refl _ m, rfl, fun id hid => ?_, ?_⟩
    · have := g.vregId_lt
      simp only [IRValue.makeVReg_vregId?, Option.some.injEq] at hid
      omega
    · rw [Machine.eval_makeVReg]
      rfl
  · set trunc := IRInst.makeCast .trunc ⟨s.nextVregId, "sub_" ++ ctx.regName r⟩ p.type
      (.makeVReg g.vregId .i64 (ctx.regName (canonicalReg r))) with htrunc
    have hstep : trunc.step m = some (m.set s.nextVregId (p.readLow (m.file g))) := by
      rw [htrunc, IRInst.step_makeCast rfl]
      simp [Opcode.cast, RegPart.readLow, Machine.file, IRValue.makeVReg_type]
    refine ⟨_, _, [trunc], run_readReg_narrow h hp hs, rfl, by simp [htrunc]; rfl, _,
      by rw [run_singleton, hstep], by simp, ?_, rfl, fun id hid => ?_, ?_⟩
    · exact Machine.SameBut.set (by simp) m _
    · simp only [IRValue.makeVReg_vregId?, Option.some.injEq] at hid
      simp [← hid]
    · rw [Machine.eval_makeVReg, Machine.setWidth_set_self _ _ _ p.type.width_le]

/-- Writing a register changes that register and later temporaries. -/
structure WritePost (s : LiftState) (m : Machine) (g : Gpr) (x : BitVec 64) (s' : LiftState)
    (m' : Machine) : Prop where
  next_le : s.nextVregId ≤ s'.nextVregId
  same : (m.set g.vregId x).SameBut (Set.Ico s.nextVregId s'.nextVregId) m'

/-- The three schemes of a write amount to a write at bit zero. -/
lemma executesTo_writeReg (h : r.view = some (g, p)) (hs : s.Open) {val : IRValue}
    (hty : val.type = p.type)
    (hval : ∀ id, val.vregId? = some id → id < s.nextVregId) (m : Machine) :
    ExecutesTo (writeReg ctx r val) s m fun _ =>
      WritePost s m g (p.writeLow (m.file g) (m.eval p.type val)) := by
  obtain ⟨hid, hty'⟩ := tables_of_view h
  have hg := g.vregId_lt
  simp only [writeReg, hid, hty']
  by_cases hq : p = .qword
  · subst hq
    refine ExecutesTo.pushInst hs rfl (IRInst.step_makeMov _ _ _ _) ⟨by simp, ?_⟩
    exact Machine.SameBut.refl _ _
  rw [if_neg (by cases p <;> first | decide | exact absurd rfl hq)]
  -- the operand is the value of the first temporary, zero-extended to a full register
  have hzext : ∀ (d : VReg) (m' : Machine),
      m.SameBut (Set.Ico s.nextVregId (s.nextVregId + 1)) m' →
      (IRInst.makeCast .zext d .i64 val).step m' =
        some (m'.set d.id ((m.eval p.type val).setWidth 64)) := by
    intro d m' hsame
    rw [IRInst.step_makeCast rfl, hsame.eval_eq val.type fun id hid => by
      have := hval id hid
      simp; omega, hty]
    rfl
  by_cases hd : p = .dword
  · subst hd
    rw [if_pos rfl]
    refine ExecutesTo.define hs rfl (hzext _ m (Machine.SameBut.refl _ m)) ?_
    refine ExecutesTo.pushInst (hs.emit 1 (by simp; rfl)) rfl (IRInst.step_makeMov _ _ _ _)
      ⟨by simp, ?_⟩
    rw [Machine.eval_makeVReg, Machine.setWidth_set_self _ _ _ (by decide)]
    exact (Machine.SameBut.set (by simp) m _).set_set _ _
  · rw [if_neg (by cases p <;> first | decide | exact absurd rfl hd)]
    set k := s.nextVregId with hk
    set masked := m.file g &&& partialMask p.type with hmasked
    set zext := (m.eval p.type val).setWidth 64 with hzextdef
    have hand : (IRInst.makeBinop .and ⟨k, "masked"⟩ .i64
        (.makeVReg g.vregId .i64 (ctx.regName (canonicalReg r)))
        (.makeImm (partialMask p.type) .i64)).step m = some (m.set k masked) := by
      rw [IRInst.step_makeBinop, Machine.eval_makeVReg, Machine.eval_makeImm]
      simp [Opcode.binop, hmasked, Machine.file]
    refine ExecutesTo.define hs rfl hand ?_
    refine ExecutesTo.define (hs.emit 1 (by simp; rfl)) rfl
      (hzext _ _ (Machine.SameBut.set (by simp [hk]) m _)) ?_
    -- both halves of the merge are still in their temporaries
    have hor : (IRInst.makeBinop .or ⟨g.vregId, ctx.regName (canonicalReg r)⟩ .i64
        (.makeVReg k .i64) (.makeVReg (k + 1) .i64)).step ((m.set k masked).set (k + 1) zext) =
          some (((m.set k masked).set (k + 1) zext).set g.vregId (masked ||| zext)) := by
      rw [IRInst.step_makeBinop, Machine.eval_makeVReg, Machine.eval_makeVReg,
        Machine.setWidth_set_self _ _ _ (by decide), Machine.set_regs_of_ne _ _ (by omega),
        Machine.setWidth_set_self _ _ _ (by decide)]
      rfl
    refine ExecutesTo.pushInst ((hs.emit 1 (by simp; rfl)).emit 1 (by simp; rfl)) rfl hor
      ⟨by simp, ?_⟩
    have hx : p.writeLow (m.file g) (m.eval p.type val) = masked ||| zext := by
      rw [hmasked, hzextdef, partialMask_type]
      cases p <;> first | exact absurd rfl hq | exact absurd rfl hd |
        simp [RegPart.writeLow, insertBits]
    rw [hx]
    refine Machine.SameBut.set_set ?_ _ _
    exact (Machine.SameBut.set (by simp [hk]) m _).trans (Machine.SameBut.set (by simp [hk]) _ _)

/-! ## Sub-register aliasing -/

variable {r' : ZydisRegister} {g' : Gpr} {p' : RegPart}

/-- Changes of temporaries leave the register file alone. -/
lemma file_eq_of_sameBut_Ici {m m' : Machine} {k : ℕ} (hk : 16 ≤ k)
    (h : m.SameBut (Set.Ici k) m') : m'.file = m.file := by
  funext g
  refine h.regs g.vregId fun hg => ?_
  have hlt := g.vregId_lt
  have hge := Set.mem_Ici.mp hg
  omega

/-- Temporaries do not touch the register file. -/
lemma file_eq_of_sameBut {m m' : Machine} {k k' : ℕ} (hk : 16 ≤ k)
    (h : m.SameBut (Set.Ico k k') m') : m'.file = m.file :=
  file_eq_of_sameBut_Ici hk (h.mono Set.Ico_subset_Ici_self)

/-- Writing the register of the file. -/
lemma file_set (m : Machine) (g : Gpr) (x : BitVec 64) :
    (m.set g.vregId x).file = Function.update m.file g x := by
  funext h
  by_cases he : h = g
  · subst he
    simp [Machine.file]
  · have hne : h.vregId ≠ g.vregId := fun heq => he (Gpr.vregId_injective heq)
    simp [Machine.file, Machine.set_regs_of_ne _ _ hne, he]

/-- An action that leads to one register file leads to another one exactly if they are the same. -/
lemma ExecutesTo.file_iff {α : Type} {act : LiftM α} {m : Machine} {f f' : RegFile}
    (h : ExecutesTo act s m fun _ _ m' => m'.file = f') :
    ExecutesTo act s m (fun _ _ m' => m'.file = f) ↔ f' = f := by
  constructor
  · intro hf
    obtain ⟨_, _, m', hfile, hfile'⟩ := hf.and h
    exact hfile'.symm.trans hfile
  · intro heq
    exact h.mono fun _ _ m' hfile' => hfile'.trans heq

/-- A write at bit zero is the architectural write unless the part is a high byte; then it is one
when both low bytes already hold the value. -/
lemma writeLow_eq_write_iff (p : RegPart) (x : BitVec 64) (v : BitVec p.type.width) :
    p.writeLow x v = p.write x v ↔ (p = .high8 →
      RegPart.low8.read x = v.setWidth 8 ∧ RegPart.high8.read x = v.setWidth 8) := by
  by_cases hp : p = .high8
  · subst hp
    simpa [RegPart.writeLow, RegPart.write, RegPart.read, RegPart.offset] using
      insertBits_zero_eq_iff x v v (by decide)
  · simp [hp, RegPart.writeLow_eq_write hp]

/-- Reading at bit zero is the architectural read unless the part is a high byte; then it is one
when the two low bytes agree. -/
lemma readLow_eq_read_iff (p : RegPart) (x : BitVec 64) :
    p.readLow x = p.read x ↔
      (p = .high8 → RegPart.low8.read x = RegPart.high8.read x) := by
  by_cases hp : p = .high8
  · subst hp
    simp [RegPart.readLow, RegPart.read, RegPart.offset]
  · simp [hp, RegPart.readLow_eq_read hp]

variable (ctx) in
/-- A write followed by a read writes and reads at bit zero. -/
lemma executesTo_writeReg_readReg (hr : r.view = some (g, p)) (hr' : r'.view = some (g', p'))
    (hs : s.Open) (hnext : 16 ≤ s.nextVregId) {val : IRValue} (hty : val.type = p.type)
    (hval : ∀ id, val.vregId? = some id → id < s.nextVregId) (m : Machine) {low : RegFile}
    (hlow : low = Function.update m.file g (p.writeLow (m.file g) (m.eval p.type val))) :
    ExecutesTo (do writeReg ctx r val; readReg ctx r') s m (fun value _ m' =>
      m'.file = low ∧ m'.eval p'.type value = p'.readLow (low g')) := by
  refine ExecutesTo.bind hs (executesTo_writeReg hr hs hty hval m) ?_
  rintro - s₁ m₁ hs₁ hwrite
  have hfile : m₁.file = low := by
    rw [file_eq_of_sameBut hnext hwrite.same, file_set, hlow]
  have hnext₁ := hnext.trans hwrite.next_le
  refine (executesTo_readReg hr' hs₁ hnext₁ m₁).mono ?_
  intro value s₂ m₂ hread
  rw [file_eq_of_sameBut hnext₁ hread.same, hread.value, hfile]
  exact ⟨rfl, rfl⟩

/-- Writing `val` to `r` and then reading `r'` gives the architectural register file and value
exactly when a write of a high byte register finds its value in both low bytes, and a read of a
high byte register finds two equal low bytes. -/
theorem writeReg_readReg_iff (hr : r.view = some (g, p)) (hr' : r'.view = some (g', p'))
    (hs : s.Open) (hnext : 16 ≤ s.nextVregId) {val : IRValue} (hty : val.type = p.type)
    (hval : ∀ id, val.vregId? = some id → id < s.nextVregId) (m : Machine) :
    ExecutesTo (do writeReg ctx r val; readReg ctx r') s m (fun value _ m' =>
      m'.file = m.file.write g p (m.eval p.type val) ∧
        m'.eval p'.type value = (m.file.write g p (m.eval p.type val)).read g' p') ↔
    (p = .high8 → RegPart.low8.read (m.file g) = (m.eval p.type val).setWidth 8 ∧
        RegPart.high8.read (m.file g) = (m.eval p.type val).setWidth 8) ∧
      (p' = .high8 →
        RegPart.low8.read (m.file.write g p (m.eval p.type val) g') =
          RegPart.high8.read (m.file.write g p (m.eval p.type val) g')) := by
  set v := m.eval p.type val with hv
  set low := Function.update m.file g (p.writeLow (m.file g) v) with hlow
  have hexec := executesTo_writeReg_readReg ctx hr hr' hs hnext hty hval m hlow
  have hpost : ExecutesTo (do writeReg ctx r val; readReg ctx r') s m (fun value _ m' =>
      m'.file = m.file.write g p v ∧ m'.eval p'.type value = (m.file.write g p v).read g' p') ↔
        low = m.file.write g p v ∧
          p'.readLow (m.file.write g p v g') = p'.read (m.file.write g p v g') := by
    constructor
    · intro h
      obtain ⟨value, s', m', ⟨hfile, hvalue⟩, hfile', hvalue'⟩ := h.and hexec
      have hlowfile := hfile'.symm.trans hfile
      refine ⟨hlowfile, ?_⟩
      rw [← hlowfile, ← hvalue', hvalue, hlowfile]
      rfl
    · rintro ⟨hlowfile, hread⟩
      refine hexec.mono fun value s' m' ⟨hfile, hvalue⟩ => ⟨hfile.trans hlowfile, ?_⟩
      rw [hvalue, hlowfile, hread]
      rfl
  have hupdate : low = m.file.write g p v ↔ p.writeLow (m.file g) v = p.write (m.file g) v :=
    (Function.update_injective m.file g).eq_iff
  rw [hpost, hupdate, writeLow_eq_write_iff, readLow_eq_read_iff]

/-- A context without symbols, labels or register names. -/
def bareContext : LiftContext where
  passing := .byReference
  destWidth := fun op _ => typeOfReg op.reg
  typeFromEncodedSize := fun _ => .i64
  symbolAt := fun _ => ""
  blockNames := fun _ => none
  zydisRegisterGetString := fun _ => none

/-- A function's first block, before anything was lifted. -/
def emptyBlock : LiftState := { block := { name := "b" } }

lemma emptyBlock_open : emptyBlock.Open := rfl

/-- A machine whose registers and memory are zero. -/
def zeroMachine : Machine := { regs := fun _ => 0, mem := fun _ => 0, symbols := fun _ => 0 }

/-- Writing 5 to `ax` and reading `eax`. -/
theorem writeReg_readReg_iff_ax_eax :
    ExecutesTo (do writeReg bareContext .ax (.makeImm 5 .i16); readReg bareContext .eax) emptyBlock
      zeroMachine (fun value _ m' =>
        m'.file = zeroMachine.file.write .rax .word (zeroMachine.eval .i16 (.makeImm 5 .i16)) ∧
          m'.eval .i32 value =
            (zeroMachine.file.write .rax .word (zeroMachine.eval .i16 (.makeImm 5 .i16))).read
              .rax .dword) := by
  have hax : ZydisRegister.view .ax = some (.rax, .word) := rfl
  have heax : ZydisRegister.view .eax = some (.rax, .dword) := rfl
  exact (writeReg_readReg_iff hax heax emptyBlock_open (by decide) rfl (by simp) zeroMachine).mpr
    ⟨fun h => absurd h (by decide), fun h => absurd h (by decide)⟩

/-- Writing 1 to `ah` and reading it back: the code writes `al`. -/
theorem writeReg_readReg_ah :
    ¬ ExecutesTo (do writeReg bareContext .ah (.makeImm 1 .i8); readReg bareContext .ah) emptyBlock
      zeroMachine (fun value _ m' =>
        m'.file = zeroMachine.file.write .rax .high8 (zeroMachine.eval .i8 (.makeImm 1 .i8)) ∧
          m'.eval .i8 value =
            (zeroMachine.file.write .rax .high8 (zeroMachine.eval .i8 (.makeImm 1 .i8))).read
              .rax .high8) := by
  intro h
  have hah : ZydisRegister.view .ah = some (.rax, .high8) := rfl
  obtain ⟨value, s', m', ⟨hfile, -⟩, hlow, -⟩ := h.and
    (executesTo_writeReg_readReg bareContext hah hah emptyBlock_open (by decide) rfl (by simp)
      zeroMachine rfl)
  exact absurd (congrFun (hlow.symm.trans hfile) .rax) (by decide)

end FunctionLifter

end InstaX
