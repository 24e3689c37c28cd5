import Mathlib.Tactic.Ring
import InstaX.Lifter.Arithmetic
import InstaX.Lifter.OperandCode

/-!
# Effective addresses

The address of a memory operand is the sum of a base, a scaled index and a displacement, modulo the
address size (`ZydisMem.effectiveAddr`).  `computeAddr` adds the same components in 64 bits.

It takes the displacement for the base of a RIP-relative operand and adds it once more; it does not
reduce the sum to a 32-bit address size; and a 32-bit register is read through a truncation, which
is lost when the block is passed by value.  What it computes is right exactly if none of these makes
a difference (`computeAddr_iff`).
-/

namespace InstaX

open Throwing StraightLine FixedWidth

/-! ## The architecture -/

/-- The registers of a memory operand are general purpose registers of the address size, which is
the width of the part `p`; the instruction pointer can be the base at 64 bits. -/
structure ZydisMem.Form (mem : ZydisMem) (p : RegPart) : Prop where
  size : p = .dword ∨ p = .qword
  base : mem.base = .none ∨ (mem.base = .rip ∧ p = .qword) ∨ ∃ g, mem.base.view = some (g, p)
  index : mem.index = .none ∨ ∃ g, mem.index.view = some (g, p)
  scale : mem.index ≠ .none → mem.scale ∈ [1, 2, 4, 8]

/-- A register as a component of an address; a register that is left out counts as zero. -/
def RegFile.component (f : RegFile) (r : ZydisRegister) : U64 :=
  match r.view with
  | some (g, p) => (f.read g p).setWidth 64
  | none => 0

namespace ZydisMem

/-- The base, with the instruction pointer standing for the address of the next instruction. -/
def baseValue (mem : ZydisMem) (f : RegFile) (nextVA : U64) : U64 :=
  if mem.base = .rip then nextVA else f.component mem.base

/-- The displacement; an operand without one has displacement zero. -/
def dispValue (mem : ZydisMem) : U64 := if mem.disp.hasDisplacement then mem.disp.value else 0

/-- The sum of the components, each taken once. -/
def sum (mem : ZydisMem) (f : RegFile) (nextVA : U64) : U64 :=
  mem.baseValue f nextVA + f.component mem.index * mem.scale.setWidth 64 + mem.dispValue

/-- The effective address. -/
def effectiveAddr (mem : ZydisMem) (f : RegFile) (nextVA : U64) (p : RegPart) : U64 :=
  ((mem.sum f nextVA).setWidth p.type.width).setWidth 64

variable {mem : ZydisMem} {f : RegFile} {nextVA : U64} {p : RegPart}

/-- An address is not made of a high byte. -/
lemma Form.ne_high8 (h : mem.Form p) : p ≠ .high8 := by
  rcases h.size with rfl | rfl <;> decide

/-- Only a 64-bit address is relative to the instruction pointer. -/
lemma Form.eq_qword_of_rip (h : mem.Form p) (hrip : mem.base = .rip) : p = .qword := by
  rcases h.base with hbase | ⟨-, hp⟩ | ⟨g, hview⟩
  · rw [hbase] at hrip
    cases hrip
  · exact hp
  · rw [hrip] at hview
    cases hview

/-- The effective address of a 64-bit address size is the sum. -/
lemma effectiveAddr_qword : mem.effectiveAddr f nextVA .qword = mem.sum f nextVA := by
  simp [effectiveAddr]

/-- At a 32-bit address size the sum is the address if it has 32 bits. -/
lemma sum_eq_effectiveAddr_dword_iff :
    mem.sum f nextVA = mem.effectiveAddr f nextVA .dword ↔ mem.sum f nextVA < 2 ^ 32 := by
  have hlt : mem.sum f nextVA < 2 ^ 32 ↔ (mem.sum f nextVA).toNat < 2 ^ 32 := BitVec.lt_def
  rw [hlt, eq_comm]
  exact setWidth_setWidth_eq_iff (by decide) _

end ZydisMem

namespace FunctionLifter

/-! ## The code -/

/-- The value of a register when the temporaries that are yet to be taken hold `t`: a narrow
register is read from such a temporary when its truncation is lost. -/
def readValue (ctx : LiftContext) (f : RegFile) (t : U64) (r : ZydisRegister) : U64 :=
  if ctx.passing = .byValue ∧ r.IsNarrow then (t.setWidth (typeOfReg r).width).setWidth 64
  else f.component r

/-- The address that the code computes when the temporaries that are yet to be taken hold `t`. -/
def codeAddr (ctx : LiftContext) (f : RegFile) (t : U64) (mem : ZydisMem) : U64 :=
  (if mem.base = .rip then mem.disp.value else readValue ctx f t mem.base) +
    readValue ctx f t mem.index * mem.scale.setWidth 64 + mem.dispValue

/-- The value, read as a 64-bit word, is `x`, and stays readable while later temporaries are
written. -/
def WordPost (s : LiftState) (m : Machine) (x : U64) (v : IRValue) (s' : LiftState) (m' : Machine) :
    Prop :=
  ∃ (ty : IRType) (y : BitVec ty.width), ReadPost s m y v s' m' ∧ y.setWidth 64 = x

variable {ctx : LiftContext} {s s₁ s₂ : LiftState} {m m₁ m₂ : Machine} {x t : U64} {v : IRValue}

/-- A value that was read is a word once it is extended. -/
lemma ReadPost.wordPost {ty : IRType} {y : BitVec ty.width} (h : ReadPost s m y v s₁ m₁)
    (hx : y.setWidth 64 = x) : WordPost s m x v s₁ m₁ := ⟨ty, y, h, hx⟩

/-- A word is still held after more temporaries. -/
lemma WordPost.extend (h : WordPost s m x v s₁ m₁) (hnext : s₁.nextVregId ≤ s₂.nextVregId)
    (hsame : m₁.SameBut (Set.Ico s₁.nextVregId s₂.nextVregId) m₂) : WordPost s m x v s₂ m₂ := by
  obtain ⟨ty, y, hread, hx⟩ := h
  exact (hread.extend hnext hsame).wordPost hx

lemma WordPost.of_le (h : WordPost s₁ m₁ x v s₂ m₂) (hnext : s.nextVregId ≤ s₁.nextVregId)
    (hsame : m.SameBut (Set.Ico s.nextVregId s₁.nextVregId) m₁) : WordPost s m x v s₂ m₂ := by
  obtain ⟨ty, y, hread, hx⟩ := h
  exact (hread.of_le hnext hsame).wordPost hx

lemma WordPost.next_le (h : WordPost s m x v s₁ m₁) : s.nextVregId ≤ s₁.nextVregId := by
  obtain ⟨ty, y, hread, -⟩ := h
  exact hread.next_le

lemma WordPost.same (h : WordPost s m x v s₁ m₁) :
    m.SameBut (Set.Ico s.nextVregId s₁.nextVregId) m₁ := by
  obtain ⟨ty, y, hread, -⟩ := h
  exact hread.same

/-- A value that was read can be read again. -/
lemma WordPost.here (h : WordPost s m x v s₁ m₁) : WordPost s₁ m₁ x v s₁ m₁ := by
  obtain ⟨ty, y, hread, hx⟩ := h
  exact ⟨ty, y, ⟨le_rfl, Machine.SameBut.refl _ m₁, hread.type, hread.vregId_lt, hread.value⟩, hx⟩

/-- The value at its own type, extended to a word. -/
lemma WordPost.eval_type (h : WordPost s m x v s₁ m₁) :
    (m₁.eval v.type v).setWidth 64 = x := by
  obtain ⟨ty, y, hread, rfl⟩ := h
  obtain rfl := hread.type
  rw [hread.value]

/-- The value, read as a word. -/
lemma WordPost.eval_word (h : WordPost s m x v s₁ m₁) : m₁.eval .i64 v = x := by
  rw [← h.eval_type]
  simp [Machine.eval]

/-- A word that names no register. -/
lemma wordPost_imm : WordPost s m x (.makeImm x .i64) s m :=
  ⟨.i64, x, ⟨le_rfl, Machine.SameBut.refl _ m, rfl, by simp, by simp⟩, by simp⟩

/-- A general purpose register is narrow unless it is read whole. -/
lemma isNarrow_iff_of_view {r : ZydisRegister} {g : Gpr} {p : RegPart} (h : r.view = some (g, p)) :
    r.IsNarrow ↔ p ≠ .qword := by
  obtain ⟨hid, hty⟩ := tables_of_view h
  rw [ZydisRegister.IsNarrow, hid, hty]
  cases p <;> simp

variable {mem : ZydisMem} {f : RegFile} {nextVA : U64} {p : RegPart}

/-- A register that is absent counts as zero. -/
lemma readValue_none : readValue ctx f t .none = 0 := by
  rw [readValue, if_neg fun h => absurd h.2 (by decide)]
  rfl

/-- The temporaries that are yet to be taken hold `t`, where a truncation is lost. -/
def LostHolds (ctx : LiftContext) (mem : ZydisMem) (t : U64) (s : LiftState) (m : Machine) : Prop :=
  ctx.passing = .byValue → mem.HasNarrow → ∀ id, s.nextVregId ≤ id → m.regs id = t

/-- What the later temporaries hold is not changed by taking earlier ones. -/
lemma LostHolds.of_sameBut (h : LostHolds ctx mem t s m) (hnext : s.nextVregId ≤ s₁.nextVregId)
    (hsame : m.SameBut (Set.Ico s.nextVregId s₁.nextVregId) m₁) : LostHolds ctx mem t s₁ m₁ := by
  intro hpass hnarrow id hid
  rw [hsame.regs id fun hmem => absurd hid (not_le.mpr hmem.2)]
  exact h hpass hnarrow id (hnext.trans hid)

/-- A register of an address is read as the code reads it. -/
lemma executesTo_readReg_component {r : ZydisRegister} {g : Gpr} (hview : r.view = some (g, p))
    (hp : p ≠ .high8) (hs : s.Open) (hnext : 16 ≤ s.nextVregId)
    (hlost : ctx.passing = .byValue → r.IsNarrow → m.regs s.nextVregId = t) :
    ExecutesTo (withBlockArg ctx (readReg ctx r)) s m
      (WordPost s m (readValue ctx m.file t r)) := by
  have hcomponent : m.file.component r = (p.readLow (m.file g)).setWidth 64 := by
    rw [RegFile.component, hview, RegPart.readLow_eq_read hp]
    rfl
  refine (executesTo_readReg_code hview hs hnext).mono fun v s' m' h => h.1.wordPost ?_
  have hnarrow := isNarrow_iff_of_view hview
  by_cases hcopy : ctx.passing = .byValue ∧ p ≠ .qword
  · rw [codeRead, if_pos hcopy, readValue, if_pos ⟨hcopy.1, hnarrow.mpr hcopy.2⟩,
      (tables_of_view hview).2, hlost hcopy.1 (hnarrow.mpr hcopy.2)]
  · rw [codeRead, if_neg hcopy, readValue, if_neg fun h => hcopy ⟨h.1, hnarrow.mp h.2⟩, hcomponent]

/-- Two words are added, or multiplied, into a fresh temporary. -/
lemma executesTo_binop_word {op : Opcode} {name : String} {a b : IRValue} {y : U64} (hs : s.Open)
    (hx : m.eval .i64 a = x) (hy : m.eval .i64 b = y) {z : U64} (hop : op.binop x y = some z)
    (hterm : ∀ id, (IRInst.makeBinop op ⟨id, name⟩ .i64 a b).isTerminator = false) :
    ExecutesTo (defineTemp .i64 fun id => .makeBinop op ⟨id, name⟩ .i64 a b) s m
      (WordPost s m z) := by
  refine (executesTo_defineTemp (x := z) hs (hterm _) ?_).mono fun v s' m' h => h.wordPost (by simp)
  rw [IRInst.step_makeBinop, hx, hy, hop]
  rfl

section Components

variable (hform : mem.Form p) (hs : s.Open) (hnext : 16 ≤ s.nextVregId)
  (hlost : LostHolds ctx mem t s m)

include hform hs hnext hlost

/-- The base of the address. -/
lemma executesTo_addrBase :
    ExecutesTo (addrBase ctx mem) s m (WordPost s m
      (if mem.base = .rip then mem.disp.value else readValue ctx m.file t mem.base)) := by
  unfold addrBase
  rcases hform.base with hbase | ⟨hbase, -⟩ | ⟨g, hview⟩
  · rw [if_neg (by simp [hbase]), if_neg (by simp [hbase]), if_neg (by simp [hbase]), hbase,
      readValue_none]
    exact ExecutesTo.pure wordPost_imm
  · rw [if_neg (by simp [hbase]), if_pos hbase, if_pos hbase]
    exact ExecutesTo.pure wordPost_imm
  · have hrip : mem.base ≠ .rip := by
      intro h
      rw [h] at hview
      cases hview
    have hnone : mem.base ≠ .none := by
      intro h
      rw [h] at hview
      cases hview
    rw [if_pos ⟨hnone, hrip⟩, if_neg hrip]
    exact executesTo_readReg_component hview hform.ne_high8 hs hnext fun hpass hnarrow =>
      hlost hpass (Or.inl hnarrow) _ le_rfl

/-- The index register, scaled. -/
lemma executesTo_scaledIndex (hindex : mem.index ≠ .none) :
    ExecutesTo (scaledIndex ctx mem) s m
      (WordPost s m (readValue ctx m.file t mem.index * mem.scale.setWidth 64)) := by
  obtain ⟨g, hview⟩ := hform.index.resolve_left hindex
  have hread := executesTo_readReg_component hview hform.ne_high8 hs hnext (t := t) (m := m)
    fun hpass hnarrow => hlost hpass (Or.inr hnarrow) _ le_rfl
  refine ExecutesTo.bind hs hread fun idx s₁ m₁ hs₁ hidx => ?_
  have hscale := hform.scale hindex
  by_cases hone : 1 < mem.scale.toNat
  · rw [if_pos hone]
    refine (executesTo_binop_word hs₁ hidx.eval_word (Machine.eval_makeImm _ _ _) ?_ ?_).mono
      fun v s₂ m₂ h => h.of_le hidx.next_le hidx.same
    · simp [Opcode.binop]
    · exact fun _ => rfl
  · have : mem.scale = 1 := by
      simp only [List.mem_cons, List.not_mem_nil, or_false] at hscale
      rcases hscale with h | h | h | h <;> rw [h] at hone ⊢ <;> exact absurd (by decide) hone
    rw [if_neg hone, this]
    refine ExecutesTo.pure ?_
    simpa using hidx

/-- The code of an address computes the sum of what it reads. -/
lemma executesTo_computeAddr {op : ZydisDecodedOperand} (hop : op.mem = mem) :
    ExecutesTo (computeAddr ctx op) s m fun v _ m' =>
      m'.eval .ptr v = codeAddr ctx m.file t mem := by
  unfold computeAddr
  rw [hop]
  refine ExecutesTo.bind hs (executesTo_addrBase hform hs hnext hlost)
    fun base s₁ m₁ hs₁ hbase => ?_
  have hfile₁ := file_eq_of_sameBut hnext hbase.same
  have hnext₁ := hnext.trans hbase.next_le
  have hlost₁ := hlost.of_sameBut hbase.next_le hbase.same
  have hindex : ExecutesTo (addIndex ctx mem base) s₁ m₁ (WordPost s m
      ((if mem.base = .rip then mem.disp.value else readValue ctx m.file t mem.base) +
        readValue ctx m.file t mem.index * mem.scale.setWidth 64)) := by
    unfold addIndex
    by_cases hnone : mem.index = .none
    · rw [if_neg (not_not.mpr hnone), hnone, readValue_none, zero_mul, add_zero]
      exact ExecutesTo.pure hbase
    · rw [if_pos hnone]
      refine ExecutesTo.bind hs₁ (executesTo_scaledIndex hform hs₁ hnext₁ hlost₁ hnone) ?_
      intro idx s₂ m₂ hs₂ hidx
      rw [hfile₁] at hidx
      have hbase₂ := hbase.extend hidx.next_le hidx.same
      refine (executesTo_binop_word hs₂ hbase₂.eval_word hidx.eval_word rfl fun _ => rfl).mono ?_
      exact fun v s₃ m₃ h => h.of_le hbase₂.next_le hbase₂.same
  refine ExecutesTo.bind hs₁ hindex fun sum s₂ m₂ hs₂ hsum => ?_
  have hdisp : ExecutesTo (addDisp mem sum) s₂ m₂ (WordPost s m (codeAddr ctx m.file t mem)) := by
    unfold addDisp codeAddr ZydisMem.dispValue
    by_cases hhas : mem.disp.hasDisplacement = true ∧ mem.disp.value ≠ 0
    · rw [if_pos hhas, if_pos hhas.1]
      refine (executesTo_binop_word hs₂ hsum.eval_word (Machine.eval_makeImm _ _ _) ?_
        fun _ => rfl).mono fun v s₃ m₃ h => h.of_le hsum.next_le hsum.same
      simp [Opcode.binop]
    · have hzero : (if mem.disp.hasDisplacement then mem.disp.value else 0) = 0 := by
        split_ifs with h
        · exact not_not.mp fun hne => hhas ⟨h, hne⟩
        · rfl
      rw [if_neg hhas, hzero, add_zero]
      exact ExecutesTo.pure hsum
  refine ExecutesTo.bind hs₂ hdisp fun addr s₃ m₃ hs₃ haddr => ?_
  have hcast : (IRInst.makeCast .inttoptr ⟨s₃.nextVregId, "mem_ptr"⟩ .ptr addr).step m₃ =
      some (m₃.set s₃.nextVregId (codeAddr ctx m.file t mem)) := by
    rw [IRInst.step_makeCast rfl]
    exact congrArg (fun x => some (m₃.set s₃.nextVregId x)) haddr.eval_type
  exact (executesTo_defineTemp hs₃ rfl hcast).mono fun v s₄ m₄ h => h.value

end Components

/-! ## The address is right -/

/-- What makes the code compute the effective address. -/
structure RightAddress (ctx : LiftContext) (mem : ZydisMem) (f : RegFile) (nextVA : U64)
    (p : RegPart) : Prop where
  /-- The displacement of a RIP-relative operand stands for the address of the next instruction. -/
  rip : mem.base = .rip → mem.disp.value = nextVA
  /-- The components do not add up to more than a 32-bit address. -/
  fits : p = .dword → mem.sum f nextVA < 2 ^ 32
  /-- The truncation of a 32-bit register is kept. -/
  kept : mem.HasNarrow → ctx.passing = .byReference

/-- Without lost truncations and RIP-relative operands the code sums the components. -/
lemma codeAddr_eq_sum (hkept : mem.HasNarrow → ctx.passing = .byReference)
    (hrip : mem.base = .rip → mem.disp.value = nextVA) :
    codeAddr ctx f t mem = mem.sum f nextVA := by
  have hread : ∀ r, (r.IsNarrow → mem.HasNarrow) → readValue ctx f t r = f.component r := by
    intro r hr
    rw [readValue, if_neg]
    rintro ⟨hpass, hnarrow⟩
    rw [hkept (hr hnarrow)] at hpass
    cases hpass
  unfold codeAddr ZydisMem.sum ZydisMem.baseValue
  rw [hread mem.index Or.inr]
  by_cases h : mem.base = .rip
  · rw [if_pos h, if_pos h, hrip h]
  · rw [if_neg h, if_neg h, hread mem.base Or.inl]

/-- A 64-bit address has no narrow register. -/
lemma not_hasNarrow_of_qword (hform : mem.Form .qword) : ¬ mem.HasNarrow := by
  have hreg : ∀ r : ZydisRegister, (r = .none ∨ r = .rip ∨ ∃ g, r.view = some (g, .qword)) →
      ¬ r.IsNarrow := by
    rintro r (rfl | rfl | ⟨g, hview⟩)
    · exact fun h => absurd h.1 (by decide)
    · exact fun h => absurd h.1 (by decide)
    · simp [isNarrow_iff_of_view hview]
  rintro (hbase | hindex)
  · refine hreg mem.base ?_ hbase
    rcases hform.base with h | ⟨h, -⟩ | h
    · exact Or.inl h
    · exact Or.inr (Or.inl h)
    · exact Or.inr (Or.inr h)
  · refine hreg mem.index ?_ hindex
    rcases hform.index with h | h
    · exact Or.inl h
    · exact Or.inr (Or.inr h)

/-- A truncation that is lost shows: two contents of its temporary give two addresses. -/
lemma codeAddr_ne_of_lost (hform : mem.Form .dword) (hpass : ctx.passing = .byValue)
    (hnarrow : mem.HasNarrow) : codeAddr ctx f 0 mem ≠ codeAddr ctx f 1 mem := by
  have hrip : mem.base ≠ .rip := fun h => absurd (hform.eq_qword_of_rip h) (by decide)
  -- the step of a register from one content to the other
  have hstep : ∀ r : ZydisRegister, (r = .none ∨ ∃ g, r.view = some (g, .dword)) →
      readValue ctx f 1 r = readValue ctx f 0 r + (if r.IsNarrow then 1 else 0) := by
    rintro r (rfl | ⟨g, hview⟩)
    · rw [readValue_none, readValue_none, if_neg fun h => absurd h.2 (by decide), add_zero]
    · have hr := (isNarrow_iff_of_view hview).mpr (by decide)
      rw [readValue, readValue, if_pos ⟨hpass, hr⟩, if_pos ⟨hpass, hr⟩, if_pos hr,
        (tables_of_view hview).2]
      rfl
  have hbase := hstep mem.base (by
    rcases hform.base with h | ⟨h, -⟩ | h
    · exact Or.inl h
    · exact absurd h hrip
    · exact Or.inr h)
  have hindex := hstep mem.index hform.index
  have hdiff : codeAddr ctx f 1 mem = codeAddr ctx f 0 mem +
      ((if mem.base.IsNarrow then 1 else 0) +
        (if mem.index.IsNarrow then 1 else 0) * mem.scale.setWidth 64) := by
    unfold codeAddr
    rw [if_neg hrip, if_neg hrip, hbase, hindex]
    ring
  rw [hdiff, ne_eq, left_eq_add]
  by_cases hi : mem.index.IsNarrow
  · have hscale := hform.scale fun h => by
      rw [h] at hi
      exact absurd hi.1 (by decide)
    rw [if_pos hi]
    simp only [List.mem_cons, List.not_mem_nil, or_false] at hscale
    rcases hscale with h | h | h | h <;> rw [h] <;> split_ifs <;> decide
  · rw [if_neg hi, if_pos (hnarrow.resolve_right hi)]
    simp

/-- Some machine has the register file, and its temporaries hold `t`. -/
lemma exists_machine (f : RegFile) (t : U64) :
    ∃ m : Machine, m.file = f ∧ ∀ id, 16 ≤ id → m.regs id = t := by
  refine ⟨⟨Function.extend Gpr.vregId f fun _ => t, fun _ => 0, fun _ => 0⟩, ?_, fun id hid => ?_⟩
  · funext g
    exact Gpr.vregId_injective.extend_apply f (fun _ => t) g
  · refine Function.extend_apply' f (fun _ => t) id ?_
    rintro ⟨g, rfl⟩
    exact absurd g.vregId_lt (not_lt.mpr hid)

/-- What the code computes whatever the temporaries hold is the effective address only if the
address is right. -/
lemma rightAddress_of_codeAddr (hform : mem.Form p)
    (hcode : ∀ t, codeAddr ctx f t mem = mem.effectiveAddr f nextVA p) :
    RightAddress ctx mem f nextVA p := by
  have hkept : mem.HasNarrow → ctx.passing = .byReference := by
    intro hnarrow
    by_contra hpass
    replace hpass : ctx.passing = .byValue := by
      cases hctx : ctx.passing with
      | byValue => rfl
      | byReference => exact absurd hctx hpass
    rcases hform.size with rfl | rfl
    · exact codeAddr_ne_of_lost hform hpass hnarrow ((hcode 0).trans (hcode 1).symm)
    · exact not_hasNarrow_of_qword hform hnarrow
  refine ⟨fun hrip => ?_, fun hp => ?_, hkept⟩
  · obtain rfl := hform.eq_qword_of_rip hrip
    -- the index is read right, and cancels
    have hindex : readValue ctx f 0 mem.index = f.component mem.index := by
      rw [readValue, if_neg]
      exact fun hlost => not_hasNarrow_of_qword hform (Or.inr hlost.2)
    have hsum := hcode 0
    rw [ZydisMem.effectiveAddr_qword, codeAddr, ZydisMem.sum, ZydisMem.baseValue, if_pos hrip,
      if_pos hrip, hindex] at hsum
    exact add_right_cancel (add_right_cancel hsum)
  · subst hp
    have hrip : mem.base = .rip → mem.disp.value = nextVA := fun h =>
      absurd (hform.eq_qword_of_rip h) (by decide)
    rw [← ZydisMem.sum_eq_effectiveAddr_dword_iff, ← hcode 0, codeAddr_eq_sum hkept hrip]

/-- Where none of these makes a difference, the code computes the effective address. -/
lemma executesTo_effectiveAddr {op : ZydisDecodedOperand} {m : Machine} {nextVA : U64}
    (hform : op.mem.Form p) (hs : s.Open) (hnext : 16 ≤ s.nextVregId)
    (hright : RightAddress ctx op.mem m.file nextVA p) :
    ExecutesTo (computeAddr ctx op) s m fun v _ m' =>
      m'.eval .ptr v = op.mem.effectiveAddr m.file nextVA p := by
  obtain ⟨hrip, hfits, hkept⟩ := hright
  have hlost : LostHolds ctx op.mem 0 s m := fun hpass hnarrow => by
    rw [hkept hnarrow] at hpass
    cases hpass
  refine (executesTo_computeAddr hform hs hnext hlost rfl).mono fun v s' m' hvalue => ?_
  rw [hvalue, codeAddr_eq_sum hkept hrip]
  rcases hform.size with rfl | rfl
  · exact ZydisMem.sum_eq_effectiveAddr_dword_iff.mpr (hfits rfl)
  · exact ZydisMem.effectiveAddr_qword.symm

/-- The code computes the effective address whatever the temporaries hold, exactly if the operand is
not RIP-relative (or its displacement is the address of the next instruction), the components of a
32-bit address do not add up to more than 32 bits, and no truncation of a register is lost. -/
theorem computeAddr_iff {op : ZydisDecodedOperand} (f : RegFile) (nextVA : U64)
    (hform : op.mem.Form p) (hs : s.Open) (hnext : 16 ≤ s.nextVregId) :
    (∀ m : Machine, m.file = f → ExecutesTo (computeAddr ctx op) s m fun v _ m' =>
      m'.eval .ptr v = op.mem.effectiveAddr f nextVA p) ↔ RightAddress ctx op.mem f nextVA p := by
  constructor
  · intro h
    refine rightAddress_of_codeAddr hform fun t => ?_
    obtain ⟨m, hfile, htemp⟩ := exists_machine f t
    have hlost : LostHolds ctx op.mem t s m := fun _ _ id hid => htemp id (hnext.trans hid)
    obtain ⟨v, _, m', haddr, hvalue⟩ :=
      (h m hfile).and (executesTo_computeAddr hform hs hnext hlost rfl)
    rw [← haddr, hvalue, hfile]
  · rintro hright m rfl
    exact executesTo_effectiveAddr hform hs hnext hright

/-- `[rip + 0x10]`. -/
def ripRelative : ZydisDecodedOperand where
  type := .memory
  mem := { base := .rip, disp := { hasDisplacement := true, value := 0x10 } }

lemma ripRelative_form : ripRelative.mem.Form .qword :=
  ⟨Or.inr rfl, Or.inr (Or.inl ⟨rfl, rfl⟩), Or.inl rfl, fun h => absurd rfl h⟩

/-- `[rip + 0x10]` in an instruction that ends at 0x1007. -/
theorem computeAddr_iff_ripRelative :
    (∀ m : Machine, m.file = (fun _ => 0) →
      ExecutesTo (computeAddr bareContext ripRelative) emptyBlock m fun v _ m' =>
        m'.eval .ptr v = ripRelative.mem.effectiveAddr (fun _ => 0) 0x1007 .qword) ↔
      RightAddress bareContext ripRelative.mem (fun _ => 0) 0x1007 .qword :=
  computeAddr_iff (fun _ => 0) 0x1007 ripRelative_form emptyBlock_open (by decide)

/-- The address that is computed for `[rip + 0x10]` is 0x20, wherever the instruction is. -/
theorem computeAddr_ripRelative_ne :
    ripRelative.mem.effectiveAddr (fun _ => 0) 0x1007 .qword = 0x1017 ∧
      ∀ ctx : LiftContext, ¬ ExecutesTo (computeAddr ctx ripRelative) emptyBlock zeroMachine
        fun v _ m' => m'.eval .ptr v = 0x1017 := by
  refine ⟨by decide, fun ctx h => ?_⟩
  have hlost : LostHolds ctx ripRelative.mem 0 emptyBlock zeroMachine :=
    fun _ hnarrow => absurd hnarrow (not_hasNarrow_of_qword ripRelative_form)
  obtain ⟨v, _, m', haddr, hvalue⟩ :=
    h.and (executesTo_computeAddr ripRelative_form emptyBlock_open (by decide) hlost rfl)
  have hcode : codeAddr ctx zeroMachine.file 0 ripRelative.mem = 0x20 := by
    have hbase : ripRelative.mem.base = .rip := rfl
    have hindex : ripRelative.mem.index = .none := rfl
    rw [codeAddr, if_pos hbase, hindex, readValue_none]
    decide
  rw [haddr, hcode] at hvalue
  exact absurd hvalue (by decide)

end FunctionLifter

end InstaX
