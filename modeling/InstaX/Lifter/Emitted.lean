import InstaX.Lifter.Instr
import InstaX.X86.Semantics

/-!
# What lifted code may define

Every instruction that the lifter emits for a move, an address computation or a `not` is plain: it
ends no block, it always steps, and it defines a later temporary or one of the fixed registers
(`emits_liftInstr_of_keepsFlags`).  Code that only computes operands defines temporaries alone
(`emits_readOperand`).
-/

namespace InstaX

open Throwing

namespace IRInst

variable {S : Set ℕ} {id : ℕ} {name : String} {ty : IRType}

/-- An instruction with a destination and a value is plain. -/
lemma Plain.of_dst {i : IRInst} (hterm : i.isTerminator = false) (hdst : i.dst = some ⟨id, name⟩)
    (hstep : ∀ m, ∃ m', i.step m = some m') (hid : id ∈ S) : i.Plain S where
  isTerminator := hterm
  exists_step := hstep
  defines id' := by
    rintro ⟨d, hd, rfl⟩
    rw [hdst, Option.some_inj] at hd
    rw [← hd]
    exact hid

/-- An operation with a value is plain. -/
lemma plain_makeBinop {op : Opcode} (l r : IRValue) (hid : id ∈ S)
    (hop : ∀ x y : BitVec ty.width, ∃ v, op.binop x y = some v)
    (hterm : (makeBinop op ⟨id, name⟩ ty l r).isTerminator = false) :
    (makeBinop op ⟨id, name⟩ ty l r).Plain S := by
  refine Plain.of_dst hterm rfl (fun m => ?_) hid
  obtain ⟨v, hv⟩ := hop (m.eval ty l) (m.eval ty r)
  exact ⟨_, by rw [step_makeBinop, hv]; rfl⟩

/-- A conversion with a value is plain. -/
lemma plain_makeCast {op : Opcode} (x : IRValue) (hid : id ∈ S) (hcast : op.isCast = true)
    (hop : ∀ (w : ℕ) (y : BitVec w), ∃ v, op.cast ty.width y = some v) :
    (makeCast op ⟨id, name⟩ ty x).Plain S := by
  refine Plain.of_dst (by cases op <;> first | rfl | exact absurd hcast (by decide)) rfl
    (fun m => ?_) hid
  obtain ⟨v, hv⟩ := hop _ (m.eval x.type x)
  exact ⟨_, by rw [step_makeCast hcast, hv]; rfl⟩

/-- A move is plain. -/
lemma plain_makeMov (x : IRValue) (hid : id ∈ S) : (makeMov ⟨id, name⟩ ty x).Plain S :=
  Plain.of_dst rfl rfl (fun m => ⟨_, step_makeMov _ _ _ m⟩) hid

/-- A complement is plain. -/
lemma plain_makeNot (x : IRValue) (hid : id ∈ S) : (makeUnop .not ⟨id, name⟩ ty x).Plain S :=
  Plain.of_dst rfl rfl (fun m => ⟨_, step_makeUnop (Or.inr rfl) _ _ _ m⟩) hid

/-- A load of a sized type is plain. -/
lemma plain_makeLoad (ptr : IRValue) (flags : MemFlags) (hid : id ∈ S)
    (hty : ty.byteWidth.isSome = true) : (makeLoad ⟨id, name⟩ ty ptr flags).Plain S := by
  obtain ⟨n, hn⟩ := Option.isSome_iff_exists.mp hty
  exact Plain.of_dst rfl rfl (fun m => ⟨_, by simp [makeLoad, step, value, hn]; rfl⟩) hid

/-- A store of a sized type is plain. -/
lemma plain_makeStore (val ptr : IRValue) (flags : MemFlags)
    (hty : val.type.byteWidth.isSome = true) : (makeStore val ptr flags).Plain S where
  isTerminator := rfl
  exists_step m := by
    obtain ⟨n, hn⟩ := Option.isSome_iff_exists.mp hty
    exact ⟨_, by simp [makeStore, step, hn]; rfl⟩
  defines id := by
    rintro ⟨d, hd, -⟩
    cases hd

end IRInst

namespace FunctionLifter

variable {ctx : LiftContext} {s : LiftState} {S : Set ℕ}

/-- The property that every value the lifter handles has a type that can be loaded and stored. -/
def Storable (v : IRValue) (_ : LiftState) : Prop := v.type.byteWidth.isSome = true

/-- The type of a register has a size in bytes. -/
lemma storable_typeOfReg (reg : ZydisRegister) : (typeOfReg reg).byteWidth.isSome = true := by
  cases reg <;> rfl

/-- Taking a temporary and defining it. -/
lemma emits_defineTemp {ty : IRType} {inst : ℕ → IRInst} (hs : s.Open)
    (hi : (inst s.nextVregId).Plain S) (hty : ty.byteWidth.isSome = true) :
    Emits (defineTemp ty inst) s S Storable :=
  Emits.define hs hi fun _ _ _ => Emits.pure hty

/-- Reading a register defines at most one temporary. -/
lemma emits_readReg (reg : ZydisRegister) (hs : s.Open) (hS : Set.Ici s.nextVregId ⊆ S) :
    Emits (readReg ctx reg) s S Storable := by
  unfold readReg
  dsimp only
  split
  · exact Emits.pure rfl
  · split
    · exact Emits.pure rfl
    · refine emits_defineTemp hs ?_ (storable_typeOfReg reg)
      exact IRInst.plain_makeCast _ (hS (Set.mem_Ici.mpr le_rfl)) rfl fun _ _ => ⟨_, rfl⟩

/-- The registers from a later count on are still in the set. -/
lemma ici_subset {s' : LiftState} (hS : Set.Ici s.nextVregId ⊆ S)
    (h : s.nextVregId ≤ s'.nextVregId) : Set.Ici s'.nextVregId ⊆ S :=
  (Set.Ici_subset_Ici.mpr h).trans hS

/-- Reading a register through the call. -/
lemma emits_withBlockArg_readReg (hpass : ctx.passing = .byReference) (reg : ZydisRegister)
    (hs : s.Open) (hS : Set.Ici s.nextVregId ⊆ S) :
    Emits (withBlockArg ctx (readReg ctx reg)) s S Storable := by
  rw [withBlockArg_byReference hpass]
  exact emits_readReg reg hs hS

/-- A binary operation on 64-bit values in a temporary. -/
lemma emits_defineTemp_binop {op : Opcode} {name : String} {l r : IRValue} (hs : s.Open)
    (hS : Set.Ici s.nextVregId ⊆ S) (hop : op = .add ∨ op = .mul) :
    Emits (defineTemp .i64 fun id => .makeBinop op ⟨id, name⟩ .i64 l r) s S Storable := by
  refine emits_defineTemp hs (IRInst.plain_makeBinop _ _
    (hS (Set.mem_Ici.mpr le_rfl)) ?_ ?_) rfl <;>
    rcases hop with rfl | rfl
  · exact fun _ _ => ⟨_, rfl⟩
  · exact fun _ _ => ⟨_, rfl⟩
  · rfl
  · rfl

/-- The base of an address. -/
lemma emits_addrBase (hpass : ctx.passing = .byReference) (mem : ZydisMem) (hs : s.Open)
    (hS : Set.Ici s.nextVregId ⊆ S) : Emits (addrBase ctx mem) s S Storable := by
  unfold addrBase
  split
  · exact emits_withBlockArg_readReg hpass _ hs hS
  · split <;> exact Emits.pure rfl

/-- The index of an address. -/
lemma emits_addIndex (hpass : ctx.passing = .byReference) (mem : ZydisMem) {addr : IRValue}
    (haddr : Storable addr s) (hs : s.Open) (hS : Set.Ici s.nextVregId ⊆ S) :
    Emits (addIndex ctx mem addr) s S Storable := by
  unfold addIndex
  split
  · refine Emits.bind hs (P := Storable) ?_ fun idx s₁ hs₁ h₁ _ =>
      emits_defineTemp_binop hs₁ (ici_subset hS h₁) (Or.inl rfl)
    refine Emits.bind hs (emits_withBlockArg_readReg hpass _ hs hS) fun idx s₁ hs₁ h₁ hidx => ?_
    split
    · exact emits_defineTemp_binop hs₁ (ici_subset hS h₁) (Or.inr rfl)
    · exact Emits.pure hidx
  · exact Emits.pure haddr

/-- The displacement of an address. -/
lemma emits_addDisp (mem : ZydisMem) {addr : IRValue} (haddr : Storable addr s) (hs : s.Open)
    (hS : Set.Ici s.nextVregId ⊆ S) : Emits (addDisp mem addr) s S Storable := by
  unfold addDisp
  split
  · exact emits_defineTemp_binop hs hS (Or.inl rfl)
  · exact Emits.pure haddr

/-- The address of a memory operand is computed in temporaries. -/
lemma emits_computeAddr (hpass : ctx.passing = .byReference) (op : ZydisDecodedOperand)
    (hs : s.Open) (hS : Set.Ici s.nextVregId ⊆ S) : Emits (computeAddr ctx op) s S Storable := by
  refine Emits.bind hs (emits_addrBase hpass op.mem hs hS) fun base s₁ hs₁ h₁ hbase => ?_
  have hS₁ := ici_subset hS h₁
  refine Emits.bind hs₁ (emits_addIndex hpass op.mem hbase hs₁ hS₁) fun sum s₂ hs₂ h₂ hsum => ?_
  have hS₂ := ici_subset hS₁ h₂
  refine Emits.bind hs₂ (emits_addDisp op.mem hsum hs₂ hS₂) fun addr s₃ hs₃ h₃ _ => ?_
  exact emits_defineTemp hs₃ (IRInst.plain_makeCast _ (hS₂ h₃) rfl fun _ _ => ⟨_, rfl⟩) rfl

/-- Reading an operand defines temporaries. -/
lemma emits_readOperand (hpass : ctx.passing = .byReference) (op : ZydisDecodedOperand)
    {ty : IRType} (hty : ty.byteWidth.isSome = true) (hs : s.Open)
    (hS : Set.Ici s.nextVregId ⊆ S) : Emits (readOperand ctx op ty) s S Storable := by
  unfold readOperand
  split
  · exact emits_withBlockArg_readReg hpass _ hs hS
  · exact Emits.pure hty
  · refine Emits.bind hs (emits_computeAddr hpass op hs hS) fun ptr s₁ hs₁ h₁ _ => ?_
    exact emits_defineTemp hs₁ (IRInst.plain_makeLoad _ _ (hS h₁) hty) hty
  · exact Emits.pure rfl
  · exact Emits.pure rfl

/-- Writing a register defines that register and temporaries. -/
lemma emits_writeReg (reg : ZydisRegister) (val : IRValue) (hs : s.Open)
    (hS : Set.Ici s.nextVregId ⊆ S) (hgpr : Set.Iio 16 ⊆ S) :
    Emits (writeReg ctx reg val) s S fun _ _ => True := by
  unfold writeReg
  dsimp only
  split
  · exact Emits.pure trivial
  · rename_i id hid
    have hmem : id ∈ S := hgpr (gprVRegId_lt hid)
    split
    · exact Emits.pushInst hs (IRInst.plain_makeMov _ hmem)
    · split
      · refine Emits.define hs (IRInst.plain_makeCast _ (hS (Set.mem_Ici.mpr le_rfl)) rfl
          fun _ _ => ⟨_, rfl⟩) fun s₁ hs₁ _ => ?_
        exact Emits.pushInst hs₁ (IRInst.plain_makeMov _ hmem)
      · refine Emits.define hs (IRInst.plain_makeBinop _ _ (hS (Set.mem_Ici.mpr le_rfl))
          (fun _ _ => ⟨_, rfl⟩) rfl) fun s₁ hs₁ h₁ => ?_
        refine Emits.define hs₁ (IRInst.plain_makeCast _ (hS (Set.mem_Ici.mpr h₁.le)) rfl
          fun _ _ => ⟨_, rfl⟩) fun s₂ hs₂ _ => ?_
        exact Emits.pushInst hs₂ (IRInst.plain_makeBinop _ _ hmem (fun _ _ => ⟨_, rfl⟩) rfl)

/-- Writing an operand defines a register or stores. -/
lemma emits_writeOperand (hpass : ctx.passing = .byReference) (op : ZydisDecodedOperand)
    {val : IRValue} (hval : val.type.byteWidth.isSome = true) (hs : s.Open)
    (hS : Set.Ici s.nextVregId ⊆ S) (hgpr : Set.Iio 16 ⊆ S) :
    Emits (writeOperand ctx op val) s S fun _ _ => True := by
  unfold writeOperand
  split
  · rw [withBlockArg_byReference hpass]
    exact emits_writeReg op.reg val hs hS hgpr
  · refine Emits.bind hs (emits_computeAddr hpass op hs hS) fun ptr s₁ hs₁ _ _ => ?_
    exact Emits.pushInst hs₁ (IRInst.plain_makeStore _ _ _ hval)
  · exact Emits.pure trivial
  · exact Emits.pure trivial
  · exact Emits.pure trivial

/-! ## Instructions without an effect on the flags -/

/-- A type chosen by an encoded size has a size in bytes. -/
lemma storable_sizedType {ty : IRType} (hty : ty.byteWidth.isSome = true) (size : ℕ) :
    (sizedType ty size).byteWidth.isSome = true := by
  unfold sizedType
  split
  · rfl
  · split
    · rfl
    · split
      · rfl
      · exact hty

/-- The type of a `MOV` has a size in bytes. -/
lemma storable_movType (dst src : ZydisDecodedOperand) :
    (movType dst src).byteWidth.isSome = true := by
  unfold movType
  split
  · exact storable_typeOfReg _
  · split
    · exact storable_typeOfReg _
    · exact storable_sizedType rfl _

/-- The source type of an extension has a size in bytes. -/
lemma storable_extSrcType (src : ZydisDecodedOperand) :
    (extSrcType src).byteWidth.isSome = true := by
  unfold extSrcType
  split
  · exact storable_typeOfReg _
  · exact storable_sizedType rfl _

section Moves

variable (hpass : ctx.passing = .byReference) (hs : s.Open) (hS : Set.Ici s.nextVregId ⊆ S)
  (hgpr : Set.Iio 16 ⊆ S)

include hpass hs hS hgpr

/-- `liftMov` emits plain code. -/
lemma emits_liftMov (z : ZydisDecodedInstruction) :
    Emits (liftMov ctx z) s S fun _ _ => True := by
  refine Emits.bind hs (emits_readOperand hpass _ (storable_movType _ _) hs hS)
    fun src s₁ hs₁ h₁ hsrc => ?_
  exact emits_writeOperand hpass _ hsrc hs₁ (ici_subset hS h₁) hgpr

/-- `liftMovExt` emits plain code. -/
lemma emits_liftMovExt {castOp : Opcode} (hcast : castOp = .zext ∨ castOp = .sext) (name : String)
    (z : ZydisDecodedInstruction) : Emits (liftMovExt ctx castOp name z) s S fun _ _ => True := by
  refine Emits.bind hs (emits_readOperand hpass _ (storable_extSrcType _) hs hS)
    fun src s₁ hs₁ h₁ _ => ?_
  refine Emits.bind hs₁ (emits_defineTemp hs₁ (IRInst.plain_makeCast _ (hS h₁) ?_ ?_)
    (storable_typeOfReg _)) fun val s₂ hs₂ h₂ _ => ?_
  · rcases hcast with rfl | rfl <;> rfl
  · rcases hcast with rfl | rfl <;> exact fun _ _ => ⟨_, rfl⟩
  · rw [withBlockArg_byReference hpass]
    exact emits_writeReg _ val hs₂ (ici_subset hS (h₁.trans h₂)) hgpr

/-- `liftLea` emits plain code. -/
lemma emits_liftLea (z : ZydisDecodedInstruction) :
    Emits (liftLea ctx z) s S fun _ _ => True := by
  refine Emits.bind hs (emits_computeAddr hpass _ hs hS) fun addrPtr s₁ hs₁ h₁ _ => ?_
  refine Emits.bind hs₁ (emits_defineTemp hs₁
    (IRInst.plain_makeCast _ (hS h₁) rfl fun _ _ => ⟨_, rfl⟩) rfl) fun val s₂ hs₂ h₂ _ => ?_
  rw [withBlockArg_byReference hpass]
  exact emits_writeReg _ val hs₂ (ici_subset hS (h₁.trans h₂)) hgpr

/-- The complement emits plain code. -/
lemma emits_liftNot (z : ZydisDecodedInstruction) :
    Emits (liftUnary ctx false z) s S fun _ _ => True := by
  simp only [liftUnary, Bool.false_eq_true, if_false]
  refine Emits.bind hs (emits_readOperand hpass _ (storable_typeOfReg _) hs hS)
    fun src s₁ hs₁ h₁ _ => ?_
  refine Emits.bind hs₁ (emits_defineTemp hs₁ (IRInst.plain_makeNot _ (hS h₁))
    (storable_typeOfReg _)) fun result s₂ hs₂ h₂ hresult => ?_
  exact emits_writeOperand hpass _ hresult hs₂ (ici_subset hS (h₁.trans h₂)) hgpr

/-- An instruction without an effect on the flags emits plain code that defines later temporaries
and fixed registers, and keeps the recorded flags. -/
lemma emits_liftInstr_of_keepsFlags {di : DecodedInstr}
    (hkeeps : di.zydis.mnemonic.keepsFlags = true) :
    Emits (liftInstr ctx di) s S fun _ _ => True := by
  rw [liftInstr.eq_def]
  dsimp only
  generalize di.zydis.mnemonic = mnemonic at hkeeps
  cases mnemonic with
  | mov =>
    refine Emits.bind hs (emits_liftMov hpass hs hS hgpr _) fun _ s₁ hs₁ h₁ _ => ?_
    exact emits_liftMovExt hpass hs₁ (ici_subset hS h₁) hgpr (Or.inl rfl) _ _
  | movzx => exact emits_liftMovExt hpass hs hS hgpr (Or.inl rfl) _ _
  | movsx => exact emits_liftMovExt hpass hs hS hgpr (Or.inr rfl) _ _
  | movsxd => exact emits_liftMovExt hpass hs hS hgpr (Or.inr rfl) _ _
  | lea => exact emits_liftLea hpass hs hS hgpr _
  | not => exact emits_liftNot hpass hs hS hgpr _
  | nop =>
    refine Emits.pushInst hs ⟨rfl, fun m => ⟨m, rfl⟩, fun id hid => ?_⟩
    obtain ⟨d, hd, -⟩ := hid
    cases hd
  | _ => cases hkeeps

/-- So does a sequence of such instructions. -/
lemma emits_forM_of_keepsFlags {dis : List DecodedInstr}
    (hkeeps : ∀ di ∈ dis, di.zydis.mnemonic.keepsFlags = true) :
    Emits (forM dis (liftInstr ctx)) s S fun _ _ => True := by
  induction dis generalizing s with
  | nil => exact Emits.pure trivial
  | cons di dis ih =>
    rw [List.forM_cons]
    refine Emits.bind hs (emits_liftInstr_of_keepsFlags hpass hs hS hgpr
      (hkeeps di List.mem_cons_self)) fun _ s₁ hs₁ h₁ _ => ?_
    exact ih hs₁ (ici_subset hS h₁) fun di' hdi' => hkeeps di' (List.mem_cons_of_mem _ hdi')

end Moves

/-! ## Registers, with either parameter passing -/

section Passing

variable {m : Machine} {g : Gpr} {p : RegPart} {r : ZydisRegister} {α : Type} {act : LiftM α}

/-- The value that is read for a part of a register.  A narrow part is read from the temporary `id`,
which holds what it held before when the truncation is lost. -/
def codeRead (ctx : LiftContext) (m : Machine) (id : ℕ) (g : Gpr) (p : RegPart) :
    BitVec p.type.width :=
  if ctx.passing = .byValue ∧ p ≠ .qword then (m.regs id).setWidth p.type.width
  else p.readLow (m.file g)

/-- A register after a write, which may be lost. -/
def codeWrite (ctx : LiftContext) (p : RegPart) (x : BitVec 64) (v : BitVec p.type.width) :
    BitVec 64 :=
  if ctx.passing = .byValue then x else p.writeLow x v

/-- What is known of the text of an action goes with what is known of its meaning. -/
lemma ExecutesTo.and_emits {Q : α → LiftState → Machine → Prop} {P : α → LiftState → Prop}
    (hs : s.Open) (h : ExecutesTo act s m Q) (he : Emits act s S P) :
    ExecutesTo act s m fun a s' m' => Q a s' m' ∧ s'.Open ∧ s'.flagState = s.flagState := by
  obtain ⟨a, s', is, hrun, hblock, hterm, m', hm', hQ⟩ := h
  obtain ⟨a₂, s₂, -, hrun₂, -, -, -, hflags, -⟩ := he
  obtain ⟨rfl, rfl⟩ : a₂ = a ∧ s₂ = s' := by simpa [hrun] using hrun₂.symm
  refine ⟨a₂, s₂, is, hrun, hblock, hterm, m', hm', hQ, ?_, hflags⟩
  exact hs.of_append hblock hterm

/-- A part of a register is read into at most one temporary. -/
lemma executesTo_readReg_code (hview : r.view = some (g, p)) (hs : s.Open)
    (hnext : 16 ≤ s.nextVregId) :
    ExecutesTo (withBlockArg ctx (readReg ctx r)) s m fun v s' m' =>
      ReadPost s m (codeRead ctx m s.nextVregId g p) v s' m' ∧
        s'.nextVregId = s.nextVregId + if p = .qword then 0 else 1 := by
  obtain ⟨v, t, hrun, htype, hid, hnextt⟩ : ∃ v t, (readReg ctx r).run s = .ok v t ∧
      v.type = p.type ∧ v.vregId? = some (if p = .qword then g.vregId else s.nextVregId) ∧
      t.nextVregId = s.nextVregId + if p = .qword then 0 else 1 := by
    by_cases hq : p = .qword
    · subst hq
      exact ⟨_, _, run_readReg_qword hview, rfl, rfl, rfl⟩
    · exact ⟨_, _, run_readReg_narrow hview hq hs, rfl, by simp [hq], by simp [hq]⟩
  cases hpass : ctx.passing with
  | byReference =>
    rw [withBlockArg_byReference hpass, codeRead, if_neg (by simp [hpass])]
    obtain ⟨v', t', is, hrun', hblock, hterm, m', hm', hread⟩ :=
      @executesTo_readReg ctx _ _ _ _ hview hs hnext m
    obtain ⟨rfl, rfl⟩ : v' = v ∧ t' = t := by simpa [hrun] using hrun'.symm
    exact ⟨v', t', is, hrun, hblock, hterm, m', hm', hread, hnextt⟩
  | byValue =>
    have hvalue : m.eval p.type v = codeRead ctx m s.nextVregId g p := by
      rw [Machine.eval_of_vregId hid htype, codeRead]
      by_cases hq : p = .qword
      · rw [if_pos hq, if_neg fun h => h.2 hq]
        rfl
      · rw [if_neg hq, if_pos ⟨hpass, hq⟩]
    refine ⟨v, { t with block := s.block }, [], run_withBlockArg_byValue hpass hrun, by simp,
      by simp, m, rfl, ⟨by simp [hnextt], Machine.SameBut.refl _ m, htype, ?_, hvalue⟩, hnextt⟩
    intro id hid'
    obtain rfl := Option.some.inj (hid.symm.trans hid')
    have hlt := g.vregId_lt
    dsimp only
    rw [hnextt]
    split_ifs <;> omega

/-- A write of a register writes the register or nothing, and keeps the recorded flags. -/
lemma executesTo_writeReg_code (hview : r.view = some (g, p)) (hs : s.Open) {val : IRValue}
    (hty : val.type = p.type) (hval : ∀ id, val.vregId? = some id → id < s.nextVregId)
    (m : Machine) :
    ExecutesTo (withBlockArg ctx (writeReg ctx r val)) s m fun _ s' m' =>
      WritePost s m g (codeWrite ctx p (m.file g) (m.eval p.type val)) s' m' ∧ s'.Open ∧
        s'.flagState = s.flagState := by
  have hemits : Emits (writeReg ctx r val) s Set.univ fun _ _ => True :=
    emits_writeReg r val hs (Set.subset_univ _) (Set.subset_univ _)
  cases hpass : ctx.passing with
  | byReference =>
    rw [withBlockArg_byReference hpass, codeWrite, if_neg (by simp [hpass])]
    exact (executesTo_writeReg hview hs hty hval m).and_emits hs hemits
  | byValue =>
    obtain ⟨_, t, is, hrun, -, -, hle, hflags, -⟩ := hemits
    refine ⟨(), { t with block := s.block }, [], run_withBlockArg_byValue hpass hrun, by simp,
      by simp, m, rfl, ⟨hle, ?_⟩, hs, hflags⟩
    have hself : m.set g.vregId (m.file g) = m := by
      simp [Machine.set, Machine.file]
    rw [codeWrite, if_pos hpass, hself]
    exact Machine.SameBut.refl _ m

end Passing

end FunctionLifter

end InstaX
