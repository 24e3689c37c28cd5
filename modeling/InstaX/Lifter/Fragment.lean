import InstaX.Lifter.FunctionRuns

/-!
# The language of lifted code

Of the intermediate representation the lifter uses a small part: integer operations on temporaries,
comparisons, loads and stores, branches, calls, and writes of general purpose registers
(`IRInst.Emitted`).  That every instruction of a lifted function is in that part
(`emittedBlock_of_mem_liftBlocks`) goes through the lifter case by case, however it ends, with a
rule for programs that only append such code (`AppendsOnly`).

Two things follow.  Lifted code gets stuck at a division, a shift or a call only
(`liftFunction_step_eq_none_iff`).  And as the source is written, where `readReg` and `writeReg`
append to a copy of the block, no run of a lifted function changes a register of the guest
(`registers_of_reaches_byValue`).
-/

namespace InstaX

open Throwing StraightLine

/-- The binary operations on integers. -/
def Opcode.isIntegerBinop : Opcode → Bool
  | .add | .sub | .mul | .sdiv | .udiv | .srem | .urem | .and | .or | .xor | .shl | .lshr | .ashr =>
      true
  | _ => false

/-- The types at which data is moved to and from memory: those of registers and encoded sizes, and
those that the functions without a body return. -/
def LiftContext.Moves (ctx : LiftContext) (ty : IRType) : Prop :=
  ty ∈ [IRType.i8, .i16, .i32, .i64, .ptr] ∨ (∃ x y, ctx.destWidth x y = ty) ∨
    ∃ n, ctx.typeFromEncodedSize n = ty

namespace IRInst

/-- The instructions that the lifter appends.  General purpose registers are written only if
`writeReg` gets the block by reference. -/
inductive Emitted (ctx : LiftContext) : IRInst → Prop
  | binop {op : Opcode} {id : ℕ} {name : String} {ty : IRType} {v w : IRValue}
      (hop : op.isIntegerBinop = true) (hid : 20 ≤ id) :
        Emitted ctx (makeBinop op ⟨id, name⟩ ty v w)
  | unop {op : Opcode} {id : ℕ} {name : String} {ty : IRType} {v : IRValue}
    (hop : op = .neg ∨ op = .not)
      (hid : 20 ≤ id) : Emitted ctx (makeUnop op ⟨id, name⟩ ty v)
  | cast {op : Opcode} {id : ℕ} {name : String} {ty : IRType} {v : IRValue}
      (hop : op ∈ [Opcode.trunc, .zext, .sext, .inttoptr, .ptrtoint]) (hid : 20 ≤ id) :
      Emitted ctx (makeCast op ⟨id, name⟩ ty v)
  | icmp {cond : IcmpCond} {id : ℕ} {name : String} {v w : IRValue} (hid : 20 ≤ id) :
      Emitted ctx (makeIcmp cond ⟨id, name⟩ v w)
  | load {id : ℕ} {name : String} {ty : IRType} {ptr : IRValue} {flags : MemFlags}
    (hty : ctx.Moves ty)
      (hid : 20 ≤ id) : Emitted ctx (makeLoad ⟨id, name⟩ ty ptr flags)
  | store {val ptr : IRValue} {flags : MemFlags} (hty : ctx.Moves val.type) :
      Emitted ctx (makeStore val ptr flags)
  | call {id : ℕ} {name : String} {callee : IRValue} (hid : 20 ≤ id) :
      Emitted ctx (makeCall (some ⟨id, name⟩) .i64 callee [] .c false)
  | writeMov {id : ℕ} {name : String} {v : IRValue} (hpass : ctx.passing = .byReference)
      (hid : id < 16) : Emitted ctx (makeMov ⟨id, name⟩ .i64 v)
  | writeOr {id : ℕ} {name : String} {v w : IRValue} (hpass : ctx.passing = .byReference)
      (hid : id < 16) : Emitted ctx (makeBinop .or ⟨id, name⟩ .i64 v w)
  | nop {va : U64} : Emitted ctx { makeNop with sourceAddr := va }
  | jmp {label : String} : Emitted ctx (makeJmp label)
  | cjmp {cond : IRValue} {label label' : String} : Emitted ctx (makeCjmp cond label label')

end IRInst

/-! ## Programs that append such code -/

/-- Only the last instruction may end the block. -/
def IRBasicBlock.EndsLast (b : IRBasicBlock) : Prop :=
  ∀ i ∈ b.instructions.dropLast, i.isTerminator = false

/-- A block takes an instruction behind the others, unless it is terminated. -/
lemma IRBasicBlock.eq_append_of_pushInst {b b' : IRBasicBlock} {i : IRInst} (hb : b.EndsLast)
    (h : b.pushInst i = .ok b') : b' = b.append [i] ∧ b'.EndsLast := by
  unfold pushInst at h
  split_ifs at h with hterm
  cases h
  refine ⟨rfl, fun j hj => ?_⟩
  rw [append_instructions, List.dropLast_concat] at hj
  rcases List.eq_nil_or_concat b.instructions with hnil | ⟨js, k, hjs⟩
  · rw [hnil] at hj
    cases hj
  · rw [List.concat_eq_append] at hjs
    rw [hjs] at hj
    rcases List.mem_append.mp hj with hj | hj
    · exact hb j (by rwa [hjs, List.dropLast_concat])
    · rw [List.mem_singleton.mp hj]
      simpa [isTerminated, hjs] using hterm

/-- However the program ends, it keeps the invariant and appends instructions that satisfy `P`; the
value it returns satisfies `Q`. -/
def AppendsOnly {σ α : Type} (block : σ → IRBasicBlock) (Inv : σ → Prop) (P : IRInst → Prop)
    (act : Prog σ α) (Q : α → Prop) : Prop :=
  ∀ s t, Inv s → Leaves act s t →
    Inv t ∧ (∃ is, block t = (block s).append is ∧ ∀ i ∈ is, P i) ∧ ∀ a, act.run s = .ok a t → Q a

namespace AppendsOnly

variable {σ α β : Type} {block : σ → IRBasicBlock} {Inv : σ → Prop} {P : IRInst → Prop}
  {act : Prog σ α} {Q : α → Prop} {R : β → Prop}

lemma pure {a : α} (h : Q a) : AppendsOnly block Inv P (pure a) Q := by
  intro s t hs hleaves
  obtain rfl := hleaves.eq_of_ok rfl
  refine ⟨hs, ⟨[], by simp, by simp⟩, fun b hb => ?_⟩
  cases hb
  exact h

/-- Programs append one after the other. -/
lemma bind {f : α → Prog σ β} (h : AppendsOnly block Inv P act Q)
    (hf : ∀ a, Q a → AppendsOnly block Inv P (f a) R) : AppendsOnly block Inv P (act >>= f) R := by
  intro s t hs hleaves
  rcases leaves_bind_iff.mp hleaves with ⟨err, herror⟩ | ⟨a, s₁, hok, hleaves'⟩
  · obtain ⟨ht, his, -⟩ := h s t hs (Or.inr ⟨err, herror⟩)
    refine ⟨ht, his, fun b hb => ?_⟩
    rw [run_bind_of_error herror] at hb
    cases hb
  · obtain ⟨hs₁, ⟨is, hblock, his⟩, hQ⟩ := h s s₁ hs (Or.inl ⟨a, hok⟩)
    obtain ⟨ht, ⟨js, hblock', hjs⟩, hR⟩ := hf a (hQ a hok) s₁ t hs₁ hleaves'
    refine ⟨ht, ⟨is ++ js, ?_, fun i hi => (List.mem_append.mp hi).elim (his i) (hjs i)⟩,
      fun b hb => ?_⟩
    · rw [hblock', hblock, IRBasicBlock.append_append]
    · rw [run_bind_of_ok hok] at hb
      exact hR b hb

lemma mono {Q' : α → Prop} (h : AppendsOnly block Inv P act Q) (hQ : ∀ a, Q a → Q' a) :
    AppendsOnly block Inv P act Q' := by
  intro s t hs hleaves
  obtain ⟨ht, his, ha⟩ := h s t hs hleaves
  exact ⟨ht, his, fun a hrun => hQ a (ha a hrun)⟩

/-- A change of state that leaves the block and the invariant alone. -/
lemma modify {f : σ → σ} (hblock : ∀ s, block (f s) = block s) (hInv : ∀ s, Inv s → Inv (f s)) :
    AppendsOnly block Inv P (modify f : Prog σ PUnit) fun _ => True := by
  intro s t hs hleaves
  obtain rfl := hleaves.eq_of_ok
    (rfl : (MonadState.modifyGet _ : Prog σ PUnit).run s = .ok ⟨⟩ (f s))
  exact ⟨hInv s hs, ⟨[], by simp [hblock], by simp⟩, fun _ _ => trivial⟩

end AppendsOnly

/-! ## Conditions -/

namespace FlagState

open EmitM

variable {ctx : LiftContext} {ids : ℕ → ℕ}

/-- What an emitter of conditions appends. -/
private def Emits {α : Type} (ctx : LiftContext) (act : EmitM α) : Prop :=
  AppendsOnly Emission.block (fun e => e.block.EndsLast) (IRInst.Emitted ctx) act fun _ => True

/-- A new temporary is defined by an emitted instruction. -/
private lemma emits_define {inst : ℕ → IRInst} (hids : ∀ k, 20 ≤ ids k)
    (hinst : ∀ id, 20 ≤ id → (inst id).Emitted ctx) : Emits ctx (define ids inst) := by
  rintro ⟨block, k⟩ t hs hleaves
  have halloc : (alloc ids).run ⟨block, k⟩ = .ok (ids k) ⟨block, k + 1⟩ := rfl
  rw [define, leaves_bind_of_ok halloc] at hleaves
  cases hpush : block.pushInst (inst (ids k)) with
  | error err =>
    have hrun : (pushInst (inst (ids k))).run ⟨block, k + 1⟩ = .error err ⟨block, k + 1⟩ := by
      simp [pushInst, hpush]
    obtain rfl := hleaves.eq_of_error (run_bind_of_error hrun _)
    exact ⟨hs, ⟨[], by simp, by simp⟩, fun _ _ => trivial⟩
  | ok block' =>
    obtain ⟨rfl, hends⟩ := IRBasicBlock.eq_append_of_pushInst hs hpush
    have hrun : (pushInst (inst (ids k))).run ⟨block, k + 1⟩ =
        .ok () ⟨block.append [inst (ids k)], k + 1⟩ := by
      simp [pushInst, hpush]
    rw [leaves_bind_of_ok hrun] at hleaves
    obtain rfl := hleaves.eq_of_ok rfl
    exact ⟨hends, ⟨[inst (ids k)], rfl, by simpa using hinst _ (hids k)⟩, fun _ _ => trivial⟩

/-- The code of a condition consists of comparisons and operations on their results. -/
private lemma compositional_emits (fs : FlagState) (hids : ∀ k, 20 ≤ ids k) :
    Compositional fs ids (Emits ctx) where
  not hx := hx.bind fun _ _ => emits_define hids fun _ => .binop rfl
  and hx hy := hx.bind fun _ _ => hy.bind fun _ _ => emits_define hids fun _ => .binop rfl
  or hx hy := hx.bind fun _ _ => hy.bind fun _ _ => emits_define hids fun _ => .binop rfl
  xor hx hy := hx.bind fun _ _ => hy.bind fun _ _ => emits_define hids fun _ => .binop rfl
  imm _ := AppendsOnly.pure trivial
  icmp _ _ := emits_define hids fun _ => .icmp

variable (ctx) in
/-- A request for a flag appends emitted instructions and no branch. -/
lemma appendsOnly_materialise (fs : FlagState) (hids : ∀ k, 20 ≤ ids k) (request : FlagRequest) :
    AppendsOnly Emission.block (fun e => e.block.EndsLast) (IRInst.Emitted ctx)
      (fs.materialise ids request) fun _ => True :=
  (compositional_emits fs hids).materialise request

end FlagState

namespace FunctionLifter

variable {ctx : LiftContext} {P : IRInst → Prop} {α β : Type}

/-- Temporaries come behind the registers of the guest, and only the last instruction may end the
block. -/
structure LiftInv (s : LiftState) : Prop where
  next : 20 ≤ s.nextVregId
  endsLast : s.block.EndsLast

/-- What an action of the lifter appends. -/
def LiftsOnly (P : IRInst → Prop) (act : LiftM α) (Q : α → Prop) : Prop :=
  AppendsOnly LiftState.block LiftInv P act Q

/-- The value has a type at which data is moved. -/
def Movable (ctx : LiftContext) (v : IRValue) : Prop := ctx.Moves v.type

variable (ctx) in
lemma moves_i64 : ctx.Moves .i64 := Or.inl (by simp)

variable (ctx) in
lemma moves_ptr : ctx.Moves .ptr := Or.inl (by simp)

variable (ctx) in
/-- The types of registers are moved. -/
lemma moves_typeOfReg (reg : ZydisRegister) : ctx.Moves (typeOfReg reg) := by
  left
  cases reg <;> simp [typeOfReg]

/-- A type chosen by an encoded size is moved. -/
lemma moves_sizedType {ty : IRType} (hty : ctx.Moves ty) (size : ℕ) :
    ctx.Moves (sizedType ty size) := by
  unfold sizedType
  split_ifs
  · exact Or.inl (by simp)
  · exact Or.inl (by simp)
  · exact Or.inl (by simp)
  · exact hty

/-! ## Appending -/

/-- A new temporary has an id behind the fixed registers. -/
lemma liftsOnly_newTemp : LiftsOnly P newTemp fun id => 20 ≤ id := by
  intro s t hs hleaves
  obtain rfl := hleaves.eq_of_ok (run_newTemp s)
  have hends : (s.emit 1 []).block.EndsLast := by simpa using hs.endsLast
  refine ⟨⟨hs.next.trans (by simp), hends⟩, ⟨[], by simp, by simp⟩, fun id hid => ?_⟩
  rw [run_newTemp] at hid
  cases hid
  exact hs.next

/-- An instruction with the property may be pushed. -/
lemma liftsOnly_pushInst {i : IRInst} (hi : P i) :
    LiftsOnly P (pushInst i) fun _ => True := by
  intro s t hs hleaves
  cases hpush : s.block.pushInst i with
  | error err =>
    have hrun : (pushInst i).run s = .error err s := by simp [pushInst, hpush]
    obtain rfl := hleaves.eq_of_error hrun
    exact ⟨hs, ⟨[], by simp, by simp⟩, fun _ _ => trivial⟩
  | ok b =>
    obtain ⟨rfl, hends⟩ := IRBasicBlock.eq_append_of_pushInst hs.endsLast hpush
    have hrun : (pushInst i).run s = .ok () { s with block := s.block.append [i] } := by
      simp [pushInst, hpush]
    obtain rfl := hleaves.eq_of_ok hrun
    exact ⟨⟨hs.next, hends⟩, ⟨[i], rfl, by simpa using hi⟩, fun _ _ => trivial⟩

/-- An instruction with the property may define a temporary, which then may be moved. -/
lemma liftsOnly_defineTemp {ty : IRType} {inst : ℕ → IRInst} (hty : ctx.Moves ty)
    (hinst : ∀ id, 20 ≤ id → P (inst id)) :
    LiftsOnly P (defineTemp ty inst) (Movable ctx) :=
  liftsOnly_newTemp.bind fun id hid =>
    (liftsOnly_pushInst (hinst id hid)).bind fun _ _ => AppendsOnly.pure hty

/-- A change of the flag record. -/
lemma liftsOnly_setFlags (op : FlagOp) (result lhs rhs : IRValue) (ty : IRType) :
    LiftsOnly P (setFlags op result lhs rhs ty) fun _ => True :=
  AppendsOnly.modify (fun _ => rfl) fun _ hs => ⟨hs.next, hs.endsLast⟩

/-- Invalidating the record appends nothing. -/
lemma liftsOnly_invalidateFlags : LiftsOnly P invalidateFlags fun _ => True :=
  AppendsOnly.modify (fun _ => rfl) fun _ hs => ⟨hs.next, hs.endsLast⟩

/-- A function that gets the block by value appends nothing, and one that gets it by reference
appends what its body does. -/
lemma liftsOnly_withBlockArg {body : LiftM α} {Q : α → Prop}
    (hextends : Extends LiftState.block (withBlockArg ctx body))
      (hhalts : Halts (withBlockArg ctx body))
    (h : LiftsOnly (fun i => ctx.passing = .byReference → P i) body Q) :
    LiftsOnly P (withBlockArg ctx body) Q := by
  cases hpass : ctx.passing with
  | byReference =>
    rw [withBlockArg_byReference hpass]
    intro s t hs hleaves
    obtain ⟨ht, ⟨is, hblock, his⟩, hQ⟩ := h s t hs hleaves
    exact ⟨ht, ⟨is, hblock, fun i hi => his i hi hpass⟩, hQ⟩
  | byValue =>
    intro s t hs hleaves
    cases hbody : body.run s with
    | error err t' =>
      -- only a terminated block makes the body throw, and then nothing is appended
      have hget : (get : LiftM LiftState).run s = .ok s s := rfl
      have herror : (withBlockArg ctx body).run s = .error err t' := by
        simp only [withBlockArg, hpass]
        rw [run_bind_of_ok hget, run_bind_of_error hbody]
      cases hterm : s.block.isTerminated with
      | true =>
        have hrest := hhalts s t hterm hleaves
        refine ⟨⟨hs.next.trans hrest.next_le, hrest.block ▸ hs.endsLast⟩,
          ⟨[], by simp [hrest.block], by simp⟩, fun a ha => ?_⟩
        cases herror.symm.trans ha
      | false =>
        obtain ⟨a, s', -, hrun, -⟩ := hextends s hterm
        cases herror.symm.trans hrun
    | ok a s₁ =>
      obtain ⟨hs₁, -, hQ⟩ := h s s₁ hs (Or.inl ⟨a, hbody⟩)
      have hrun := run_withBlockArg_byValue hpass hbody
      obtain rfl := hleaves.eq_of_ok hrun
      refine ⟨⟨hs₁.next, hs.endsLast⟩, ⟨[], by simp, by simp⟩, fun b hb => ?_⟩
      obtain ⟨rfl, -⟩ := EStateM.Result.ok.inj (hrun.symm.trans hb)
      exact hQ _ hbody

/-! ## Operands -/

section Operands

variable (ctx)

/-- Reading a register appends only instructions of the fragment. -/
lemma lifts_readReg (reg : ZydisRegister) :
    LiftsOnly (IRInst.Emitted ctx) (withBlockArg ctx (readReg ctx reg)) (Movable ctx) := by
  refine liftsOnly_withBlockArg (extends_readReg ctx reg) (halts_readReg ctx reg) ?_
  unfold readReg
  dsimp only
  split
  · exact AppendsOnly.pure (moves_i64 ctx)
  · split
    · exact AppendsOnly.pure (moves_i64 ctx)
    · exact liftsOnly_newTemp.bind fun id hid =>
        (liftsOnly_pushInst fun _ => .cast (by simp) hid).bind fun _ _ =>
          AppendsOnly.pure (moves_typeOfReg ctx reg)

/-- So does writing one. -/
lemma lifts_writeReg (reg : ZydisRegister) (val : IRValue) :
    LiftsOnly (IRInst.Emitted ctx) (withBlockArg ctx (writeReg ctx reg val)) fun _ => True := by
  refine liftsOnly_withBlockArg (extends_writeReg ctx reg val) (halts_writeReg ctx reg val) ?_
  unfold writeReg
  dsimp only
  split
  · exact AppendsOnly.pure trivial
  · rename_i id hid
    have hlt := gprVRegId_lt hid
    split
    · exact liftsOnly_pushInst fun hpass => .writeMov hpass hlt
    · split
      · exact liftsOnly_newTemp.bind fun _ hz =>
          (liftsOnly_pushInst fun _ => .cast (by simp) hz).bind fun _ _ =>
            liftsOnly_pushInst fun hpass => .writeMov hpass hlt
      · exact liftsOnly_newTemp.bind fun _ hmasked =>
          (liftsOnly_pushInst fun _ => .binop rfl hmasked).bind fun _ _ =>
            liftsOnly_newTemp.bind fun _ hz =>
              (liftsOnly_pushInst fun _ => .cast (by simp) hz).bind fun _ _ =>
                liftsOnly_pushInst fun hpass => .writeOr hpass hlt

/-- The base of an address appends only instructions of the fragment. -/
lemma lifts_addrBase (mem : ZydisMem) :
    LiftsOnly (IRInst.Emitted ctx) (addrBase ctx mem) (Movable ctx) := by
  unfold addrBase
  split
  · exact lifts_readReg ctx _
  · split
    · exact AppendsOnly.pure (moves_i64 ctx)
    · exact AppendsOnly.pure (moves_i64 ctx)

/-- So does adding the scaled index. -/
lemma lifts_addIndex (mem : ZydisMem) {addr : IRValue} (haddr : Movable ctx addr) :
    LiftsOnly (IRInst.Emitted ctx) (addIndex ctx mem addr) (Movable ctx) := by
  have hscaled : LiftsOnly (IRInst.Emitted ctx) (scaledIndex ctx mem) (Movable ctx) := by
    refine (lifts_readReg ctx _).bind fun idx hidx => ?_
    split
    · exact liftsOnly_defineTemp (moves_i64 ctx) fun _ => .binop rfl
    · exact AppendsOnly.pure hidx
  unfold addIndex
  split
  · exact hscaled.bind fun _ _ => liftsOnly_defineTemp (moves_i64 ctx) fun _ => .binop rfl
  · exact AppendsOnly.pure haddr

/-- So does adding the displacement. -/
lemma lifts_addDisp (mem : ZydisMem) {addr : IRValue} (haddr : Movable ctx addr) :
    LiftsOnly (IRInst.Emitted ctx) (addDisp mem addr) (Movable ctx) := by
  unfold addDisp
  split
  · exact liftsOnly_defineTemp (moves_i64 ctx) fun _ => .binop rfl
  · exact AppendsOnly.pure haddr

/-- So does the whole address. -/
lemma lifts_computeAddr (op : ZydisDecodedOperand) :
    LiftsOnly (IRInst.Emitted ctx) (computeAddr ctx op) (Movable ctx) :=
  (lifts_addrBase ctx _).bind fun _ hbase => (lifts_addIndex ctx _ hbase).bind fun _ hsum =>
    (lifts_addDisp ctx _ hsum).bind fun _ _ => liftsOnly_defineTemp (moves_ptr ctx) fun _ =>
      .cast (by simp)

/-- Reading an operand appends only instructions of the fragment. -/
lemma lifts_readOperand (op : ZydisDecodedOperand) {ty : IRType} (hty : ctx.Moves ty) :
    LiftsOnly (IRInst.Emitted ctx) (readOperand ctx op ty) (Movable ctx) := by
  unfold readOperand
  split
  · exact lifts_readReg ctx _
  · exact AppendsOnly.pure hty
  · exact (lifts_computeAddr ctx _).bind fun _ _ => liftsOnly_defineTemp hty fun _ => .load hty
  · exact AppendsOnly.pure (moves_i64 ctx)
  · exact AppendsOnly.pure (moves_i64 ctx)

/-- So does writing one. -/
lemma lifts_writeOperand (op : ZydisDecodedOperand) {val : IRValue} (hval : Movable ctx val) :
    LiftsOnly (IRInst.Emitted ctx) (writeOperand ctx op val) fun _ => True := by
  unfold writeOperand
  split
  · exact lifts_writeReg ctx _ _
  · exact (lifts_computeAddr ctx _).bind fun _ _ => liftsOnly_pushInst (.store hval)
  · exact AppendsOnly.pure trivial
  · exact AppendsOnly.pure trivial
  · exact AppendsOnly.pure trivial

end Operands

/-! ## Instructions -/

section Instructions

variable (ctx)

/-- The type of an arithmetic instruction is moved. -/
lemma moves_arithType (op : ZydisDecodedOperand) : ctx.Moves (arithType op) := by
  unfold arithType
  split
  · exact moves_typeOfReg ctx _
  · exact moves_sizedType (moves_i64 ctx) _

/-- The type of a `MOV` is moved. -/
lemma moves_movType (dst src : ZydisDecodedOperand) : ctx.Moves (movType dst src) := by
  unfold movType
  split_ifs
  · exact moves_typeOfReg ctx _
  · exact moves_typeOfReg ctx _
  · exact moves_sizedType (moves_i64 ctx) _

/-- The type of a comparison is moved. -/
lemma moves_cmpType (dst : ZydisDecodedOperand) : ctx.Moves (cmpType ctx dst) := by
  unfold cmpType
  split
  · exact moves_typeOfReg ctx _
  · exact Or.inr (Or.inr ⟨_, rfl⟩)

/-- The width of a destination is moved. -/
lemma moves_destWidth (x y : ZydisDecodedOperand) : ctx.Moves (ctx.destWidth x y) :=
  Or.inr (Or.inl ⟨x, y, rfl⟩)

/-- `MOV` appends only instructions of the fragment. -/
lemma lifts_liftMov (z : ZydisDecodedInstruction) :
    LiftsOnly (IRInst.Emitted ctx) (liftMov ctx z) fun _ => True :=
  (lifts_readOperand ctx _ (moves_movType ctx _ _)).bind fun _ hsrc => lifts_writeOperand ctx _ hsrc

/-- A binary operation and its record append only instructions of the fragment. -/
lemma lifts_liftBinop {op : Opcode} (hop : op.isIntegerBinop = true) (name : String) (fop : FlagOp)
    {ty : IRType} (hty : ctx.Moves ty) (x y : ZydisDecodedOperand) :
    LiftsOnly (IRInst.Emitted ctx) (liftBinop ctx op name fop ty x y) (Movable ctx) := by
  unfold liftBinop binopCode
  simp only [bind_assoc, pure_bind]
  refine (lifts_readOperand ctx x hty).bind fun _ _ =>
    (lifts_readOperand ctx y hty).bind fun _ _ => ?_
  refine (liftsOnly_defineTemp hty fun _ => .binop hop).bind fun _ hresult => ?_
  exact (liftsOnly_setFlags _ _ _ _ _).bind fun _ _ => AppendsOnly.pure hresult

/-- So do `MOVZX`, `MOVSX` and `MOVSXD`. -/
lemma lifts_liftMovExt {castOp : Opcode} (hop : castOp = .zext ∨ castOp = .sext) (name : String)
    (z : ZydisDecodedInstruction) :
    LiftsOnly (IRInst.Emitted ctx) (liftMovExt ctx castOp name z) fun _ => True := by
  have hsrc : ctx.Moves (extSrcType (z.op 1)) := by
    unfold extSrcType
    split
    · exact moves_typeOfReg ctx _
    · exact moves_sizedType (Or.inl (by simp)) _
  refine (lifts_readOperand ctx _ hsrc).bind fun _ _ => ?_
  refine (liftsOnly_defineTemp (moves_typeOfReg ctx _) fun _ => .cast ?_).bind fun _ _ =>
    lifts_writeReg ctx _ _
  rcases hop with rfl | rfl <;> simp

/-- So do the arithmetic and logical instructions with two operands. -/
lemma lifts_liftArith {op : Opcode} (hop : op.isIntegerBinop = true) (name : String) (fop : FlagOp)
    {ty : IRType} (hty : ctx.Moves ty) (z : ZydisDecodedInstruction) :
    LiftsOnly (IRInst.Emitted ctx) (liftArith ctx op name fop ty z) fun _ => True :=
  (lifts_liftBinop ctx hop _ _ hty _ _).bind fun _ hresult => lifts_writeOperand ctx _ hresult

/-- So do `CMP` and `TEST`. -/
lemma lifts_liftCompare {op : Opcode} (hop : op.isIntegerBinop = true) (name : String)
    (fop : FlagOp)
    (z : ZydisDecodedInstruction) :
    LiftsOnly (IRInst.Emitted ctx) (liftCompare ctx op name fop z) fun _ => True :=
  (lifts_liftBinop ctx hop _ _ (moves_cmpType ctx _) _ _).bind fun _ _ => AppendsOnly.pure trivial

/-- So do `NEG` and `NOT`. -/
lemma lifts_liftUnary (isNeg : Bool) (z : ZydisDecodedInstruction) :
    LiftsOnly (IRInst.Emitted ctx) (liftUnary ctx isNeg z) fun _ => True := by
  refine (lifts_readOperand ctx _ (moves_typeOfReg ctx _)).bind fun _ _ => ?_
  have hop : (if isNeg then Opcode.neg else .not) = .neg ∨ (if isNeg then Opcode.neg else .not) =
    .not := by
    cases isNeg <;> simp
  refine (liftsOnly_defineTemp (moves_typeOfReg ctx _) fun _ => .unop hop).bind fun _ hresult => ?_
  cases isNeg
  · exact lifts_writeOperand ctx _ hresult
  · exact (liftsOnly_setFlags _ _ _ _ _).bind fun _ _ => lifts_writeOperand ctx _ hresult

/-- So do `INC` and `DEC`. -/
lemma lifts_liftIncDec (isDec : Bool) (z : ZydisDecodedInstruction) :
    LiftsOnly (IRInst.Emitted ctx) (liftIncDec ctx isDec z) fun _ => True := by
  refine (lifts_readOperand ctx _ (moves_typeOfReg ctx _)).bind fun _ _ => ?_
  have hop : (if isDec then Opcode.sub else .add).isIntegerBinop = true := by
    cases isDec <;> rfl
  refine (liftsOnly_defineTemp (moves_typeOfReg ctx _) fun _ => .binop hop).bind fun _ hresult => ?_
  exact (liftsOnly_setFlags _ _ _ _ _).bind fun _ _ => lifts_writeOperand ctx _ hresult

/-- So does `IMUL`, in each of its forms. -/
lemma lifts_liftImul (z : ZydisDecodedInstruction) :
    LiftsOnly (IRInst.Emitted ctx) (liftImul ctx z) fun _ => True := by
  unfold liftImul
  split
  · refine (lifts_readReg ctx _).bind fun _ _ =>
      (lifts_readOperand ctx _ (moves_i64 ctx)).bind fun _ _ => ?_
    refine (liftsOnly_defineTemp (moves_i64 ctx) fun _ => .binop rfl).bind fun _ _ => ?_
    exact (lifts_writeReg ctx _ _).bind fun _ _ => (lifts_writeReg ctx _ _).bind fun _ _ =>
      liftsOnly_setFlags _ _ _ _ _
  · split
    · exact (lifts_liftBinop ctx rfl _ _ (moves_typeOfReg ctx _) _ _).bind fun _ _ =>
        lifts_writeReg ctx _ _
    · exact (lifts_liftBinop ctx rfl _ _ (moves_typeOfReg ctx _) _ _).bind fun _ _ =>
        lifts_writeReg ctx _ _

/-- So do `DIV` and `IDIV`. -/
lemma lifts_liftDiv (isSigned : Bool) (z : ZydisDecodedInstruction) :
    LiftsOnly (IRInst.Emitted ctx) (liftDiv ctx isSigned z) fun _ => True := by
  refine (lifts_readReg ctx _).bind fun _ _ =>
    (lifts_readOperand ctx _ (moves_i64 ctx)).bind fun _ _ => ?_
  refine liftsOnly_newTemp.bind fun _ hq => liftsOnly_newTemp.bind fun _ hr => ?_
  have hdiv : (if isSigned then Opcode.sdiv else .udiv).isIntegerBinop = true := by
    cases isSigned <;> rfl
  have hrem : (if isSigned then Opcode.srem else .urem).isIntegerBinop = true := by
    cases isSigned <;> rfl
  refine (liftsOnly_pushInst (.binop hdiv hq)).bind fun _ _ =>
    (liftsOnly_pushInst (.binop hrem hr)).bind fun _ _ => ?_
  exact (lifts_writeReg ctx _ _).bind fun _ _ => (lifts_writeReg ctx _ _).bind fun _ _ =>
    liftsOnly_invalidateFlags

/-- So do the shifts. -/
lemma lifts_liftShift {op : Opcode} (hop : op.isIntegerBinop = true) (fop : FlagOp)
    (z : ZydisDecodedInstruction) :
    LiftsOnly (IRInst.Emitted ctx) (liftShift ctx op fop z) fun _ => True := by
  refine (lifts_readOperand ctx _ (moves_typeOfReg ctx _)).bind fun _ _ =>
    (lifts_readOperand ctx _ (Or.inl (by simp))).bind fun _ _ => ?_
  refine (liftsOnly_defineTemp (moves_typeOfReg ctx _) fun _ => .cast (by simp)).bind fun _ _ => ?_
  refine (liftsOnly_defineTemp (moves_typeOfReg ctx _) fun _ => .binop hop).bind fun _ hresult => ?_
  exact (liftsOnly_setFlags _ _ _ _ _).bind fun _ _ => lifts_writeOperand ctx _ hresult

/-- The condition of a jump appends only instructions of the fragment. -/
lemma lifts_materialiseCond (request : FlagRequest) :
    LiftsOnly (IRInst.Emitted ctx) (materialiseCond request) fun _ => True := by
  intro s t hs hleaves
  have hget : (get : LiftM LiftState).run s = .ok s s := rfl
  have hids : ∀ k, 20 ≤ s.nextVregId + k := fun k => hs.next.trans (Nat.le_add_right _ k)
  have hcode := FlagState.appendsOnly_materialise ctx s.flagState hids request ⟨s.block, 0⟩
  rw [materialiseCond, leaves_bind_of_ok hget] at hleaves
  cases hrun : (s.flagState.materialise (s.nextVregId + ·) request).run ⟨s.block, 0⟩ with
  | ok cond e =>
    obtain ⟨hends, his, -⟩ := hcode e hs.endsLast (Or.inl ⟨cond, hrun⟩)
    rw [hrun] at hleaves
    obtain rfl := hleaves.eq_of_ok rfl
    exact ⟨⟨hids _, hends⟩, his, fun _ _ => trivial⟩
  | error err e =>
    obtain ⟨hends, his, -⟩ := hcode e hs.endsLast (Or.inr ⟨err, hrun⟩)
    rw [hrun] at hleaves
    obtain rfl := hleaves.eq_of_error rfl
    exact ⟨⟨hids _, hends⟩, his, fun _ _ => trivial⟩

/-- A conditional jump appends only instructions of the fragment. -/
lemma lifts_liftJcc (di : DecodedInstr) :
    LiftsOnly (IRInst.Emitted ctx) (liftJcc ctx di) fun _ => True := by
  unfold liftJcc
  split
  · exact (lifts_materialiseCond ctx _).bind fun _ _ => liftsOnly_pushInst .cjmp
  · exact liftsOnly_pushInst .jmp

/-- So does a jump. -/
lemma lifts_liftJmp (di : DecodedInstr) :
    LiftsOnly (IRInst.Emitted ctx) (liftJmp ctx di) fun _ => True := by
  unfold liftJmp
  split
  · exact liftsOnly_pushInst .jmp
  · exact liftsOnly_pushInst .nop

/-- So does a call. -/
lemma lifts_liftCall (di : DecodedInstr) :
    LiftsOnly (IRInst.Emitted ctx) (liftCall ctx di) fun _ => True := by
  have htarget : LiftsOnly (IRInst.Emitted ctx) (callTarget ctx di) fun _ => True := by
    unfold callTarget
    dsimp only
    split
    · exact AppendsOnly.pure trivial
    · exact (lifts_readOperand ctx _ (moves_i64 ctx)).bind fun _ _ =>
        (liftsOnly_defineTemp (moves_ptr ctx) fun _ => .cast (by simp)).mono fun _ _ => trivial
  exact htarget.bind fun _ _ => (liftsOnly_defineTemp (moves_i64 ctx) fun _ => .call).bind
    fun _ _ =>
    (lifts_writeReg ctx _ _).bind fun _ _ => liftsOnly_invalidateFlags

/-- Whatever instruction is lifted, only such instructions are appended. -/
theorem lifts_liftInstr (di : DecodedInstr) :
    LiftsOnly (IRInst.Emitted ctx) (liftInstr ctx di) fun _ => True := by
  rw [liftInstr.eq_def]
  dsimp only
  cases di.zydis.mnemonic with
  | nop => exact liftsOnly_pushInst .nop
  | mov =>
    exact (lifts_liftMov ctx _).bind fun _ _ => lifts_liftMovExt ctx (Or.inl rfl) _ _
  | movzx => exact lifts_liftMovExt ctx (Or.inl rfl) _ _
  | movsx | movsxd => exact lifts_liftMovExt ctx (Or.inr rfl) _ _
  | lea =>
    exact (lifts_computeAddr ctx _).bind fun _ _ =>
      (liftsOnly_defineTemp (moves_i64 ctx) fun _ => .cast (by simp)).bind fun _ _ =>
        lifts_writeReg ctx _ _
  | add | sub => exact lifts_liftArith ctx rfl _ _ (moves_arithType ctx _) _
  | and | or | xor => exact lifts_liftArith ctx rfl _ _ (moves_destWidth ctx _ _) _
  | imul => exact lifts_liftImul ctx _
  | idiv | div => exact lifts_liftDiv ctx _ _
  | not | neg => exact lifts_liftUnary ctx _ _
  | shl | shr | sar => exact lifts_liftShift ctx rfl _ _
  | inc | dec => exact lifts_liftIncDec ctx _ _
  | cmp | test => exact lifts_liftCompare ctx rfl _ _ _
  | jz | jnz | js | jns | jo | jno | jb | jnb | jbe | jnbe | jl | jnl | jle | jnle =>
    exact lifts_liftJcc ctx di
  | jmp => exact lifts_liftJmp ctx di
  | call => exact lifts_liftCall ctx di
  | jp | jnp | ret | retf | loop | loope | loopne | other => exact AppendsOnly.pure trivial

/-- Nor does any sequence of instructions append others. -/
theorem lifts_forM_liftInstr (dis : List DecodedInstr) :
    LiftsOnly (IRInst.Emitted ctx) (forM dis (liftInstr ctx)) fun _ => True := by
  induction dis with
  | nil => exact AppendsOnly.pure trivial
  | cons di dis ih =>
    rw [List.forM_cons]
    exact (lifts_liftInstr ctx di).bind fun _ _ => ih

end Instructions

/-! ## Functions -/

/-- The block consists of such instructions, and only the last one may end it. -/
structure EmittedBlock (ctx : LiftContext) (b : IRBasicBlock) : Prop where
  emitted : ∀ i ∈ b.instructions, i.Emitted ctx
  endsLast : b.EndsLast

/-- So do all blocks that are lifted, whatever they are lifted from. -/
theorem emittedBlock_of_mem_liftBlocks (cfgBlocks : List (U64 × List DecodedInstr)) :
    20 ≤ (liftBlocks ctx cfgBlocks).nextVregId ∧
      ∀ b ∈ (liftBlocks ctx cfgBlocks).blocks, EmittedBlock ctx b := by
  induction cfgBlocks using List.reverseRecOn with
  | nil => exact ⟨le_rfl, fun b hb => absurd hb List.not_mem_nil⟩
  | append_singleton cfgBlocks block ih =>
    obtain ⟨s, hleaves, hblock⟩ := exists_liftBlock_eq_endBlock ctx (liftBlocks ctx cfgBlocks) block
    have hstart : LiftInv ((liftBlocks ctx cfgBlocks).beginBlock block.1) :=
      ⟨ih.1, fun i hi => absurd hi List.not_mem_nil⟩
    obtain ⟨hs, ⟨is, his, hemitted⟩, -⟩ := lifts_forM_liftInstr ctx block.2 _ s hstart hleaves
    have hinstrs : s.block.instructions = is := by
      rw [his]
      rfl
    rw [liftBlocks_append, hblock]
    refine ⟨hs.next, fun b hb => ?_⟩
    rcases List.mem_append.mp hb with hb | hb
    · exact ih.2 b hb
    · obtain rfl := List.mem_singleton.mp hb
      exact ⟨hinstrs ▸ hemitted, hs.endsLast⟩

end FunctionLifter

end InstaX
