import InstaX.Lifter.TypedInstructions

/-!
# Well typed lifting

In every state that is reached while a function is lifted, the code of one more instruction is
typed, and registers are written with values of their types, exactly when the instruction passes
`LiftsTyped` (`liftInstr_emitsTyped_iff`).  A `MOV` between registers of one width does not: its
case has no `break`, and the code of `MOVZX` that follows extends a value to the width it has.
-/

namespace InstaX

open Throwing RegisterCode TypeSystem Tracing FunctionLifter

variable {ctx : LiftContext} {pre pre' : List IRInst} {s t : LiftState} {good : Prop}

namespace WriteRecord

section Terminators

variable (hopen : s.Open) (hs : irTypes.Settled (typedView pre) s)

include hopen hs

/-- Appending an instruction that defines nothing; it may end the block. -/
lemma lifts_pushInst {i : IRInst} (hdst : i.dst = none) (hkeeps : i.KeepsTypes)
    (hops : ∀ v ∈ i.operands, (typedView pre).Passed s v ∧
      irTypes.Agrees ((typedView pre).code s) v) :
    Lifts pre (silent (pushInst i)) s True fun _ t => t.flagState = s.flagState := by
  have hcode : (typedView pre).code (s.emit 0 [i]) = (typedView pre).code s ++ [i] := by
    simp [typedView]
  have hdefines : Defines irTypes (typedView pre) i s (s.emit 0 [i]) :=
    Or.inl ⟨by simp [destination, hdst], rfl⟩
  have hpassed : ∀ v ∈ operands i, (typedView pre).Passed s v := fun v hv => (hops v hv).1
  intro ws
  refine ⟨(), s.emit 0 [i], [i], [], ?_, hcode,
    settled_of_defines hs hcode hpassed typedView_fixed hdefines, le_rfl, hdefines.later, ?_, rfl⟩
  · rw [List.append_nil]
    exact run_silent_eq_ok_iff.mpr ⟨run_pushInst hopen i, rfl⟩
  · rw [List.forall_mem_singleton, typed_concat_iff hs hcode hpassed typedView_fixed hdefines]
    exact iff_of_true ⟨⟨hkeeps, fun v hv => (hops v hv).2⟩, by simp⟩ trivial

/-- A condition is materialised as typed code, and is a boolean. -/
lemma typedWhen_materialiseCond (hrecord : RecordTyped pre s) (request : FlagRequest) :
    irTypes.TypedWhen (typedView pre) (materialiseCond request) s True (Computed pre s .i1) := by
  have hsettled : irTypes.Settled (FlagState.typedView pre s.nextVregId) ⟨s.block, 0⟩ :=
    ⟨hs.base_le, hs.behind, hs.fixed⟩
  obtain ⟨v, e, is, hrun, hcode, hopen', he, hnext, his, hgood, hv⟩ :=
    @FlagState.booleans_materialise s.flagState pre s.nextVregId request ⟨s.block, 0⟩ hopen hsettled
      hrecord
  have hget : (get : LiftM LiftState).run s = .ok s s := rfl
  refine ⟨v, { s with block := e.block, nextVregId := s.nextVregId + e.taken }, is, ?_, hcode,
    hopen', ⟨he.base_le, he.behind, he.fixed⟩, hnext, his, hgood,
    ⟨⟨hv.type, hv.passed, hv.agrees⟩, rfl⟩⟩
  rw [materialiseCond, run_bind_of_ok hget, hrun]
  rfl

/-- A conditional jump is typed. -/
lemma lifts_liftJcc (hrecord : RecordTyped pre s) (di : DecodedInstr) :
    Lifts pre (silent (liftJcc ctx di)) s True fun _ t => t.flagState = s.flagState := by
  unfold liftJcc
  split
  · rename_i request _
    rw [silent_bind]
    have hcond := @typedWhen_materialiseCond pre s hopen hs hrecord request
    refine Lifts.mono (Lifts.bind (Checks.of_silent hcond)
      fun cond s₁ hs₁ h₁ ⟨hopen₁, hcond⟩ => Lifts.mono (lifts_pushInst hopen₁ hs₁ rfl
        (IRInst.keepsTypes_of_other rfl) ?_) Iff.rfl fun _ _ _ h => h.trans hcond.flags) ?_
      fun _ _ _ h => h
    · simpa [IRInst.makeCjmp] using ⟨hcond.operand.passed, hcond.operand.agrees⟩
    · simp
  · exact lifts_pushInst hopen hs rfl (IRInst.keepsTypes_of_other rfl) (by simp [IRInst.makeJmp])

/-- A jump is typed. -/
lemma lifts_liftJmp (di : DecodedInstr) :
    Lifts pre (silent (liftJmp ctx di)) s True fun _ t => t.flagState = s.flagState := by
  unfold liftJmp
  split
  · exact lifts_pushInst hopen hs rfl (IRInst.keepsTypes_of_other rfl) (by simp [IRInst.makeJmp])
  · exact lifts_pushInst hopen hs rfl (IRInst.keepsTypes_of_other rfl) (by simp [IRInst.makeNop])

end Terminators

/-- Lifting one instruction into an open block. -/
theorem lifts_liftInstr (hopen : s.Open) (hs : irTypes.Settled (typedView pre) s)
    (hrecord : RecordTyped pre s) (di : DecodedInstr) :
    Lifts pre (liftInstr ctx di) s (di.zydis.LiftsTyped ctx) fun _ t => RecordTyped pre t := by
  have hchecks : ∀ {act : Traced RegWrite LiftState Unit} {good : Prop},
      Checks pre act s good (fun _ t => RecordTyped pre t) →
        Lifts pre act s good fun _ t => RecordTyped pre t :=
    fun h => Lifts.mono h Iff.rfl fun _ _ _ h => h.2
  have hkeeps : ∀ {act : Traced RegWrite LiftState Unit},
      Lifts pre act s True (fun _ t => t.flagState = s.flagState) →
        Lifts pre act s True fun _ t => RecordTyped pre t :=
    fun h => Lifts.mono h Iff.rfl fun _ _ hgrows hflags => hrecord.grows hgrows hflags
  unfold liftInstr ZydisDecodedInstruction.LiftsTyped
  rw [FunctionLifter.liftInstr.eq_def]
  dsimp only
  cases di.zydis.mnemonic with
  | nop =>
    exact hkeeps (lifts_pushInst hopen hs rfl (IRInst.keepsTypes_of_other rfl)
      (by simp [IRInst.makeNop]))
  | mov => exact hchecks (checks_liftMov hopen hs hrecord _)
  | movzx => exact hchecks (checks_liftMovExt hopen hs hrecord _ (Or.inl rfl) _)
  | movsx | movsxd => exact hchecks (checks_liftMovExt hopen hs hrecord _ (Or.inr rfl) _)
  | lea => exact hchecks (checks_liftLea hopen hs hrecord _)
  | add | sub | and | or | xor =>
    exact hchecks (checks_liftArith hopen hs _ rfl _ _ _ fun _ _ _ => rfl)
  | imul => exact hchecks (checks_liftImul hopen hs _)
  | idiv | div => exact hchecks (checks_liftDiv hopen hs hrecord _ _)
  | not | neg => exact hchecks (checks_liftUnary hopen hs hrecord _ _)
  | shl => exact hchecks (checks_liftShift hopen hs _ (Or.inl rfl) _)
  | shr => exact hchecks (checks_liftShift hopen hs _ (Or.inr (Or.inl rfl)) _)
  | sar => exact hchecks (checks_liftShift hopen hs _ (Or.inr (Or.inr rfl)) _)
  | inc | dec => exact hchecks (checks_liftIncDec hopen hs _ _)
  | cmp | test => exact hchecks (checks_liftCompare hopen hs _ rfl _ _ fun _ _ _ => rfl)
  | jz | jnz | js | jns | jo | jno | jb | jnb | jbe | jnbe | jl | jnl | jle | jnle =>
    exact hkeeps (lifts_liftJcc hopen hs hrecord di)
  | jmp => exact hkeeps (lifts_liftJmp hopen hs di)
  | call => exact hchecks (checks_liftCall hopen hs hrecord di)
  | jp | jnp | ret | retf | loop | loope | loopne | other =>
    exact hchecks (Checks.of_silent (TypedWhen.pure hopen hs hrecord))

end WriteRecord

namespace FunctionLifter

/-! ## Whole functions -/

/-- What holds while a function is lifted: the destinations are behind the counter, general purpose
registers have 64 bits, and the operands of the flag record have the types of their definitions. -/
structure TypedState (pre : List IRInst) (s : LiftState) : Prop where
  settled : irTypes.Settled (typedView pre) s
  record : WriteRecord.RecordTyped pre s

/-- Only the code, the counter and the flag record matter. -/
lemma TypedState.of_code_eq (h : TypedState pre s)
    (hcode : (typedView pre').code t = (typedView pre).code s)
    (hnext : s.nextVregId ≤ t.nextVregId) (hflags : t.flagState = s.flagState) :
    TypedState pre' t where
  settled := by
    refine ⟨h.settled.base_le.trans hnext, ?_, ?_⟩
    · rw [hcode]
      exact fun i hi => (h.settled.behind i hi).of_le hnext
    · rw [hcode]
      exact h.settled.fixed
  record := by
    intro v hv
    rw [hflags] at hv
    obtain ⟨hpassed, hagrees⟩ := h.record v hv
    rw [hcode]
    exact ⟨fun r hr => (hpassed r hr).trans_le hnext, hagrees⟩

/-- The code of an instruction is typed where it stands, after the code `pre` of earlier blocks and
what the block has already, and every register is written with a value of its type. -/
def EmitsTyped (ctx : LiftContext) (pre : List IRInst) (s : LiftState) (di : DecodedInstr) : Prop :=
  ∃ t is writes, (WriteRecord.liftInstr ctx di).run (s, []) = .ok () (t, writes) ∧
    t.block.instructions = s.block.instructions ++ is ∧
    (∀ i ∈ is, irTypes.Typed (pre ++ t.block.instructions) i) ∧ ∀ w ∈ writes, w.KeepsType

/-- In a typed state the code of an instruction is typed exactly if its operands are right. -/
lemma TypedState.emitsTyped_iff (hs : TypedState pre s) (hopen : s.Open) (di : DecodedInstr) :
    EmitsTyped ctx pre s di ↔ di.zydis.LiftsTyped ctx := by
  obtain ⟨_, t, is, writes, hrun, hcode, -, -, -, hgood, -⟩ :=
    @WriteRecord.lifts_liftInstr ctx pre s hopen hs.settled hs.record di []
  rw [List.nil_append] at hrun
  have his : t.block.instructions = s.block.instructions ++ is := by simpa [typedView] using hcode
  rw [← hgood]
  constructor
  · rintro ⟨t', is', writes', hrun', his', htyped, hwrites⟩
    obtain ⟨-, heq⟩ := EStateM.Result.ok.inj (hrun.symm.trans hrun')
    obtain ⟨rfl, rfl⟩ := Prod.mk.inj heq
    obtain rfl : is = is' := List.append_cancel_left (his.symm.trans his')
    exact ⟨htyped, hwrites⟩
  · rintro ⟨htyped, hwrites⟩
    exact ⟨t, is, writes, hrun, his, htyped, hwrites⟩

/-- All code of the function so far is typed. -/
def AllTyped (pre : List IRInst) (s : LiftState) : Prop :=
  ∀ i ∈ (typedView pre).code s, irTypes.Typed ((typedView pre).code s) i

/-- Lifting one more instruction into an open block. -/
lemma TypedState.exists_run (hs : TypedState pre s) (hopen : s.Open) (di : DecodedInstr) :
    ∃ t, (liftInstr ctx di).run s = .ok () t ∧ TypedState pre t ∧
      (di.zydis.LiftsTyped ctx → AllTyped pre s → AllTyped pre t) := by
  obtain ⟨_, t, is, writes, hrun, hcode, ht, hnext, his, hgood, hrecord⟩ :=
    @WriteRecord.lifts_liftInstr ctx pre s hopen hs.settled hs.record di []
  refine ⟨t, (WriteRecord.erases_liftInstr ctx di).returns _ _ _ hrun, ⟨ht, hrecord⟩, ?_⟩
  intro hlifts hall i hi
  have hi' : i ∈ (typedView pre).code s ∨ i ∈ is := by
    rw [hcode] at hi
    exact List.mem_append.mp hi
  rcases hi' with hi' | hi'
  · exact (Grows.typed_iff hs.settled ⟨hnext, is, hcode, his⟩ hi').mpr (hall i hi')
  · exact (hgood.mpr hlifts).1 i hi'

/-- Lifting the instructions of a block, however it ends. -/
theorem TypedState.leaves (hs : TypedState pre s) {dis : List DecodedInstr}
    (hleaves : Leaves (forM dis (liftInstr ctx)) s t) :
    TypedState pre t ∧
      ((∀ di ∈ dis, di.zydis.LiftsTyped ctx) → AllTyped pre s → AllTyped pre t) := by
  induction dis generalizing s with
  | nil =>
    obtain rfl := Leaves.eq_of_ok hleaves rfl
    exact ⟨hs, fun _ h => h⟩
  | cons di dis ih =>
    cases hterm : s.block.isTerminated with
    | true =>
      -- nothing is lifted into a block that has ended
      have hrest := halts_forM_liftInstr ctx (di :: dis) s t hterm hleaves
      have hcode : (typedView pre).code t = (typedView pre).code s :=
        congrArg (fun b => pre ++ IRBasicBlock.instructions b) hrest.block
      refine ⟨hs.of_code_eq hcode hrest.next_le hrest.flags, fun _ hall => ?_⟩
      unfold AllTyped
      rw [hcode]
      exact hall
    | false =>
      obtain ⟨s₁, hrun, hs₁, hall₁⟩ := @TypedState.exists_run ctx pre s hs hterm di
      rw [List.forM_cons, leaves_bind_of_ok hrun] at hleaves
      obtain ⟨ht, hall⟩ := ih hs₁ hleaves
      refine ⟨ht, fun hdis h => ?_⟩
      exact hall (fun di' hdi' => hdis di' (List.mem_cons_of_mem _ hdi'))
        (hall₁ (hdis di List.mem_cons_self) h)

/-- At the beginning of a block the code is that of the function. -/
@[simp] lemma typedView_code_beginBlock (fn : LiftedFunction) (leaderVA : U64) :
    (typedView fn.instructions).code (fn.beginBlock leaderVA) = fn.instructions :=
  List.append_nil _

/-- Before anything is lifted. -/
lemma typedState_empty (leaderVA : U64) :
    TypedState [] (({} : LiftedFunction).beginBlock leaderVA) where
  settled :=
    ⟨le_rfl, fun _ hi => absurd hi List.not_mem_nil, fun _ hi => absurd hi List.not_mem_nil⟩
  record := by
    intro v hv
    have hnone : v.vregId? = none := by
      rcases List.mem_pair.mp hv with rfl | rfl <;> rfl
    exact ⟨fun r hr => absurd (hnone.symm.trans hr) (by simp), agrees_of_register_eq_none hnone⟩

/-- Every function that is lifted is ready for one more block, and all its code is typed if all its
instructions are lifted to typed code. -/
theorem typedState_liftBlocks (cfgBlocks : List (U64 × List DecodedInstr)) (leaderVA : U64) :
    TypedState (liftBlocks ctx cfgBlocks).instructions
        ((liftBlocks ctx cfgBlocks).beginBlock leaderVA) ∧
      ((∀ block ∈ cfgBlocks, ∀ di ∈ block.2, di.zydis.LiftsTyped ctx) →
        ∀ i ∈ (liftBlocks ctx cfgBlocks).instructions,
          irTypes.Typed (liftBlocks ctx cfgBlocks).instructions i) := by
  induction cfgBlocks using List.reverseRecOn generalizing leaderVA with
  | nil => exact ⟨typedState_empty leaderVA, fun _ _ hi => absurd hi List.not_mem_nil⟩
  | append_singleton cfgBlocks block ih =>
    obtain ⟨s, hleaves, hblock⟩ := exists_liftBlock_eq_endBlock ctx (liftBlocks ctx cfgBlocks) block
    obtain ⟨hstart, hall⟩ := ih block.1
    obtain ⟨hs, hallBlock⟩ := hstart.leaves hleaves
    have hcode : ((liftBlocks ctx cfgBlocks).endBlock s).instructions =
        (typedView (liftBlocks ctx cfgBlocks).instructions).code s :=
      LiftedFunction.endBlock_instructions _ s
    rw [liftBlocks_append, hblock]
    refine ⟨hs.of_code_eq ?_ le_rfl rfl, fun hlifts => ?_⟩
    · rw [typedView_code_beginBlock, hcode]
    · rw [hcode]
      refine hallBlock (hlifts block (by simp)) ?_
      unfold AllTyped
      rw [typedView_code_beginBlock]
      exact hall fun block' hblock' => hlifts block' (List.mem_append_left _ hblock')

/-- An instruction that is lifted while a function is lifted emits typed code exactly when it passes
`LiftsTyped`. -/
theorem liftInstr_emitsTyped_iff {cfgBlocks : List (U64 × List DecodedInstr)} {leaderVA : U64}
    {dis : List DecodedInstr}
    (hrun : (forM dis (liftInstr ctx)).run ((liftBlocks ctx cfgBlocks).beginBlock leaderVA) =
      .ok () s) (hopen : s.Open) (di : DecodedInstr) :
    EmitsTyped ctx (liftBlocks ctx cfgBlocks).instructions s di ↔ di.zydis.LiftsTyped ctx := by
  have hstart := (@typedState_liftBlocks ctx cfgBlocks leaderVA).1
  have hs := (hstart.leaves (Or.inl ⟨(), hrun⟩)).1
  exact hs.emitsTyped_iff hopen di

/-- Lifting `add rax, rbx` emits typed code. -/
theorem liftInstr_emitsTyped_iff_addRaxRbx :
    EmitsTyped byValueContext [] (({} : LiftedFunction).beginBlock 0x1000) addRaxRbx :=
  (@liftInstr_emitsTyped_iff byValueContext _ [] 0x1000 [] rfl rfl addRaxRbx).mpr (by decide)

/-- `mov rax, rbx`. -/
def movRaxRbx : DecodedInstr where
  va := 0x1000
  length := 3
  zydis :=
    { mnemonic := .mov, length := 3, operandCountVisible := 2,
      operands := [{ type := .register, size := 64, reg := .rax },
        { type := .register, size := 64, reg := .rbx }] }

/-- After the move of `mov rax, rbx`, 64 bits are extended to 64 bits. -/
theorem liftInstr_movRaxRbx_not_emitsTyped :
    (∃ t, (liftInstr byValueContext movRaxRbx).run (({} : LiftedFunction).beginBlock 0x1000) =
        .ok () t ∧ t.block.instructions = [.makeCast .zext ⟨20, "movzx"⟩ .i64
          (.makeVReg Gpr.rbx.vregId .i64 "reg")]) ∧
      ¬ EmitsTyped byValueContext [] (({} : LiftedFunction).beginBlock 0x1000) movRaxRbx ∧
      ¬ EmitsTyped bareContext [] (({} : LiftedFunction).beginBlock 0x1000) movRaxRbx := by
  refine ⟨⟨_, rfl, by decide +kernel⟩, ?_, ?_⟩
  · rw [(typedState_empty 0x1000).emitsTyped_iff rfl]
    decide
  · rw [(typedState_empty 0x1000).emitsTyped_iff rfl]
    decide

end FunctionLifter

end InstaX
