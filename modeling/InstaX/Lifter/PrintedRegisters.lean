import InstaX.Lifter.DefinedBeforeUse
import InstaX.Lifter.InstructionNames

/-!
# Printed registers of lifted functions

The text of a temporary identifies it in the code of a function exactly if every instruction that is
lifted into an open block passes `LiftsApart` (`liftBlocks_printsApart_iff`): temporaries are
defined under names, and used without them.
-/

namespace InstaX

open Throwing RegisterCode TypeSystem

namespace FunctionLifter

variable {ctx : LiftContext} {pre pre' : List IRInst} {s t : LiftState}

/-! ## One instruction -/

/-- The code of a function, as in `namedView`, whether the block is open or not. -/
def plainView (pre : List IRInst) : View LiftState IRInst :=
  { namedView pre with IsOpen := fun s => ∀ i ∈ pre ++ s.block.instructions, i.PrintsPlainly }

/-- What holds while a function is lifted: the destinations are behind the counter, its code is
plain, and the operands of the flag record have no names. -/
structure NamedState (pre : List IRInst) (s : LiftState) : Prop where
  settled : nameTypes.Settled (plainView pre) s
  plain : ∀ i ∈ (plainView pre).code s, i.PrintsPlainly
  record : NamedRecord pre s

section Terminators

variable (hopen : s.Open) (hplain : (plainView pre).IsOpen s)
  (hs : nameTypes.Settled (plainView pre) s)

include hopen hplain hs

/-- Appending an instruction that defines nothing; it may end the block. -/
lemma plain_pushInst {i : IRInst} (hdst : i.dst = none) (hprints : i.PrintsRegisters)
    (hops : ∀ v ∈ i.operands, Unnamed (plainView pre) v s) :
    nameTypes.TypedWhen (plainView pre) (pushInst i) s
      (∀ v ∈ i.operands, nameTypes.Agrees ((plainView pre).code s) v)
      fun _ t => t.flagState = s.flagState := by
  have hi : i.PrintsPlainly := ⟨hprints, fun v hv => (hops v hv).tempName⟩
  refine (typedWhen_of_run hs (namedView_code_emit 0 i) (fun v hv => (hops v hv).passed)
    (@namedView_fixed pre) (Or.inl ⟨by simp [destination, hdst], rfl⟩) (run_pushInst hopen i)
    (plain_emit hplain hi) rfl).congr ?_
  exact and_iff_right fun v hv => (hops v hv).tempName

/-- Appending an instruction without operands. -/
lemma plain_pushInst_of_operands_eq_nil {i : IRInst} (hdst : i.dst = none)
    (hprints : i.PrintsRegisters) (hops : i.operands = []) :
    nameTypes.TypedWhen (plainView pre) (pushInst i) s True
      fun _ t => t.flagState = s.flagState :=
  (plain_pushInst hopen hplain hs hdst hprints (by simp [hops])).congr (by simp [hops])

/-- A condition is clean exactly if it is a constant. -/
lemma yields_materialiseCond (hrecord : NamedRecord pre s) (request : FlagRequest) :
    Yields (plainView pre) (materialiseCond request) s (s.flagState.IsConstant request)
      fun t => t.Open ∧ t.flagState = s.flagState := by
  have hsettled : nameTypes.Settled (FlagState.namedView pre s.nextVregId) ⟨s.block, 0⟩ :=
    ⟨hs.base_le, hs.behind, hs.fixed⟩
  have hrecord' : FlagState.RecordUnnamed (FlagState.namedView pre s.nextVregId) ⟨s.block, 0⟩
      s.flagState := fun v hv => ⟨(hrecord v hv).tempName, (hrecord v hv).passed⟩
  obtain ⟨good, ⟨v, e, is, hrun, hcode, hopen', he, hnext, his, hgood, hv, -⟩, hclean⟩ :=
    @FlagState.yieldsBool_materialise s.flagState pre s.nextVregId request ⟨s.block, 0⟩
      ⟨hopen, hplain⟩ hsettled hrecord'
  have hget : (get : LiftM LiftState).run s = .ok s s := rfl
  refine ⟨good, ⟨v, { s with block := e.block, nextVregId := s.nextVregId + e.taken }, is,
    ?_, hcode, hopen'.2, ⟨he.base_le, he.behind, he.fixed⟩, hnext, his, hgood,
    ⟨⟨⟨hv.tempName, hv.passed⟩, hv.agrees⟩, hopen'.1, rfl⟩⟩, hclean⟩
  rw [materialiseCond, run_bind_of_ok hget, hrun]
  rfl

/-- A conditional jump prints plainly exactly if the flags it asks for are constants. -/
lemma plain_liftJcc (hrecord : NamedRecord pre s) (di : DecodedInstr) :
    nameTypes.TypedWhen (plainView pre) (liftJcc ctx di) s
      (∀ request ∈ flagRequestForJcc di.zydis.mnemonic, s.flagState.IsConstant request)
      fun _ t => t.flagState = s.flagState := by
  unfold liftJcc
  split
  · rename_i request hrequest
    rw [hrequest]
    refine ((yields_materialiseCond hopen hplain hs hrecord request).bind
      fun cond t hplain' ht _ hcond ⟨hopen', hflags⟩ => TypedWhen.mono (plain_pushInst hopen'
        hplain' ht rfl IRInst.printsRegisters_makeCjmp
        (List.forall_mem_singleton.mpr hcond.toUnnamed))
        ((forall_singleton_agrees_iff hcond).trans (iff_of_eq (and_true _).symm))
        fun _ _ _ h => h.trans hflags).congr ?_
    simp
  · rename_i hrequest
    rw [hrequest]
    exact (plain_pushInst_of_operands_eq_nil hopen hplain hs rfl IRInst.printsRegisters_makeJmp
      rfl).congr (by simp)

/-- A jump prints plainly. -/
lemma plain_liftJmp (di : DecodedInstr) :
    nameTypes.TypedWhen (plainView pre) (liftJmp ctx di) s True
      fun _ t => t.flagState = s.flagState := by
  unfold liftJmp
  split
  · exact plain_pushInst_of_operands_eq_nil hopen hplain hs rfl IRInst.printsRegisters_makeJmp rfl
  · exact plain_pushInst_of_operands_eq_nil hopen hplain hs rfl IRInst.printsRegisters_makeNop rfl

end Terminators

/-- Lifting one instruction into an open block. -/
theorem NamedState.plain_liftInstr (hs : NamedState pre s) (hopen : s.Open) (di : DecodedInstr) :
    nameTypes.TypedWhen (plainView pre) (liftInstr ctx di) s (di.LiftsApart ctx s.flagState)
      fun _ t => NamedRecord pre t := by
  obtain ⟨hsettled, hplain, hrecord⟩ := hs
  have hopen' : (namedView pre).IsOpen s := ⟨hopen, hplain⟩
  have hsettled' : nameTypes.Settled (namedView pre) s :=
    ⟨hsettled.base_le, hsettled.behind, hsettled.fixed⟩
  -- an instruction that leaves the block open, and one that may end it
  have hnamed : ∀ {act : LiftM Unit} {good : Prop},
      nameTypes.TypedWhen (namedView pre) act s good (fun _ t => NamedRecord pre t) →
        nameTypes.TypedWhen (plainView pre) act s good fun _ t => NamedRecord pre t :=
    fun h => h.of_isOpen fun _ => And.right
  have hkeeps : ∀ {act : LiftM Unit} {good : Prop},
      nameTypes.TypedWhen (plainView pre) act s good (fun _ t => t.flagState = s.flagState) →
        nameTypes.TypedWhen (plainView pre) act s good fun _ t => NamedRecord pre t :=
    fun h => h.mono Iff.rfl fun _ _ hgrows hflags => hrecord.grows hgrows hflags
  unfold DecodedInstr.LiftsApart
  rw [liftInstr.eq_def]
  dsimp only
  have hjcc := @plain_liftJcc ctx pre s hopen hplain hsettled hrecord di
  generalize di.zydis.mnemonic = mnemonic at hjcc ⊢
  cases mnemonic with
  | nop =>
    refine (hkeeps (plain_pushInst_of_operands_eq_nil hopen hplain hsettled rfl
      IRInst.printsRegisters_makeNop rfl)).congr ?_
    simp [flagRequestForJcc]
  | mov => exact hnamed (named_liftMov hopen' hsettled' hrecord _)
  | movzx | movsx | movsxd =>
    exact hnamed (named_liftMovExt hopen' hsettled' hrecord _ rfl (by decide))
  | lea => exact hnamed (named_liftLea hopen' hsettled' hrecord _)
  | add | sub | and | or | xor =>
    exact hnamed (named_liftArith hopen' hsettled' _ (by decide) rfl _ _)
  | imul => exact hnamed (named_liftImul hopen' hsettled' _)
  | idiv | div => exact hnamed (named_liftDiv hopen' hsettled' hrecord _ _)
  | not | neg => exact hnamed (named_liftUnary hopen' hsettled' hrecord _ _)
  | shl | shr | sar => exact hnamed (named_liftShift hopen' hsettled' _ rfl _)
  | inc | dec => exact hnamed (named_liftIncDec hopen' hsettled' _ _)
  | cmp | test => exact hnamed (named_liftCompare hopen' hsettled' _ (by decide) rfl _)
  | jz | jnz | js | jns | jo | jno | jb | jnb | jbe | jnbe | jl | jnl | jle | jnle =>
    exact hkeeps hjcc
  | jmp =>
      exact (hkeeps (plain_liftJmp hopen hplain hsettled di)).congr (by simp [flagRequestForJcc])
  | call => exact hnamed (named_liftCall hopen' hsettled' hrecord di)
  | jp | jnp | ret | retf | loop | loope | loopne | other =>
    exact TypedWhen.congr (TypedWhen.pure hplain hsettled hrecord) (by simp [flagRequestForJcc])

/-! ## One block -/

/-- All code of the function so far uses its temporaries under the names of their definitions. -/
def AllNamed (pre : List IRInst) (s : LiftState) : Prop :=
  ∀ i ∈ (plainView pre).code s, nameTypes.Typed ((plainView pre).code s) i

/-- The instruction is lifted into an open block, from the state `s`, when the instructions `dis`
are lifted from the state `s₀`. -/
def LiftedIn (ctx : LiftContext) (s₀ : LiftState) (dis : List DecodedInstr) (s : LiftState)
    (di : DecodedInstr) : Prop :=
  ∃ before after, dis = before ++ di :: after ∧
    (forM before (liftInstr ctx)).run s₀ = .ok () s ∧ s.Open

/-- Only the code, the counter and the flag record matter. -/
lemma NamedState.of_code_eq (h : NamedState pre s)
    (hcode : (plainView pre').code t = (plainView pre).code s)
    (hnext : s.nextVregId ≤ t.nextVregId) (hflags : t.flagState = s.flagState) :
    NamedState pre' t where
  settled := by
    refine ⟨h.settled.base_le.trans hnext, ?_, ?_⟩
    · rw [hcode]
      exact fun i hi => (h.settled.behind i hi).of_le hnext
    · rw [hcode]
      exact h.settled.fixed
  plain := by
    rw [hcode]
    exact h.plain
  record := by
    intro v hv
    rw [hflags] at hv
    obtain ⟨hname, hpassed⟩ := h.record v hv
    exact ⟨hname, fun r hr => (hpassed r hr).trans_le hnext⟩

/-- Lifting one more instruction into an open block. -/
lemma NamedState.exists_run (hs : NamedState pre s) (hopen : s.Open) (di : DecodedInstr) :
    ∃ t, (liftInstr ctx di).run s = .ok () t ∧ NamedState pre t ∧
      (AllNamed pre t ↔ AllNamed pre s ∧ di.LiftsApart ctx s.flagState) := by
  obtain ⟨_, t, is, hrun, hcode, hplain, ht, hnext, his, hgood, hrecord⟩ :=
    @NamedState.plain_liftInstr ctx pre s hs hopen di
  refine ⟨t, hrun, ⟨ht, hplain, hrecord⟩, ?_⟩
  have hbefore : (∀ i ∈ (plainView pre).code s, nameTypes.Typed ((plainView pre).code t) i) ↔
      AllNamed pre s :=
    forall₂_congr fun i hi => Grows.typed_iff hs.settled ⟨hnext, is, hcode, his⟩ hi
  have hsplit : AllNamed pre t ↔
      (∀ i ∈ (plainView pre).code s, nameTypes.Typed ((plainView pre).code t) i) ∧
        ∀ i ∈ is, nameTypes.Typed ((plainView pre).code t) i := by
    rw [← List.forall_mem_append, ← hcode]
    rfl
  rw [hsplit, hbefore, hgood]

lemma not_liftedIn_nil {s₀ : LiftState} {di : DecodedInstr} : ¬ LiftedIn ctx s₀ [] s di := by
  rintro ⟨before, after, h, -⟩
  simp at h

/-- The first instruction is lifted from the first state, and the others from the state after it. -/
lemma liftedIn_cons_iff {s₀ s₁ : LiftState} {di di' : DecodedInstr} {dis : List DecodedInstr}
    (hopen : s₀.Open) (hrun : (liftInstr ctx di).run s₀ = .ok () s₁) :
    LiftedIn ctx s₀ (di :: dis) s di' ↔ s = s₀ ∧ di' = di ∨ LiftedIn ctx s₁ dis s di' := by
  constructor
  · rintro ⟨before, after, hdis, hbefore, hs⟩
    cases before with
    | nil =>
      obtain ⟨rfl, -⟩ := List.cons.inj hdis
      obtain ⟨-, rfl⟩ := EStateM.Result.ok.inj hbefore
      exact Or.inl ⟨rfl, rfl⟩
    | cons first before =>
      obtain ⟨rfl, rfl⟩ := List.cons.inj hdis
      rw [List.forM_cons, run_bind_of_ok hrun] at hbefore
      exact Or.inr ⟨before, after, rfl, hbefore, hs⟩
  · rintro (⟨rfl, rfl⟩ | ⟨before, after, rfl, hbefore, hs⟩)
    · exact ⟨[], dis, rfl, rfl, hopen⟩
    · refine ⟨di :: before, after, rfl, ?_, hs⟩
      rw [List.forM_cons, run_bind_of_ok hrun, hbefore]

/-- Nothing is lifted into a block that has ended. -/
lemma not_liftedIn_of_isTerminated {s₀ : LiftState} {dis : List DecodedInstr} {di : DecodedInstr}
    (hterm : s₀.block.isTerminated = true) : ¬ LiftedIn ctx s₀ dis s di := by
  rintro ⟨before, -, -, hrun, hs⟩
  have hblock := (halts_forM_liftInstr ctx before s₀ s hterm (Or.inl ⟨(), hrun⟩)).block
  rw [LiftState.Open, hblock, hterm] at hs
  cases hs

/-- Lifting the instructions of a block, however it ends. -/
theorem NamedState.leaves (hs : NamedState pre s) {dis : List DecodedInstr}
    (hleaves : Leaves (forM dis (liftInstr ctx)) s t) :
    NamedState pre t ∧ (AllNamed pre t ↔ AllNamed pre s ∧
      ∀ u di, LiftedIn ctx s dis u di → di.LiftsApart ctx u.flagState) := by
  induction dis generalizing s with
  | nil =>
    obtain rfl := Leaves.eq_of_ok hleaves rfl
    exact ⟨hs, (and_iff_left fun _ _ h => absurd h not_liftedIn_nil).symm⟩
  | cons di dis ih =>
    cases hterm : s.block.isTerminated with
    | true =>
      have hrest := halts_forM_liftInstr ctx (di :: dis) s t hterm hleaves
      have hcode : (plainView pre).code t = (plainView pre).code s :=
        congrArg (fun b => pre ++ IRBasicBlock.instructions b) hrest.block
      refine ⟨hs.of_code_eq hcode hrest.next_le hrest.flags, ?_⟩
      rw [and_iff_left fun _ _ h => absurd h (not_liftedIn_of_isTerminated hterm), AllNamed, hcode,
        AllNamed]
    | false =>
      obtain ⟨s₁, hrun, hs₁, hall₁⟩ := @NamedState.exists_run ctx pre s hs hterm di
      rw [List.forM_cons, leaves_bind_of_ok hrun] at hleaves
      obtain ⟨ht, hall⟩ := ih hs₁ hleaves
      refine ⟨ht, ?_⟩
      rw [hall, hall₁, and_assoc]
      refine and_congr_right fun _ => ?_
      simp only [liftedIn_cons_iff hterm hrun, or_imp, forall_and]
      refine and_congr_left fun _ => ⟨?_, fun h => h s di ⟨rfl, rfl⟩⟩
      rintro h _ _ ⟨rfl, rfl⟩
      exact h

/-! ## Whole functions -/

/-- The instruction is lifted into an open block, from the state `s`, when a function is lifted. -/
def LiftedFrom (ctx : LiftContext) (cfgBlocks : List (U64 × List DecodedInstr)) (s : LiftState)
    (di : DecodedInstr) : Prop :=
  ∃ before block after, cfgBlocks = before ++ block :: after ∧
    LiftedIn ctx ((liftBlocks ctx before).beginBlock block.1) block.2 s di

lemma not_liftedFrom_nil {di : DecodedInstr} : ¬ LiftedFrom ctx [] s di := by
  rintro ⟨before, block, after, h, -⟩
  simp at h

/-- The instructions of the last block are lifted after those of the other blocks. -/
lemma liftedFrom_concat_iff {cfgBlocks : List (U64 × List DecodedInstr)}
    {block : U64 × List DecodedInstr} {di : DecodedInstr} :
    LiftedFrom ctx (cfgBlocks ++ [block]) s di ↔ LiftedFrom ctx cfgBlocks s di ∨
      LiftedIn ctx ((liftBlocks ctx cfgBlocks).beginBlock block.1) block.2 s di := by
  constructor
  · rintro ⟨before, block', after, hblocks, hin⟩
    rcases split_of_concat hblocks with ⟨rfl, rfl⟩ | ⟨after', hblocks'⟩
    · exact Or.inr hin
    · exact Or.inl ⟨before, block', after', hblocks', hin⟩
  · rintro (⟨before, block', after, rfl, hin⟩ | hin)
    · exact ⟨before, block', after ++ [block], by simp, hin⟩
    · exact ⟨cfgBlocks, block, [], rfl, hin⟩

/-- Before anything is lifted. -/
lemma namedState_empty (leaderVA : U64) :
    NamedState [] (({} : LiftedFunction).beginBlock leaderVA) where
  settled :=
    ⟨le_rfl, fun _ hi => absurd hi List.not_mem_nil, fun _ hi => absurd hi List.not_mem_nil⟩
  plain _ hi := absurd hi List.not_mem_nil
  record v hv := by
    have hnone : v.vreg? = none := by
      rcases List.mem_pair.mp hv with rfl | rfl <;> rfl
    exact (usableWhen_of_vreg?_eq_none hnone _).toUnnamed

/-- Every function that is lifted is ready for one more block, and its temporaries have one name
each exactly if all its instructions were lifted apart. -/
theorem namedState_liftBlocks (cfgBlocks : List (U64 × List DecodedInstr)) (leaderVA : U64) :
    NamedState (liftBlocks ctx cfgBlocks).instructions
        ((liftBlocks ctx cfgBlocks).beginBlock leaderVA) ∧
      ((∀ i ∈ (liftBlocks ctx cfgBlocks).instructions,
          nameTypes.Typed (liftBlocks ctx cfgBlocks).instructions i) ↔
        ∀ s di, LiftedFrom ctx cfgBlocks s di → di.LiftsApart ctx s.flagState) := by
  induction cfgBlocks using List.reverseRecOn generalizing leaderVA with
  | nil =>
    refine ⟨namedState_empty leaderVA, iff_of_true (fun _ hi => absurd hi List.not_mem_nil) ?_⟩
    exact fun _ _ h => absurd h not_liftedFrom_nil
  | append_singleton cfgBlocks block ih =>
    obtain ⟨s, hleaves, hblock⟩ := exists_liftBlock_eq_endBlock ctx (liftBlocks ctx cfgBlocks) block
    obtain ⟨hstart, hall⟩ := ih block.1
    obtain ⟨hs, hallBlock⟩ := hstart.leaves hleaves
    have hbegin : ∀ (fn : LiftedFunction) (va : U64),
        (plainView fn.instructions).code (fn.beginBlock va) = fn.instructions :=
      fun _ _ => List.append_nil _
    have hcode : ((liftBlocks ctx cfgBlocks).endBlock s).instructions =
        (plainView (liftBlocks ctx cfgBlocks).instructions).code s :=
      LiftedFunction.endBlock_instructions _ s
    rw [liftBlocks_append, hblock]
    refine ⟨hs.of_code_eq ?_ le_rfl rfl, ?_⟩
    · rw [hbegin, hcode]
    · rw [AllNamed, AllNamed, hbegin, hall] at hallBlock
      rw [hcode, hallBlock]
      simp only [liftedFrom_concat_iff, or_imp, forall_and]

/-- The printed registers of a lifted function identify its temporaries exactly if every instruction
that was lifted into an open block passes `LiftsApart`. -/
theorem liftBlocks_printsApart_iff (ctx : LiftContext)
    (cfgBlocks : List (U64 × List DecodedInstr)) :
    PrintsApart (liftBlocks ctx cfgBlocks).instructions ↔
      ∀ s di, LiftedFrom ctx cfgBlocks s di → di.LiftsApart ctx s.flagState := by
  obtain ⟨hstate, hall⟩ := @namedState_liftBlocks ctx cfgBlocks 0
  have hplain : ∀ i ∈ (liftBlocks ctx cfgBlocks).instructions, i.PrintsPlainly := fun i hi =>
    hstate.plain i (List.mem_append_left _ hi)
  rw [printsApart_iff hplain, hall]

/-- The sum of two registers is lifted apart where its write is lost. -/
example : addRaxRbx.LiftsApart byValueContext {} ∧ ¬ addRaxRbx.LiftsApart bareContext {} := by
  decide

/-- `add rax, [rbx]`. -/
def addRaxMem : DecodedInstr where
  va := 0x1000
  length := 3
  zydis :=
    { mnemonic := .add, length := 3, operandCountVisible := 2,
      operands := [{ type := .register, size := 64, reg := .rax },
        { type := .memory, size := 64, mem := { base := .rbx } }] }

/-- The address of `add rax, [rbx]` is defined as `%mem_ptr.20` and loaded from as `%vreg20`. -/
theorem not_printsApart_addRaxMem :
    (liftBlocks byValueContext [(0x1000, [addRaxMem])]).instructions.map IRInst.toString =
        [.ok "%mem_ptr.20 = inttoptr i64 %reg.1 to ptr",
          .ok "%mem_load.21 = load i64, ptr %vreg20, align 1",
          .ok "%add.22 = add i64 %reg.0, %vreg21"] ∧
      ¬ PrintsApart (liftBlocks byValueContext [(0x1000, [addRaxMem])]).instructions ∧
      ¬ PrintsApart (liftBlocks bareContext [(0x1000, [addRaxMem])]).instructions := by
  have hfalse : ∀ {code : List IRInst},
      .makeCast .inttoptr ⟨20, "mem_ptr"⟩ .ptr (.makeVReg Gpr.rbx.vregId .i64 "reg") ∈ code →
      .makeLoad ⟨21, "mem_load"⟩ .i64 (.makeVReg 20 .ptr) .unaligned ∈ code →
      ¬ PrintsApart code := by
    intro code hdefine huse h
    have htext := (h.apart _ hdefine _ huse ⟨20, "mem_ptr"⟩ (by decide) ⟨20, ""⟩ (by decide)
      le_rfl le_rfl).mpr rfl
    exact absurd htext (by decide)
  refine ⟨by decide +kernel, hfalse ?_ ?_, hfalse ?_ ?_⟩ <;> decide +kernel

end FunctionLifter

end InstaX
