import InstaX.Lifter.DefinedBeforeUse
import InstaX.Lifter.Terminators

/-!
# Branch targets

`FunctionLifter::lift` (`src/backend/x86/X86Lifter.cpp`) names the blocks of the graph after their
addresses and creates them before anything is lifted.  A branch looks its targets up by address.
For a conditional jump an address without a block becomes the label `unknown`; for a jump it becomes
a `nop`, and the address of a jump without a direct target is zero.

The blocks of `buildCFG` start where the stream has an instruction that is a leader
(`mem_keys_buildCFG`).  So the labels that are emitted are right exactly if conditional jumps stay
within the leaders of the function, and no block starts at address zero in a function with an
indirect jump (`branchesReal_iff`).
-/

namespace InstaX

open Throwing

namespace CFGBuilder

variable {instrs : List DecodedInstr}

/-- An instruction of the stream starts a block at the address. -/
def StartsBlock (instrs : List DecodedInstr) (va : U64) : Prop :=
  (∃ di ∈ instrs, di.va = va) ∧ va ∈ leaders instrs

/-- The blocks of the graph start at the leaders of the stream. -/
lemma mem_keys_buildCFG {va : U64} :
    va ∈ (buildCFG instrs).map Prod.fst ↔ StartsBlock instrs va := by
  cases instrs with
  | nil => simp [buildCFG, StartsBlock]
  | cons front rest =>
    have hfront : front.va ∈ leaders (front :: rest) := List.mem_cons_self
    rw [buildCFG, LeaderCut.mem_keys_pass _ _ (LeaderCut.mem_keys_modify.mpr (Or.inl rfl)),
      LeaderCut.mem_keys_modify, List.map_nil, StartsBlock]
    constructor
    · rintro ((rfl | h) | ⟨di, hdi, hleader, rfl⟩)
      · exact ⟨⟨front, List.mem_cons_self, rfl⟩, hfront⟩
      · exact absurd h List.not_mem_nil
      · exact ⟨⟨di, hdi, rfl⟩, List.contains_iff_mem.mp hleader⟩
    · rintro ⟨⟨di, hdi, rfl⟩, hleader⟩
      exact Or.inr ⟨di, hdi, List.contains_iff_mem.mpr hleader, rfl⟩

/-- The instructions of the blocks are those of the stream. -/
lemma mem_block_buildCFG {di : DecodedInstr} :
    (∃ entry ∈ buildCFG instrs, di ∈ entry.2) ↔ di ∈ instrs := by
  cases instrs with
  | nil => simp [buildCFG]
  | cons front rest =>
    rw [buildCFG, LeaderCut.mem_items_pass]
    simp [LeaderCut.modify]

end CFGBuilder

/-- The address that a relative branch goes to when it is taken. -/
def DecodedInstr.takenVA (di : DecodedInstr) : Option U64 :=
  di.zydis.relativeOp?.map fun op => di.nextVA + op.imm.value

/-- The relative target is zero for an instruction without one. -/
lemma DecodedInstr.relativeTarget_eq (di : DecodedInstr) :
    di.relativeTarget = di.takenVA.getD 0 := by
  unfold relativeTarget takenVA
  cases di.zydis.relativeOp? <;> rfl

namespace FunctionLifter

/-! ## The blocks of a function -/

/-- The names of the blocks, by address. -/
def blockNames (cfgBlocks : List (U64 × List DecodedInstr)) (va : U64) : Option String :=
  if va ∈ cfgBlocks.map Prod.fst then some (makeLabel va) else none

/-- The blocks that are created before anything is lifted. -/
def createBlocks (cfgBlocks : List (U64 × List DecodedInstr)) : List IRBasicBlock :=
  cfgBlocks.map fun entry => { name := makeLabel entry.1, startAddr := entry.1 }

/-- What the lifter reads when it lifts these blocks. -/
def functionContext (ctx : LiftContext) (cfgBlocks : List (U64 × List DecodedInstr)) :
    LiftContext :=
  { ctx with blockNames := blockNames cfgBlocks }

/-- The label is the name of a block of the function, and that block starts at the address. -/
def NamesBlock (cfgBlocks : List (U64 × List DecodedInstr)) (label : String) (va : U64) : Prop :=
  ∃ b ∈ createBlocks cfgBlocks, b.name = label ∧ b.startAddr = va

variable {ctx : LiftContext} {cfgBlocks : List (U64 × List DecodedInstr)} {va : U64}

/-- No label is the one for an unknown target. -/
lemma makeLabel_ne_unknown (va : U64) : makeLabel va ≠ "unknown" := by
  intro h
  have hlist := congrArg String.toList h
  rw [makeLabel, String.toList_append] at hlist
  exact absurd (congrArg List.head? hlist) (by simp)

/-- The label at an address is right if a block starts there; otherwise it names no block. -/
lemma namesBlock_labelAt_iff :
    NamesBlock cfgBlocks (labelAt (functionContext ctx cfgBlocks) va) va ↔
      va ∈ cfgBlocks.map Prod.fst := by
  have hlabel : labelAt (functionContext ctx cfgBlocks) va =
    (blockNames cfgBlocks va).getD "unknown" :=
    rfl
  rw [hlabel, blockNames]
  constructor
  · rintro ⟨b, hb, hname, -⟩
    by_contra hva
    obtain ⟨entry, -, rfl⟩ := List.mem_map.mp hb
    rw [if_neg hva] at hname
    exact makeLabel_ne_unknown entry.1 hname
  · intro hva
    obtain ⟨entry, hentry, rfl⟩ := List.mem_map.mp hva
    rw [if_pos hva]
    exact ⟨_, List.mem_map_of_mem hentry, rfl, rfl⟩

/-- No block is found at an address where none starts. -/
lemma blockNames_eq_none_iff {instrs : List DecodedInstr} :
    blockNames (CFGBuilder.buildCFG instrs) va = none ↔ ¬ CFGBuilder.StartsBlock instrs va := by
  unfold blockNames
  rw [← CFGBuilder.mem_keys_buildCFG]
  split_ifs with hva
  · simp [hva]
  · simp [hva]

/-! ## The branches of an instruction -/

/-- The labels of a branch that was emitted for `di` name the blocks of the function at the
addresses that `di` can go to. -/
def RealBranch (cfgBlocks : List (U64 × List DecodedInstr)) (di : DecodedInstr) (i : IRInst) :
    Prop :=
  (i.opcode = .jmp → ∃ va ∈ di.takenVA, NamesBlock cfgBlocks i.branchTrue va) ∧
  (i.opcode = .cjmp → (∃ va ∈ di.takenVA, NamesBlock cfgBlocks i.branchTrue va) ∧
    NamesBlock cfgBlocks i.branchFalse di.nextVA)

/-- Wherever the instruction is lifted, the branches it emits are real. -/
def BranchesReal (ctx : LiftContext) (cfgBlocks : List (U64 × List DecodedInstr))
    (di : DecodedInstr) :
    Prop :=
  ∀ s t, s.Open → (liftInstr (functionContext ctx cfgBlocks) di).run s = .ok () t →
    ∀ i ∈ t.block.instructions.drop s.block.instructions.length, RealBranch cfgBlocks di i

/-- A conditional jump goes to blocks of the stream, and if the instruction is an indirect jump, no
block starts at zero. -/
def StaysInside (instrs : List DecodedInstr) (di : DecodedInstr) : Prop :=
  (flagRequestForJcc di.zydis.mnemonic ≠ none →
    (∃ va ∈ di.takenVA, CFGBuilder.StartsBlock instrs va) ∧
      CFGBuilder.StartsBlock instrs di.nextVA) ∧
  (di.zydis.mnemonic = .jmp → di.takenVA = none → ¬ CFGBuilder.StartsBlock instrs 0)

/-- What is no terminator branches nowhere. -/
lemma realBranch_of_not_isTerminator {di : DecodedInstr} {i : IRInst}
    (hi : i.isTerminator = false) : RealBranch cfgBlocks di i := by
  unfold IRInst.isTerminator at hi
  constructor <;> intro hop <;> rw [hop] at hi <;> cases hi

/-- The branch that an instruction of a stream emits. -/
lemma forall_realBranch_iff {instrs : List DecodedInstr} {di : DecodedInstr} {ends : List IRInst}
    (h : Branch (functionContext ctx (CFGBuilder.buildCFG instrs)) di ends) :
    (∀ i ∈ ends, RealBranch (CFGBuilder.buildCFG instrs) di i) ↔ StaysInside instrs di := by
  have hnames : ∀ va, NamesBlock (CFGBuilder.buildCFG instrs)
      (labelAt (functionContext ctx (CFGBuilder.buildCFG instrs)) va) va ↔
        CFGBuilder.StartsBlock instrs va := fun va => by
    rw [namesBlock_labelAt_iff, CFGBuilder.mem_keys_buildCFG]
  have htarget := di.relativeTarget_eq
  cases h with
  | jcc hjcc cond =>
    have hne : di.zydis.mnemonic ≠ .jmp := by
      intro hjmp
      rw [hjmp] at hjcc
      cases hjcc
    have htaken : (∃ va ∈ di.takenVA, NamesBlock (CFGBuilder.buildCFG instrs)
        (labelAt (functionContext ctx (CFGBuilder.buildCFG instrs)) di.relativeTarget) va) ↔
          ∃ va ∈ di.takenVA, CFGBuilder.StartsBlock instrs va := by
      refine exists_congr fun va => and_congr_right fun hva => ?_
      rw [Option.mem_def.mp hva, Option.getD_some] at htarget
      rw [htarget]
      exact hnames va
    rw [List.forall_mem_singleton, StaysInside, hjcc]
    constructor
    · intro hreal
      obtain ⟨hfirst, hsecond⟩ := hreal.2 rfl
      exact ⟨fun _ => ⟨htaken.mp hfirst, (hnames _).mp hsecond⟩, fun hjmp => absurd hjmp hne⟩
    · rintro ⟨hinside, -⟩
      obtain ⟨hfirst, hsecond⟩ := hinside (Option.some_ne_none _)
      refine ⟨fun hop => ?_, fun _ => ⟨htaken.mpr hfirst, (hnames _).mpr hsecond⟩⟩
      cases hop
  | @jmp label hjmp hlabel =>
    have hlabelAt : labelAt (functionContext ctx (CFGBuilder.buildCFG instrs)) di.relativeTarget =
        label := by
      rw [labelAt, hlabel]
      rfl
    have hstarts : CFGBuilder.StartsBlock instrs di.relativeTarget := by
      by_contra hnot
      have hnone := blockNames_eq_none_iff.mpr hnot
      exact Option.some_ne_none label (hlabel.symm.trans hnone)
    rw [List.forall_mem_singleton, StaysInside, hjmp]
    cases htaken : di.takenVA with
    | none =>
      -- the default target is a block
      rw [htaken, Option.getD_none] at htarget
      refine iff_of_false (fun hreal => ?_) fun hinside => ?_
      · obtain ⟨va, hva, -⟩ := hreal.1 rfl
        rw [htaken] at hva
        cases hva
      · exact hinside.2 rfl rfl (htarget ▸ hstarts)
    | some va =>
      rw [htaken, Option.getD_some] at htarget
      refine iff_of_true ⟨fun _ => ⟨va, htaken, ?_⟩, fun hop => ?_⟩
        ⟨fun hjcc => absurd rfl hjcc, fun _ hnone => ?_⟩
      · rw [← htarget, ← hlabelAt]
        exact (hnames _).mpr hstarts
      · cases hop
      · cases hnone
  | none hjcc hjmp =>
    refine iff_of_true (by simp) ⟨fun h => absurd hjcc h, fun hmnemonic hnone => ?_⟩
    rw [hnone, Option.getD_none] at htarget
    have hlookup := hjmp hmnemonic
    rw [htarget] at hlookup
    exact blockNames_eq_none_iff.mp hlookup

/-- The branches of an instruction of a stream are real exactly if it stays inside. -/
lemma branchesReal_iff_staysInside {instrs : List DecodedInstr} {di : DecodedInstr} :
    BranchesReal ctx (CFGBuilder.buildCFG instrs) di ↔ StaysInside instrs di := by
  set ctx' := functionContext ctx (CFGBuilder.buildCFG instrs)
  constructor
  · intro hreal
    obtain ⟨t, is, ends, hrun, hblock, -, hbranch⟩ := exists_run_liftInstr ctx' di emptyBlock_open
    refine (forall_realBranch_iff hbranch).mp fun i hi => hreal _ _ emptyBlock_open hrun i ?_
    rw [hblock, IRBasicBlock.append_instructions, List.drop_left]
    exact List.mem_append_right _ hi
  · intro hinside s t hs hrun i hi
    obtain ⟨t', is, ends, hrun', hblock, his, hbranch⟩ := exists_run_liftInstr ctx' di hs
    obtain rfl : t' = t := (EStateM.Result.ok.inj (hrun'.symm.trans hrun)).2
    rw [hblock, IRBasicBlock.append_instructions, List.drop_left, List.mem_append] at hi
    rcases hi with hi | hi
    · exact realBranch_of_not_isTerminator (his i hi)
    · exact (forall_realBranch_iff hbranch).mpr hinside i hi

/-- Every branch that is emitted for a stream goes to the right block, exactly if every conditional
jump stays inside the stream, and no block starts at address zero if there is an indirect jump. -/
theorem branchesReal_iff (ctx : LiftContext) (instrs : List DecodedInstr) :
    (∀ entry ∈ CFGBuilder.buildCFG instrs, ∀ di ∈ entry.2,
      BranchesReal ctx (CFGBuilder.buildCFG instrs) di) ↔ ∀ di ∈ instrs, StaysInside instrs di := by
  simp only [branchesReal_iff_staysInside]
  constructor
  · intro h di hdi
    obtain ⟨entry, hentry, hmem⟩ := CFGBuilder.mem_block_buildCFG.mpr hdi
    exact h entry hentry di hmem
  · intro h entry hentry di hmem
    exact h di (CFGBuilder.mem_block_buildCFG.mp ⟨entry, hentry, hmem⟩)

/-- `jmp rax` at address zero. -/
def jmpRax : DecodedInstr where
  va := 0
  length := 2
  zydis := {
    mnemonic := .jmp, length := 2, operandCountVisible := 1,
    operands := [{ type := .register, size := 64, reg := .rax }] }

/-- The indirect jump becomes a jump to the block at address zero. -/
theorem jmpRax_branches_to_zero : ¬ ∀ entry ∈ CFGBuilder.buildCFG [jmpRax], ∀ di ∈ entry.2,
    BranchesReal byValueContext (CFGBuilder.buildCFG [jmpRax]) di := by
  intro h
  have hreal := h (0, [jmpRax]) (by decide) jmpRax List.mem_cons_self emptyBlock
  obtain ⟨t, hrun, hmem⟩ : ∃ t,
      (liftInstr (functionContext byValueContext (CFGBuilder.buildCFG [jmpRax])) jmpRax).run
        emptyBlock = .ok () t ∧ IRInst.makeJmp "bb_0x0" ∈ t.block.instructions :=
    ⟨_, rfl, by decide +kernel⟩
  obtain ⟨va, hva, -⟩ := (hreal t emptyBlock_open hrun _ hmem).1 rfl
  cases hva

end FunctionLifter

end InstaX
