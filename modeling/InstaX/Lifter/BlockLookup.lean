import InstaX.Foundation.Numerals
import InstaX.IR.Function
import InstaX.Lifter.BranchTargets

/-!
# Looking up blocks

`FunctionLifter::lift` (`src/backend/x86/X86Lifter.cpp`) walks the map of the control flow graph
twice: it files the label of every leader, and it adds an empty block under that label.  The label
of an address is its hexadecimal numeral, so that no two addresses share one
(`makeLabel_injective`), and the map is ordered, so that the blocks are added from the lowest
address up.  Hence the search for a label finds the block of the address or nothing, and the entry
block is the lowest one (`lift_findsBlocks`).
-/

namespace InstaX

open Throwing

/-- The map of a control flow graph (`std::map`): one block of instructions for each leader, in
increasing order. -/
structure BlockMap where
  entries : List (U64 × List DecodedInstr)
  sorted : entries.Pairwise fun e e' => e.1 < e'.1

/-- The addresses at which the blocks start. -/
def BlockMap.leaders (cfgBlocks : BlockMap) : List U64 := cfgBlocks.entries.map Prod.fst

namespace FunctionLifter

/-- The function of a new lifter. -/
def newFunction (name : String) (returnType : IRType) (cc : CallingConv) : IRFunction :=
  { name := name, returnType := returnType, callingConv := cc }

/-- File the label of a leader. -/
def nameBlock (names : U64 → Option String) (entry : U64 × List DecodedInstr) :
    U64 → Option String :=
  Function.update names entry.1 (some (makeLabel entry.1))

/-- Add the empty block of a leader. -/
def createBlock (fn : IRFunction) (entry : U64 × List DecodedInstr) : IRFunction :=
  fn.addBlock { name := makeLabel entry.1, startAddr := entry.1 }

/-- Name the blocks and create them; returns the function and the labels by address.  The source
ends here. -/
def lift (fn : IRFunction) (cfgBlocks : BlockMap) : IRFunction × (U64 → Option String) :=
  if cfgBlocks.entries.isEmpty then (fn, fun _ => none)
  else
    let names := cfgBlocks.entries.foldl nameBlock fun _ => none
    (cfgBlocks.entries.foldl createBlock fn, names)

/-- The blocks of the function start at the leaders, in order; each is found under the label of its
address, the labels of other addresses find nothing, and the entry block is the lowest one. -/
structure FindsBlocks (fn : IRFunction) (leaders : List U64) : Prop where
  startAddr : fn.blocks.map IRBasicBlock.startAddr = leaders
  distinct : (leaders.map makeLabel).Nodup
  found : ∀ block ∈ fn.blocks, fn.findBlock (makeLabel block.startAddr) = some block
  absent : ∀ va, va ∉ leaders → fn.findBlock (makeLabel va) = none
  entry : leaders ≠ [] → ∃ entry ∈ fn.blocks, fn.entryBlock = .ok entry ∧
    ∀ va ∈ leaders, entry.startAddr ≤ va

/-- Different addresses have different labels. -/
lemma makeLabel_injective : Function.Injective makeLabel := by
  intro va va' h
  have hdigits : Nat.toDigits 16 va.toNat = Nat.toDigits 16 va'.toNat :=
    String.ofList_injective ((String.append_right_inj _).mp h)
  exact BitVec.eq_of_toNat_eq (Numerals.toDigits_injective (by decide) le_rfl hdigits)

variable {fn : IRFunction} {cfgBlocks : BlockMap}

/-- The loop adds the blocks behind those that are there. -/
lemma foldl_createBlock (entries : List (U64 × List DecodedInstr)) (fn : IRFunction) :
    (entries.foldl createBlock fn).blocks = fn.blocks ++ createBlocks entries := by
  induction entries generalizing fn with
  | nil => simp [createBlocks]
  | cons entry entries ih =>
    rw [List.foldl_cons, ih, createBlock, IRFunction.addBlock_blocks, List.append_assoc]
    rfl

/-- The loop files the label of every leader under its address. -/
lemma foldl_nameBlock (entries : List (U64 × List DecodedInstr)) (names : U64 → Option String)
    (va : U64) : entries.foldl nameBlock names va =
      if va ∈ entries.map Prod.fst then some (makeLabel va) else names va := by
  induction entries generalizing names with
  | nil => simp
  | cons entry entries ih =>
    rw [List.foldl_cons, ih, List.map_cons, nameBlock]
    by_cases hva : va = entry.1
    · subst hva
      simp
    · rw [Function.update_of_ne hva]
      simp only [List.mem_cons, hva, false_or]

/-- The blocks that are created, and the labels by which branches look them up. -/
lemma lift_eq (fn : IRFunction) (cfgBlocks : BlockMap) :
    (lift fn cfgBlocks).1.blocks = fn.blocks ++ createBlocks cfgBlocks.entries ∧
      (lift fn cfgBlocks).2 = blockNames cfgBlocks.entries := by
  unfold lift
  split_ifs with hempty
  · rw [List.isEmpty_iff.mp hempty]
    exact ⟨(List.append_nil _).symm, rfl⟩
  · refine ⟨foldl_createBlock _ _, funext fun va => ?_⟩
    exact foldl_nameBlock _ _ va

/-- The blocks of a lifted function, found by label: exactly, for every graph. -/
theorem lift_findsBlocks (name : String) (returnType : IRType) (cc : CallingConv)
    (cfgBlocks : BlockMap) :
    FindsBlocks (lift (newFunction name returnType cc) cfgBlocks).1 cfgBlocks.leaders := by
  set fn := (lift (newFunction name returnType cc) cfgBlocks).1
  have hblocks : fn.blocks = createBlocks cfgBlocks.entries :=
    (lift_eq (newFunction name returnType cc) cfgBlocks).1
  have hstart : fn.blocks.map IRBasicBlock.startAddr = cfgBlocks.leaders := by
    rw [hblocks, createBlocks, List.map_map]
    rfl
  have hname : ∀ block ∈ fn.blocks, block.name = makeLabel block.startAddr := by
    rw [hblocks]
    intro block hblock
    obtain ⟨entry, -, rfl⟩ := List.mem_map.mp hblock
    rfl
  have hnames : fn.blocks.map IRBasicBlock.name = cfgBlocks.leaders.map makeLabel := by
    rw [← hstart, List.map_map]
    exact List.map_congr_left hname
  have hsorted : fn.blocks.Pairwise fun block block' => block.startAddr < block'.startAddr := by
    rw [hblocks, createBlocks, List.pairwise_map]
    exact cfgBlocks.sorted
  have hdistinct : (cfgBlocks.leaders.map makeLabel).Nodup := by
    refine List.Nodup.map makeLabel_injective ?_
    rw [BlockMap.leaders, List.Nodup, List.pairwise_map]
    exact cfgBlocks.sorted.imp fun h heq => absurd (heq ▸ h) (BitVec.lt_irrefl _)
  refine ⟨hstart, hdistinct, fun block hblock => ?_, fun va hva => ?_, fun hne => ?_⟩
  · rw [← hname block hblock]
    exact IRFunction.findBlock_eq_some_of_mem (hnames ▸ hdistinct) hblock
  · refine IRFunction.findBlock_eq_none_iff.mpr fun block hblock heq => hva ?_
    rw [hname block hblock] at heq
    rw [← makeLabel_injective heq, ← hstart]
    exact List.mem_map_of_mem hblock
  · have hne' : fn.blocks ≠ [] := fun h => hne (by rw [← hstart, h, List.map_nil])
    obtain ⟨entry, hentry, hrun, hlowest⟩ := IRFunction.entryBlock_lowest hsorted hne'
    refine ⟨entry, hentry, hrun, fun va hva => ?_⟩
    rw [← hstart] at hva
    obtain ⟨block, hblock, rfl⟩ := List.mem_map.mp hva
    exact hlowest block hblock

end FunctionLifter

end InstaX
