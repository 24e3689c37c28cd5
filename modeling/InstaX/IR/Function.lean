import InstaX.IR.Syntax

/-!
# Functions

`IRFunction` (`src/ir/IR.hpp`, `src/ir/IR.cpp`) owns its blocks in the order in which they were
added.  A block is found by its name, with a linear search that stops at the first match; where the
names are pairwise distinct, that is the block (`findBlock_eq_some_of_mem`).  The entry block is the
first one.
-/

namespace InstaX

open Throwing

/-- A function: its blocks, and the counter of its virtual registers. -/
structure IRFunction where
  name : String
  returnType : IRType
  callingConv : CallingConv := .c
  blocks : List IRBasicBlock := []
  nextVregId : ℕ := 20
  deriving DecidableEq, Repr

namespace IRFunction

/-- Add a block behind the others. -/
def addBlock (fn : IRFunction) (block : IRBasicBlock) : IRFunction :=
  { fn with blocks := fn.blocks ++ [block] }

/-- The first block of the name; `none` is the source's null pointer. -/
def findBlock (fn : IRFunction) (name : String) : Option IRBasicBlock :=
  fn.blocks.find? fun block => block.name == name

/-- The first block. -/
def entryBlock (fn : IRFunction) : Except Exn IRBasicBlock :=
  match fn.blocks with
  | [] =>
      .error (.logicError ("IRFunction::entryBlock: function '" ++ fn.name ++ "' has no blocks"))
  | block :: _ => .ok block

variable {fn : IRFunction} {name : String} {block : IRBasicBlock}

@[simp] lemma addBlock_blocks (fn : IRFunction) (block : IRBasicBlock) :
    (fn.addBlock block).blocks = fn.blocks ++ [block] := rfl

/-- No block is found under a name that none has. -/
lemma findBlock_eq_none_iff : fn.findBlock name = none ↔
    ∀ block ∈ fn.blocks, block.name ≠ name := by
  simp [findBlock]

/-- A block is found under its name, if no other block has it. -/
lemma findBlock_eq_some_of_mem (hdistinct : (fn.blocks.map IRBasicBlock.name).Nodup)
    (hmem : block ∈ fn.blocks) : fn.findBlock block.name = some block := by
  cases hfind : fn.findBlock block.name with
  | none => exact absurd rfl (findBlock_eq_none_iff.mp hfind block hmem)
  | some found =>
    rw [findBlock] at hfind
    have hname : found.name = block.name := by simpa using List.find?_some hfind
    have hfound : found ∈ fn.blocks := List.mem_of_find?_eq_some hfind
    rw [List.inj_on_of_nodup_map hdistinct hfound hmem hname]

/-- In a function whose blocks have increasing addresses, the entry block has the lowest. -/
lemma entryBlock_lowest
    (hsorted : fn.blocks.Pairwise fun block block' => block.startAddr < block'.startAddr)
    (hne : fn.blocks ≠ []) :
    ∃ entry ∈ fn.blocks, fn.entryBlock = .ok entry ∧
      ∀ block ∈ fn.blocks, entry.startAddr ≤ block.startAddr := by
  unfold entryBlock
  cases hblocks : fn.blocks with
  | nil => exact absurd hblocks hne
  | cons entry rest =>
    rw [hblocks, List.pairwise_cons] at hsorted
    refine ⟨entry, List.mem_cons_self, rfl, fun block hblock => ?_⟩
    rcases List.mem_cons.mp hblock with rfl | hrest
    · exact BitVec.le_refl _
    · exact BitVec.le_of_lt (hsorted.1 block hrest)

end IRFunction

end InstaX
