import InstaX.IR.Function
import InstaX.IR.Machine

/-!
# Executing functions

A function is at the label of one of its blocks.  It runs the straight-line code of the block up to
the last instruction, which has to be a branch, and goes on at the label of the branch.  A label
without a block, a block that does not end with a branch and code without a meaning do not step.
-/

namespace InstaX

open StraightLine

/-- The label a branch goes to. -/
def IRInst.branchLabel (i : IRInst) (m : Machine) : Option String :=
  match i.opcode, i.operands with
  | .jmp, [] => some i.branchTrue
  | .cjmp, [cond] => some (if m.eval .i1 cond = 1 then i.branchTrue else i.branchFalse)
  | _, _ => none

namespace IRFunction

/-- Run the block at a label. -/
def step (fn : IRFunction) (c : String × Machine) : Option (String × Machine) := do
  let block ← fn.findBlock c.1
  let branch ← block.instructions.getLast?
  let m ← run IRInst.step block.instructions.dropLast c.2
  let label ← branch.branchLabel m
  return (label, m)

variable {fn : IRFunction} {block : IRBasicBlock} {label : String} {is : List IRInst}
  {m m' : Machine}

/-- The step of a block that is known to run to its branch. -/
lemma step_eq_some {branch : IRInst} {target : String} (hfind : fn.findBlock label = some block)
    (hcode : block.instructions = is ++ [branch]) (hrun : run IRInst.step is m = some m')
    (hbranch : branch.branchLabel m' = some target) : fn.step (label, m) = some (target, m') := by
  simp [step, hfind, hcode, hrun, hbranch]

end IRFunction

end InstaX
