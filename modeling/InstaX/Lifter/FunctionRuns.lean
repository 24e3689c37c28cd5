import InstaX.Foundation.CutPoints
import InstaX.Lifter.BlockLookup
import InstaX.Lifter.DefinedBeforeUse
import InstaX.Lifter.InstructionRuns
import InstaX.Lifter.WellTyped

/-!
# Lifted functions against guest code

A guest stream and the function that is lifted from its control flow graph, run side by side.  The
starts of the blocks are the cut points: there the function is at the label of the address, and its
machine holds the guest state.  Runs are followed as long as they stay in covered blocks.  Between
two starts the guest takes the steps of one block, and the function takes one
(`simulation_liftFunction`); so the runs of both agree, forwards and backwards, and one leaves the
covered blocks exactly if the other one does.
-/

namespace InstaX

open Throwing StraightLine CutPoints StateTransition

/-- Instructions that lie end to end follow one another. -/
lemma Tiles.isChain {lo hi : ℕ} {instrs : List DecodedInstr} (h : Tiles lo instrs hi) :
    instrs.IsChain fun di di' => di'.va = di.nextVA := by
  induction instrs generalizing lo with
  | nil => exact .nil
  | cons di instrs ih =>
    obtain ⟨hva, -, hrest⟩ := h
    cases instrs with
    | nil => exact .singleton di
    | cons di' instrs =>
      refine .cons_cons ?_ (ih hrest)
      refine BitVec.eq_of_toNat_eq ?_
      have hva' : di'.va.toNat = lo + di.length.toNat := hrest.1
      have hlt := di'.va.isLt
      have hlen : (di.length.setWidth 64).toNat = di.length.toNat := by
        rw [BitVec.toNat_setWidth, Nat.mod_eq_of_lt (lt_trans di.length.isLt (by decide))]
      rw [DecodedInstr.nextVA, BitVec.toNat_add, hlen, hva, ← hva', Nat.mod_eq_of_lt hlt]

namespace CFGBuilder.IsCut

variable {instrs : List DecodedInstr} {blocks : List (U64 × List DecodedInstr)}

/-- A block is a piece of the stream. -/
lemma isInfix (h : IsCut instrs blocks) {e : U64 × List DecodedInstr} (he : e ∈ blocks) :
    e.2 <:+: instrs := by
  obtain ⟨before, after, hsplit⟩ := List.append_of_mem (List.mem_map_of_mem (f := Prod.snd) he)
  refine ⟨before.flatten, after.flatten, ?_⟩
  rw [← h.flatten, hsplit, List.flatten_append, List.flatten_cons, List.append_assoc]

/-- A block starts with the instruction at its address. -/
lemma exists_cons (h : IsCut instrs blocks) {e : U64 × List DecodedInstr} (he : e ∈ blocks) :
    ∃ di dis, e.2 = di :: dis ∧ di.va = e.1 := by
  have hhead := h.head e he
  cases hdis : e.2 with
  | nil => simp [hdis] at hhead
  | cons di dis => exact ⟨di, dis, rfl, by simpa [hdis] using hhead⟩

/-- No two blocks start at one address. -/
lemma nodup_starts (h : IsCut instrs blocks) : (blocks.map Prod.fst).Nodup := by
  rw [List.Nodup, List.pairwise_map]
  exact h.sorted.imp fun hlt heq => absurd (heq ▸ hlt) (BitVec.lt_irrefl _)

/-- There is one block at an address. -/
lemma eq_of_fst_eq (h : IsCut instrs blocks) {e e' : U64 × List DecodedInstr} (he : e ∈ blocks)
    (he' : e' ∈ blocks) (hfst : e.1 = e'.1) : e = e' :=
  List.inj_on_of_nodup_map h.nodup_starts he he' hfst

/-- Behind the first instruction of a block no block starts. -/
lemma notMem_starts (h : IsCut instrs blocks) (hsorted : instrs.Pairwise fun x y => x.va < y.va)
    {e : U64 × List DecodedInstr} (he : e ∈ blocks) {di : DecodedInstr} (hdi : di ∈ e.2.tail) :
    di.va ∉ blocks.map Prod.fst := by
  intro hstart
  obtain ⟨e', he', heq⟩ := List.mem_map.mp hstart
  obtain ⟨front, dis, hdis, hfront⟩ := h.exists_cons he'
  have hfront' : front ∈ e'.2 := hdis ▸ List.mem_cons_self
  have hva : front.va = di.va := hfront.trans heq
  rw [← h.flatten, List.pairwise_flatten] at hsorted
  by_cases hsame : e = e'
  · subst hsame
    have hlt := hsorted.1 e.2 (List.mem_map_of_mem he)
    rw [hdis, List.pairwise_cons] at hlt
    rw [hdis, List.tail_cons] at hdi
    exact absurd (hva ▸ hlt.1 di hdi) (BitVec.lt_irrefl _)
  · have hapart := (List.pairwise_map.mp hsorted.2).imp
      (S := fun e e' : U64 × List DecodedInstr => ∀ x ∈ e.2, ∀ y ∈ e'.2, x.va ≠ y.va)
      fun hlt x hx y hy heq => absurd (heq ▸ hlt x hx y hy) (BitVec.lt_irrefl _)
    have hsymm : Std.Symm fun e e' : U64 × List DecodedInstr =>
        ∀ x ∈ e.2, ∀ y ∈ e'.2, x.va ≠ y.va := ⟨fun _ _ hne x hx y hy => (hne y hy x hx).symm⟩
    exact hapart.forall he he' hsame di (List.mem_of_mem_tail hdi) front hfront' hva.symm

end CFGBuilder.IsCut

namespace FunctionLifter

/-! ## The function -/

/-- Fill the blocks that `lift` creates.  The source ends after their creation; the loop over the
blocks is read as in `liftBlocks`. -/
def liftFunction (ctx : LiftContext) (fn : IRFunction)
    (cfgBlocks : List (U64 × List DecodedInstr)) :
    IRFunction :=
  let lifted := liftBlocks (functionContext ctx cfgBlocks) cfgBlocks
  { fn with blocks := lifted.blocks, nextVregId := lifted.nextVregId }

variable {ctx : LiftContext} {cfgBlocks : List (U64 × List DecodedInstr)}

/-- The blocks that are lifted: one for each block of the graph, under its label, with the code that
is lifted from some state of the function. -/
lemma liftBlocks_blocks
    (hcf : ∀ e ∈ cfgBlocks, ∀ di ∈ e.2.dropLast, CFGBuilder.isControlFlow di = false) :
    (liftBlocks ctx cfgBlocks).blocks.map IRBasicBlock.name =
        cfgBlocks.map (fun e => makeLabel e.1) ∧
      ∀ e ∈ cfgBlocks, ∃ (fn : LiftedFunction) (t : LiftState), 20 ≤ fn.nextVregId ∧
        (forM e.2 (liftInstr ctx)).run (fn.beginBlock e.1) = .ok () t ∧
        t.block ∈ (liftBlocks ctx cfgBlocks).blocks ∧ t.block.name = makeLabel e.1 := by
  induction cfgBlocks using List.reverseRecOn with
  | nil => exact ⟨rfl, fun e he => absurd he List.not_mem_nil⟩
  | append_singleton cfgBlocks last ih =>
    obtain ⟨hnames, hblocks⟩ := ih fun e he => hcf e (List.mem_append_left _ he)
    obtain ⟨t, is, hrun, hblock, -⟩ := exists_run_forM_liftInstr ctx
      (hcf last (List.mem_append_right _ (List.mem_singleton_self _)))
      (s := (liftBlocks ctx cfgBlocks).beginBlock last.1) rfl
    have hname : t.block.name = makeLabel last.1 := by
      rw [hblock]
      rfl
    have hlift : liftBlock ctx (liftBlocks ctx cfgBlocks) last =
      (liftBlocks ctx cfgBlocks).endBlock t := by
      rw [liftBlock, hrun]
    have hnext := (@typedState_liftBlocks ctx cfgBlocks last.1).1.settled.base_le
    rw [liftBlocks_append, hlift]
    refine ⟨?_, fun e he => ?_⟩
    · rw [LiftedFunction.endBlock, List.map_append, List.map_append, hnames, List.map_singleton,
        List.map_singleton, hname]
    · rcases List.mem_append.mp he with he | he
      · obtain ⟨fn, t', hnext', hrun', hmem, hname'⟩ := hblocks e he
        exact ⟨fn, t', hnext', hrun', List.mem_append_left _ hmem, hname'⟩
      · obtain rfl := List.mem_singleton.mp he
        exact ⟨_, t, hnext, hrun, List.mem_append_right _ (List.mem_singleton_self _), hname⟩

/-! ## One block -/

variable {instrs : List DecodedInstr} {starts : List U64} {s : LiftState} {m : Machine}
  {x : X86State} {track : Option FlagTrack}

/-- The guest runs the instructions of a covered block up to a start, and the code that is lifted
for them leaves the block for the label of that address. -/
theorem exec_coversFrom {follow : U64 × X86State → Prop} [DecidablePred follow]
    (hsorted : instrs.Pairwise fun x y => x.va < y.va)
    (hnames : ∀ va ∈ starts, ctx.blockNames va = some (makeLabel va)) {dis : List DecodedInstr}
    (hfollow : ∀ di ∈ dis, ∀ x, follow (di.va, x)) (hdis : ∀ di ∈ dis, di ∈ instrs)
    (hchain : dis.IsChain fun di di' => di'.va = di.nextVA)
      (hinside : ∀ di ∈ dis.tail, di.va ∉ starts)
    (hcovers : CoversFrom ctx starts track dis) (hm : m.Holds x) (hs : s.Open)
    (hnext : 16 ≤ s.nextVregId)
    (hrecord : ∀ t ∈ track, t.Holds s.flagState s.nextVregId m x.flags) {di : DecodedInstr}
    (hhead : dis.head? = some di) :
    ∃ va ∈ starts, ∃ x' t,
      Segment (restrict follow (X86.step instrs)) (fun c => c.1 ∈ starts) (di.va, x) (va, x') ∧
        (forM dis (liftInstr ctx)).run s = .ok () t ∧ LeavesFor s m va x' t := by
  induction dis generalizing track s m x di with
  | nil => cases hhead
  | cons front rest ih =>
    obtain rfl : front = di := Option.some_inj.mp hhead
    have hstep : restrict follow (X86.step instrs) (front.va, x) = X86.step instrs (front.va, x) :=
      restrict_of_pos (hfollow front List.mem_cons_self x)
    have hfront := hdis front List.mem_cons_self
    cases rest with
    | nil =>
      obtain ⟨va, hva, hjump, t, hrun, hleaves⟩ :=
        exec_coversJump hsorted hfront hnames hcovers hm hs hnext hrecord
      refine ⟨va, hva, x, t, .last (hstep.trans hjump), ?_, hleaves⟩
      rw [List.forM_cons, run_bind_of_ok hrun]
      rfl
    | cons following rest =>
      obtain ⟨hfirst, hrest⟩ := hcovers
      obtain ⟨x₁, hexec, ⟨⟩, s₁, is, hrun, hblock, -, m₁, hm₁, hpost⟩ :=
        exec_covers hfirst hm hs hnext hrecord
      obtain ⟨va, hva, x', t, hsegment, hrun', js, branch, m', hblock', hm', hlabel, hheld⟩ :=
        ih (fun di hdi => hfollow di (List.mem_cons_of_mem _ hdi))
          (fun di hdi => hdis di (List.mem_cons_of_mem _ hdi)) hchain.tail
          (fun di hdi => hinside di (List.mem_of_mem_tail hdi)) hrest hpost.holds hpost.isOpen
          (hnext.trans hpost.next_le) hpost.record rfl
      obtain ⟨hjcc, hjmp⟩ := hfirst.not_jump
      have hva₁ : following.va = front.nextVA := (List.isChain_cons_cons.mp hchain).1
      have hfirstStep : restrict follow (X86.step instrs) (front.va, x) = some
        (following.va, x₁) := by
        rw [hstep, X86.step_of_exec hsorted hfront hjcc hjmp hexec, hva₁]
      refine ⟨va, hva, x', t, .step hfirstStep (hinside following List.mem_cons_self) hsegment, ?_,
        is ++ js, branch, m', ?_, run_append_of_eq_some hm₁ hm', hlabel, hheld⟩
      · rw [List.forM_cons, run_bind_of_ok hrun]
        exact hrun'
      · rw [hblock', hblock, IRBasicBlock.append_append, List.append_assoc]

/-! ## Runs -/

section Runs

variable (ctx) (instrs)

/-- The addresses at which the blocks of a stream start. -/
def blockStarts : List U64 := (CFGBuilder.buildCFG instrs).map Prod.fst

/-- The address is that of an instruction in a covered block. -/
def InCovered (va : U64) : Prop :=
  ∃ e ∈ CFGBuilder.buildCFG instrs, CoversBlock ctx (blockStarts instrs) e.2 ∧
    ∃ di ∈ e.2, di.va = va

/-- The label is that of a covered block. -/
def CoveredLabel (label : String) : Prop :=
  ∃ e ∈ CFGBuilder.buildCFG instrs, CoversBlock ctx (blockStarts instrs) e.2 ∧ makeLabel e.1 = label

instance (va : U64) : Decidable (InCovered ctx instrs va) :=
  inferInstanceAs (Decidable (∃ e ∈ _, _))

instance (label : String) : Decidable (CoveredLabel ctx instrs label) :=
  inferInstanceAs (Decidable (∃ e ∈ _, _))

/-- The guest code, as long as it is in covered blocks. -/
def guestStep : U64 × X86State → Option (U64 × X86State) :=
  restrict (fun c => InCovered ctx instrs c.1) (X86.step instrs)

/-- The function that is lifted from the stream, as long as it is in covered blocks. -/
def liftedStep (fn : IRFunction) : String × Machine → Option (String × Machine) :=
  restrict (fun c => CoveredLabel ctx instrs c.1)
    (liftFunction ctx fn (CFGBuilder.buildCFG instrs)).step

/-- The guest is at the start of a block, the function is at its label, and its machine holds the
guest state. -/
structure Matches (c : U64 × X86State) (d : String × Machine) : Prop where
  start : c.1 ∈ blockStarts instrs
  label : d.1 = makeLabel c.1
  holds : d.2.Holds c.2

variable {ctx instrs} {e : U64 × List DecodedInstr}

/-- What is covered does not depend on the names of the blocks. -/
lemma coversFrom_functionContext (cfgBlocks : List (U64 × List DecodedInstr))
    {dis : List DecodedInstr}
    (h : CoversFrom ctx starts track dis) :
    CoversFrom (functionContext ctx cfgBlocks) starts track dis := by
  induction dis generalizing track with
  | nil => exact h
  | cons di dis ih =>
    cases dis with
    | nil => exact h
    | cons following dis => exact ⟨h.1, ih h.2⟩

/-- The blocks of a stream have their names. -/
lemma blockNames_of_mem_blockStarts {va : U64} (hva : va ∈ blockStarts instrs) :
    blockNames (CFGBuilder.buildCFG instrs) va = some (makeLabel va) := if_pos hva

variable {lo hi : ℕ} (htiles : Tiles lo instrs hi)

include htiles

/-- One covered block: the guest runs to the next start, and the function takes a step. -/
lemma exec_block (fn : IRFunction) (he : e ∈ CFGBuilder.buildCFG instrs)
    (hcovers : CoversBlock ctx (blockStarts instrs) e.2) (hm : m.Holds x) :
    ∃ va x' m', Segment (guestStep ctx instrs) (fun c => c.1 ∈ blockStarts instrs) (e.1, x)
      (va, x') ∧
      liftedStep ctx instrs fn (makeLabel e.1, m) = some (makeLabel va, m') ∧
      Matches instrs (va, x') (makeLabel va, m') := by
  have hsorted := htiles.pairwise.2
  have hcfg := CFGBuilder.isCut_buildCFG hsorted
  obtain ⟨di, dis, hdis, hva⟩ := hcfg.exists_cons he
  obtain ⟨hnames, hblocks⟩ := @liftBlocks_blocks
    (functionContext ctx (CFGBuilder.buildCFG instrs)) (CFGBuilder.buildCFG instrs)
    hcfg.controlFlow_last
  obtain ⟨fn₀, t, hnext, hrun, hmem, hname⟩ := hblocks e he
  have hchain := List.IsChain.infix htiles.isChain (hcfg.isInfix he)
  obtain ⟨va, hstart, x', t', hsegment, hrun', is, branch, m', hblock, hm', hlabel, hheld⟩ :=
    @exec_coversFrom (functionContext ctx (CFGBuilder.buildCFG instrs)) instrs (blockStarts instrs)
      (fn₀.beginBlock e.1) m x none (fun c => InCovered ctx instrs c.1) _ hsorted
      (fun _ => blockNames_of_mem_blockStarts) e.2
      (fun di' hdi' _ => ⟨e, he, hcovers, di', hdi', rfl⟩)
      (fun di' hdi' => (hcfg.isInfix he).subset hdi') hchain
      (fun di' hdi' => hcfg.notMem_starts hsorted he hdi') (coversFrom_functionContext _ hcovers) hm
      rfl ((show 16 ≤ 20 by decide).trans hnext) (by simp) di (by rw [hdis]; rfl)
  rw [hva] at hsegment
  obtain rfl : t = t' := by simpa [hrun] using hrun'
  refine ⟨va, x', m', hsegment, ?_, hstart, rfl, hheld⟩
  rw [liftedStep, restrict_of_pos ⟨e, he, hcovers, rfl⟩]
  refine @IRFunction.step_eq_some _ t.block _ is _ _ branch _ ?_ ?_ hm' hlabel
  · rw [← hname]
    refine IRFunction.findBlock_eq_some_of_mem ?_ hmem
    change ((liftBlocks _ _).blocks.map IRBasicBlock.name).Nodup
    rw [hnames, ← Function.comp_def makeLabel Prod.fst, ← List.map_map]
    exact hcfg.nodup_starts.map makeLabel_injective
  · rw [hblock]
    rfl

/-- Where a block starts, the guest is in covered blocks exactly if the function is. -/
lemma inCovered_iff_coversBlock (he : e ∈ CFGBuilder.buildCFG instrs) :
    InCovered ctx instrs e.1 ↔ CoversBlock ctx (blockStarts instrs) e.2 := by
  have hsorted := htiles.pairwise.2
  have hcfg := CFGBuilder.isCut_buildCFG hsorted
  constructor
  · rintro ⟨e', he', hcovers, di, hdi, hva⟩
    obtain ⟨front, dis, hdis, hfront⟩ := hcfg.exists_cons he'
    rw [hdis] at hdi
    rcases List.mem_cons.mp hdi with rfl | htail
    · rwa [hcfg.eq_of_fst_eq he he' (hva.symm.trans hfront)]
    · have hinside : di ∈ e'.2.tail := hdis ▸ htail
      exact absurd (hva ▸ List.mem_map_of_mem he) (hcfg.notMem_starts hsorted he' hinside)
  · intro hcovers
    obtain ⟨front, dis, hdis, hfront⟩ := hcfg.exists_cons he
    exact ⟨e, he, hcovers, front, hdis ▸ List.mem_cons_self, hfront⟩

/-- The same, by label. -/
lemma coveredLabel_iff_coversBlock (he : e ∈ CFGBuilder.buildCFG instrs) :
    CoveredLabel ctx instrs (makeLabel e.1) ↔ CoversBlock ctx (blockStarts instrs) e.2 := by
  refine ⟨?_, fun hcovers => ⟨e, he, hcovers, rfl⟩⟩
  rintro ⟨e', he', hcovers, hlabel⟩
  have hcfg := CFGBuilder.isCut_buildCFG htiles.pairwise.2
  rwa [hcfg.eq_of_fst_eq he he' (makeLabel_injective hlabel).symm]

variable (ctx) in
/-- The function simulates the guest between the starts of blocks. -/
theorem simulation_liftFunction (fn : IRFunction) :
    Simulation (guestStep ctx instrs) (fun c => c.1 ∈ blockStarts instrs) (liftedStep ctx instrs fn)
      (Matches instrs) where
  isCut h := h.start
  next := by
    rintro ⟨va, x⟩ ⟨label, m⟩ ⟨hva, rfl, hm⟩
    obtain ⟨e, he, rfl⟩ := List.mem_map.mp hva
    by_cases hcovers : CoversBlock ctx (blockStarts instrs) e.2
    · obtain ⟨va', x', m', hsegment, hstep, hmatches⟩ := exec_block htiles fn he hcovers hm
      exact Or.inr ⟨(va', x'), (makeLabel va', m'), hsegment, hstep, hmatches⟩
    · refine Or.inl ⟨restrict_of_neg ?_, restrict_of_neg ?_⟩
      · exact fun h => hcovers ((inCovered_iff_coversBlock htiles he).mp h)
      · exact fun h => hcovers ((coveredLabel_iff_coversBlock htiles he).mp h)

end Runs

/-! ## Runs of a disassembled buffer -/

section Disassembled

open X86Disassembler

variable {decode : Decoder} {data : List (BitVec 8)} {baseVA va va' : U64} {x' : X86State}
  {m' : Machine} {label : String} (ctx)

/-- A decoder of `dec qword ptr [rbx]`, `jnz short` and `ret` that fails on everything else. -/
def countdownDecoder : Decoder
  | 0x48 :: 0xff :: 0x0b :: _ =>
      some { mnemonic := .dec, length := 3, operandCountVisible := 1,
             operands := [{ type := .memory, size := 64, mem := { base := .rbx } }] }
  | 0x75 :: rel :: _ =>
      some { mnemonic := .jnz, length := 2, operandCountVisible := 1,
             operands := [{ type := .immediate, size := 8,
                            imm := { isRelative := true, value := rel.signExtend 64 } }] }
  | 0xc3 :: _ => some { mnemonic := .ret }
  | _ => none

/-- A loop that counts the word at `rbx` down to zero, and a return. -/
def countdownBytes : List (BitVec 8) := [0x48, 0xff, 0x0b, 0x75, 0xfb, 0xc3]

/-- The instructions of the loop, at `0x1000`. -/
def countdown : List DecodedInstr :=
  (disassemble countdownDecoder countdownBytes 0x1000 countdownBytes.length).getD []

/-- The bytes of the loop are disassembled to its instructions. -/
lemma disassembles_countdown : Disassembles countdownDecoder countdownBytes 0x1000 countdown where
  lawful := by
    intro bytes z hz
    unfold countdownDecoder at hz
    split at hz <;> cases hz <;> simp
  fits := by decide
  run := by decide +kernel

/-- The guest whose registers are zero and whose memory starts with a byte. -/
def countdownState (n : BitVec 8) : X86State where
  regs := fun _ => 0
  flags := ⟨false, false, false, false⟩
  mem := Function.update (fun _ => 0) 0 n

/-- The machine of that guest. -/
def countdownMachine (n : BitVec 8) : Machine :=
  { zeroMachine with mem := Function.update (fun _ => 0) 0 n }

/-- The function that is filled. -/
def countdownFunction : IRFunction := newFunction "countdown" .i64 .c

end Disassembled

end FunctionLifter

end InstaX
