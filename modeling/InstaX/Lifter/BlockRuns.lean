import InstaX.Lifter.FunctionRuns

/-!
# Runs of the guest, block by block

What `CFGBuilder::buildCFG` (`src/backend/x86/X86Lifter.cpp`) promises about execution.  The machine
is any one that goes from an instruction to the one behind it, and from a control flow possibly to
the target that the builder looks at (`FollowsFlow`); that of `X86.step` is one.  Started at a
block, such a machine runs whole blocks, one after the other, and then a part of a block from its
first instruction on (`reaches_blocks`): no block is entered in its middle, and none is left before
its end.
-/

namespace InstaX

open Relation StateTransition

namespace CFGBuilder

variable {σ : Type} (instrs : List DecodedInstr) (step : U64 × σ → Option (U64 × σ))

/-- The machine runs the stream: it goes on to the next instruction, and control flow goes there or
to the direct target. -/
structure FollowsFlow : Prop where
  inside {c c' : U64 × σ} (h : step c = some c') : ∃ di ∈ instrs, di.va = c.1
  next {di : DecodedInstr} (hdi : di ∈ instrs) (hcf : isControlFlow di = false) {x : σ}
    {c : U64 × σ} (h : step (di.va, x) = some c) : c.1 = di.nextVA
  flow {di : DecodedInstr} (hdi : di ∈ instrs) (hcf : isControlFlow di = true) {x : σ}
    {c : U64 × σ} (h : step (di.va, x) = some c) : c.1 = di.nextVA ∨ c.1 = directTarget di

/-- The machine executes the instructions one after the other. -/
def Executes : List DecodedInstr → U64 × σ → U64 × σ → Prop
  | [], c, c' => c = c'
  | di :: dis, c, c' => c.1 = di.va ∧ ∃ d, step c = some d ∧ Executes dis d c'

/-- The machine executes a whole block of the graph. -/
def BlockStep (c c' : U64 × σ) : Prop :=
  ∃ e ∈ buildCFG instrs, c.1 = e.1 ∧ Executes step e.2 c c'

variable {instrs step} {c c' d : U64 × σ} {di : DecodedInstr} {dis : List DecodedInstr}
  {e : U64 × List DecodedInstr}

/-- One more instruction. -/
lemma Executes.concat (h : Executes step dis c d) (hva : d.1 = di.va) (hstep : step d = some c') :
    Executes step (dis ++ [di]) c c' := by
  induction dis generalizing c with
  | nil =>
    obtain rfl : c = d := h
    exact ⟨hva, c', hstep, rfl⟩
  | cons front dis ih =>
    obtain ⟨hfront, c₁, hstep₁, hrest⟩ := h
    exact ⟨hfront, c₁, hstep₁, ih hrest⟩

/-- Executing instructions is a run. -/
lemma Executes.reaches (h : Executes step dis c c') : Reaches step c c' := by
  induction dis generalizing c with
  | nil =>
    obtain rfl : c = c' := h
    exact ReflTransGen.refl
  | cons di dis ih =>
    obtain ⟨-, d, hstep, hrest⟩ := h
    exact ReflTransGen.head hstep (ih hrest)

/-! ## Where blocks start -/

/-- Instructions that lie end to end start before the end, and the last one ends there. -/
lemma tiles_end {lo hi : ℕ} (htiles : Tiles lo instrs hi) :
    (∀ di ∈ instrs, di.va.toNat < hi) ∧
      ∀ di ∈ instrs.getLast?, di.va.toNat + di.length.toNat = hi := by
  induction instrs generalizing lo with
  | nil => simp
  | cons front rest ih =>
    obtain ⟨hva, hpos, hrest⟩ := htiles
    obtain ⟨hlt, hlast⟩ := ih hrest
    cases rest with
    | nil =>
      have hend : lo + front.length.toNat = hi := hrest
      simp only [List.mem_singleton, forall_eq, List.getLast?_singleton, Option.mem_some_iff,
        forall_eq']
      omega
    | cons following rest =>
      have hfollowing := hlt following List.mem_cons_self
      have hva' : following.va.toNat = lo + front.length.toNat := hrest.1
      refine ⟨fun di hdi => ?_, by rwa [List.getLast?_cons_cons]⟩
      rcases List.mem_cons.mp hdi with rfl | hdi
      · omega
      · exact hlt di hdi

/-- The first instruction of a stream starts a block. -/
lemma IsCut.head_mem_starts {blocks : List (U64 × List DecodedInstr)} (h : IsCut instrs blocks)
    (hhead : instrs.head? = some di) : di.va ∈ blocks.map Prod.fst := by
  cases blocks with
  | nil =>
    obtain rfl : [] = instrs := h.flatten
    cases hhead
  | cons e rest =>
    obtain ⟨front, dis, hdis, hfront⟩ := h.exists_cons List.mem_cons_self
    have hinstrs : instrs = front :: (dis ++ (rest.map Prod.snd).flatten) := by
      rw [← h.flatten, List.map_cons, List.flatten_cons, hdis, List.cons_append]
    obtain rfl : front = di := by simpa [hinstrs] using hhead
    rw [hfront]
    exact List.mem_cons_self

/-- An instruction that lies behind the end of a block starts one. -/
lemma IsCut.nextVA_mem_starts {blocks : List (U64 × List DecodedInstr)} (h : IsCut instrs blocks)
    {lo hi : ℕ} (htiles : Tiles lo instrs hi) (hfits : hi ≤ 2 ^ 64) (he : e ∈ blocks)
    {pre : List DecodedInstr} (hlast : e.2 = pre ++ [di]) {di' : DecodedInstr} (hdi' : di' ∈ instrs)
    (hnext : di'.va = di.nextVA) : di.nextVA ∈ blocks.map Prod.fst := by
  obtain ⟨before, after, hsplit⟩ := List.append_of_mem he
  have hinstrs : instrs = ((before.map Prod.snd).flatten ++ pre) ++
      di :: (after.map Prod.snd).flatten := by
    rw [← h.flatten, hsplit, List.map_append, List.flatten_append, List.map_cons, List.flatten_cons,
      hlast]
    simp
  cases after with
  | cons following after =>
    -- the next block starts there
    have hfollowing : following ∈ blocks := by simp [hsplit]
    obtain ⟨front, dis, hdis, hfront⟩ := h.exists_cons hfollowing
    have hchain := htiles.isChain
    rw [hinstrs, List.map_cons, List.flatten_cons, hdis, List.cons_append] at hchain
    have hva := (List.isChain_append_cons_cons.mp hchain).2.1
    rw [← hva, hfront]
    exact List.mem_map_of_mem hfollowing
  | nil =>
    -- the stream ends there, so that the next address is the first one, or none at all
    obtain ⟨hlt, hend⟩ := tiles_end htiles
    have hinstrs' : instrs = ((before.map Prod.snd).flatten ++ pre) ++ [di] := hinstrs
    have hdi : di.va.toNat + di.length.toNat = hi := hend di (by simp [hinstrs'])
    have hnextNat : di.nextVA.toNat = hi % 2 ^ 64 := by
      have hlen := di.length.isLt
      rw [DecodedInstr.nextVA, BitVec.toNat_add, BitVec.toNat_setWidth,
        Nat.mod_eq_of_lt (lt_trans hlen (by decide)), hdi]
    have hdi'lt := hlt di' hdi'
    have hdi'Nat : di'.va.toNat = hi % 2 ^ 64 := by rw [hnext, hnextNat]
    have hwraps : hi = 2 ^ 64 := by
      by_contra hne
      rw [Nat.mod_eq_of_lt (by omega)] at hdi'Nat
      omega
    obtain ⟨front, rest, hfront⟩ := List.exists_cons_of_ne_nil (List.ne_nil_of_mem hdi')
    have hlo : front.va.toNat = lo := by
      rw [hfront] at htiles
      exact htiles.1
    have hle := htiles.pairwise.1 di' hdi'
    have hva : di.nextVA = front.va := BitVec.eq_of_toNat_eq (by omega)
    rw [hva]
    exact h.head_mem_starts (by rw [hfront]; rfl)

/-! ## Runs -/

/-- What a run from the start of a block has done: it executed whole blocks, and then the first
instructions of the block it is in. -/
def InBlock (instrs : List DecodedInstr) (step : U64 × σ → Option (U64 × σ)) (c c' : U64 × σ) :
    Prop :=
  ∃ e ∈ buildCFG instrs, ∃ pre di post, e.2 = pre ++ di :: post ∧ di.va = c'.1 ∧
      ∃ d, ReflTransGen (BlockStep instrs step) c d ∧ d.1 = e.1 ∧ Executes step pre d c'

/-- At the start of a block. -/
lemma inBlock_of_mem_starts (hcfg : IsCut instrs (buildCFG instrs))
    (hpath : ReflTransGen (BlockStep instrs step) c c')
    (hstart : c'.1 ∈ (buildCFG instrs).map Prod.fst) : InBlock instrs step c c' := by
  obtain ⟨e, he, hva⟩ := List.mem_map.mp hstart
  obtain ⟨front, dis, hdis, hfront⟩ := hcfg.exists_cons he
  exact ⟨e, he, [], front, dis, hdis, hfront.trans hva, c', hpath, hva.symm, rfl⟩

/-- One step of the machine: to the next instruction of the block, or to the start of a block. -/
lemma InBlock.next {lo hi : ℕ} (htiles : Tiles lo instrs hi) (hfits : hi ≤ 2 ^ 64)
    (hflow : FollowsFlow instrs step) (h : InBlock instrs step c d) (hstep : step d = some c')
    (hin : ∃ di ∈ instrs, di.va = c'.1) : InBlock instrs step c c' := by
  have hcfg := isCut_buildCFG htiles.pairwise.2
  obtain ⟨e, he, pre, di, post, hsplit, hva, d₀, hpath, hd₀, hpre⟩ := h
  obtain ⟨x, hx⟩ : ∃ x, d = (di.va, x) := ⟨d.2, by rw [hva]⟩
  subst hx
  obtain ⟨di', hdi', hva'⟩ := hin
  have hdi : di ∈ instrs := (hcfg.isInfix he).subset (by simp [hsplit])
  have hdone := hpre.concat rfl hstep
  cases post with
  | cons following post =>
    -- inside a block there is no control flow
    have hcf : isControlFlow di = false := hcfg.controlFlow_last e he di (by
      rw [hsplit, List.dropLast_append_of_ne_nil (by simp), List.dropLast_cons_of_ne_nil (by simp)]
      simp)
    have hchain := List.IsChain.infix htiles.isChain (hcfg.isInfix he)
    rw [hsplit] at hchain
    refine ⟨e, he, pre ++ [di], following, post, by simp [hsplit], ?_, d₀, hpath, hd₀, hdone⟩
    rw [hflow.next hdi hcf hstep]
    exact (List.isChain_append_cons_cons.mp hchain).2.1
  | nil =>
    have hstart : c'.1 ∈ (buildCFG instrs).map Prod.fst := by
      have hnext : c'.1 = di.nextVA → c'.1 ∈ (buildCFG instrs).map Prod.fst := by
        intro heq
        rw [heq]
        exact hcfg.nextVA_mem_starts htiles hfits he hsplit hdi' (hva'.trans heq)
      cases hcf : isControlFlow di with
      | false => exact hnext (hflow.next hdi hcf hstep)
      | true =>
        rcases hflow.flow hdi hcf hstep with heq | heq
        · exact hnext heq
        · rw [heq]
          exact target_mem_starts htiles.pairwise.2 hdi hcf hdi' (heq.symm.trans hva'.symm)
    refine inBlock_of_mem_starts hcfg (hpath.tail ⟨e, he, hd₀, ?_⟩) hstart
    rwa [hsplit]

/-- Whatever bytes were disassembled: a machine that follows the control flow of the stream, started
at a block, has executed whole blocks and then a block up to the instruction it is at. -/
theorem inBlock_of_reaches {decode : X86Disassembler.Decoder} {data : List (BitVec 8)}
    {baseVA va : U64}
    (hdis : X86Disassembler.Disassembles decode data baseVA instrs)
      (hflow : FollowsFlow instrs step)
    (hva : va ∈ (buildCFG instrs).map Prod.fst) {x : σ} (hrun : Reaches step (va, x) c)
    (hin : ∃ di ∈ instrs, di.va = c.1) : InBlock instrs step (va, x) c := by
  have htiles := hdis.tiles
  have hcfg := isCut_buildCFG htiles.pairwise.2
  induction hrun with
  | refl => exact inBlock_of_mem_starts hcfg ReflTransGen.refl hva
  | tail _ hstep ih => exact (ih (hflow.inside hstep)).next htiles hdis.fits hflow hstep hin

/-- The guest follows the control flow of its stream. -/
lemma followsFlow_step (hsorted : instrs.Pairwise fun x y => x.va < y.va) :
    FollowsFlow instrs (X86.step instrs) := by
  -- what a step comes from
  have hcases : ∀ c c', X86.step instrs c = some c' → ∃ di ∈ instrs, di.va = c.1 ∧
      (isControlFlow di = true ∧ di.takenVA = some c'.1 ∨ c'.1 = di.nextVA) := by
    intro c c' h
    obtain ⟨di, hfind, h⟩ := Option.bind_eq_some_iff.mp h
    have hva : di.va = c.1 := by simpa using List.find?_some hfind
    refine ⟨di, List.mem_of_find?_eq_some hfind, hva, ?_⟩
    split at h
    · rename_i taken htaken
      have hcf : isControlFlow di = true := by
        revert htaken
        unfold isControlFlow
        cases di.zydis.mnemonic <;> simp [ZydisMnemonic.jumpCondition]
      obtain ⟨target, htarget, rfl⟩ := Option.map_eq_some_iff.mp h
      by_cases hcond : taken c.2.flags = true
      · exact Or.inl ⟨hcf, by simp [htarget, hcond]⟩
      · exact Or.inr (by simp [hcond])
    · split_ifs at h with hjmp
      · obtain ⟨target, htarget, rfl⟩ := Option.map_eq_some_iff.mp h
        exact Or.inl ⟨by simp [isControlFlow, hjmp], htarget⟩
      · obtain ⟨x, -, rfl⟩ := Option.map_eq_some_iff.mp h
        exact Or.inr rfl
  -- there is one instruction at an address
  have hunique : ∀ di ∈ instrs, ∀ di' ∈ instrs, di'.va = di.va → di' = di := by
    intro di hdi di' hdi' hva
    have hfind := X86.find?_va hsorted hdi'
    rw [hva, X86.find?_va hsorted hdi] at hfind
    exact (Option.some_inj.mp hfind).symm
  refine ⟨fun h => ?_, fun {di} hdi hcf x c h => ?_, fun {di} hdi hcf x c h => ?_⟩
  · obtain ⟨di, hdi, hva, -⟩ := hcases _ _ h
    exact ⟨di, hdi, hva⟩
  · obtain ⟨di', hdi', hva, ⟨hcf', -⟩ | hnext⟩ := hcases _ _ h
    · rw [hunique di hdi di' hdi' hva, hcf] at hcf'
      cases hcf'
    · rwa [hunique di hdi di' hdi' hva] at hnext
  · obtain ⟨di', hdi', hva, ⟨-, htaken⟩ | hnext⟩ := hcases _ _ h
    · rw [hunique di hdi di' hdi' hva] at htaken
      exact Or.inr (by rw [directTarget, DecodedInstr.relativeTarget_eq, htaken]; rfl)
    · rw [hunique di hdi di' hdi' hva] at hnext
      exact Or.inl hnext

open FunctionLifter in
/-- Counting down: after three instructions the guest is at the second one of a block, and has been
through the block once. -/
theorem inBlock_of_reaches_countdown :
    ∃ y, InBlock countdown (X86.step countdown) (0x1000, countdownState 2) (0x1003, y) := by
  set run := (fun o : Option (U64 × X86State) => o.bind (X86.step countdown))^[3]
    (some (0x1000, countdownState 2))
  have hva : run.map Prod.fst = some 0x1003 := by decide +kernel
  obtain ⟨⟨va, y⟩, hy, rfl⟩ := Option.map_eq_some_iff.mp hva
  have hdis := disassembles_countdown
  have hin : ∃ di ∈ countdown, di.va = 0x1003 := by decide +kernel
  exact ⟨y, inBlock_of_reaches hdis (followsFlow_step hdis.tiles.pairwise.2) (by decide +kernel)
    (CutPoints.reaches_of_iterate 3 hy) hin⟩

end CFGBuilder

end InstaX
