import InstaX.Lifter.InstructionCode
import InstaX.Lifter.LazyFlags

/-!
# Definition before use in lifted functions

A function is lifted block by block; its blocks share the register counter and the flag record.
The code of a block is defined before use exactly when none of its instructions up to the one that
ends it reads a narrow register, and that one reads no temporary from a record made by another
block (`liftBlocks_definedBeforeUse_iff`).  A temporary is never defined twice; the counter, which
has 32 bits in the source, does not wrap here.
-/

namespace InstaX

open Throwing RegisterCode View

/-- The operand reads no register, or a fixed one. -/
def IRValue.IsFixed (v : IRValue) : Prop := ∀ id ∈ v.vregId?, id < 20

instance (v : IRValue) : Decidable v.IsFixed :=
  inferInstanceAs (Decidable (∀ id ∈ v.vregId?, id < 20))

namespace FunctionLifter

variable (ctx : LiftContext)

/-- No instruction reads a narrow register until the block is ended, and the instruction that ends
it reads fixed registers only from the record `inherited` that other blocks left.  Once the block
has made a record of its own, nothing is inherited. -/
def NoLostReads : Option FlagState → List DecodedInstr → Prop
  | _, [] => True
  | inherited, di :: dis =>
    if di.endsBlock ctx then ∀ fs ∈ inherited, ∀ v ∈ di.consulted fs, v.IsFixed
    else
      ¬ di.zydis.ReadsNarrow ∧
        NoLostReads (if di.zydis.mnemonic.recordsFlags then none else inherited) dis

instance decidableNoLostReads : (inherited : Option FlagState) → (dis : List DecodedInstr) →
    Decidable (NoLostReads ctx inherited dis)
  | _, [] => .isTrue trivial
  | inherited, di :: dis =>
    have := decidableNoLostReads (if di.zydis.mnemonic.recordsFlags then none else inherited) dis
    inferInstanceAs (Decidable (if di.endsBlock ctx then _ else _ ∧ _))

/-- A function that is being lifted: its blocks so far, the register counter and the flag record. -/
structure LiftedFunction where
  blocks : List IRBasicBlock := []
  nextVregId : ℕ := 20
  flagState : FlagState := {}
  deriving DecidableEq, Repr

/-- All instructions of the function. -/
def LiftedFunction.instructions (fn : LiftedFunction) : List IRInst :=
  fn.blocks.flatMap IRBasicBlock.instructions

/-- The label of the block at an address. -/
def makeLabel (va : U64) : String := "bb_0x" ++ String.ofList (Nat.toDigits 16 va.toNat)

/-- The state before a block is lifted: the block is empty. -/
def LiftedFunction.beginBlock (fn : LiftedFunction) (leaderVA : U64) : LiftState where
  block := { name := makeLabel leaderVA, startAddr := leaderVA }
  nextVregId := fn.nextVregId
  flagState := fn.flagState

/-- The function after a block was lifted. -/
def LiftedFunction.endBlock (fn : LiftedFunction) (s : LiftState) : LiftedFunction where
  blocks := fn.blocks ++ [s.block]
  nextVregId := s.nextVregId
  flagState := s.flagState

/-- Lift the instructions of one block.  The body of the loop is missing in the source; it is read
as the call of `liftInstr`.  An exception leaves the block as it is then. -/
def liftBlock (fn : LiftedFunction) (block : U64 × List DecodedInstr) : LiftedFunction :=
  match (forM block.2 (liftInstr ctx)).run (fn.beginBlock block.1) with
  | .ok _ s | .error _ s => fn.endBlock s

/-- Lift the blocks of a function, one after the other. -/
def liftBlocks (cfgBlocks : List (U64 × List DecodedInstr)) : LiftedFunction :=
  cfgBlocks.foldl (liftBlock ctx) {}

variable {ctx} {s t : LiftState}

/-- An instruction that ends its block consults fixed registers of what was inherited. -/
lemma noLostReads_of_endsBlock {inherited : Option FlagState} {di : DecodedInstr}
    {dis : List DecodedInstr} (hends : di.endsBlock ctx = true) :
    NoLostReads ctx inherited (di :: dis) ↔
      ∀ fs ∈ inherited, ∀ v ∈ di.consulted fs, v.IsFixed := by
  rw [NoLostReads, if_pos hends]

/-- An instruction that goes on reads no narrow register; if it records, nothing is inherited any
more. -/
lemma noLostReads_cons {inherited : Option FlagState} {di : DecodedInstr}
    {dis : List DecodedInstr} (hends : di.endsBlock ctx = false) :
    NoLostReads ctx inherited (di :: dis) ↔ ¬ di.zydis.ReadsNarrow ∧
      NoLostReads ctx (if di.zydis.mnemonic.recordsFlags then none else inherited) dis := by
  have hopen : ¬ di.endsBlock ctx = true := by simp [hends]
  rw [NoLostReads, if_neg hopen]

/-! ## One block -/

/-- What is known of the flag record while a block is lifted: it is the inherited one, of which only
the fixed registers are known, or one that the block made. -/
def RecordFrom : Option FlagState → LiftState → Prop
  | none, s => RecordKnown s
  | some fs, s => s.flagState = fs ∧ ∀ v ∈ [fs.result, fs.lhs],
      liftView.Passed s v ∧ (liftView.Known s v ↔ v.IsFixed)

lemma RecordFrom.passed {inherited : Option FlagState} (h : RecordFrom inherited s) :
    ∀ v ∈ [s.flagState.result, s.flagState.lhs], liftView.Passed s v := by
  cases inherited with
  | none =>
    intro v hv
    rcases List.mem_pair.mp hv with rfl | rfl
    · exact h.passed_result
    · exact h.passed_lhs
  | some fs =>
    obtain ⟨rfl, h⟩ := h
    exact fun v hv => (h v hv).1

/-- An instruction keeps the record or makes a new one. -/
lemma RecordFrom.lifted {inherited : Option FlagState} (h : RecordFrom inherited s) {good : Prop}
    {records : Bool} (hgrows : liftView.Grows s t) (hlifted : Lifted s good records t) :
    RecordFrom (if records then none else inherited) t := by
  cases records with
  | true => exact hlifted.record rfl
  | false =>
    have hflags := hlifted.kept rfl
    cases inherited with
    | none => exact RecordKnown.grows h hgrows hflags
    | some fs =>
      refine ⟨hflags.trans h.1, fun v hv => ?_⟩
      obtain ⟨hpassed, hknown⟩ := h.2 v hv
      exact ⟨hgrows.passed hpassed, (hgrows.known_iff hpassed).trans hknown⟩

/-- Only the result and the left operand of a valid record are read. -/
lemma mem_of_mem_consulted {di : DecodedInstr} {fs : FlagState} {v : IRValue}
    (hv : v ∈ di.consulted fs) : fs.valid = true ∧ v ∈ [fs.result, fs.lhs] := by
  unfold DecodedInstr.consulted at hv
  split at hv
  · obtain ⟨hvalid, hv⟩ := FlagState.eq_of_mem_consulted hv
    exact ⟨hvalid, List.mem_pair.mpr hv⟩
  · exact absurd hv List.not_mem_nil

/-- The operands that the end of the block reads from the record. -/
lemma RecordFrom.known_consulted_iff {inherited : Option FlagState} (h : RecordFrom inherited s)
    (hclosed : liftView.Closed s) (di : DecodedInstr) :
    (∀ v ∈ di.consulted s.flagState, liftView.Known s v) ↔
      ∀ fs ∈ inherited, ∀ v ∈ di.consulted fs, v.IsFixed := by
  cases inherited with
  | none =>
    refine iff_of_true (fun v hv => ?_) (by simp)
    obtain ⟨hvalid, hv⟩ := mem_of_mem_consulted hv
    obtain ⟨hresult, hlhs⟩ := RecordKnown.known h hvalid hclosed
    rcases List.mem_pair.mp hv with rfl | rfl
    · exact hresult
    · exact hlhs
  | some fs =>
    obtain ⟨rfl, h⟩ := h
    simp only [Option.mem_some_iff, forall_eq']
    exact forall₂_congr fun v hv => (h v (mem_of_mem_consulted hv).2).2

/-- A block is lifted, from any state: fresh code is appended, the operands of the flag record stay
behind the counter, and the code is in order exactly when no read is lost. -/
theorem closed_iff_of_leaves (hpass : ctx.passing = .byValue) {inherited : Option FlagState}
    {dis : List DecodedInstr} (hs : liftView.Ready s) (hrecord : RecordFrom inherited s)
    (hleaves : Leaves (forM dis (liftInstr ctx)) s t) :
    liftView.Grows s t ∧ (∀ v ∈ [t.flagState.result, t.flagState.lhs], liftView.Passed t v) ∧
      (liftView.Closed t ↔ liftView.Closed s ∧ NoLostReads ctx inherited dis) := by
  induction dis generalizing s inherited with
  | nil =>
    obtain rfl := Leaves.eq_of_ok hleaves rfl
    exact ⟨Grows.refl _, hrecord.passed, (and_iff_left trivial).symm⟩
  | cons di dis ih =>
    have hpassed := hrecord.passed
    rw [List.forM_cons] at hleaves
    cases hends : di.endsBlock ctx with
    | true =>
      have hconsulted : ∀ v ∈ di.consulted s.flagState, liftView.Passed s v :=
        fun v hv => hpassed v (mem_of_mem_consulted hv).2
      obtain ⟨s₁, hrun, hterm, hgrows, hflags, hclosed⟩ :=
        exists_run_liftInstr_of_endsBlock hs hends hconsulted
      rw [leaves_bind_of_ok hrun] at hleaves
      -- nothing is lifted after the end of the block
      have hrest := halts_forM_liftInstr ctx dis s₁ t hterm hleaves
      have hcode : liftView.code t = liftView.code s₁ :=
        congrArg IRBasicBlock.instructions hrest.block
      have hgrows' : liftView.Grows s₁ t := Grows.of_code_eq hcode hrest.next_le
      have hclosed' : liftView.Closed t ↔ liftView.Closed s₁ := by
        unfold View.Closed
        rw [hcode]
      refine ⟨hgrows.trans hgrows', ?_, ?_⟩
      · rw [hrest.flags, hflags]
        exact fun v hv => (hgrows.trans hgrows').passed (hpassed v hv)
      · rw [hclosed', hclosed, noLostReads_of_endsBlock hends]
        exact and_congr_right fun hs => hrecord.known_consulted_iff hs di
    | false =>
      obtain ⟨_, s₁, hrun, hopen, hgrows, hlifted⟩ :=
        builds_liftInstr hpass hs hends (hpassed _ (by simp)) (hpassed _ (by simp))
      rw [leaves_bind_of_ok hrun] at hleaves
      obtain ⟨hgrows', hpassed', hclosed'⟩ :=
        ih (hs.grows hgrows hopen) (hrecord.lifted hgrows hlifted) hleaves
      refine ⟨hgrows.trans hgrows', hpassed', ?_⟩
      rw [hclosed', hlifted.closed, and_assoc, noLostReads_cons hends]

/-! ## The function -/

/-- What holds of a function while it is lifted: all destinations and the operands of the flag
record are behind the counter, and no temporary is defined twice. -/
structure LiftedFunction.WellFormed (fn : LiftedFunction) : Prop where
  le_next : 20 ≤ fn.nextVregId
  below : Below fn.nextVregId fn.instructions
  single : SingleDef (Set.Ici 20) fn.instructions
  record : ∀ v ∈ [fn.flagState.result, fn.flagState.lhs], ∀ id, v.vregId? = some id →
    id < fn.nextVregId

/-- Before anything is lifted. -/
lemma wellFormed_empty : ({} : LiftedFunction).WellFormed where
  le_next := le_rfl
  below := fun _ hi => absurd hi List.not_mem_nil
  single := List.Pairwise.nil
  record v hv id hid := by
    rcases List.mem_pair.mp hv with rfl | rfl <;> cases hid

/-- A block that ends adds its code to the function. -/
lemma LiftedFunction.endBlock_instructions (fn : LiftedFunction) (s : LiftState) :
    (fn.endBlock s).instructions = fn.instructions ++ s.block.instructions := by
  simp [instructions, endBlock]

/-- However the lifting of a block ends, the block is added. -/
lemma exists_liftBlock_eq_endBlock (ctx : LiftContext) (fn : LiftedFunction)
    (block : U64 × List DecodedInstr) :
    ∃ s, Leaves (forM block.2 (liftInstr ctx)) (fn.beginBlock block.1) s ∧
      liftBlock ctx fn block = fn.endBlock s := by
  unfold liftBlock
  cases hrun : (forM block.2 (liftInstr ctx)).run (fn.beginBlock block.1) with
  | ok a s => exact ⟨s, Or.inl ⟨a, hrun⟩, rfl⟩
  | error err s => exact ⟨s, Or.inr ⟨err, hrun⟩, rfl⟩

/-- Lifting a block: the function stays well formed, and the new block is in order exactly when no
read is lost. -/
theorem exists_liftBlock (hpass : ctx.passing = .byValue) {fn : LiftedFunction}
    (hfn : fn.WellFormed) (block : U64 × List DecodedInstr) :
    ∃ b, (liftBlock ctx fn block).blocks = fn.blocks ++ [b] ∧
      (liftBlock ctx fn block).WellFormed ∧
      (DefinedBeforeUse (Set.Iio 20) b.instructions ↔
        NoLostReads ctx (some fn.flagState) block.2) := by
  set start := fn.beginBlock block.1 with hstart
  have hready : liftView.Ready start := ⟨rfl, hfn.le_next, fun _ hi => absurd hi List.not_mem_nil⟩
  have hrecord : RecordFrom (some fn.flagState) start := by
    refine ⟨rfl, fun v hv => ⟨hfn.record v hv, ?_⟩⟩
    refine forall₂_congr fun r hr => ?_
    exact or_iff_left fun ⟨_, hi, _⟩ => absurd hi List.not_mem_nil
  obtain ⟨s, hleaves, hblock⟩ := exists_liftBlock_eq_endBlock ctx fn block
  obtain ⟨⟨is, hcode, hfresh⟩, hpassed, hclosed⟩ :=
    closed_iff_of_leaves hpass hready hrecord hleaves
  have his : s.block.instructions = is := hcode
  rw [hblock]
  refine ⟨s.block, rfl, ⟨hfn.le_next.trans hfresh.le, ?_, ?_, hpassed⟩, ?_⟩
  · rw [LiftedFunction.endBlock_instructions, his]
    exact hfn.below.append hfresh hfn.le_next
  · rw [LiftedFunction.endBlock_instructions, his]
    exact hfn.single.append_fresh hfn.below hfresh
  · exact hclosed.trans (and_iff_right definedBeforeUse_nil)

/-- The last block is lifted last. -/
lemma liftBlocks_append (cfgBlocks : List (U64 × List DecodedInstr))
    (block : U64 × List DecodedInstr) :
    liftBlocks ctx (cfgBlocks ++ [block]) = liftBlock ctx (liftBlocks ctx cfgBlocks) block := by
  unfold liftBlocks
  rw [List.foldl_append, List.foldl_cons, List.foldl_nil]

/-- The functions that are lifted are well formed, and have one block for each list of instructions
that was lifted. -/
theorem wellFormed_liftBlocks (hpass : ctx.passing = .byValue)
    (cfgBlocks : List (U64 × List DecodedInstr)) :
    (liftBlocks ctx cfgBlocks).WellFormed ∧
      (liftBlocks ctx cfgBlocks).blocks.length = cfgBlocks.length := by
  induction cfgBlocks using List.reverseRecOn with
  | nil => exact ⟨wellFormed_empty, rfl⟩
  | append_singleton cfgBlocks block ih =>
    obtain ⟨b, hblocks, hwf, -⟩ := exists_liftBlock hpass ih.1 block
    rw [liftBlocks_append]
    exact ⟨hwf, by rw [hblocks]; simp [ih.2]⟩

/-- A block of the function, from the function as it was when that block was lifted. -/
theorem definedBeforeUse_iff_of_getElem? (hpass : ctx.passing = .byValue)
    {cfgBlocks : List (U64 × List DecodedInstr)} {k : ℕ} {block : U64 × List DecodedInstr}
    {b : IRBasicBlock} (hblock : cfgBlocks[k]? = some block)
    (hb : (liftBlocks ctx cfgBlocks).blocks[k]? = some b) :
    DefinedBeforeUse (Set.Iio 20) b.instructions ↔
      NoLostReads ctx (some (liftBlocks ctx (cfgBlocks.take k)).flagState) block.2 := by
  induction cfgBlocks using List.reverseRecOn with
  | nil => simp at hblock
  | append_singleton cfgBlocks last ih =>
    obtain ⟨hwf, hlength⟩ := wellFormed_liftBlocks hpass cfgBlocks
    obtain ⟨b', hblocks, -, hiff⟩ := exists_liftBlock hpass hwf last
    rw [liftBlocks_append, hblocks] at hb
    rcases lt_or_ge k cfgBlocks.length with hk | hk
    · rw [List.getElem?_append_left hk] at hblock
      rw [List.getElem?_append_left (hlength ▸ hk)] at hb
      rw [List.take_append_of_le_length hk.le]
      exact ih hblock hb
    · have hk' : k = cfgBlocks.length := by
        have := (List.getElem?_eq_some_iff.mp hblock).1
        rw [List.length_append, List.length_singleton] at this
        omega
      subst hk'
      rw [List.getElem?_concat_length, Option.some_inj] at hblock
      rw [← hlength, List.getElem?_concat_length, Option.some_inj] at hb
      rw [List.take_left, ← hblock, ← hb]
      exact hiff

/-- In every function that is lifted with the block passed by value, a block is defined before use
and no temporary of the function is defined twice exactly when no read of the block is lost. -/
theorem liftBlocks_definedBeforeUse_iff (hpass : ctx.passing = .byValue)
    {cfgBlocks : List (U64 × List DecodedInstr)} {k : ℕ} {block : U64 × List DecodedInstr}
    {b : IRBasicBlock} (hblock : cfgBlocks[k]? = some block)
    (hb : (liftBlocks ctx cfgBlocks).blocks[k]? = some b) :
    (DefinedBeforeUse (Set.Iio 20) b.instructions ∧
        SingleDef (Set.Ici 20) (liftBlocks ctx cfgBlocks).instructions) ↔
      NoLostReads ctx (some (liftBlocks ctx (cfgBlocks.take k)).flagState) block.2 := by
  have hsingle := (wellFormed_liftBlocks hpass cfgBlocks).1.single
  rw [and_iff_left hsingle]
  exact definedBeforeUse_iff_of_getElem? hpass hblock hb

/-- The parameter passing of the source, without symbols, labels or register names. -/
def byValueContext : LiftContext := { bareContext with passing := .byValue }

/-- `add rax, rbx` reads no narrow register. -/
theorem liftBlocks_definedBeforeUse_iff_rax_rbx :
    DefinedBeforeUse (Set.Iio 20) [IRInst.makeBinop .add ⟨20, "add"⟩ .i64
        (.makeVReg Gpr.rax.vregId .i64 "reg") (.makeVReg Gpr.rbx.vregId .i64 "reg")] ∧
      SingleDef (Set.Ici 20) (liftBlocks byValueContext [(0x1000, [addRaxRbx])]).instructions := by
  have hb : (liftBlocks byValueContext [(0x1000, [addRaxRbx])]).blocks[0]? =
      some { name := "bb_0x1000", startAddr := 0x1000, instructions := [.makeBinop .add ⟨20, "add"⟩
        .i64 (.makeVReg Gpr.rax.vregId .i64 "reg") (.makeVReg Gpr.rbx.vregId .i64 "reg")] } := by
    decide +kernel
  exact (liftBlocks_definedBeforeUse_iff rfl rfl hb).mpr (by decide +kernel)

/-- A conditional jump at the beginning of a block reads the record of the block before. -/
example : ¬ NoLostReads byValueContext
    (some (liftBlocks byValueContext [(0x1000, [addRaxRbx])]).flagState) [jbAfterAdd] := by
  decide +kernel

/-- Both operands of `add eax, ebx` are truncated into temporaries that nothing defines. -/
theorem liftBlocks_eax_ebx_undefined :
    ¬ ∀ b ∈ (liftBlocks byValueContext [(0x1000, [addEaxEbx])]).blocks,
      DefinedBeforeUse (Set.Iio 20) b.instructions := by
  intro h
  have hblocks : (liftBlocks byValueContext [(0x1000, [addEaxEbx])]).blocks =
      [{ name := "bb_0x1000", startAddr := 0x1000, instructions := [.makeBinop .add ⟨22, "add"⟩ .i32
        (.makeVReg 20 .i32) (.makeVReg 21 .i32)] }] := by
    decide +kernel
  rw [hblocks] at h
  have hundefined := h _ (List.mem_singleton_self _) [] _ [] rfl (.makeVReg 20 .i32)
    List.mem_cons_self 20 rfl
  rcases hundefined with hlt | ⟨_, hi, _⟩
  · exact absurd (Set.mem_Iio.mp hlt) (lt_irrefl 20)
  · exact absurd hi List.not_mem_nil

end FunctionLifter

end InstaX
