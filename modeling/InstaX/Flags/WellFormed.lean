import InstaX.Flags.Materialise
import InstaX.IR.Typing

/-!
# The shape of materialised flags

The code of a request is well formed for every record (`materialise_wellFormed`): each appended
instruction defines the next id of the allocator, reads only operands of the record and what the
instructions before it define, and the value that is returned is a constant or what the last
instruction defines.  The emitters keep the code well formed one after the other (`Appends`),
whether they append an instruction or return a constant.
-/

namespace InstaX

open Throwing RegisterCode StraightLine

namespace FlagState

/-- An instruction that the code of a request may have behind `before`, the first of which takes the
`k`-th id of the allocator. -/
structure IsNext (fs : FlagState) (ids : ℕ → ℕ) (k : ℕ) (before : List IRInst) (i : IRInst) :
    Prop where
  isTerminator : i.isTerminator = false
  destination : destination i = some (ids (k + before.length))
  operands : ∀ v ∈ i.operands, v.vregId? ≠ none →
    v = fs.result ∨ v = fs.lhs ∨ ∃ j ∈ before, RegisterCode.destination j = v.vregId?
  binary : i.opcode.isBinary = true → i.resultType = .i1 ∧ ∀ v ∈ i.operands, v.type = .i1
  steps : ∀ m, ∃ m', i.step m = some m'

/-- Code all of whose instructions are such. -/
def WellFormedCode (fs : FlagState) (ids : ℕ → ℕ) (k : ℕ) (is : List IRInst) : Prop :=
  ∀ before i after, is = before ++ i :: after → fs.IsNext ids k before i

/-- A boolean constant, or the boolean that the last instruction defines. -/
structure IsValueOf (is : List IRInst) (v : IRValue) : Prop where
  type : v.type = .i1
  value : (∃ c, v = .makeImm c .i1) ∨ ∃ before i, is = before ++ [i] ∧ v.vregId? = destination i

/-- What a request appends to a block, and the value that it returns. -/
structure Materialised (fs : FlagState) (ids : ℕ → ℕ) (k : ℕ) (is : List IRInst) (v : IRValue) :
    Prop where
  code : fs.WellFormedCode ids k is
  value : IsValueOf is v
  frame : ∀ m, ∃ m', run IRInst.step is m = some m' ∧
    m.SameBut (allocatedIds ids k (k + is.length)) m'

/-- The emitter appends well-formed code to well-formed code, and returns its value. -/
def Appends (fs : FlagState) (ids : ℕ → ℕ) (act : EmitM IRValue) : Prop :=
  ∀ (block : IRBasicBlock) (k : ℕ) (is : List IRInst), block.isTerminated = false →
    fs.WellFormedCode ids k is → ∃ v js,
      act.run ⟨block.append is, k + is.length⟩ =
        .ok v ⟨block.append (is ++ js), k + (is ++ js).length⟩ ∧
      fs.WellFormedCode ids k (is ++ js) ∧ IsValueOf js v

variable {fs : FlagState} {ids : ℕ → ℕ} {k : ℕ} {is js : List IRInst} {i : IRInst} {v : IRValue}

/-! ## Well-formed code -/

lemma wellFormedCode_nil : fs.WellFormedCode ids k [] := by
  intro before i after h
  exact absurd h.symm (by simp)

/-- One more instruction. -/
lemma WellFormedCode.concat (his : fs.WellFormedCode ids k is) (hi : fs.IsNext ids k is i) :
    fs.WellFormedCode ids k (is ++ [i]) := by
  intro before j after hsplit
  rcases split_of_concat hsplit with ⟨rfl, rfl⟩ | ⟨after', his'⟩
  · exact hi
  · exact his before j after' his'

/-- Every instruction of well-formed code is next behind a piece of it. -/
lemma WellFormedCode.exists_isNext (his : fs.WellFormedCode ids k is) (hi : i ∈ is) :
    ∃ before after, is = before ++ i :: after ∧ fs.IsNext ids k before i := by
  obtain ⟨before, after, hsplit⟩ := List.append_of_mem hi
  exact ⟨before, after, hsplit, his before i after hsplit⟩

/-- Well-formed code does not terminate a block. -/
lemma WellFormedCode.append_open (his : fs.WellFormedCode ids k is) {block : IRBasicBlock}
    (hopen : block.isTerminated = false) : (block.append is).isTerminated = false := by
  refine IRBasicBlock.append_open hopen fun i hi => ?_
  obtain ⟨_, _, -, hnext⟩ := his.exists_isNext hi
  exact hnext.isTerminator

/-- Well-formed code runs and writes only what the allocator handed out for it. -/
lemma WellFormedCode.run (his : fs.WellFormedCode ids k is) (m : Machine) :
    ∃ m', run IRInst.step is m = some m' ∧
      m.SameBut (allocatedIds ids k (k + is.length)) m' := by
  have hsteps : ∀ i ∈ is, ∀ m, ∃ m', i.step m = some m' := by
    intro i hi
    obtain ⟨_, _, -, hnext⟩ := his.exists_isNext hi
    exact hnext.steps
  obtain ⟨m', hrun⟩ := exists_run hsteps m
  refine ⟨m', hrun, IRInst.sameBut_of_run hrun fun i hi id hid => ?_⟩
  obtain ⟨before, after, rfl, hnext⟩ := his.exists_isNext hi
  obtain ⟨d, hd, rfl⟩ := hid
  have hdst : destination i = some d.id := by
    change i.dst.map VReg.id = _
    rw [hd]
    rfl
  obtain heq : d.id = ids (k + before.length) := Option.some.inj (hdst.symm.trans hnext.destination)
  rw [heq]
  refine Set.mem_image_of_mem ids ⟨by omega, ?_⟩
  rw [List.length_append, List.length_cons]
  omega

/-- The value of code is defined by it, if it is no constant. -/
lemma IsValueOf.exists_destination (hv : IsValueOf js v) (hreg : v.vregId? ≠ none) :
    ∃ j ∈ js, destination j = v.vregId? := by
  rcases hv.value with ⟨c, rfl⟩ | ⟨before, j, rfl, hj⟩
  · exact absurd rfl hreg
  · exact ⟨j, List.mem_append_right _ (List.mem_singleton_self j), hj.symm⟩

/-! ## Emitters -/

/-- A constant appends nothing. -/
lemma appends_imm (c : BitVec 64) : Appends fs ids (return .makeImm c .i1) := by
  intro block k is _ his
  refine ⟨.makeImm c .i1, [], ?_, ?_, ⟨rfl, .inl ⟨c, rfl⟩⟩⟩
  · rw [List.append_nil]
    rfl
  · rwa [List.append_nil]

/-- A definition appends one instruction. -/
lemma run_define_append {block : IRBasicBlock} (hopen : block.isTerminated = false)
    (his : fs.WellFormedCode ids k is) (inst : ℕ → IRInst) :
    (EmitM.define ids inst).run ⟨block.append is, k + is.length⟩ =
      .ok (.makeVReg (ids (k + is.length)) .i1)
        ⟨block.append (is ++ [inst (ids (k + is.length))]),
          k + (is ++ [inst (ids (k + is.length))]).length⟩ := by
  rw [EmitM.run_define_of_open (his.append_open hopen), IRBasicBlock.append_append,
    List.length_append, List.length_singleton, Nat.add_assoc]

/-- A comparison of operands of the record with each other or with a constant. -/
lemma appends_emitIcmp {cond : IcmpCond} {name : String} {v w : IRValue}
    (hv : v = fs.result ∨ v = fs.lhs) (hw : w = fs.lhs ∨ w.vregId? = none) :
    Appends fs ids (emitIcmp ids cond name v w) := by
  intro block k is hopen his
  have hnext : fs.IsNext ids k is (.makeIcmp cond ⟨ids (k + is.length), name⟩ v w) := by
    refine ⟨rfl, rfl, fun u hu hreg => ?_, fun hbinary => absurd hbinary Bool.false_ne_true,
      fun m => ?_⟩
    · have hmem : u = v ∨ u = w := by simpa [IRInst.makeIcmp] using hu
      rcases hmem with rfl | rfl
      · exact hv.imp_right .inl
      · exact .inr (.inl (hw.resolve_right hreg))
    · exact ⟨_, IRInst.step_makeIcmp _ _ _ _ m⟩
  exact ⟨_, _, run_define_append hopen his _, his.concat hnext, rfl, .inr ⟨[], _, rfl, rfl⟩⟩

section Rules

variable {x y : EmitM IRValue}

/-- Two emitters in sequence, combined by a boolean operation. -/
lemma Appends.emitBool {op : Opcode} {name : String} (hop : op = .and ∨ op = .or ∨ op = .xor)
    (hx : Appends fs ids x) (hy : Appends fs ids y) :
    Appends fs ids (do
      let vx ← x
      let vy ← y
      FlagState.emitBool ids op name vx vy) := by
  intro block k is hopen his
  obtain ⟨vx, js, hxrun, hjs, hvx⟩ := hx block k is hopen his
  obtain ⟨vy, js', hyrun, hjs', hvy⟩ := hy block k (is ++ js) hopen hjs
  set code := is ++ js ++ js' with hcode
  set last := IRInst.makeBinop op ⟨ids (k + code.length), name⟩ .i1 vx vy with hlast
  have hnext : fs.IsNext ids k code last := by
    refine ⟨?_, rfl, fun u hu hreg => .inr (.inr ?_), fun _ => ⟨rfl, fun u hu => ?_⟩, fun m => ?_⟩
    · rcases hop with rfl | rfl | rfl <;> rfl
    · have hmem : u = vx ∨ u = vy := by simpa [hlast, IRInst.makeBinop] using hu
      rcases hmem with rfl | rfl
      · obtain ⟨j, hj, hdst⟩ := hvx.exists_destination hreg
        exact ⟨j, List.mem_append_left _ (List.mem_append_right _ hj), hdst⟩
      · obtain ⟨j, hj, hdst⟩ := hvy.exists_destination hreg
        exact ⟨j, List.mem_append_right _ hj, hdst⟩
    · have hmem : u = vx ∨ u = vy := by simpa [hlast, IRInst.makeBinop] using hu
      rcases hmem with rfl | rfl
      · exact hvx.type
      · exact hvy.type
    · rw [hlast, IRInst.step_makeBinop]
      rcases hop with rfl | rfl | rfl <;> exact ⟨_, rfl⟩
  have happend : is ++ (js ++ (js' ++ [last])) = code ++ [last] := by simp [hcode]
  refine ⟨.makeVReg (ids (k + code.length)) .i1, js ++ (js' ++ [last]), ?_, ?_, rfl,
    .inr ⟨js ++ js', last, (List.append_assoc _ _ _).symm, rfl⟩⟩
  · rw [run_bind_of_ok hxrun, run_bind_of_ok hyrun, FlagState.emitBool,
      run_define_append hopen hjs', happend]
  · rw [happend]
    exact hjs'.concat hnext

/-- A conjunction appends well-formed code if its sides do. -/
lemma Appends.emitAnd (hx : Appends fs ids x) (hy : Appends fs ids y) :
    Appends fs ids (do let vx ← x; let vy ← y; FlagState.emitAnd ids vx vy) :=
  hx.emitBool (.inl rfl) hy

/-- So does a disjunction. -/
lemma Appends.emitOr (hx : Appends fs ids x) (hy : Appends fs ids y) :
    Appends fs ids (do let vx ← x; let vy ← y; FlagState.emitOr ids vx vy) :=
  hx.emitBool (.inr (.inl rfl)) hy

/-- So does an exclusive disjunction. -/
lemma Appends.emitXor (hx : Appends fs ids x) (hy : Appends fs ids y) :
    Appends fs ids (do let vx ← x; let vy ← y; FlagState.emitXor ids vx vy) :=
  hx.emitBool (.inr (.inr rfl)) hy

/-- Negation, an exclusive or with a constant. -/
lemma Appends.emitNot (hx : Appends fs ids x) :
    Appends fs ids (do let vx ← x; FlagState.emitNot ids vx) := by
  have h : Appends fs ids (do
      let vx ← x
      let vy ← pure (.makeImm 1 .i1)
      FlagState.emitBool ids .xor "not" vx vy) :=
    hx.emitBool (.inr (.inr rfl)) (appends_imm 1)
  simp only [pure_bind] at h
  exact h

end Rules

/-! ## Requests -/

/-- That the code is well formed holds of the comparisons, and goes through the boolean
operations. -/
lemma compositional_appends : Compositional fs ids (Appends fs ids) where
  not hx := hx.emitNot
  and hx hy := hx.emitAnd hy
  or hx hy := hx.emitOr hy
  xor hx hy := hx.emitXor hy
  imm := appends_imm
  icmp := appends_emitIcmp

/-- Every request appends well-formed code. -/
lemma appends_materialise (request : FlagRequest) : Appends fs ids (fs.materialise ids request) :=
  compositional_appends.materialise request

/-- A request only appends well-formed code to an open block, and returns its value. -/
theorem materialise_wellFormed (fs : FlagState) (ids : ℕ → ℕ) (request : FlagRequest)
    {block : IRBasicBlock} (hopen : block.isTerminated = false) (k : ℕ) :
    ∃ v is, (fs.materialise ids request).run ⟨block, k⟩ =
        .ok v ⟨block.append is, k + is.length⟩ ∧
      fs.Materialised ids k is v := by
  obtain ⟨v, is, hrun, hcode, hvalue⟩ :=
    @appends_materialise fs ids request block k [] hopen wellFormedCode_nil
  rw [IRBasicBlock.append_nil, List.nil_append] at hrun
  rw [List.nil_append] at hcode
  exact ⟨v, is, hrun, hcode, hvalue, hcode.run⟩

/-! ## An instance -/

/-- The condition of `jz` after an addition, in an empty block. -/
theorem materialise_wellFormed_jz :
    ∃ v is, ((set {} .add (.makeVReg 0 .i32) (.makeVReg 0 .i32) (.makeImm 1 .i32) .i32).materialise
        (20 + ·) .zf).run ⟨{ name := "entry" }, 0⟩ =
        .ok v ⟨IRBasicBlock.append { name := "entry" } is, 0 + is.length⟩ ∧
      (set {} .add (.makeVReg 0 .i32) (.makeVReg 0 .i32) (.makeImm 1 .i32) .i32).Materialised
        (20 + ·) 0 is v :=
  materialise_wellFormed _ (20 + ·) .zf rfl 0

end FlagState

end InstaX
