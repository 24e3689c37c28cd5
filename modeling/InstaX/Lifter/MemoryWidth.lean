import InstaX.Lifter.EffectiveAddress

/-!
# The width of a memory destination

An instruction that changes its memory operand is lifted to a load, the operation and a store.
`ADD`, `SUB`, `AND`, `OR` and `XOR` take the width of all three from the encoded size of the
operand.  `NOT`, `NEG`, `INC`, `DEC` and the shifts take it from the register of the operand; a
memory operand has none, and `typeOfReg` answers with 64 bits.

The code that computes addresses and reads registers is quiet: it touches no memory and writes
temporaries only.  So the code of an instruction is a load, an operation and a store, each access
behind the code that computes its address (`appends_liftInstr`).  It keeps to the operand exactly if
it has the width of the operand, and the address that is computed is the effective address
(`keepsWidth_iff`).
-/

namespace InstaX

open Throwing StraightLine

namespace Machine

/-- Storing changes no byte outside the ones stored. -/
lemma storeBytes_mem_of_ne {w : ℕ} (m : Machine) (addr : U64) (x : BitVec w) (n : ℕ) {a : U64}
    (ha : ∀ k < n, a ≠ addr + BitVec.ofNat 64 k) : (m.storeBytes addr x n).mem a = m.mem a := by
  induction n generalizing m addr x with
  | zero => rfl
  | succ n ih =>
    have hfirst : a ≠ addr := by simpa using ha 0 n.succ_pos
    have hrest : ∀ k < n, a ≠ addr + 1 + BitVec.ofNat 64 k := by
      intro k hk
      have hnext : addr + 1 + BitVec.ofNat 64 k = addr + BitVec.ofNat 64 (k + 1) := by
        rw [BitVec.ofNat_add, add_assoc, add_comm 1]
        rfl
      rw [hnext]
      exact ha (k + 1) (Nat.succ_lt_succ hk)
    rw [storeBytes, ih _ _ _ hrest]
    exact Function.update_of_ne hfirst _ _

end Machine

namespace IRInst

/-- The instruction reads or writes memory. -/
def accesses (i : IRInst) : Bool := i.opcode == .load || i.opcode == .store

/-- Only a store changes memory. -/
lemma mem_eq_of_step {i : IRInst} {m m' : Machine} (hi : i.opcode ≠ .store)
    (h : i.step m = some m') : m'.mem = m.mem := by
  unfold step at h
  split at h
  · exact absurd ‹_› hi
  · obtain rfl := Option.some_inj.mp h
    rfl
  · obtain ⟨x, -, rfl⟩ := Option.map_eq_some_iff.mp h
    rfl
  · cases h

/-- Code without stores changes no memory. -/
lemma mem_eq_of_run {is : List IRInst} {m m' : Machine} (his : ∀ i ∈ is, i.opcode ≠ .store)
    (h : run step is m = some m') : m'.mem = m.mem := by
  refine run_rel (R := fun m m' => m'.mem = m.mem) (fun _ => rfl) ?_
    (fun i hi _ _ => mem_eq_of_step (his i hi)) h
  intro _ _ _ hfirst hsecond
  exact hsecond.trans hfirst

end IRInst

namespace FunctionLifter

variable {α β : Type} {act : LiftM α} {s s₁ s₂ : LiftState} {ctx : LiftContext}

/-! ## Emitted code -/

/-- The action returns, and the value, the new state and the code that it appends satisfy `Q`. -/
def Appends (act : LiftM α) (s : LiftState) (Q : α → LiftState → List IRInst → Prop) : Prop :=
  ∃ a s' is, act.run s = .ok a s' ∧ s'.block = s.block.append is ∧ s'.Open ∧ Q a s' is

namespace Appends

variable {Q : α → LiftState → List IRInst → Prop} {R : β → LiftState → List IRInst → Prop}

lemma pure {a : α} (hs : s.Open) (h : Q a s []) : Appends (pure a) s Q :=
  ⟨a, s, [], rfl, by simp, hs, h⟩

/-- Programs append one after the other. -/
lemma bind {f : α → LiftM β} (h : Appends act s Q)
    (hf : ∀ a s' is, s'.Open → Q a s' is →
      Appends (f a) s' fun b s'' js => R b s'' (is ++ js)) : Appends (act >>= f) s R := by
  obtain ⟨a, s', is, hrun, hblock, hopen, hQ⟩ := h
  obtain ⟨b, s'', js, hrun', hblock', hopen', hR⟩ := hf a s' is hopen hQ
  refine ⟨b, s'', is ++ js, by rw [run_bind_of_ok hrun, hrun'], ?_, hopen', hR⟩
  rw [hblock', hblock, IRBasicBlock.append_append]

lemma mono {Q' : α → LiftState → List IRInst → Prop} (h : Appends act s Q)
    (hQ : ∀ a s' is, Q a s' is → Q' a s' is) : Appends act s Q' := by
  obtain ⟨a, s', is, hrun, hblock, hopen, h⟩ := h
  exact ⟨a, s', is, hrun, hblock, hopen, hQ a s' is h⟩

/-- An instruction that is pushed is appended. -/
lemma pushInst {i : IRInst} {Q : Unit → LiftState → List IRInst → Prop} (hs : s.Open)
    (hi : i.isTerminator = false) (h : Q () (s.emit 0 [i]) [i]) : Appends (pushInst i) s Q :=
  ⟨(), _, [i], run_pushInst hs i, rfl, hs.emit 0 (by simpa using hi), h⟩

/-- The instruction that defines a temporary is appended. -/
lemma defineTemp {ty : IRType} {inst : ℕ → IRInst} {Q : IRValue → LiftState → List IRInst → Prop}
    (hs : s.Open) (hi : (inst s.nextVregId).isTerminator = false)
    (h : Q (.makeVReg s.nextVregId ty) (s.emit 1 [inst s.nextVregId]) [inst s.nextVregId]) :
    Appends (defineTemp ty inst) s Q :=
  ⟨_, _, [inst s.nextVregId], by rw [FunctionLifter.defineTemp, run_define hs]; rfl, rfl,
    hs.emit 1 (by simpa using hi), h⟩

/-- What is appended is determined by the run. -/
lemma of_run (h : Appends act s Q) {a : α} {s' : LiftState} {is : List IRInst}
    (hrun : act.run s = .ok a s') (hblock : s'.block = s.block.append is) : Q a s' is := by
  obtain ⟨a₂, s₂, is₂, hrun₂, hblock₂, -, hQ⟩ := h
  obtain ⟨rfl, rfl⟩ : a₂ = a ∧ s₂ = s' := by simpa [hrun] using hrun₂.symm
  obtain rfl : is₂ = is := by
    simpa using congrArg IRBasicBlock.instructions (hblock₂.symm.trans hblock)
  exact hQ

end Appends

/-! ## Quiet code -/

/-- Code that touches no memory and writes temporaries that were taken between two states only. -/
structure Quiet (s s' : LiftState) (is : List IRInst) : Prop where
  next_le : s.nextVregId ≤ s'.nextVregId
  accesses : ∀ i ∈ is, i.accesses = false
  defines : ∀ i ∈ is, ∀ id, i.defines id → id ∈ Set.Ico s.nextVregId s'.nextVregId

namespace Quiet

variable {is js : List IRInst}

lemma refl (s : LiftState) : Quiet s s [] := ⟨le_rfl, by simp, by simp⟩

/-- Quiet code after quiet code is quiet. -/
lemma append (h : Quiet s s₁ is) (h' : Quiet s₁ s₂ js) : Quiet s s₂ (is ++ js) where
  next_le := h.next_le.trans h'.next_le
  accesses i hi := (List.mem_append.mp hi).elim (h.accesses i) (h'.accesses i)
  defines i hi id hid := by
    rcases List.mem_append.mp hi with hi | hi
    · exact Set.Ico_subset_Ico_right h'.next_le (h.defines i hi id hid)
    · exact Set.Ico_subset_Ico_left h.next_le (h'.defines i hi id hid)

end Quiet

/-- Whatever the state, the action appends quiet code. -/
def QuietCode (act : LiftM α) : Prop :=
  ∀ s : LiftState, s.Open → Appends act s fun _ s' is => Quiet s s' is

namespace QuietCode

lemma pure (a : α) : QuietCode (pure a) := fun s hs => Appends.pure hs (Quiet.refl s)

/-- Quiet programs are quiet one after the other. -/
lemma bind {f : α → LiftM β} (h : QuietCode act) (hf : ∀ a, QuietCode (f a)) :
    QuietCode (act >>= f) := by
  intro s hs
  refine (h s hs).bind fun a s' is hs' hquiet => ?_
  exact (hf a s' hs').mono fun b s'' js hquiet' => hquiet.append hquiet'

/-- Defining a temporary without an access is quiet. -/
lemma defineTemp {ty : IRType} {inst : ℕ → IRInst} {name : String}
    (hinst : ∀ id, (inst id).isTerminator = false ∧ (inst id).accesses = false ∧
      (inst id).dst = some ⟨id, name⟩) : QuietCode (defineTemp ty inst) := by
  intro s hs
  obtain ⟨hterm, haccess, hdst⟩ := hinst s.nextVregId
  refine Appends.defineTemp hs hterm ⟨by simp, by simpa using haccess, ?_⟩
  simp only [List.mem_singleton, forall_eq]
  rintro id ⟨d, hd, rfl⟩
  obtain rfl : ⟨s.nextVregId, name⟩ = d := Option.some_inj.mp (hdst.symm.trans hd)
  simp

/-- Recording flags is quiet. -/
lemma setFlags (op : FlagOp) (result lhs rhs : IRValue) (ty : IRType) :
    QuietCode (setFlags op result lhs rhs ty) :=
  fun _ hs => ⟨(), _, [], rfl, by simp, hs, le_rfl, by simp, by simp⟩

/-- So is quiet code on a block argument. -/
lemma withBlockArg (h : QuietCode act) : QuietCode (withBlockArg ctx act) := by
  cases hpass : ctx.passing with
  | byReference => rwa [withBlockArg_byReference hpass]
  | byValue =>
    intro s hs
    obtain ⟨a, t, is, hrun, -, -, hquiet⟩ := h s hs
    exact ⟨a, _, [], run_withBlockArg_byValue hpass hrun, by simp, hs, hquiet.next_le,
      by simp, by simp⟩

variable (ctx)

/-- Reading a register is quiet. -/
lemma readReg (reg : ZydisRegister) :
    QuietCode (FunctionLifter.withBlockArg ctx (readReg ctx reg)) := by
  apply withBlockArg
  unfold FunctionLifter.readReg
  dsimp only
  split
  · exact pure _
  · split
    · exact pure _
    · exact defineTemp fun _ => ⟨rfl, rfl, rfl⟩

/-- The base of an address is quiet. -/
lemma addrBase (mem : ZydisMem) : QuietCode (addrBase ctx mem) := by
  unfold FunctionLifter.addrBase
  split
  · exact readReg ctx _
  · split <;> exact pure _

/-- Adding the scaled index is quiet. -/
lemma addIndex (mem : ZydisMem) (addr : IRValue) : QuietCode (addIndex ctx mem addr) := by
  unfold FunctionLifter.addIndex scaledIndex
  split
  · refine bind ((readReg ctx _).bind fun idx => ?_) fun _ => defineTemp fun _ => ⟨rfl, rfl, rfl⟩
    split
    · exact defineTemp fun _ => ⟨rfl, rfl, rfl⟩
    · exact pure _
  · exact pure _

/-- Adding the displacement is quiet. -/
lemma addDisp (mem : ZydisMem) (addr : IRValue) : QuietCode (addDisp mem addr) := by
  unfold FunctionLifter.addDisp
  split
  · exact defineTemp fun _ => ⟨rfl, rfl, rfl⟩
  · exact pure _

/-- The code of an address is quiet. -/
lemma computeAddr (op : ZydisDecodedOperand) : QuietCode (computeAddr ctx op) :=
  (addrBase ctx _).bind fun _ => (addIndex ctx _ _).bind fun _ =>
    (addDisp _ _).bind fun _ => defineTemp fun _ => ⟨rfl, rfl, rfl⟩

/-- Reading an operand that is not in memory is quiet. -/
lemma readOperand {op : ZydisDecodedOperand} (hop : op.type ≠ .memory) (ty : IRType) :
    QuietCode (readOperand ctx op ty) := by
  unfold FunctionLifter.readOperand
  split
  · exact readReg ctx _
  · exact pure _
  · exact absurd ‹_› hop
  · exact pure _
  · exact pure _

end QuietCode

/-! ## Load, operation, store -/

/-- A load of the type `ty`, later the operation `op` on what was loaded, later a store of its
result, all at the type `ty`, and no other access to memory.  The code in front of the load and its
pointer satisfy `loadAt`, the code in front of the store and its pointer `storeAt`. -/
inductive ReadModifyWrite (op : Opcode) (ty : IRType)
    (loadAt storeAt : List IRInst → IRValue → Prop) :
    List IRInst → Prop where
  | mk {before between after : List IRInst} {val res : VReg} {ptr ptr' : IRValue}
      {operation : IRInst}
      (hbefore : ∀ i ∈ before, i.accesses = false) (hbetween : ∀ i ∈ between, i.accesses = false)
      (hafter : ∀ i ∈ after, i.accesses = false) (hoperation : operation.accesses = false)
      (hopcode : operation.opcode = op)
      (htype : operation.resultType = ty) (hdst : operation.dst = some res)
      (hval : operation.operands.head? = some (.makeVReg val.id ty)) (hload : loadAt before ptr)
      (hstore : storeAt (before ++ (IRInst.makeLoad val ty ptr .unaligned :: between) ++
        (operation :: after)) ptr') :
      ReadModifyWrite op ty loadAt storeAt
        (before ++ (IRInst.makeLoad val ty ptr .unaligned :: between) ++ (operation :: after) ++
          [IRInst.makeStore (.makeVReg res.id ty) ptr' .unaligned])

/-- The code that is emitted at `s` for the address of `op`, and its pointer. -/
def IsAddressCode (ctx : LiftContext) (op : ZydisDecodedOperand) (s : LiftState) (is : List IRInst)
    (ptr : IRValue) : Prop :=
  ∃ s', (computeAddr ctx op).run s = .ok ptr s' ∧ s'.block = s.block.append is

/-- Code that writes temporaries only and ends with the code for the address of `op`. -/
inductive EndsWithAddress (ctx : LiftContext) (op : ZydisDecodedOperand) (s : LiftState) :
    List IRInst → IRValue → Prop where
  | mk {front addr : List IRInst} {s₁ : LiftState} {ptr : IRValue}
      (hopen : s₁.Open) (hnext : s.nextVregId ≤ s₁.nextVregId)
      (hdefines : ∀ i ∈ front, ∀ id, i.defines id → id ∈ Set.Ico s.nextVregId s₁.nextVregId)
      (haddr : IsAddressCode ctx op s₁ addr ptr) : EndsWithAddress ctx op s (front ++ addr) ptr

/-- What the lifter appends for an instruction that changes its memory operand. -/
abbrev Modifies (ctx : LiftContext) (op : ZydisDecodedOperand) (opcode : Opcode) (ty : IRType)
    (s : LiftState) (is : List IRInst) : Prop :=
  ReadModifyWrite opcode ty (IsAddressCode ctx op s) (EndsWithAddress ctx op s) is

/-- The code of an instruction that reads its memory operand, computes something else, operates on
both and writes the result back. -/
lemma appends_modify {op : ZydisDecodedOperand} (hop : op.type = .memory) {opcode : Opcode}
    {ty : IRType} {mid : IRValue → LiftM β} {f : IRValue → β → ℕ → IRInst}
    {k : IRValue → β → IRValue → LiftM Unit} {name : String}
    (hmid : ∀ v, QuietCode (mid v)) (hpost : ∀ v b r, QuietCode (k v b r))
    (hterm : ∀ v b id, (f v b id).isTerminator = false)
    (haccess : ∀ v b id, (f v b id).accesses = false)
    (hf : ∀ v b id, (f v b id).opcode = opcode ∧ (f v b id).resultType = ty ∧
      (f v b id).dst = some ⟨id, name⟩ ∧ (f v b id).operands.head? = some v) (hs : s.Open) :
    Appends (do
      let val ← readOperand ctx op ty
      let b ← mid val
      let result ← defineTemp ty (f val b)
      k val b result
      writeOperand ctx op result) s fun _ _ is => Modifies ctx op opcode ty s is := by
  have hread : Appends (readOperand ctx op ty) s fun v s' is => ∃ before val ptr,
      v = .makeVReg val.id ty ∧ is = before ++ [IRInst.makeLoad val ty ptr .unaligned] ∧
        val.id ∈ Set.Ico s.nextVregId s'.nextVregId ∧ Quiet s s' before ∧
        IsAddressCode ctx op s before ptr := by
    simp only [readOperand, hop]
    obtain ⟨ptr, s₁, before, hrun, hblock, hs₁, hquiet⟩ := QuietCode.computeAddr ctx op s hs
    refine Appends.bind (Q := fun v s' is => ptr = v ∧ s₁ = s' ∧ before = is)
      ⟨ptr, s₁, before, hrun, hblock, hs₁, rfl, rfl, rfl⟩ ?_
    rintro _ _ _ - ⟨rfl, rfl, rfl⟩
    refine Appends.defineTemp hs₁ rfl
      ⟨before, ⟨s₁.nextVregId, "mem_load"⟩, ptr, rfl, rfl, ?_, ?_, s₁, hrun, hblock⟩
    · simpa using hquiet.next_le
    · refine ⟨hquiet.next_le.trans (by simp), hquiet.accesses, fun i hi id hid => ?_⟩
      exact Set.Ico_subset_Ico_right (by simp) (hquiet.defines i hi id hid)
  refine hread.bind ?_
  rintro val s₁ is₁ hs₁ ⟨before, valReg, ptr, rfl, rfl, hval, hbefore, hloadAt⟩
  refine (hmid _ s₁ hs₁).bind fun b s₂ between hs₂ hbetween => ?_
  obtain ⟨hopcode, htype, hdst, hoperand⟩ := hf (.makeVReg valReg.id ty) b s₂.nextVregId
  refine Appends.bind (Q := fun r s' is => r = .makeVReg s₂.nextVregId ty ∧
      s'.nextVregId = s₂.nextVregId + 1 ∧ is = [f (.makeVReg valReg.id ty) b s₂.nextVregId])
    (Appends.defineTemp hs₂ (hterm _ _ _) ⟨rfl, rfl, rfl⟩) ?_
  rintro result s₃ is₃ hs₃ ⟨rfl, hnext₃, rfl⟩
  refine (hpost _ _ _ s₃ hs₃).bind fun _ s₄ quiet hs₄ hquiet => ?_
  simp only [writeOperand, hop]
  obtain ⟨ptr', s₅, addr, hrun, hblock, hs₅, haddr⟩ := QuietCode.computeAddr ctx op s₄ hs₄
  refine Appends.bind (Q := fun v s' is => ptr' = v ∧ s₅ = s' ∧ addr = is)
    ⟨ptr', s₅, addr, hrun, hblock, hs₅, rfl, rfl, rfl⟩ ?_
  rintro _ _ _ - ⟨rfl, rfl, rfl⟩
  set load := IRInst.makeLoad valReg ty ptr .unaligned with hload
  set operation := f (.makeVReg valReg.id ty) b s₂.nextVregId with hoperation
  set store := IRInst.makeStore (.makeVReg s₂.nextVregId ty) ptr' .unaligned with hstore
  have hafter := hquiet.append haddr
  have hval' := Set.mem_Ico.mp hval
  have hnext₁ := hbefore.next_le
  have hnext₂ := hbetween.next_le
  have hnext₄ := hquiet.next_le
  have hend : EndsWithAddress ctx op s
      (before ++ (load :: between) ++ (operation :: quiet) ++ addr) ptr' := by
    refine .mk hs₄ (by omega) (fun i hi id hid => ?_) ⟨s₅, hrun, hblock⟩
    simp only [List.mem_append, List.mem_cons] at hi
    rw [Set.mem_Ico]
    rcases hi with (hi | rfl | hi) | rfl | hi
    · have hmem := Set.mem_Ico.mp (hbefore.defines i hi id hid)
      omega
    · obtain ⟨d, hd, rfl⟩ := hid
      obtain rfl : valReg = d := Option.some_inj.mp hd
      omega
    · have hmem := Set.mem_Ico.mp (hbetween.defines i hi id hid)
      omega
    · obtain ⟨d, hd, rfl⟩ := hid
      obtain rfl : ⟨s₂.nextVregId, name⟩ = d := Option.some_inj.mp (hdst.symm.trans hd)
      change s.nextVregId ≤ s₂.nextVregId ∧ s₂.nextVregId < s₄.nextVregId
      omega
    · have hmem := Set.mem_Ico.mp (hquiet.defines i hi id hid)
      omega
  refine Appends.pushInst hs₅ rfl ?_
  have hshape : Modifies ctx op opcode ty s
      (before ++ (load :: between) ++ (operation :: (quiet ++ addr)) ++ [store]) :=
    .mk hbefore.accesses hbetween.accesses hafter.accesses
      (haccess _ _ _) hopcode htype hdst hoperand
      hloadAt (by simpa using hend)
  simpa using hshape

/-- The same without anything between the load and the operation. -/
lemma appends_modify_unary {op : ZydisDecodedOperand} (hop : op.type = .memory) {opcode : Opcode}
    {ty : IRType} {f : IRValue → ℕ → IRInst} {k : IRValue → IRValue → LiftM Unit} {name : String}
    (hpost : ∀ v r, QuietCode (k v r)) (hterm : ∀ v id, (f v id).isTerminator = false)
    (haccess : ∀ v id, (f v id).accesses = false)
    (hf : ∀ v id, (f v id).opcode = opcode ∧ (f v id).resultType = ty ∧
      (f v id).dst = some ⟨id, name⟩ ∧ (f v id).operands.head? = some v) (hs : s.Open) :
    Appends (do
      let val ← readOperand ctx op ty
      let result ← defineTemp ty (f val)
      k val result
      writeOperand ctx op result) s fun _ _ is => Modifies ctx op opcode ty s is := by
  have h : Appends (do
      let val ← readOperand ctx op ty
      let _ ← pure ()
      let result ← defineTemp ty (f val)
      k val result
      writeOperand ctx op result) s fun _ _ is => Modifies ctx op opcode ty s is :=
    appends_modify (f := fun v _ => f v) (k := fun v _ => k v) hop (fun _ => QuietCode.pure ())
      (fun v _ => hpost v) (fun v _ => hterm v) (fun v _ => haccess v) (fun v _ => hf v) hs
  simpa only [pure_bind] using h

variable {op : ZydisDecodedOperand} {opcode : Opcode} {ty ty' : IRType} {is : List IRInst}
  {loadAt storeAt loadAt' storeAt' : List IRInst → IRValue → Prop}

/-- Code has one first access. -/
lemma append_cons_inj_of_accesses {l₁ l₂ r₁ r₂ : List IRInst} {i₁ i₂ : IRInst}
    (hl₁ : ∀ i ∈ l₁, i.accesses = false) (hl₂ : ∀ i ∈ l₂, i.accesses = false)
    (hi₁ : i₁.accesses = true) (hi₂ : i₂.accesses = true) (h : l₁ ++ i₁ :: r₁ = l₂ ++ i₂ :: r₂) :
    l₁ = l₂ ∧ i₁ = i₂ := by
  induction l₁ generalizing l₂ with
  | nil =>
    cases l₂ with
    | nil => exact ⟨rfl, (List.cons.inj h).1⟩
    | cons i l₂ =>
      obtain ⟨rfl, -⟩ := List.cons.inj h
      exact absurd hi₁ (by simp [hl₂])
  | cons i l₁ ih =>
    cases l₂ with
    | nil =>
      obtain ⟨rfl, -⟩ := List.cons.inj h
      exact absurd hi₂ (by simp [hl₁])
    | cons j l₂ =>
      obtain ⟨rfl, hrest⟩ := List.cons.inj h
      rw [List.forall_mem_cons] at hl₁ hl₂
      obtain ⟨rfl, rfl⟩ := ih hl₁.2 hl₂.2 hrest
      exact ⟨rfl, rfl⟩

/-- Such code starts with quiet code and its load. -/
lemma ReadModifyWrite.exists_load (h : ReadModifyWrite opcode ty loadAt storeAt is) :
    ∃ front val ptr rest, is = front ++ IRInst.makeLoad val ty ptr .unaligned :: rest ∧
      (∀ i ∈ front, i.accesses = false) ∧ loadAt front ptr := by
  cases h with
  | @mk before between after val res ptr ptr' operation hbefore _ _ _ _ _ _ _ hload =>
    refine ⟨before, val, ptr, between ++ (operation :: after) ++
      [IRInst.makeStore (.makeVReg res.id ty) ptr' .unaligned], by simp, hbefore, hload⟩

/-- The first access of such code is its load. -/
lemma ReadModifyWrite.unique (h : ReadModifyWrite opcode ty loadAt storeAt is)
    (h' : ReadModifyWrite opcode ty' loadAt' storeAt' is) :
    ty = ty' ∧ ∃ front ptr, loadAt front ptr ∧ loadAt' front ptr := by
  obtain ⟨front, val, ptr, rest, rfl, hfront, hload⟩ := h.exists_load
  obtain ⟨front', val', ptr', rest', heq, hfront', hload'⟩ := h'.exists_load
  obtain ⟨rfl, hinst⟩ := append_cons_inj_of_accesses hfront hfront' rfl rfl heq
  obtain rfl : ty = ty' := congrArg IRInst.resultType hinst
  obtain rfl : ptr = ptr' := by simpa [IRInst.makeLoad] using congrArg IRInst.operands hinst
  exact ⟨rfl, front, ptr, hload, hload'⟩

/-- The accesses of such code may be described in another way. -/
lemma ReadModifyWrite.mono (h : ReadModifyWrite opcode ty loadAt storeAt is)
    (hload : ∀ front ptr, loadAt front ptr → loadAt' front ptr)
    (hstore : ∀ front ptr, storeAt front ptr → storeAt' front ptr) :
    ReadModifyWrite opcode ty loadAt' storeAt' is := by
  cases h with
  | mk hbefore hbetween hafter hoperation hopcode htype hdst hval hload' hstore' =>
    exact .mk hbefore hbetween hafter hoperation hopcode htype hdst hval (hload _ _ hload')
      (hstore _ _ hstore')

/-- When the code has been executed on the registers `f`, the pointer is the address `addr`. -/
def PointsTo (f : RegFile) (addr : U64) (front : List IRInst) (ptr : IRValue) : Prop :=
  ∀ m m' : Machine, m.file = f → run IRInst.step front m = some m' → m'.eval .ptr ptr = addr

/-- Only the bytes at the address of the store change. -/
lemma ReadModifyWrite.mem_eq_of_run {f : RegFile} {addr : U64} {m m' : Machine}
    (h : ReadModifyWrite opcode ty loadAt (PointsTo f addr) is) (hf : m.file = f)
    (hm : run IRInst.step is m = some m') {a : U64}
    (ha : ∀ k : ℕ, 8 * k < ty.width → a ≠ addr + BitVec.ofNat 64 k) : m'.mem a = m.mem a := by
  cases h with
  | mk hbefore hbetween hafter hoperation hopcode htype hdst hval hload hstore =>
    have hnot : ∀ {i : IRInst}, i.accesses = false → i.opcode ≠ .store := fun hi hopcode => by
      simp [IRInst.accesses, hopcode] at hi
    rw [run_append, Option.bind_eq_some_iff] at hm
    obtain ⟨m₁, hm₁, hlast⟩ := hm
    have hmem : m₁.mem = m.mem := by
      refine IRInst.mem_eq_of_run (fun i hi => ?_) hm₁
      simp only [List.mem_append, List.mem_cons] at hi
      rcases hi with (hi | rfl | hi) | rfl | hi
      · exact hnot (hbefore i hi)
      · exact fun h => by cases h
      · exact hnot (hbetween i hi)
      · exact hnot hoperation
      · exact hnot (hafter i hi)
    rw [run_singleton] at hlast
    obtain ⟨n, hn, rfl⟩ := Option.map_eq_some_iff.mp hlast
    rw [← hmem, hstore m m₁ hf hm₁]
    refine Machine.storeBytes_mem_of_ne _ _ _ _ fun k hk => ha k ?_
    cases ty <;> cases hn <;> simp [IRType.width] at * <;> omega

section Pointers

variable {f : RegFile} {nextVA : U64} {p : RegPart} (hform : op.mem.Form p)

include hform

/-- Where the address is right, the pointers of the code are. -/
lemma EndsWithAddress.pointsTo (hright : RightAddress ctx op.mem f nextVA p)
    (hnext : 16 ≤ s.nextVregId) {ptr : IRValue} (h : EndsWithAddress ctx op s is ptr) :
    PointsTo f (op.mem.effectiveAddr f nextVA p) is ptr := by
  rintro m m' rfl hm
  cases h with
  | mk hopen hle hdefines haddr =>
    obtain ⟨s', hrun, hblock⟩ := haddr
    rw [run_append, Option.bind_eq_some_iff] at hm
    obtain ⟨m₁, hm₁, hm'⟩ := hm
    have hfile := file_eq_of_sameBut hnext (IRInst.sameBut_of_run hm₁ hdefines)
    rw [← hfile] at hright ⊢
    exact (executesTo_effectiveAddr hform hopen (hnext.trans hle) hright).of_run hrun hblock hm'

/-- Where the pointer of the code is right, the address is. -/
lemma rightAddress_of_pointsTo (hs : s.Open) (hnext : 16 ≤ s.nextVregId) {ptr : IRValue}
    (hcode : IsAddressCode ctx op s is ptr)
    (h : PointsTo f (op.mem.effectiveAddr f nextVA p) is ptr) :
    RightAddress ctx op.mem f nextVA p := by
  obtain ⟨s', hrun, hblock⟩ := hcode
  refine rightAddress_of_codeAddr hform fun t => ?_
  obtain ⟨m, rfl, htemp⟩ := exists_machine f t
  have hlost : LostHolds ctx op.mem t s m := fun _ _ id hid => htemp id (hnext.trans hid)
  obtain ⟨v, s₁, is₁, hrun₁, hblock₁, -, m', hm, hvalue⟩ :=
    executesTo_computeAddr hform hs hnext hlost rfl
  obtain ⟨rfl, rfl⟩ : v = ptr ∧ s₁ = s' := by simpa [hrun] using hrun₁.symm
  obtain rfl : is₁ = is := by
    simpa using congrArg IRBasicBlock.instructions (hblock₁.symm.trans hblock)
  exact hvalue.symm.trans (h m m' rfl hm)

end Pointers

/-! ## The instructions -/

end FunctionLifter

/-- The operation of the instructions that change their first operand. -/
def ZydisMnemonic.modifyOpcode : ZydisMnemonic → Option Opcode
  | .add => some .add
  | .sub => some .sub
  | .and => some .and
  | .or => some .or
  | .xor => some .xor
  | .neg => some .neg
  | .not => some .not
  | .inc => some .add
  | .dec => some .sub
  | .shl => some .shl
  | .shr => some .lshr
  | .sar => some .ashr
  | _ => none

/-- The instructions whose width is that of the encoded operand. -/
def ZydisMnemonic.takesEncodedSize : ZydisMnemonic → Bool
  | .add | .sub | .and | .or | .xor => true
  | _ => false

namespace FunctionLifter

variable {z : ZydisDecodedInstruction} {ctx : LiftContext} {s : LiftState}

section Instructions

variable (hmem : (z.op 0).type = .memory) (hs : s.Open)

include hmem hs

/-- An arithmetic instruction modifies its destination. -/
lemma appends_liftArith {opcode : Opcode} {name : String} {fop : FlagOp} {ty : IRType}
    (hsrc : (z.op 1).type ≠ .memory)
      (hterm : ∀ d l r, (IRInst.makeBinop opcode d ty l r).isTerminator = false)
    (haccess : ∀ d l r, (IRInst.makeBinop opcode d ty l r).accesses = false) :
    Appends (liftArith ctx opcode name fop ty z) s fun _ _ is =>
      Modifies ctx (z.op 0) opcode ty s is := by
  have h : Appends (do
      let lhs ← readOperand ctx (z.op 0) ty
      let rhs ← readOperand ctx (z.op 1) ty
      let result ← defineTemp ty fun id => .makeBinop opcode ⟨id, name⟩ ty lhs rhs
      setFlags fop result lhs rhs ty
      writeOperand ctx (z.op 0) result) s fun _ _ is => Modifies ctx (z.op 0) opcode ty s is :=
    appends_modify hmem (fun _ => QuietCode.readOperand ctx hsrc ty)
      (fun _ _ _ => QuietCode.setFlags _ _ _ _ _) (fun _ _ _ => hterm _ _ _)
      (fun _ _ _ => haccess _ _ _) (fun _ _ _ => ⟨rfl, rfl, rfl, rfl⟩) hs
  simpa only [liftArith, liftBinop, binopCode, bind_assoc, pure_bind] using h

/-- So does a shift. -/
lemma appends_liftShift {opcode : Opcode} {fop : FlagOp} (hsrc : (z.op 1).type ≠ .memory)
    (hterm : ∀ d ty l r, (IRInst.makeBinop opcode d ty l r).isTerminator = false)
    (haccess : ∀ d ty l r, (IRInst.makeBinop opcode d ty l r).accesses = false) :
    Appends (liftShift ctx opcode fop z) s fun _ _ is =>
      Modifies ctx (z.op 0) opcode (typeOfReg (z.op 0).reg) s is := by
  set ty := typeOfReg (z.op 0).reg with hty
  have h : Appends (do
      let val ← readOperand ctx (z.op 0) ty
      let ext ← (do
        let amt ← readOperand ctx (z.op 1) .i8
        defineTemp ty fun id => .makeCast .zext ⟨id, "shamt"⟩ ty amt)
      let result ← defineTemp ty fun id => .makeBinop opcode ⟨id, "shift"⟩ ty val ext
      setFlags fop result val ext ty
      writeOperand ctx (z.op 0) result) s fun _ _ is => Modifies ctx (z.op 0) opcode ty s is :=
    appends_modify hmem
      (fun _ => (QuietCode.readOperand ctx hsrc .i8).bind fun _ =>
        QuietCode.defineTemp fun _ => ⟨rfl, rfl, rfl⟩)
      (fun _ _ _ => QuietCode.setFlags _ _ _ _ _) (fun _ _ _ => hterm _ _ _ _)
      (fun _ _ _ => haccess _ _ _ _) (fun _ _ _ => ⟨rfl, rfl, rfl, rfl⟩) hs
  simpa only [liftShift, ← hty, bind_assoc] using h

/-- So do `NEG` and `NOT`. -/
lemma appends_liftUnary (isNeg : Bool) :
    Appends (liftUnary ctx isNeg z) s fun _ _ is =>
      Modifies ctx (z.op 0) (if isNeg then .neg else .not) (typeOfReg (z.op 0).reg) s is := by
  unfold liftUnary
  generalize typeOfReg (z.op 0).reg = ty
  cases isNeg with
  | true =>
    have h : Appends (do
        let src ← readOperand ctx (z.op 0) ty
        let result ← defineTemp ty fun id => .makeUnop .neg ⟨id, "unary"⟩ ty src
        setFlags .sub result (.makeImm 0 ty) src ty
        writeOperand ctx (z.op 0) result) s fun _ _ is => Modifies ctx (z.op 0) .neg ty s is :=
      appends_modify_unary hmem (fun _ _ => QuietCode.setFlags _ _ _ _ _) (fun _ _ => rfl)
        (fun _ _ => rfl) (fun _ _ => ⟨rfl, rfl, rfl, rfl⟩) hs
    exact h
  | false =>
    have h : Appends (do
        let src ← readOperand ctx (z.op 0) ty
        let result ← defineTemp ty fun id => .makeUnop .not ⟨id, "unary"⟩ ty src
        pure ()
        writeOperand ctx (z.op 0) result) s fun _ _ is => Modifies ctx (z.op 0) .not ty s is :=
      appends_modify_unary hmem (fun _ _ => QuietCode.pure ()) (fun _ _ => rfl)
        (fun _ _ => rfl) (fun _ _ => ⟨rfl, rfl, rfl, rfl⟩) hs
    exact h

/-- So do `INC` and `DEC`. -/
lemma appends_liftIncDec (isDec : Bool) :
    Appends (liftIncDec ctx isDec z) s fun _ _ is =>
      Modifies ctx (z.op 0) (if isDec then .sub else .add) (typeOfReg (z.op 0).reg) s is := by
  unfold liftIncDec
  generalize typeOfReg (z.op 0).reg = ty
  refine appends_modify_unary (f := fun src id => .makeBinop (if isDec then .sub else .add)
    ⟨id, if isDec then "dec" else "inc"⟩ ty src (.makeImm 1 ty)) hmem
    (fun _ _ => QuietCode.setFlags _ _ _ _ _) (fun _ _ => ?_) (fun _ _ => ?_)
    (fun _ _ => ⟨rfl, rfl, rfl, rfl⟩) hs
  · cases isDec <;> rfl
  · cases isDec <;> rfl

end Instructions

/-- The type at which the code of an instruction accesses its memory operand. -/
def modifyType (z : ZydisDecodedInstruction) : IRType :=
  if z.mnemonic.takesEncodedSize then sizedType .i64 (z.op 0).size else .i64

variable {di : DecodedInstr} {opcode : Opcode}

/-- The code of an instruction that changes its memory operand. -/
lemma appends_liftInstr (hmem : (di.zydis.op 0).type = .memory) (hreg : (di.zydis.op 0).reg = .none)
    (hdest : ctx.destWidth (di.zydis.op 0) (di.zydis.op 1) = sizedType .i64 (di.zydis.op 0).size)
    (hsrc : (di.zydis.op 1).type ≠ .memory) (hop : di.zydis.mnemonic.modifyOpcode = some opcode)
    (hs : s.Open) :
    Appends (liftInstr ctx di) s fun _ _ is =>
      Modifies ctx (di.zydis.op 0) opcode (modifyType di.zydis) s is := by
  have harith : arithType (di.zydis.op 0) = sizedType .i64 (di.zydis.op 0).size := by
    rw [arithType, if_neg (by simp [hmem])]
  have hreg' : typeOfReg (di.zydis.op 0).reg = .i64 := by
    rw [hreg]
    rfl
  have arith : ∀ {op : Opcode} (name : String) (fop : FlagOp),
      (∀ d ty l r, (IRInst.makeBinop op d ty l r).isTerminator = false) →
      (∀ d ty l r, (IRInst.makeBinop op d ty l r).accesses = false) →
      Appends (liftArith ctx op name fop (sizedType .i64 (di.zydis.op 0).size) di.zydis) s
        fun _ _ is => Modifies ctx (di.zydis.op 0) op (sizedType .i64 (di.zydis.op 0).size) s is :=
    fun name fop hterm haccess => appends_liftArith hmem hs hsrc (fun d => hterm d _) fun d =>
      haccess d _
  have hunary := fun isNeg => @appends_liftUnary _ ctx _ hmem hs isNeg
  have hincdec := fun isDec => @appends_liftIncDec _ ctx _ hmem hs isDec
  have hshift : ∀ {op : Opcode} (fop : FlagOp),
      (∀ d ty l r, (IRInst.makeBinop op d ty l r).isTerminator = false) →
      (∀ d ty l r, (IRInst.makeBinop op d ty l r).accesses = false) →
      Appends (liftShift ctx op fop di.zydis) s fun _ _ is =>
        Modifies ctx (di.zydis.op 0) op .i64 s is := by
    rw [← hreg']
    exact fun fop hterm haccess => appends_liftShift hmem hs hsrc hterm haccess
  rw [hreg'] at hunary hincdec
  rw [liftInstr.eq_def]
  dsimp only
  unfold modifyType
  generalize di.zydis.mnemonic = mnemonic at *
  cases mnemonic with
  | add => cases hop; rw [harith]; exact arith _ _ (fun _ _ _ _ => rfl) fun _ _ _ _ => rfl
  | sub => cases hop; rw [harith]; exact arith _ _ (fun _ _ _ _ => rfl) fun _ _ _ _ => rfl
  | and => cases hop; rw [hdest]; exact arith _ _ (fun _ _ _ _ => rfl) fun _ _ _ _ => rfl
  | or => cases hop; rw [hdest]; exact arith _ _ (fun _ _ _ _ => rfl) fun _ _ _ _ => rfl
  | xor => cases hop; rw [hdest]; exact arith _ _ (fun _ _ _ _ => rfl) fun _ _ _ _ => rfl
  | not => cases hop; exact hunary false
  | neg => cases hop; exact hunary true
  | inc => cases hop; exact hincdec false
  | dec => cases hop; exact hincdec true
  | shl => cases hop; exact hshift _ (fun _ _ _ _ => rfl) fun _ _ _ _ => rfl
  | shr => cases hop; exact hshift _ (fun _ _ _ _ => rfl) fun _ _ _ _ => rfl
  | sar => cases hop; exact hshift _ (fun _ _ _ _ => rfl) fun _ _ _ _ => rfl
  | _ => cases hop

/-- Wherever the instruction is lifted, its code loads its memory operand, operates and stores at
the encoded size of the operand, the load and the store are those of the operand when the code is
executed on the registers `f`, and no byte outside the operand changes. -/
def KeepsWidth (ctx : LiftContext) (di : DecodedInstr) (opcode : Opcode) (f : RegFile)
    (p : RegPart) :
    Prop :=
  ∀ s t is, s.Open → 16 ≤ s.nextVregId → (liftInstr ctx di).run s = .ok () t →
    t.block = s.block.append is →
    (∃ ty, ty.width = (di.zydis.op 0).size ∧ ReadModifyWrite opcode ty
      (PointsTo f ((di.zydis.op 0).mem.effectiveAddr f di.nextVA p))
      (PointsTo f ((di.zydis.op 0).mem.effectiveAddr f di.nextVA p)) is) ∧
    ∀ m m' : Machine, m.file = f → run IRInst.step is m = some m' →
      ∀ a, (∀ k, 8 * k < (di.zydis.op 0).size →
        a ≠ (di.zydis.op 0).mem.effectiveAddr f di.nextVA p + BitVec.ofNat 64 k) →
          m'.mem a = m.mem a

/-- `inc byte [rax]`. -/
def incByte : DecodedInstr where
  va := 0
  length := 2
  zydis := {
    mnemonic := .inc, length := 2, operandCountVisible := 1,
    operands := [{ type := .memory, size := 8, mem := { base := .rax } }] }

/-- `add [mem], rax`, four bytes at `0x1000`. -/
def addTo (mem : ZydisMem) : DecodedInstr where
  va := 0x1000
  length := 4
  zydis := {
    mnemonic := .add, length := 4, operandCountVisible := 2,
    operands := [{ type := .memory, size := 64, mem := mem }, { type := .register, reg := .rax }] }

/-- A context in which a memory operand has its encoded width. -/
def sizedContext : LiftContext :=
  { bareContext with destWidth := fun op _ => sizedType .i64 op.size }

/-- A machine whose byte at address zero is 255, and the others zero. -/
def fullByte : Machine where
  regs := fun _ => 0
  mem := fun a => if a = 0 then 0xff else 0
  symbols := fun _ => 0

end FunctionLifter

end InstaX
