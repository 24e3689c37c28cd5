import InstaX.Flags.FlagState
import InstaX.X86.Instruction
import InstaX.IR.Machine

/-!
# The state of the lifter

`FunctionLifter` (`src/backend/x86/X86Lifter.cpp`) extends one basic block at a time.  Its state is
that block, the function's register counter and the recorded flags; what it only reads is a
`LiftContext`.

`readReg` and `writeReg` receive their block by value, so that what they append is lost at every
call site, while all other functions share the block.  `LiftContext.passing` keeps both readings
apart: `Passing.byValue` is the code as written and `Passing.byReference` the one in which what they
append is kept.

Two judgements about lifting actions are used in the following files.  `Emits` is about the text:
which registers the emitted code may define, and that it always runs.  `ExecutesTo` is about its
meaning: run from a given machine, it reaches one that satisfies a postcondition.
-/

namespace InstaX

open Throwing StraightLine

/-- How `readReg` and `writeReg` receive the block they append to. -/
inductive Passing where
  | byValue | byReference
  deriving DecidableEq, Repr

/-- What the lifter reads: the parameter passing of `readReg` and `writeReg`, the functions without
a body in the source, the symbols of the program and the labels of the function's blocks. -/
structure LiftContext where
  passing : Passing
  destWidth : ZydisDecodedOperand → ZydisDecodedOperand → IRType
  typeFromEncodedSize : ℕ → IRType
  symbolAt : U64 → String
  blockNames : U64 → Option String
  zydisRegisterGetString : ZydisRegister → Option String

/-- The name of a register, for the printer. -/
def LiftContext.regName (ctx : LiftContext) (reg : ZydisRegister) : String :=
  (ctx.zydisRegisterGetString reg).getD "reg"

/-- The block under construction, the function's register counter and the recorded flags. -/
structure LiftState where
  block : IRBasicBlock
  nextVregId : ℕ := 20
  flagState : FlagState := {}
  deriving DecidableEq, Repr

/-- A lifting action. -/
abbrev LiftM (α : Type) := Prog LiftState α

namespace LiftState

/-- The state after `n` temporaries were taken and code was appended. -/
def emit (s : LiftState) (n : ℕ) (is : List IRInst) : LiftState :=
  { s with block := s.block.append is, nextVregId := s.nextVregId + n }

/-- The block does not end with a terminator. -/
def Open (s : LiftState) : Prop := s.block.isTerminated = false

@[simp] lemma emit_block (s : LiftState) (n : ℕ) (is : List IRInst) :
    (s.emit n is).block = s.block.append is := rfl

@[simp] lemma emit_nextVregId (s : LiftState) (n : ℕ) (is : List IRInst) :
    (s.emit n is).nextVregId = s.nextVregId + n := rfl

@[simp] lemma emit_flagState (s : LiftState) (n : ℕ) (is : List IRInst) :
    (s.emit n is).flagState = s.flagState := rfl

@[simp] lemma emit_emit (s : LiftState) (n k : ℕ) (is js : List IRInst) :
    (s.emit n is).emit k js = s.emit (n + k) (is ++ js) := by
  simp [emit, Nat.add_assoc]

/-- A block stays open while no terminator is appended. -/
lemma Open.emit {s : LiftState} (h : s.Open) (n : ℕ) {is : List IRInst}
    (his : ∀ i ∈ is, i.isTerminator = false) : (s.emit n is).Open :=
  IRBasicBlock.append_open h his

/-- A block that has grown by code without a terminator is open. -/
lemma Open.of_append {s s' : LiftState} (h : s.Open) {is : List IRInst}
    (hblock : s'.block = s.block.append is) (his : ∀ i ∈ is, i.isTerminator = false) : s'.Open := by
  rw [Open, hblock]
  exact IRBasicBlock.append_open h his

end LiftState

namespace FunctionLifter

/-- Take a temporary from the function's counter. -/
def newTemp : LiftM ℕ := do
  let s ← get
  set { s with nextVregId := s.nextVregId + 1 }
  return s.nextVregId

/-- Append an instruction to the block. -/
def pushInst (i : IRInst) : LiftM Unit := do
  let s ← get
  match s.block.pushInst i with
  | .ok b => set { s with block := b }
  | .error err => throw err

/-- Record a flag-setting instruction. -/
def setFlags (op : FlagOp) (result lhs rhs : IRValue) (ty : IRType) : LiftM Unit :=
  modify fun s => { s with flagState := s.flagState.set op result lhs rhs ty }

/-- Forget the recorded flags. -/
def invalidateFlags : LiftM Unit :=
  modify fun s => { s with flagState := s.flagState.invalidate }

/-- Call a function that takes the block as an argument of its own. -/
def withBlockArg {α : Type} (ctx : LiftContext) (body : LiftM α) : LiftM α :=
  match ctx.passing with
  | .byReference => body
  | .byValue => do
      let b := (← get).block
      let a ← body
      modify fun s => { s with block := b }
      return a

/-- A new temporary takes one id. -/
@[simp] lemma run_newTemp (s : LiftState) :
    newTemp.run s = .ok s.nextVregId (s.emit 1 []) := by
  simp [newTemp, LiftState.emit]

/-- Pushing into an open block emits the instruction. -/
lemma run_pushInst {s : LiftState} (h : s.Open) (i : IRInst) :
    (pushInst i).run s = .ok () (s.emit 0 [i]) := by
  simp [pushInst, IRBasicBlock.pushInst_of_open h, LiftState.emit]

/-- With passing by reference the block argument is the block. -/
lemma withBlockArg_byReference {α : Type} {ctx : LiftContext} (h : ctx.passing = .byReference)
    (body : LiftM α) : withBlockArg ctx body = body := by
  simp [withBlockArg, h]

/-- What a function appends to its own copy of the block is lost. -/
lemma run_withBlockArg_byValue {α : Type} {ctx : LiftContext}
    (hpass : ctx.passing = .byValue) {body : LiftM α} {a : α} {s t : LiftState}
    (h : body.run s = .ok a t) :
    (withBlockArg ctx body).run s = .ok a { t with block := s.block } := by
  have hget : (get : LiftM LiftState).run s = .ok s s := rfl
  simp only [withBlockArg, hpass]
  rw [run_bind_of_ok hget, run_bind_of_ok h]
  rfl

/-- Take a temporary and append the instruction that defines it. -/
lemma run_define {α : Type} {s : LiftState} (h : s.Open) {inst : ℕ → IRInst} {f : ℕ → LiftM α} :
    (do let id ← newTemp; pushInst (inst id); f id).run s =
      (f s.nextVregId).run (s.emit 1 [inst s.nextVregId]) := by
  rw [run_bind_of_ok (run_newTemp s), run_bind_of_ok (run_pushInst (h.emit 1 (by simp)) _)]
  simp

/-- Two temporaries, taken one after the other and then defined in the same order. -/
lemma run_defineTwo {α : Type} {s : LiftState} {inst inst' : ℕ → IRInst} {f : ℕ → ℕ → LiftM α}
    (hs : s.Open) (hterm : ∀ id, (inst id).isTerminator = false) :
    (do
      let q ← newTemp
      let r ← newTemp
      pushInst (inst q)
      pushInst (inst' r)
      f q r).run s =
      (f s.nextVregId (s.nextVregId + 1)).run
        (s.emit 2 [inst s.nextVregId, inst' (s.nextVregId + 1)]) := by
  have hopen₁ : (s.emit 1 []).Open := hs.emit 1 (by simp)
  have hopen₂ : ((s.emit 1 []).emit 1 []).Open := hopen₁.emit 1 (by simp)
  have hopen₃ : (((s.emit 1 []).emit 1 []).emit 0 [inst s.nextVregId]).Open :=
    hopen₂.emit 0 (by simp [hterm])
  rw [run_bind_of_ok (run_newTemp s), run_bind_of_ok (run_newTemp _),
    run_bind_of_ok (run_pushInst hopen₂ _), run_bind_of_ok (run_pushInst hopen₃ _)]
  simp

end FunctionLifter

/-! ## Emitted code: text -/

/-- An instruction that ends no block, always steps, and defines registers of `S` only. -/
structure IRInst.Plain (S : Set ℕ) (i : IRInst) : Prop where
  isTerminator : i.isTerminator = false
  exists_step : ∀ m, ∃ m', i.step m = some m'
  defines : ∀ id, i.defines id → id ∈ S

lemma IRInst.Plain.mono {S T : Set ℕ} {i : IRInst} (h : i.Plain S) (hST : S ⊆ T) : i.Plain T :=
  ⟨h.isTerminator, h.exists_step, fun id hid => hST (h.defines id hid)⟩

namespace FunctionLifter

variable {α β : Type} {act : LiftM α} {s : LiftState} {m : Machine}

/-- The action returns, appends plain code that defines registers of `S` only, gives no temporary
back and leaves the recorded flags alone; its value satisfies `P` in the new state. -/
def Emits (act : LiftM α) (s : LiftState) (S : Set ℕ) (P : α → LiftState → Prop) : Prop :=
  ∃ a s' is, act.run s = .ok a s' ∧ s'.block = s.block.append is ∧ (∀ i ∈ is, i.Plain S) ∧
    s.nextVregId ≤ s'.nextVregId ∧ s'.flagState = s.flagState ∧ P a s'

namespace Emits

variable {S : Set ℕ} {P : α → LiftState → Prop}

/-- Returning emits nothing. -/
lemma pure {a : α} (h : P a s) : Emits (pure a) s S P :=
  ⟨a, s, [], rfl, by simp, by simp, le_rfl, rfl, h⟩

/-- Emitted code composes. -/
lemma bind {f : α → LiftM β} {Q : β → LiftState → Prop} (hs : s.Open) (h : Emits act s S P)
    (hf : ∀ a s', s'.Open → s.nextVregId ≤ s'.nextVregId → P a s' → Emits (f a) s' S Q) :
    Emits (act >>= f) s S Q := by
  obtain ⟨a, s', is, hrun, hblock, his, hnext, hflags, hP⟩ := h
  have hs' : s'.Open := hs.of_append hblock fun i hi => (his i hi).isTerminator
  obtain ⟨b, s'', js, hrun', hblock', hjs, hnext', hflags', hQ⟩ := hf a s' hs' hnext hP
  refine ⟨b, s'', is ++ js, by rw [run_bind_of_ok hrun, hrun'], ?_, ?_, hnext.trans hnext',
    hflags'.trans hflags, hQ⟩
  · rw [hblock', hblock, IRBasicBlock.append_append]
  · exact fun i hi => (List.mem_append.mp hi).elim (his i) (hjs i)

/-- Appending one plain instruction. -/
lemma pushInst {i : IRInst} (hs : s.Open) (hi : i.Plain S) :
    Emits (pushInst i) s S fun _ _ => True :=
  ⟨(), s.emit 0 [i], [i], run_pushInst hs i, rfl, by simpa using hi, by simp, rfl, trivial⟩

/-- Taking a temporary and appending the instruction that defines it. -/
lemma define {inst : ℕ → IRInst} {f : ℕ → LiftM β} {Q : β → LiftState → Prop} (hs : s.Open)
    (hi : (inst s.nextVregId).Plain S)
    (hf : ∀ s', s'.Open → s.nextVregId < s'.nextVregId → Emits (f s.nextVregId) s' S Q) :
    Emits (do let id ← newTemp; FunctionLifter.pushInst (inst id); f id) s S Q := by
  have hs' : (s.emit 1 [inst s.nextVregId]).Open := hs.emit 1 (by simpa using hi.isTerminator)
  obtain ⟨b, s'', js, hrun', hblock', hjs, hnext', hflags', hQ⟩ := hf _ hs' (by simp)
  refine ⟨b, s'', inst s.nextVregId :: js, by rw [run_define hs, hrun'], ?_, ?_, ?_,
    hflags', hQ⟩
  · rw [hblock', LiftState.emit_block, IRBasicBlock.append_append, List.singleton_append]
  · exact List.forall_mem_cons.mpr ⟨hi, hjs⟩
  · exact (Nat.le_succ _).trans hnext'

end Emits

/-! ## Emitted code: meaning -/

/-- The code that `act` emits from the state `s` ends no block, and run from the machine `m` it
reaches a machine that satisfies `Q` together with the returned value and the new state. -/
def ExecutesTo (act : LiftM α) (s : LiftState) (m : Machine)
    (Q : α → LiftState → Machine → Prop) : Prop :=
  ∃ a s' is, act.run s = .ok a s' ∧ s'.block = s.block.append is ∧
    (∀ i ∈ is, i.isTerminator = false) ∧
    ∃ m', run IRInst.step is m = some m' ∧ Q a s' m'

/-- Returning emits nothing. -/
lemma ExecutesTo.pure {a : α} {Q : α → LiftState → Machine → Prop} (h : Q a s m) :
    ExecutesTo (pure a) s m Q :=
  ⟨a, s, [], rfl, by simp, by simp, m, rfl, h⟩

/-- Emitted code composes. -/
lemma ExecutesTo.bind {f : α → LiftM β} {Q : α → LiftState → Machine → Prop}
    {R : β → LiftState → Machine → Prop} (hs : s.Open) (h : ExecutesTo act s m Q)
    (hf : ∀ a s' m', s'.Open → Q a s' m' → ExecutesTo (f a) s' m' R) :
    ExecutesTo (act >>= f) s m R := by
  obtain ⟨a, s', is, hrun, hblock, hterm, m', hm', hQ⟩ := h
  have hs' : s'.Open := hs.of_append hblock hterm
  obtain ⟨b, s'', js, hrun', hblock', hterm', m'', hm'', hR⟩ := hf a s' m' hs' hQ
  refine ⟨b, s'', is ++ js, by rw [run_bind_of_ok hrun, hrun'], ?_, ?_, m'', ?_, hR⟩
  · rw [hblock', hblock, IRBasicBlock.append_append]
  · exact fun i hi => (List.mem_append.mp hi).elim (hterm i) (hterm' i)
  · exact run_append_of_eq_some hm' hm''

/-- Taking a temporary and appending the instruction that defines it. -/
lemma ExecutesTo.define {inst : ℕ → IRInst} {f : ℕ → LiftM β} {m' : Machine}
    {R : β → LiftState → Machine → Prop} (hs : s.Open)
    (hterm : (inst s.nextVregId).isTerminator = false)
    (hstep : (inst s.nextVregId).step m = some m')
    (hf : ExecutesTo (f s.nextVregId) (s.emit 1 [inst s.nextVregId]) m' R) :
    ExecutesTo (do let id ← newTemp; pushInst (inst id); f id) s m R := by
  obtain ⟨b, s'', js, hrun', hblock', hterm', m'', hm'', hR⟩ := hf
  refine ⟨b, s'', inst s.nextVregId :: js, by rw [run_define hs, hrun'], ?_, ?_, m'', ?_, hR⟩
  · rw [hblock', LiftState.emit_block, IRBasicBlock.append_append, List.singleton_append]
  · exact List.forall_mem_cons.mpr ⟨hterm, hterm'⟩
  · rw [run_cons, hstep]
    exact hm''

/-- Appending one instruction. -/
lemma ExecutesTo.pushInst {i : IRInst} {m' : Machine} {R : Unit → LiftState → Machine → Prop}
    (hs : s.Open) (hterm : i.isTerminator = false) (hstep : i.step m = some m')
    (hR : R () (s.emit 0 [i]) m') : ExecutesTo (pushInst i) s m R :=
  ⟨(), s.emit 0 [i], [i], run_pushInst hs i, rfl, by simpa using hterm, m', by simpa using hstep,
    hR⟩

/-- A weaker postcondition. -/
lemma ExecutesTo.mono {Q R : α → LiftState → Machine → Prop} (h : ExecutesTo act s m Q)
    (hQR : ∀ a s' m', Q a s' m' → R a s' m') : ExecutesTo act s m R := by
  obtain ⟨a, s', is, hrun, hblock, hterm, m', hm', hQ⟩ := h
  exact ⟨a, s', is, hrun, hblock, hterm, m', hm', hQR a s' m' hQ⟩

/-- Lifting and execution are deterministic: the postcondition holds of a given run. -/
lemma ExecutesTo.of_run {Q : α → LiftState → Machine → Prop} (h : ExecutesTo act s m Q) {a : α}
    {s' : LiftState} {is : List IRInst} {m' : Machine} (hrun : act.run s = .ok a s')
    (hblock : s'.block = s.block.append is) (hm : run IRInst.step is m = some m') : Q a s' m' := by
  obtain ⟨a₂, s₂, is₂, hrun₂, hblock₂, -, m₂, hm₂, hQ⟩ := h
  obtain ⟨rfl, rfl⟩ : a₂ = a ∧ s₂ = s' := by simpa [hrun] using hrun₂.symm
  obtain rfl : is₂ = is := by
    simpa using congrArg IRBasicBlock.instructions (hblock₂.symm.trans hblock)
  obtain rfl : m₂ = m' := by simpa [hm] using hm₂.symm
  exact hQ

/-- What an action executes to depends on its run. -/
lemma ExecutesTo.of_run_eq {act' : LiftM α} {Q : α → LiftState → Machine → Prop}
    (hrun : act.run s = act'.run s) (h : ExecutesTo act' s m Q) : ExecutesTo act s m Q := by
  obtain ⟨a, s', is, hrun', h'⟩ := h
  exact ⟨a, s', is, hrun.trans hrun', h'⟩

/-- Two postconditions hold together. -/
lemma ExecutesTo.and {Q R : α → LiftState → Machine → Prop} (h : ExecutesTo act s m Q)
    (h' : ExecutesTo act s m R) : ∃ a s' m', Q a s' m' ∧ R a s' m' := by
  obtain ⟨a, s', is, hrun, hblock, -, m', hm', hQ⟩ := h
  exact ⟨a, s', m', hQ, h'.of_run hrun hblock hm'⟩

end FunctionLifter

end InstaX
