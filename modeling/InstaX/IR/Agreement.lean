import Mathlib.Computability.StateTransition
import InstaX.Foundation.Agreement
import InstaX.IR.Execution

/-!
# Functions that keep nothing in temporaries

A block may read registers that other blocks have left.  If every block of a function defines what
it reads, apart from a set of known registers, then the other registers carry nothing from one block
to the next: machines that agree on the known registers, on memory and on symbols go through the
same labels (`respects_step`).
-/

namespace InstaX

open RegisterCode StraightLine StateTransition

namespace Machine

/-- The machines agree on the registers of `S`, on memory and on symbols. -/
structure Agree (S : Set ℕ) (m n : Machine) : Prop where
  regs : Set.EqOn m.regs n.regs S
  mem : m.mem = n.mem
  symbols : m.symbols = n.symbols

namespace Agree

variable {S T : Set ℕ} {m n : Machine}

lemma mono (h : Agree T m n) (hST : S ⊆ T) : Agree S m n := ⟨h.regs.mono hST, h.mem, h.symbols⟩

/-- An operand that reads registers of the set has one value. -/
lemma eval_eq (h : Agree S m n) {v : IRValue} (hv : ∀ id, v.vregId? = some id → id ∈ S)
    (ty : IRType) :
    m.eval ty v = n.eval ty v := by
  have hcontent : m.content v.payload = n.content v.payload := by
    rcases hp : v.payload with r | x | name
    · exact h.regs (hv r.id (by simp [IRValue.vregId?, hp]))
    · rfl
    · simp [content, h.symbols]
  rw [eval, eval, hcontent]

/-- They load the same bytes. -/
lemma loadBytes_eq (h : Agree S m n) (addr : U64) (w k : ℕ) :
    m.loadBytes addr w k = n.loadBytes addr w k := by
  induction k generalizing addr with
  | zero => rfl
  | succ k ih => rw [loadBytes, loadBytes, h.mem, ih]

/-- They agree after the same store. -/
lemma storeBytes (h : Agree S m n) {w : ℕ} (addr : U64) (x : BitVec w) (k : ℕ) :
    Agree S (m.storeBytes addr x k) (n.storeBytes addr x k) := by
  induction k generalizing m n addr x with
  | zero => exact h
  | succ k ih =>
    rw [Machine.storeBytes, Machine.storeBytes]
    apply ih
    exact ⟨h.regs, by rw [h.mem], h.symbols⟩

/-- They agree on a register that both set, too. -/
lemma set (h : Agree S m n) {w : ℕ} (id : ℕ) (x : BitVec w) :
    Agree (S ∪ {r | r = id}) (m.set id x) (n.set id x) := by
  refine ⟨fun r hr => ?_, h.mem, h.symbols⟩
  by_cases hid : r = id
  · rw [hid, set_regs_self, set_regs_self]
  · rw [set_regs_of_ne _ _ hid, set_regs_of_ne _ _ hid]
    exact h.regs (hr.resolve_right hid)

end Agree

end Machine

namespace IRInst

/-- An instruction depends on the registers it reads, on memory and on symbols. -/
theorem dependsOnReads_step : DependsOnReads step Machine.Agree := by
  intro i S m n hreads h
  have heval : ∀ v ∈ i.operands, ∀ ty, m.eval ty v = n.eval ty v := fun v hv ty =>
    h.eval_eq (hreads v hv) ty
  have hvalue : i.value m = i.value n := by
    unfold value
    split <;> simp_all [h.loadBytes_eq]
  unfold step
  split
  · rename_i v p hop hdst hoperands
    rw [hoperands] at heval
    rw [heval p (by simp), heval v (by simp)]
    cases v.type.byteWidth with
    | none => exact .none
    | some k => exact .some ((h.storeBytes _ _ _).mono (by simp [destination, hdst]))
  · exact .some (h.mono (by simp_all [destination]))
  · rename_i d hdst
    rw [hvalue]
    cases i.value n with
    | none => exact .none
    | some x =>
      refine .some ((h.set d.id x).mono ?_)
      simp [destination, hdst, eq_comm]
  · exact .none

/-- A branch goes to the same label if the machines agree on what it reads. -/
lemma branchLabel_eq {i : IRInst} {S : Set ℕ} {m n : Machine} (h : m.Agree S n)
    (hreads : ∀ v ∈ i.operands, ∀ id, v.vregId? = some id → id ∈ S) :
    i.branchLabel m = i.branchLabel n := by
  unfold branchLabel
  split
  · rfl
  · rename_i cond hop hoperands
    rw [h.eval_eq (hreads cond (by simp [hoperands]))]
  · rfl

end IRInst

namespace IRFunction

variable {fn : IRFunction} {known : Set ℕ} {label label' : String} {m m' n : Machine}

/-- Every block defines what it reads, apart from the known registers. -/
def DefinesReads (known : Set ℕ) (fn : IRFunction) : Prop :=
  ∀ b ∈ fn.blocks, DefinedBeforeUse known b.instructions

/-- At one label, with machines that agree on the known registers. -/
def AgreeAt (known : Set ℕ) (c d : String × Machine) : Prop := c.1 = d.1 ∧ c.2.Agree known d.2

/-- Then the block is left on both sides or on none, for one label and in agreement. -/
theorem step_agree (hfn : fn.DefinesReads known) (h : m.Agree known n) :
    Option.Rel (AgreeAt known) (fn.step (label, m)) (fn.step (label, n)) := by
  unfold step
  dsimp only
  cases hfind : fn.findBlock label with
  | none => exact .none
  | some b =>
    have hdef := hfn b (List.mem_of_find?_eq_some hfind)
    rcases List.eq_nil_or_concat b.instructions with hnil | ⟨code, branch, hcode⟩
    · simp only [Option.bind_eq_bind, Option.bind_some, hnil]
      exact .none
    · rw [List.concat_eq_append] at hcode
      rw [hcode] at hdef
      obtain ⟨hcodeDef, hbranchDef⟩ := definedBeforeUse_concat.mp hdef
      have hrun := run_agree IRInst.dependsOnReads_step hcodeDef h
      simp only [Option.bind_eq_bind, Option.bind_some, hcode, List.getLast?_concat,
        List.dropLast_concat]
      cases hm : run IRInst.step code m with
      | none =>
        cases hn : run IRInst.step code n with
        | none => exact .none
        | some n' => simp [hm, hn] at hrun
      | some m' =>
        cases hn : run IRInst.step code n with
        | none => simp [hm, hn] at hrun
        | some n' =>
          have hagree : m'.Agree (availableAfter known code) n' := by simpa [hm, hn] using hrun
          rw [Option.bind_some, Option.bind_some, IRInst.branchLabel_eq hagree hbranchDef]
          cases branch.branchLabel n' with
          | none => exact .none
          | some l => exact .some ⟨rfl, hagree.mono fun r hr => Or.inl hr⟩

/-- Agreement is a simulation of the function by itself. -/
theorem respects_step (hfn : fn.DefinesReads known) : Respects fn.step fn.step (AgreeAt known) := by
  rintro ⟨label, m⟩ ⟨label', n⟩ ⟨hlabel, h⟩
  obtain rfl : label = label' := hlabel
  have hstep := @step_agree fn known label m n hfn h
  cases hm : fn.step (label, m) with
  | none =>
    cases hn : fn.step (label, n) with
    | none => rfl
    | some d => simp [hm, hn] at hstep
  | some c =>
    cases hn : fn.step (label, n) with
    | none => simp [hm, hn] at hstep
    | some d =>
      rw [hm, hn, Option.rel_some_some] at hstep
      exact ⟨d, hstep, .single hn⟩

end IRFunction

end InstaX
