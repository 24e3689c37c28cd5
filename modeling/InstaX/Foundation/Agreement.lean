import Mathlib.Data.List.Induction
import InstaX.Foundation.RegisterCode
import InstaX.Foundation.StraightLine

/-!
# Machines that agree on some registers

Two machines run the same code.  If a step of an instruction depends on nothing but the registers
that the instruction reads and on what the machines have in common (`DependsOnReads`), then code
that is defined before use keeps machines together that agree on the registers known beforehand:
either both are stuck, or both run and agree on all registers that are available then (`run_agree`).
-/

namespace RegisterCode

open StraightLine

variable {I O R M : Type*} [RegisterCode I O R] {step : I → M → Option M}
  {agree : Set R → M → M → Prop}
  {known : Set R} {is : List I} {m n : M}

/-- Machines that agree on the registers an instruction reads are stuck together, or both step and
then agree on the destination, too. -/
def DependsOnReads (step : I → M → Option M) (agree : Set R → M → M → Prop) : Prop :=
  ∀ ⦃i S m n⦄, (∀ v ∈ RegisterCode.operands i, ∀ r, register I v = some r → r ∈ S) → agree S m n →
    Option.Rel (agree (S ∪ {r | destination i = some r})) (step i m) (step i n)

/-- The registers that are available behind code. -/
def availableAfter (known : Set R) (is : List I) : Set R := {r | Available known is r}

@[simp] lemma availableAfter_nil : availableAfter known ([] : List I) = known := by
  ext r
  simp [availableAfter, Available]

/-- One more instruction makes its destination available. -/
lemma availableAfter_concat (i : I) :
    availableAfter known (is ++ [i]) = availableAfter known is ∪ {r | destination i = some r} := by
  ext r
  simp [availableAfter, available_append]

/-- Code that is defined before use runs on both machines or on none, and keeps them in
agreement. -/
theorem run_agree (h : DependsOnReads step agree) (hdef : DefinedBeforeUse known is)
    (hagree : agree known m n) :
    Option.Rel (agree (availableAfter known is)) (run step is m) (run step is n) := by
  induction is using List.reverseRecOn with
  | nil => simpa using hagree
  | append_singleton is i ih =>
    obtain ⟨his, hi⟩ := definedBeforeUse_concat.mp hdef
    rw [run_append, run_append, availableAfter_concat]
    cases hm : run step is m with
    | none =>
      cases hn : run step is n with
      | none => exact .none
      | some n' => simpa [hm, hn] using ih his
    | some m' =>
      cases hn : run step is n with
      | none => simpa [hm, hn] using ih his
      | some n' =>
        have hprefix : agree (availableAfter known is) m' n' := by simpa [hm, hn] using ih his
        rw [Option.bind_some, Option.bind_some, run_singleton, run_singleton]
        exact h hi hprefix

end RegisterCode
