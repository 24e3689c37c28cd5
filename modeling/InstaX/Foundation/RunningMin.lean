import Mathlib.Data.List.Basic
import Mathlib.Order.Bounds.Defs

/-!
# A running minimum that marks the start by a value

A loop keeps the least value that it has seen, and starts from a value `unset` that stands for "none
yet".  If `unset` is itself the least value, then seeing it starts the loop over
(`run_append_unset`): the loop ends with the minimum of what comes behind the last `unset`.  Hence
it ends with the minimum of all exactly if `unset` does not occur or comes last (`isLeast_run_iff`).
-/

namespace RunningMin

variable {α : Type*}

/-- A value in a list has a last occurrence. -/
lemma exists_append_cons_not_mem {x : α} {xs : List α} (hx : x ∈ xs) :
    ∃ ys zs, xs = ys ++ x :: zs ∧ x ∉ zs := by
  obtain ⟨ys, zs, heq, hys⟩ := List.eq_append_cons_of_mem (List.mem_reverse.mpr hx)
  refine ⟨zs.reverse, ys.reverse, ?_, List.mem_reverse.not.mpr hys⟩
  simpa using congrArg List.reverse heq

variable [LT α] [DecidableLT α] [DecidableEq α] {unset : α}

/-- Take the value, if there is none yet or it is less. -/
def update (unset acc x : α) : α := if acc = unset ∨ x < acc then x else acc

/-- The value after the loop. -/
def run (unset : α) (xs : List α) : α := xs.foldl (update unset) unset

@[simp] lemma update_unset (x : α) : update unset unset x = x := by simp [update]

@[simp] lemma run_nil : run unset [] = unset := rfl

lemma run_cons (x : α) (xs : List α) : run unset (x :: xs) = xs.foldl (update unset) x := by
  rw [run, List.foldl_cons, update_unset]

variable [LE α] [Std.IsLinearOrder α] [Std.LawfulOrderLT α]

/-- Once a value is taken and no `unset` follows, the loop computes the minimum. -/
lemma isLeast_foldl_update {acc : α} {xs : List α} (hacc : acc ≠ unset) (hxs : unset ∉ xs) :
    IsLeast {x | x ∈ acc :: xs} (xs.foldl (update unset) acc) := by
  induction xs generalizing acc with
  | nil =>
    refine ⟨List.mem_cons_self, fun x hx => ?_⟩
    rw [List.mem_singleton.mp hx]
    exact Std.le_refl acc
  | cons y xs ih =>
    obtain ⟨hy, hxs⟩ := not_or.mp (List.mem_cons.not.mp hxs)
    rw [List.foldl_cons, update]
    split_ifs with hlt
    · obtain ⟨hmem, hle⟩ := ih (Ne.symm hy) hxs
      have hlt : y < acc := hlt.resolve_left hacc
      refine ⟨List.mem_cons_of_mem _ hmem, fun x hx => ?_⟩
      rcases List.mem_cons.mp hx with rfl | hx
      · exact Std.le_trans (hle List.mem_cons_self) (Std.le_of_lt hlt)
      · exact hle hx
    · obtain ⟨hmem, hle⟩ := ih hacc hxs
      have hle' : acc ≤ y := Std.not_lt.mp (not_or.mp hlt).2
      refine ⟨?_, fun x hx => ?_⟩
      · rcases List.mem_cons.mp hmem with heq | hmem
        · rw [heq]
          exact List.mem_cons_self
        · exact List.mem_cons_of_mem _ (List.mem_cons_of_mem _ hmem)
      · rcases List.mem_cons.mp hx with rfl | hx
        · exact hle List.mem_cons_self
        · rcases List.mem_cons.mp hx with rfl | hx
          · exact Std.le_trans (hle List.mem_cons_self) hle'
          · exact hle (List.mem_cons_of_mem _ hx)

/-- Without `unset` among the values, the loop ends with their minimum. -/
lemma isLeast_run_of_not_mem {xs : List α} (hne : xs ≠ []) (hxs : unset ∉ xs) :
    IsLeast {x | x ∈ xs} (run unset xs) := by
  cases xs with
  | nil => exact absurd rfl hne
  | cons x xs =>
    obtain ⟨hx, hxs⟩ := not_or.mp (List.mem_cons.not.mp hxs)
    rw [run_cons]
    exact isLeast_foldl_update (Ne.symm hx) hxs

/-- What comes before `unset` is forgotten. -/
lemma run_append_unset (hunset : ∀ x, unset ≤ x) (xs ys : List α) :
    run unset (xs ++ unset :: ys) = run unset ys := by
  have htake : ∀ acc, update unset acc unset = unset := by
    intro acc
    rw [update]
    split_ifs with h
    · rfl
    · obtain ⟨hne, hlt⟩ := not_or.mp h
      exact absurd (Std.le_antisymm (Std.not_lt.mp hlt) (hunset acc)) hne
  rw [run, List.foldl_append, List.foldl_cons, htake]
  rfl

/-- The loop ends with the minimum exactly if `unset` does not occur or comes last. -/
theorem isLeast_run_iff (hunset : ∀ x, unset ≤ x) {xs : List α} (hne : xs ≠ []) :
    IsLeast {x | x ∈ xs} (run unset xs) ↔ unset ∉ xs ∨ xs.getLast? = some unset := by
  by_cases hmem : unset ∈ xs
  · obtain ⟨ys, zs, rfl, hzs⟩ := exists_append_cons_not_mem hmem
    rw [run_append_unset hunset]
    by_cases hnil : zs = []
    · subst hnil
      exact iff_of_true ⟨hmem, fun x _ => hunset x⟩ (.inr List.getLast?_concat)
    · refine iff_of_false (fun hleast => ?_) ?_
      · have heq : run unset zs = unset := Std.le_antisymm (hleast.2 hmem) (hunset _)
        exact hzs (heq ▸ (isLeast_run_of_not_mem hnil hzs).1)
      · rintro (hnot | hlast)
        · exact hnot hmem
        · rw [List.getLast?_append, List.getLast?_cons, List.getLast?_eq_some_getLast hnil] at hlast
          have heq : zs.getLast hnil = unset := by simpa using hlast
          exact hzs (heq ▸ List.getLast_mem hnil)
  · exact iff_of_true (isLeast_run_of_not_mem hne hmem) (.inl hmem)

end RunningMin
