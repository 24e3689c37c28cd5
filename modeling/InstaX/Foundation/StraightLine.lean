import Mathlib.Tactic.Lemma
import Mathlib.Tactic.TypeStar

/-!
# Straight-line runs

A straight-line program is a list of instructions executed one after the other by a partial step
function; a run is defined when every step is.  The rules here are the ones a proof about such a
program uses: runs compose (`run_append`), a relation that every step respects holds between the
ends of a run (`run_rel`), instructions that always step make a run defined (`exists_run`), and an
undefined run comes to an instruction without a step (`run_eq_none_iff`).
-/

namespace StraightLine

variable {I M : Type*} {step : I → M → Option M}

/-- Run a list of instructions; undefined as soon as one step is. -/
def run (step : I → M → Option M) : List I → M → Option M
  | [], m => some m
  | i :: is, m => (step i m).bind (run step is)

/-- The empty program changes nothing. -/
@[simp] lemma run_nil (m : M) : run step [] m = some m := rfl

/-- A program runs its first instruction and then the others. -/
lemma run_cons (i : I) (is : List I) (m : M) :
    run step (i :: is) m = (step i m).bind (run step is) := rfl

/-- A one-instruction program is its step. -/
@[simp] lemma run_singleton (i : I) (m : M) : run step [i] m = step i m := by
  rw [run_cons]
  cases step i m <;> rfl

/-- Runs compose. -/
lemma run_append (is js : List I) (m : M) :
    run step (is ++ js) m = (run step is m).bind (run step js) := by
  induction is generalizing m with
  | nil => rfl
  | cons i is ih =>
    rw [List.cons_append, run_cons, run_cons]
    cases step i m with
    | none => rfl
    | some m' => exact ih m'

/-- Two defined runs, one after the other, are a run of the concatenation. -/
lemma run_append_of_eq_some {is js : List I} {m m' m'' : M} (his : run step is m = some m')
    (hjs : run step js m' = some m'') : run step (is ++ js) m = some m'' := by
  rw [run_append, his]
  exact hjs

/-- What every step relates, a run relates. -/
lemma run_rel {R : M → M → Prop} (hrefl : ∀ m, R m m)
    (htrans : ∀ m m' m'', R m m' → R m' m'' → R m m'') {is : List I}
    (hstep : ∀ i ∈ is, ∀ m m', step i m = some m' → R m m') {m m' : M}
    (hrun : run step is m = some m') : R m m' := by
  induction is generalizing m with
  | nil =>
    obtain rfl : m = m' := by simpa using hrun
    exact hrefl m
  | cons i is ih =>
    rw [run_cons, Option.bind_eq_some_iff] at hrun
    obtain ⟨m₁, hi, his⟩ := hrun
    exact htrans m m₁ m' (hstep i List.mem_cons_self m m₁ hi)
      (ih (fun j hj => hstep j (List.mem_cons_of_mem _ hj)) his)

/-- A program whose instructions always step always runs. -/
lemma exists_run {is : List I} (hstep : ∀ i ∈ is, ∀ m, ∃ m', step i m = some m') (m : M) :
    ∃ m', run step is m = some m' := by
  induction is generalizing m with
  | nil => exact ⟨m, rfl⟩
  | cons i is ih =>
    obtain ⟨m₁, hi⟩ := hstep i List.mem_cons_self m
    obtain ⟨m', his⟩ := ih (fun j hj => hstep j (List.mem_cons_of_mem _ hj)) m₁
    exact ⟨m', by rw [run_cons, hi]; exact his⟩

/-- A program is undefined where one of its instructions is. -/
lemma run_eq_none_iff {is : List I} {m : M} : run step is m = none ↔
    ∃ before i after m', is = before ++ i :: after ∧ run step before m = some m' ∧
      step i m' = none := by
  constructor
  · intro h
    induction is generalizing m with
    | nil => cases h
    | cons i is ih =>
      rw [run_cons] at h
      cases hstep : step i m with
      | none => exact ⟨[], i, is, m, rfl, rfl, hstep⟩
      | some m₁ =>
        rw [hstep] at h
        obtain ⟨before, j, after, m', rfl, hbefore, hj⟩ := ih h
        exact ⟨i :: before, j, after, m', rfl, by rw [run_cons, hstep]; exact hbefore, hj⟩
  · rintro ⟨before, i, after, m', rfl, hbefore, hi⟩
    rw [run_append, hbefore, Option.bind_some, run_cons, hi, Option.bind_none]

end StraightLine
