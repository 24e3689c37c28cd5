import Mathlib.Computability.StateTransition

/-!
# Simulation between cut points

One machine takes small steps, the other takes one step for a whole segment of them.  The two agree
at the cut points of the first: a relation between states holds there, and a segment, which passes
no cut point on its way, leads from related states to related states.  Then every run of the small
steps that ends at a cut point is matched (`Simulation.reaches`), every run of the large steps comes
from one (`Simulation.reaches_back`), and one machine stops if the other one does
(`Simulation.stops_iff`).

Runs are those of `StateTransition.Reaches`.
-/

namespace CutPoints

open StateTransition

variable {S T : Type*}

/-- Follow the machine where the predicate holds, and stop elsewhere. -/
def restrict (P : S → Prop) [DecidablePred P] (f : S → Option S) (a : S) : Option S :=
  if P a then f a else none

section Restrict

variable {P : S → Prop} [DecidablePred P] {f : S → Option S} {a b : S}

lemma restrict_of_pos (h : P a) : restrict P f a = f a := if_pos h

lemma restrict_of_neg (h : ¬ P a) : restrict P f a = none := if_neg h

/-- A step that is followed is a step. -/
lemma restrict_eq_some_iff : restrict P f a = some b ↔ P a ∧ f a = some b := by
  unfold restrict
  split_ifs with h <;> simp [h]

/-- A run that is followed is a run. -/
lemma reaches_of_restrict (h : Reaches (restrict P f) a b) : Reaches f a b :=
  Relation.ReflTransGen.mono (fun _ _ hstep => (restrict_eq_some_iff.mp hstep).2) _ _ h

end Restrict

/-- Some number of steps is a run. -/
lemma reaches_of_iterate {f : S → Option S} {a b : S} (n : ℕ)
    (h : (fun o : Option S => o.bind f)^[n] (some a) = some b) : Reaches f a b := by
  induction n generalizing b with
  | zero =>
    obtain rfl : a = b := Option.some_inj.mp h
    exact Relation.ReflTransGen.refl
  | succ n ih =>
    rw [Function.iterate_succ_apply'] at h
    obtain ⟨c, hc, hstep⟩ := Option.bind_eq_some_iff.mp h
    exact Relation.ReflTransGen.tail (ih hc) hstep

/-- A run of at least one step that passes no cut point on its way. -/
inductive Segment (f : S → Option S) (cut : S → Prop) : S → S → Prop
  | last {a b : S} (h : f a = some b) : Segment f cut a b
  | step {a b c : S} (h : f a = some b) (hb : ¬ cut b) (hrest : Segment f cut b c) :
      Segment f cut a c

variable {f : S → Option S} {g : T → Option T} {cut : S → Prop} {R : S → T → Prop} {a a' : S}
  {b b' : T}

/-- A segment is a run. -/
lemma Segment.reaches (h : Segment f cut a a') : Reaches f a a' := by
  induction h with
  | last h => exact Relation.ReflTransGen.single h
  | step h _ _ ih => exact Relation.ReflTransGen.head h ih

/-- A segment begins with a step. -/
lemma Segment.exists_step (h : Segment f cut a a') : ∃ c, f a = some c := by
  cases h with
  | last h => exact ⟨_, h⟩
  | step h => exact ⟨_, h⟩

/-- After its first step a segment is over, or it goes on behind a state that is no cut point. -/
lemma Segment.after_step (h : Segment f cut a a') {c : S} (hc : f a = some c) :
    c = a' ∨ ¬ cut c ∧ Segment f cut c a' := by
  cases h with
  | last h => exact Or.inl (Option.some_inj.mp (hc.symm.trans h))
  | step h hcut hrest =>
    obtain rfl := Option.some_inj.mp (hc.symm.trans h)
    exact Or.inr ⟨hcut, hrest⟩

/-- Related states are cut points, and both machines stop there or go on, the first one by a segment
and the second one by a step, to related states. -/
structure Simulation (f : S → Option S) (cut : S → Prop) (g : T → Option T) (R : S → T → Prop) :
    Prop where
  isCut {a : S} {b : T} (h : R a b) : cut a
  next {a : S} {b : T} (h : R a b) : (f a = none ∧ g b = none) ∨
    ∃ a' b', Segment f cut a a' ∧ g b = some b' ∧ R a' b'

namespace Simulation

variable (h : Simulation f cut g R)

include h

/-- What a property of a run says of the states of the second machine, both where the run starts at
a related state and where it starts within a segment that leads to one. -/
private lemma induct {P : T → Prop} (hback : ∀ b b', g b = some b' → P b' → P b) {c : S}
    (hend : ∀ b, R c b → P b) (hinside : ∀ a', Segment f cut c a' → ¬ cut c → ∀ b', R a' b' → P b')
    (hrun : Reaches f a c) :
    (∀ b, R a b → P b) ∧ ∀ a', Segment f cut a a' → ¬ cut a → ∀ b', R a' b' → P b' := by
  induction hrun using Relation.ReflTransGen.head_induction_on with
  | refl => exact ⟨hend, hinside⟩
  | @head a a₁ hstep _ ih =>
    -- where a segment leads after its first step
    have hafter : ∀ a', Segment f cut a a' → ∀ b', R a' b' → P b' := by
      intro a' hseg b' hb'
      rcases hseg.after_step hstep with rfl | ⟨hcut, hrest⟩
      · exact ih.1 b' hb'
      · exact ih.2 a' hrest hcut b' hb'
    refine ⟨fun b hb => ?_, fun a' hseg _ => hafter a' hseg⟩
    rcases h.next hb with ⟨hnone, -⟩ | ⟨a', b', hseg, hg, hb'⟩
    · cases hnone.symm.trans hstep
    · exact hback b b' hg (hafter a' hseg b' hb')

/-- Every run of the first machine that ends at a cut point is matched by the second one. -/
theorem reaches (hR : R a b) (hrun : Reaches f a a') (hcut : cut a') :
    ∃ b', Reaches g b b' ∧ R a' b' := by
  refine (h.induct (P := fun b => ∃ b', Reaches g b b' ∧ R a' b') ?_
    (fun b hb => ?_) ?_ hrun).1 b hR
  · rintro b b₁ hg ⟨b', hreach, hb'⟩
    exact ⟨b', Relation.ReflTransGen.head hg hreach, hb'⟩
  · exact ⟨b, Relation.ReflTransGen.refl, hb⟩
  · exact fun _ _ hnot => absurd hcut hnot

/-- Every run of the second machine comes from one of the first. -/
theorem reaches_back (hR : R a b) (hrun : Reaches g b b') : ∃ a', Reaches f a a' ∧ R a' b' := by
  induction hrun using Relation.ReflTransGen.head_induction_on generalizing a with
  | refl => exact ⟨a, Relation.ReflTransGen.refl, hR⟩
  | head hstep _ ih =>
    rcases h.next hR with ⟨-, hnone⟩ | ⟨a₁, b₁, hseg, hg, hR₁⟩
    · cases hnone.symm.trans hstep
    · obtain rfl := Option.some_inj.mp (hg.symm.trans hstep)
      obtain ⟨a', hreach, ha'⟩ := ih hR₁
      exact ⟨a', hseg.reaches.trans hreach, ha'⟩

/-- One machine stops exactly if the other one does. -/
theorem stops_iff (hR : R a b) :
    (∃ a', Reaches f a a' ∧ f a' = none) ↔ ∃ b', Reaches g b b' ∧ g b' = none := by
  constructor
  · rintro ⟨c, hrun, hstop⟩
    have hnot : ∀ a', ¬ Segment f cut c a' := by
      intro a' hseg
      obtain ⟨d, hd⟩ := hseg.exists_step
      cases hstop.symm.trans hd
    refine (h.induct (P := fun b => ∃ b', Reaches g b b' ∧ g b' = none) ?_ (fun b hb => ?_)
      (fun a' hseg => absurd hseg (hnot a')) hrun).1 b hR
    · rintro b b₁ hg ⟨b', hreach, hb'⟩
      exact ⟨b', Relation.ReflTransGen.head hg hreach, hb'⟩
    · rcases h.next hb with ⟨-, hnone⟩ | ⟨a', -, hseg, -⟩
      · exact ⟨b, Relation.ReflTransGen.refl, hnone⟩
      · exact absurd hseg (hnot a')
  · rintro ⟨b', hrun, hstop⟩
    obtain ⟨a', hreach, ha'⟩ := h.reaches_back hR hrun
    rcases h.next ha' with ⟨hnone, -⟩ | ⟨_, _, -, hg, -⟩
    · exact ⟨a', hreach, hnone⟩
    · cases hstop.symm.trans hg

end Simulation

end CutPoints
