/-!
# Stateful programs that can throw

A program over a state `σ` either returns a value or throws, and in both cases leaves a state
behind: what was written before an exception stays written.  This is `EStateM` with exceptions in
the style of the C++ standard library.  The file gives the equations that run such programs and the
inversion lemmas that take a normal return apart (`run_bind_eq_ok_iff`, `run_forM_induction`).
-/

namespace Throwing

/-- The standard exception classes, each with its `what()` text. -/
inductive Exn where
  /-- `std::logic_error` -/
  | logicError (what : String)
  /-- `std::runtime_error` -/
  | runtimeError (what : String)
  /-- `std::out_of_range` -/
  | outOfRange (what : String)
  /-- `std::invalid_argument` -/
  | invalidArgument (what : String)
  deriving DecidableEq, Repr

/-- A `std::runtime_error`. -/
def Exn.IsRuntimeError (e : Exn) : Prop := ∃ what, e = .runtimeError what

/-- A program over the state `σ` that returns an `α` or throws. -/
abbrev Prog (σ α : Type) := EStateM Exn σ α

variable {σ α β : Type}

/-- The run from `s` ends normally. -/
def Returns (x : Prog σ α) (s : σ) : Prop := ∃ a t, x.run s = .ok a t

instance (x : Prog σ α) (s : σ) : Decidable (Returns x s) :=
  match h : x.run s with
  | .ok a t => .isTrue ⟨a, t, h⟩
  | .error _ _ => .isFalse fun ⟨_, _, h'⟩ => by cases h.symm.trans h'

/-- The run from `s` ends, normally or with an exception, in the state `t`. -/
def Leaves (x : Prog σ α) (s t : σ) : Prop := (∃ a, x.run s = .ok a t) ∨ ∃ e, x.run s = .error e t

/-- Every run ends. -/
theorem exists_leaves (x : Prog σ α) (s : σ) : ∃ t, Leaves x s t := by
  cases h : x.run s with
  | ok a t => exact ⟨t, Or.inl ⟨a, h⟩⟩
  | error e t => exact ⟨t, Or.inr ⟨e, h⟩⟩

/-- A run ends in one state. -/
theorem Leaves.unique {x : Prog σ α} {s t t' : σ} (h : Leaves x s t) (h' : Leaves x s t') :
    t = t' := by
  rcases h with ⟨a, hrun⟩ | ⟨e, hrun⟩
  · rcases h' with ⟨a', hrun'⟩ | ⟨e', hrun'⟩
    · exact (EStateM.Result.ok.inj (hrun.symm.trans hrun')).2
    · cases hrun.symm.trans hrun'
  · rcases h' with ⟨a', hrun'⟩ | ⟨e', hrun'⟩
    · cases hrun.symm.trans hrun'
    · exact (EStateM.Result.error.inj (hrun.symm.trans hrun')).2

/-- A run that returns leaves the state it returns in. -/
theorem Leaves.eq_of_ok {x : Prog σ α} {s s' t : σ} {a : α} (h : Leaves x s t)
    (hrun : x.run s = .ok a s') : t = s' :=
  h.unique (Or.inl ⟨a, hrun⟩)

/-- A run that throws leaves the state it throws in. -/
theorem Leaves.eq_of_error {x : Prog σ α} {s s' t : σ} {e : Exn} (h : Leaves x s t)
    (hrun : x.run s = .error e s') : t = s' :=
  h.unique (Or.inr ⟨e, hrun⟩)

/-! ## Running a sequence -/

/-- Sequencing after a normal return. -/
theorem run_bind_of_ok {x : Prog σ α} {s s' : σ} {a : α} (h : x.run s = .ok a s')
    (f : α → Prog σ β) : (x >>= f).run s = (f a).run s' := by
  rw [EStateM.run_bind, h]

/-- Sequencing after an exception. -/
theorem run_bind_of_error {x : Prog σ α} {s s' : σ} {e : Exn} (h : x.run s = .error e s')
    (f : α → Prog σ β) : (x >>= f).run s = .error e s' := by
  rw [EStateM.run_bind, h]

/-- Mapping over a program maps over its return value. -/
@[simp] theorem run_map (f : α → β) (x : Prog σ α) (s : σ) :
    (f <$> x).run s = match x.run s with
      | .ok a s' => .ok (f a) s'
      | .error e s' => .error e s' := by
  rw [← bind_pure_comp, EStateM.run_bind]
  cases x.run s <;> rfl

/-- A thrown exception ends the run and keeps the state. -/
@[simp] theorem run_throw (e : Exn) (s : σ) : (throw e : Prog σ α).run s = .error e s := rfl

/-! ## Taking a normal return apart -/

/-- A sequence returned exactly when both parts did. -/
theorem run_bind_eq_ok_iff {x : Prog σ α} {f : α → Prog σ β} {s t : σ} {b : β} :
    (x >>= f).run s = .ok b t ↔ ∃ a s', x.run s = .ok a s' ∧ (f a).run s' = .ok b t := by
  constructor
  · intro h
    cases hx : x.run s with
    | ok a s' => exact ⟨a, s', rfl, (run_bind_of_ok hx f).symm.trans h⟩
    | error e s' => exact absurd ((run_bind_of_error hx f).symm.trans h) (by simp)
  · rintro ⟨a, s', hx, hf⟩
    rw [run_bind_of_ok hx, hf]

/-- A sequence threw exactly when one of its parts did. -/
theorem run_bind_eq_error_iff {x : Prog σ α} {f : α → Prog σ β} {s t : σ} {e : Exn} :
    (x >>= f).run s = .error e t ↔
      x.run s = .error e t ∨ ∃ a s', x.run s = .ok a s' ∧ (f a).run s' = .error e t := by
  constructor
  · intro h
    cases hx : x.run s with
    | ok a s' => exact Or.inr ⟨a, s', rfl, (run_bind_of_ok hx f).symm.trans h⟩
    | error e' s' =>
      obtain ⟨rfl, rfl⟩ := EStateM.Result.error.inj ((run_bind_of_error hx f).symm.trans h)
      exact Or.inl rfl
  · rintro (hx | ⟨a, s', hx, hf⟩)
    · rw [run_bind_of_error hx]
    · rw [run_bind_of_ok hx, hf]

/-- A sequence ends where its first part throws or else where its second part ends. -/
theorem leaves_bind_iff {x : Prog σ α} {f : α → Prog σ β} {s t : σ} :
    Leaves (x >>= f) s t ↔
      (∃ e, x.run s = .error e t) ∨ ∃ a s', x.run s = .ok a s' ∧ Leaves (f a) s' t := by
  constructor
  · rintro (⟨b, hok⟩ | ⟨e, herror⟩)
    · obtain ⟨a, s', hx, hf⟩ := run_bind_eq_ok_iff.mp hok
      exact Or.inr ⟨a, s', hx, Or.inl ⟨b, hf⟩⟩
    · rcases run_bind_eq_error_iff.mp herror with hx | ⟨a, s', hx, hf⟩
      · exact Or.inl ⟨e, hx⟩
      · exact Or.inr ⟨a, s', hx, Or.inr ⟨e, hf⟩⟩
  · rintro (⟨e, hx⟩ | ⟨a, s', hx, ⟨b, hf⟩ | ⟨e, hf⟩⟩)
    · exact Or.inr ⟨e, run_bind_of_error hx f⟩
    · exact Or.inl ⟨b, run_bind_eq_ok_iff.mpr ⟨a, s', hx, hf⟩⟩
    · exact Or.inr ⟨e, run_bind_eq_error_iff.mpr (Or.inr ⟨a, s', hx, hf⟩)⟩

/-- A sequence ends where its second part ends if the first one returns. -/
theorem leaves_bind_of_ok {x : Prog σ α} {s s' t : σ} {a : α} (h : x.run s = .ok a s')
    (f : α → Prog σ β) : Leaves (x >>= f) s t ↔ Leaves (f a) s' t := by
  unfold Leaves
  rw [run_bind_of_ok h]

/-- What one element of a loop preserves, a whole loop that returns preserves. -/
theorem run_forM_induction {I : σ → Prop} {f : α → Prog σ PUnit} {l : List α}
    (hstep : ∀ a ∈ l, ∀ s t, I s → (f a).run s = .ok ⟨⟩ t → I t) {s t : σ} (hs : I s)
    (hrun : (forM l f).run s = .ok ⟨⟩ t) : I t := by
  induction l generalizing s with
  | nil =>
    rw [List.forM_nil, EStateM.run_pure, EStateM.Result.ok.injEq] at hrun
    rw [← hrun.2]
    exact hs
  | cons a l ih =>
    rw [List.forM_cons, run_bind_eq_ok_iff] at hrun
    obtain ⟨_, s', ha, hl⟩ := hrun
    exact ih (fun b hb => hstep b (List.mem_cons_of_mem _ hb))
      (hstep a List.mem_cons_self s s' hs ha) hl

/-- Every element of a loop that returned was run, from a state with what the others preserve. -/
theorem exists_run_of_run_forM {I : σ → Prop} {f : α → Prog σ PUnit} {l : List α}
    (hstep : ∀ a ∈ l, ∀ s t, I s → (f a).run s = .ok ⟨⟩ t → I t) {s t : σ} (hs : I s)
    (hrun : (forM l f).run s = .ok ⟨⟩ t) : ∀ a ∈ l, ∃ s t, I s ∧ (f a).run s = .ok ⟨⟩ t := by
  induction l generalizing s with
  | nil => exact fun _ ha => absurd ha List.not_mem_nil
  | cons a l ih =>
    rw [List.forM_cons, run_bind_eq_ok_iff] at hrun
    obtain ⟨_, s', ha, hl⟩ := hrun
    refine List.forall_mem_cons.mpr ⟨⟨s, s', hs, ha⟩, ?_⟩
    exact ih (fun b hb => hstep b (List.mem_cons_of_mem _ hb))
      (hstep a List.mem_cons_self s s' hs ha) hl

/-- What one element preserves, a loop that carries a value and returns preserves. -/
theorem run_foldlM_induction {I : β → Prop} {f : β → α → Prog σ β} {l : List α}
    (hstep : ∀ a ∈ l, ∀ b b' s t, I b → (f b a).run s = .ok b' t → I b') {b b' : β} {s t : σ}
    (hb : I b) (hrun : (l.foldlM f b).run s = .ok b' t) : I b' := by
  induction l generalizing b s with
  | nil =>
    rw [List.foldlM_nil, EStateM.run_pure, EStateM.Result.ok.injEq] at hrun
    rw [← hrun.1]
    exact hb
  | cons a l ih =>
    rw [List.foldlM_cons, run_bind_eq_ok_iff] at hrun
    obtain ⟨next, s', ha, hl⟩ := hrun
    exact ih (fun c hc => hstep c (List.mem_cons_of_mem _ hc))
      (hstep a List.mem_cons_self b next s s' hb ha) hl

/-! ## What is thrown -/

/-- Every exception the program throws satisfies `Q`. -/
def ThrowsOnly (Q : Exn → Prop) (x : Prog σ α) : Prop := ∀ s e t, x.run s = .error e t → Q e

variable {Q : Exn → Prop}

theorem throwsOnly_pure (a : α) : ThrowsOnly Q (pure a : Prog σ α) := by
  intro s e t h
  cases h

/-- Throwing throws the exception. -/
theorem throwsOnly_throw {e : Exn} (he : Q e) : ThrowsOnly Q (throw e : Prog σ α) := by
  intro s e' t h
  obtain ⟨rfl, -⟩ := EStateM.Result.error.inj h
  exact he

/-- A sequence throws what its parts throw. -/
theorem ThrowsOnly.bind {x : Prog σ α} {f : α → Prog σ β} (hx : ThrowsOnly Q x)
    (hf : ∀ a, ThrowsOnly Q (f a)) : ThrowsOnly Q (x >>= f) := by
  intro s e t h
  rcases run_bind_eq_error_iff.mp h with hrun | ⟨a, s', -, hrest⟩
  · exact hx s e t hrun
  · exact hf a s' e t hrest

end Throwing
