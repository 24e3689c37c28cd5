import InstaX.Foundation.Throwing

/-!
# Programs that keep a record

A program is watched by a record of events next to its state.  The record can be erased, which
leaves the program itself (`Erases`); and what a program adds to the record, whether it returns or
throws, can be bounded (`Emits`).  A program that makes a list of events in order and throws at the
first that is not allowed is described by that list (`Performs`).  All of this is proved along the
structure of a program.
-/

namespace Tracing

open Throwing

/-- A program with a record of events, the latest last. -/
abbrev Traced (ε σ α : Type) := Prog (σ × List ε) α

variable {ε σ α β : Type}

/-- Add an event to the record. -/
def emit (e : ε) : Traced ε σ Unit := modify fun s => (s.1, s.2 ++ [e])

/-- A program that adds nothing to the record. -/
def silent (x : Prog σ α) : Traced ε σ α := fun s =>
  match x.run s.1 with
  | .ok a t => .ok a (t, s.2)
  | .error e t => .error e (t, s.2)

/-- A program without its record. -/
def untraced (x : Traced ε σ α) : Prog σ α := fun s =>
  match x.run (s, []) with
  | .ok a t => .ok a t.1
  | .error e t => .error e t.1

/-- A program without its record returns what the recorded one returns with some record. -/
theorem run_untraced_eq_ok_iff {x : Traced ε σ α} {s t : σ} {a : α} :
    (untraced x).run s = .ok a t ↔ ∃ l, x.run (s, []) = .ok a (t, l) := by
  have hrun : (untraced x).run s = match x.run (s, []) with
    | .ok a t => .ok a t.1
    | .error e t => .error e t.1 := rfl
  rw [hrun]
  cases x.run (s, []) with
  | ok b u =>
    dsimp only
    constructor
    · intro h
      cases h
      exact ⟨u.2, rfl⟩
    · rintro ⟨l, h⟩
      cases h
      rfl
  | error e u => simp

/-- An event is added at the end of the record. -/
@[simp] theorem run_emit (e : ε) (s : σ × List ε) :
    (emit e : Traced ε σ Unit).run s = .ok () (s.1, s.2 ++ [e]) := rfl

/-- The run of a program that adds nothing to the record. -/
theorem run_silent (x : Prog σ α) (s : σ × List ε) :
    (silent x : Traced ε σ α).run s = match x.run s.1 with
      | .ok a t => .ok a (t, s.2)
      | .error e t => .error e (t, s.2) := rfl

/-- A silent program returns as it does by itself and leaves the record. -/
theorem run_silent_eq_ok_iff {x : Prog σ α} {s t : σ × List ε} {a : α} :
    (silent x : Traced ε σ α).run s = .ok a t ↔ x.run s.1 = .ok a t.1 ∧ t.2 = s.2 := by
  obtain ⟨t, l⟩ := t
  rw [run_silent]
  cases x.run s.1 <;> simp [and_assoc, eq_comm]

/-- It throws as it does by itself and leaves the record. -/
theorem run_silent_eq_error_iff {x : Prog σ α} {s t : σ × List ε} {e : Exn} :
    (silent x : Traced ε σ α).run s = .error e t ↔ x.run s.1 = .error e t.1 ∧ t.2 = s.2 := by
  obtain ⟨t, l⟩ := t
  rw [run_silent]
  cases x.run s.1 <;> simp [and_assoc, eq_comm]

theorem silent_pure (a : α) : silent (pure a : Prog σ α) = (pure a : Traced ε σ α) := rfl

/-- A sequence adds nothing to the record when neither part does. -/
theorem silent_bind (x : Prog σ α) (f : α → Prog σ β) :
    silent (x >>= f) = (silent x >>= fun a => silent (f a) : Traced ε σ β) := by
  funext s
  change (silent (x >>= f)).run s = (silent x >>= fun a => silent (f a) : Traced ε σ β).run s
  rw [EStateM.run_bind, run_silent, run_silent, EStateM.run_bind]
  cases x.run s.1 with
  | ok a t => rfl
  | error e t => rfl

/-- The record that a run leaves. -/
def recordOf (x : Traced ε σ α) (s : σ × List ε) : List ε :=
  match x.run s with
  | .ok _ t => t.2
  | .error _ t => t.2

/-- The record of a run is the one that the run leaves. -/
theorem recordOf_of_leaves {x : Traced ε σ α} {s t : σ × List ε} (h : Leaves x s t) :
    recordOf x s = t.2 := by
  unfold recordOf
  rcases h with ⟨a, h⟩ | ⟨e, h⟩
  · rw [h]
  · rw [h]

/-! ## Erasing the record -/

/-- Without its record the first program is the second one. -/
structure Erases (x : Traced ε σ α) (y : Prog σ α) : Prop where
  returns : ∀ s a t, x.run s = .ok a t → y.run s.1 = .ok a t.1
  throws : ∀ s e t, x.run s = .error e t → y.run s.1 = .error e t.1

theorem erases_pure (a : α) : Erases (pure a : Traced ε σ α) (pure a) where
  returns := by
    intro s b t h
    obtain ⟨rfl, rfl⟩ := EStateM.Result.ok.inj h
    rfl
  throws := by
    intro s e t h
    cases h

theorem erases_throw (e : Exn) : Erases (throw e : Traced ε σ α) (throw e) where
  returns := by
    intro s a t h
    cases h
  throws := by
    intro s e' t h
    obtain ⟨rfl, rfl⟩ := EStateM.Result.error.inj h
    rfl

/-- A silent program is erased to itself. -/
theorem erases_silent (x : Prog σ α) : Erases (silent x : Traced ε σ α) x where
  returns := fun _ _ _ h => (run_silent_eq_ok_iff.mp h).1
  throws := fun _ _ _ h => (run_silent_eq_error_iff.mp h).1

/-- An event is erased. -/
theorem erases_emit (e : ε) : Erases (emit e : Traced ε σ Unit) (pure ()) where
  returns := by
    intro s a t h
    obtain ⟨rfl, rfl⟩ := EStateM.Result.ok.inj h
    rfl
  throws := by
    intro s e' t h
    cases h

/-- A sequence erases to the sequence of what its parts erase to. -/
theorem Erases.bind {x : Traced ε σ α} {y : Prog σ α} {f : α → Traced ε σ β} {g : α → Prog σ β}
    (hx : Erases x y) (hf : ∀ a, Erases (f a) (g a)) : Erases (x >>= f) (y >>= g) where
  returns := by
    intro s b t h
    obtain ⟨a, s', hrun, hrest⟩ := run_bind_eq_ok_iff.mp h
    exact run_bind_eq_ok_iff.mpr ⟨a, s'.1, hx.returns _ _ _ hrun, (hf a).returns _ _ _ hrest⟩
  throws := by
    intro s e t h
    rcases run_bind_eq_error_iff.mp h with hrun | ⟨a, s', hrun, hrest⟩
    · exact run_bind_eq_error_iff.mpr (Or.inl (hx.throws _ _ _ hrun))
    · exact run_bind_eq_error_iff.mpr
        (Or.inr ⟨a, s'.1, hx.returns _ _ _ hrun, (hf a).throws _ _ _ hrest⟩)

/-- Events leave no trace when the record is erased: in front of a program. -/
theorem Erases.emit_bind {x : Traced ε σ α} {y : Prog σ α} (e : ε) (hx : Erases x y) :
    Erases (emit e >>= fun _ => x) y where
  returns := by
    intro s a t h
    rw [run_bind_of_ok (run_emit e s)] at h
    have hreturns := hx.returns _ _ _ h
    exact hreturns
  throws := by
    intro s e' t h
    rw [run_bind_of_ok (run_emit e s)] at h
    have hthrows := hx.throws _ _ _ h
    exact hthrows

/-- Events leave no trace when the record is erased: after a program. -/
theorem Erases.bind_emit {x : Traced ε σ Unit} {y : Prog σ Unit} (e : ε) (hx : Erases x y) :
    Erases (x >>= fun _ => emit e) y where
  returns := by
    intro s b t h
    obtain ⟨a, s', hrun, hrest⟩ := run_bind_eq_ok_iff.mp h
    obtain ⟨-, rfl⟩ := EStateM.Result.ok.inj hrest
    have hreturns := hx.returns _ _ _ hrun
    exact hreturns
  throws := by
    intro s e' t h
    rcases run_bind_eq_error_iff.mp h with hrun | ⟨a, s', hrun, hrest⟩
    · exact hx.throws _ _ _ hrun
    · cases hrest

/-- The record of a loop is erased if that of its body is. -/
theorem Erases.forM {f : α → Traced ε σ PUnit} {g : α → Prog σ PUnit} {l : List α}
    (h : ∀ a ∈ l, Erases (f a) (g a)) : Erases (forM l f) (forM l g) := by
  induction l with
  | nil => exact erases_pure _
  | cons a l ih =>
    rw [List.forM_cons, List.forM_cons]
    exact (h a List.mem_cons_self).bind fun _ => ih fun b hb => h b (List.mem_cons_of_mem _ hb)

/-- So it is in a loop with an accumulator. -/
theorem Erases.foldlM {f : β → α → Traced ε σ β} {g : β → α → Prog σ β}
    (h : ∀ b a, Erases (f b a) (g b a)) (l : List α) (b : β) :
    Erases (l.foldlM f b) (l.foldlM g b) := by
  induction l generalizing b with
  | nil => exact erases_pure _
  | cons a l ih =>
    rw [List.foldlM_cons, List.foldlM_cons]
    exact (h b a).bind ih

/-- Every run that returns has a record: the recorded program returns the same. -/
theorem Erases.exists_run_eq_ok {x : Traced ε σ α} {y : Prog σ α} (h : Erases x y) {s t : σ}
    {a : α} (hrun : y.run s = .ok a t) (l : List ε) : ∃ l', x.run (s, l) = .ok a (t, l') := by
  cases hx : x.run (s, l) with
  | ok b u =>
    obtain ⟨rfl, rfl⟩ := EStateM.Result.ok.inj (hrun.symm.trans (h.returns _ _ _ hx))
    exact ⟨u.2, rfl⟩
  | error e u => cases hrun.symm.trans (h.throws _ _ _ hx)

/-- Every run that throws has a record, too. -/
theorem Erases.exists_run_eq_error {x : Traced ε σ α} {y : Prog σ α} (h : Erases x y) {s t : σ}
    {e : Exn} (hrun : y.run s = .error e t) (l : List ε) :
    ∃ l', x.run (s, l) = .error e (t, l') := by
  cases hx : x.run (s, l) with
  | ok b u => cases hrun.symm.trans (h.returns _ _ _ hx)
  | error e' u =>
    obtain ⟨rfl, rfl⟩ := EStateM.Result.error.inj (hrun.symm.trans (h.throws _ _ _ hx))
    exact ⟨u.2, rfl⟩

/-- Whatever a program leaves, the recorded one leaves with a record. -/
theorem Erases.exists_leaves {x : Traced ε σ α} {y : Prog σ α} (h : Erases x y) {s t : σ}
    (hleaves : Leaves y s t) (l : List ε) : ∃ l', Leaves x (s, l) (t, l') := by
  rcases hleaves with ⟨a, hrun⟩ | ⟨e, hrun⟩
  · exact (h.exists_run_eq_ok hrun l).imp fun _ hx => Or.inl ⟨a, hx⟩
  · exact (h.exists_run_eq_error hrun l).imp fun _ hx => Or.inr ⟨e, hx⟩

/-! ## Bounding what is added -/

/-- All that the program adds to the record, whether it returns or throws, satisfies `P`. -/
def Emits (P : ε → Prop) (x : Traced ε σ α) : Prop :=
  ∀ s t, Leaves x s t → ∃ added, t.2 = s.2 ++ added ∧ ∀ e ∈ added, P e

variable {P : ε → Prop}

theorem emits_pure (a : α) : Emits P (pure a : Traced ε σ α) := by
  intro s t h
  obtain rfl := h.eq_of_ok rfl
  exact ⟨[], (List.append_nil _).symm, by simp⟩

theorem emits_throw (e : Exn) : Emits P (throw e : Traced ε σ α) := by
  intro s t h
  obtain rfl := h.eq_of_error rfl
  exact ⟨[], (List.append_nil _).symm, by simp⟩

/-- A silent program adds nothing to the record. -/
theorem emits_silent (x : Prog σ α) : Emits P (silent x : Traced ε σ α) := by
  rintro s t (⟨b, h⟩ | ⟨e, h⟩)
  · exact ⟨[], by rw [(run_silent_eq_ok_iff.mp h).2, List.append_nil], by simp⟩
  · exact ⟨[], by rw [(run_silent_eq_error_iff.mp h).2, List.append_nil], by simp⟩

/-- An event that satisfies `P` may be emitted. -/
theorem emits_emit {e : ε} (he : P e) : Emits P (emit e : Traced ε σ Unit) := by
  intro s t h
  obtain rfl := h.eq_of_ok (run_emit e s)
  exact ⟨[e], rfl, by simpa using he⟩

/-- A sequence, whose second part may rely on what the first one returned. -/
theorem Emits.bind_of_returns {x : Traced ε σ α} {f : α → Traced ε σ β} (hx : Emits P x)
    (hf : ∀ s a t, x.run s = .ok a t → Emits P (f a)) : Emits P (x >>= f) := by
  intro s t h
  rcases leaves_bind_iff.mp h with ⟨e, hrun⟩ | ⟨a, s', hrun, hrest⟩
  · exact hx s t (Or.inr ⟨e, hrun⟩)
  · obtain ⟨added, hadded, hP⟩ := hx s s' (Or.inl ⟨a, hrun⟩)
    obtain ⟨added', hadded', hP'⟩ := hf s a s' hrun s' t hrest
    refine ⟨added ++ added', by rw [hadded', hadded, List.append_assoc], fun e he => ?_⟩
    exact (List.mem_append.mp he).elim (hP e) (hP' e)

/-- A sequence adds what its parts add. -/
theorem Emits.bind {x : Traced ε σ α} {f : α → Traced ε σ β} (hx : Emits P x)
    (hf : ∀ a, Emits P (f a)) : Emits P (x >>= f) :=
  hx.bind_of_returns fun _ a _ _ => hf a

/-- A loop adds what the runs of its body add. -/
theorem Emits.forM {f : α → Traced ε σ PUnit} {l : List α} (h : ∀ a ∈ l, Emits P (f a)) :
    Emits P (forM l f) := by
  induction l with
  | nil => exact emits_pure _
  | cons a l ih =>
    rw [List.forM_cons]
    exact (h a List.mem_cons_self).bind fun _ => ih fun b hb => h b (List.mem_cons_of_mem _ hb)

/-- So does a loop with an accumulator. -/
theorem Emits.foldlM {f : β → α → Traced ε σ β} (h : ∀ b a, Emits P (f b a)) (l : List α) (b : β) :
    Emits P (l.foldlM f b) := by
  induction l generalizing b with
  | nil => exact emits_pure _
  | cons a l ih =>
    rw [List.foldlM_cons]
    exact (h b a).bind ih

/-- All that the program adds to the record satisfies `P`, and all that it throws satisfies `Q`. -/
structure Confined (P : ε → Prop) (Q : Exn → Prop) (x : Traced ε σ α) : Prop where
  emits : Emits P x
  throwsOnly : ThrowsOnly Q x

variable {Q : Exn → Prop}

theorem confined_pure (a : α) : Confined P Q (pure a : Traced ε σ α) :=
  ⟨emits_pure a, throwsOnly_pure a⟩

/-- Throwing an allowed exception is confined. -/
theorem confined_throw {e : Exn} (he : Q e) : Confined P Q (throw e : Traced ε σ α) :=
  ⟨emits_throw e, throwsOnly_throw he⟩

/-- Emitting an allowed event is confined. -/
theorem confined_emit {e : ε} (he : P e) : Confined P Q (emit e : Traced ε σ Unit) where
  emits := emits_emit he
  throwsOnly s e t h := by cases h

/-- A sequence is confined if its parts are. -/
theorem Confined.bind {x : Traced ε σ α} {f : α → Traced ε σ β} (hx : Confined P Q x)
    (hf : ∀ a, Confined P Q (f a)) : Confined P Q (x >>= f) where
  emits := hx.emits.bind fun a => (hf a).emits
  throwsOnly := hx.throwsOnly.bind fun a => (hf a).throwsOnly

/-! ## Lists of events -/

/-- The program makes the events of a list in order and then returns `a`; at the first event that is
not allowed it throws.  It keeps the invariant `I` of its states. -/
structure Performs (I : σ → Prop) (ok : ε → Prop) (l : List ε) (a : α) (x : Traced ε σ α) :
    Prop where
  returns : (∀ e ∈ l, ok e) → ∀ s, I s.1 → ∃ t, x.run s = .ok a t ∧ I t.1 ∧ t.2 = s.2 ++ l
  throws : ∀ l₁ e l₂, l = l₁ ++ e :: l₂ → (∀ d ∈ l₁, ok d) → ¬ ok e → ∀ s, I s.1 →
    ∃ exn t, x.run s = .error exn t ∧ t.2 = s.2 ++ l₁

variable {I : σ → Prop} {ok : ε → Prop}

theorem performs_pure (a : α) : Performs I ok [] a (pure a : Traced ε σ α) where
  returns _ s hs := ⟨s, rfl, hs, (List.append_nil _).symm⟩
  throws l₁ e l₂ h := by
    have hlength := congrArg List.length h
    rw [List.length_append, List.length_cons] at hlength
    exact absurd hlength (by simp)

/-- One event, of a program that returns exactly if the event is allowed. -/
theorem performs_emit {x : Prog σ PUnit} {e : ε}
    (hok : ok e → ∀ s, I s → ∃ t, x.run s = .ok ⟨⟩ t ∧ I t)
    (hnot : ¬ ok e → ∀ s, I s → ∃ exn t, x.run s = .error exn t) :
    Performs I ok [e] ⟨⟩ (silent x >>= fun _ => emit e : Traced ε σ PUnit) where
  returns hall s hs := by
    obtain ⟨t, hrun, ht⟩ := hok (hall e (List.mem_singleton_self e)) s.1 hs
    have hsilent : (silent x : Traced ε σ PUnit).run s = .ok ⟨⟩ (t, s.2) :=
      run_silent_eq_ok_iff.mpr ⟨hrun, rfl⟩
    exact ⟨(t, s.2 ++ [e]), run_bind_eq_ok_iff.mpr ⟨_, _, hsilent, rfl⟩, ht, rfl⟩
  throws l₁ d l₂ h hall hd s hs := by
    obtain ⟨rfl, h⟩ | ⟨_, -, h⟩ := List.cons_eq_append_iff.mp h
    · obtain ⟨rfl, -⟩ := List.cons.inj h
      obtain ⟨exn, t, hrun⟩ := hnot hd s.1 hs
      have hsilent : (silent x : Traced ε σ PUnit).run s = .error exn (t, s.2) :=
        run_silent_eq_error_iff.mpr ⟨hrun, rfl⟩
      exact ⟨exn, (t, s.2), run_bind_of_error hsilent _, (List.append_nil _).symm⟩
    · exact absurd h (by simp)

/-- A sequence makes the events of both parts. -/
theorem Performs.bind {l l' : List ε} {a : α} {b : β} {x : Traced ε σ α} {f : α → Traced ε σ β}
    (hx : Performs I ok l a x) (hf : Performs I ok l' b (f a)) :
    Performs I ok (l ++ l') b (x >>= f) where
  returns hall s hs := by
    rw [List.forall_mem_append] at hall
    obtain ⟨s', hrun, hs', hrecord⟩ := hx.returns hall.1 s hs
    obtain ⟨t, hrun', ht, hrecord'⟩ := hf.returns hall.2 s' hs'
    exact ⟨t, run_bind_eq_ok_iff.mpr ⟨a, s', hrun, hrun'⟩, ht,
      by rw [hrecord', hrecord, List.append_assoc]⟩
  throws l₁ e l₂ h hall he s hs := by
    -- the event that is not allowed is one of the first part or of the second
    have hsplit : (∃ m, l = l₁ ++ e :: m) ∨ ∃ m, l₁ = l ++ m ∧ l' = m ++ e :: l₂ := by
      rcases List.append_eq_append_iff.mp h with ⟨m, hl₁, hl'⟩ | ⟨m, hl, hm⟩
      · exact Or.inr ⟨m, hl₁, hl'⟩
      · rcases List.cons_eq_append_iff.mp hm with ⟨rfl, hl'⟩ | ⟨m', rfl, -⟩
        · refine Or.inr ⟨[], ?_, hl'⟩
          rw [hl, List.append_nil, List.append_nil]
        · exact Or.inl ⟨m', hl⟩
    rcases hsplit with ⟨m, hl⟩ | ⟨m, rfl, hl'⟩
    · obtain ⟨exn, t, hrun, hrecord⟩ := hx.throws l₁ e m hl hall he s hs
      exact ⟨exn, t, run_bind_of_error hrun f, hrecord⟩
    · rw [List.forall_mem_append] at hall
      obtain ⟨s', hrun, hs', hrecord⟩ := hx.returns hall.1 s hs
      obtain ⟨exn, t, hrun', hrecord'⟩ := hf.throws m e l₂ hl' hall.2 he s' hs'
      refine ⟨exn, t, ?_, by rw [hrecord', hrecord, List.append_assoc]⟩
      rw [run_bind_of_ok hrun]
      exact hrun'

/-- What is done to the result makes no events. -/
theorem Performs.bind_pure {l : List ε} {a : α} {x : Traced ε σ α} (hx : Performs I ok l a x)
    (g : α → β) : Performs I ok l (g a) (x >>= fun b => pure (g b)) := by
  have h := hx.bind (f := fun b => pure (g b)) (performs_pure (g a))
  rwa [List.append_nil] at h

/-- A list is allowed, or there is a first event that is not. -/
theorem forall_or_exists_first (ok : ε → Prop) (l : List ε) :
    (∀ e ∈ l, ok e) ∨ ∃ l₁ e l₂, l = l₁ ++ e :: l₂ ∧ (∀ d ∈ l₁, ok d) ∧ ¬ ok e := by
  induction l with
  | nil => exact Or.inl (by simp)
  | cons e l ih =>
    by_cases he : ok e
    · rcases ih with hall | ⟨l₁, d, l₂, rfl, hall, hd⟩
      · exact Or.inl (List.forall_mem_cons.mpr ⟨he, hall⟩)
      · exact Or.inr ⟨e :: l₁, d, l₂, rfl, List.forall_mem_cons.mpr ⟨he, hall⟩, hd⟩
    · exact Or.inr ⟨[], e, l, rfl, by simp, he⟩

/-- A run makes all events of the list and returns, or it throws at the first that is not
allowed. -/
theorem Performs.outcome {l : List ε} {a : α} {x : Traced ε σ α} (h : Performs I ok l a x)
    {s : σ × List ε} (hs : I s.1) :
    ((∀ e ∈ l, ok e) ∧ ∃ t, x.run s = .ok a t ∧ I t.1 ∧ t.2 = s.2 ++ l) ∨
      ∃ l₁ e l₂, l = l₁ ++ e :: l₂ ∧ (∀ d ∈ l₁, ok d) ∧ ¬ ok e ∧
        ∃ exn t, x.run s = .error exn t ∧ t.2 = s.2 ++ l₁ := by
  rcases forall_or_exists_first ok l with hall | ⟨l₁, e, l₂, hl, hall, he⟩
  · exact Or.inl ⟨hall, h.returns hall s hs⟩
  · exact Or.inr ⟨l₁, e, l₂, hl, hall, he, h.throws l₁ e l₂ hl hall he s hs⟩

/-- What is allowed from the start on lies in front of every event that is not. -/
theorem subset_of_split {l₁ l₁' l₂ l₂' : List ε} {e : ε} (hall : ∀ d ∈ l₁, ok d) (he : ¬ ok e)
    (h : l₁ ++ l₂ = l₁' ++ e :: l₂') : l₁ ⊆ l₁' := by
  rcases List.append_eq_append_iff.mp h with ⟨m, rfl, -⟩ | ⟨m, rfl, hm⟩
  · exact List.subset_append_left l₁ m
  · rcases List.cons_eq_append_iff.mp hm with ⟨rfl, -⟩ | ⟨m', rfl, -⟩
    · rw [List.append_nil]
      exact List.Subset.refl _
    · exact absurd (hall e (by simp)) he

end Tracing
