/-!
# Runs with a history

A system goes from state to state, one event after another.  A run is a sequence of such steps from
a start; its history lists the events in the order in which they happened.  An invariant may speak
of the history: what holds of the empty history at the start and is kept by every step holds after
every run (`Run.invariant`).  A second system that can follow every step has the same histories
(`Run.simulation`).
-/

namespace History

variable {σ ε : Type}

/-- The runs from `s`: the history, and the state after it. -/
inductive Run (step : σ → ε → σ → Prop) (s : σ) : List ε → σ → Prop where
  | nil : Run step s [] s
  | snoc {h : List ε} {t u : σ} {e : ε} : Run step s h t → step t e u → Run step s (h ++ [e]) u

variable {step : σ → ε → σ → Prop} {s t : σ} {h : List ε}

/-- What holds at the start and is kept by every step holds after every run. -/
theorem Run.invariant {I : List ε → σ → Prop} (hstart : I [] s)
    (hstep : ∀ h t e u, I h t → step t e u → I (h ++ [e]) u) (hrun : Run step s h t) : I h t := by
  induction hrun with
  | nil => exact hstart
  | snoc _ hlast ih => exact hstep _ _ _ _ ih hlast

/-- If related states take the same steps, to related states again, then they have the same runs. -/
theorem Run.simulation {τ : Type} {step' : τ → ε → τ → Prop} {R : σ → τ → Prop} {a : τ}
    (hstart : R s a)
    (hstep : ∀ s a e t, R s a → step s e t → ∃ b, step' a e b ∧ R t b) (hrun : Run step s h t) :
    ∃ b, Run step' a h b ∧ R t b := by
  induction hrun with
  | nil => exact ⟨a, Run.nil, hstart⟩
  | snoc _ hlast ih =>
    obtain ⟨b, hb, hR⟩ := ih
    obtain ⟨c, hc, hR'⟩ := hstep _ _ _ _ hR hlast
    exact ⟨c, hb.snoc hc, hR'⟩

end History
