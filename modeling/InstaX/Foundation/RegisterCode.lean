import Mathlib.Order.Interval.Set.Basic
import InstaX.Foundation.Throwing

/-!
# Definitions and uses of registers in straight-line code

Instructions have a list of operands, some of which read a register, and at most one destination.
`DefinedBeforeUse` says of a list of instructions that every register read is known beforehand or
the destination of an earlier instruction, and `SingleDef` that no register of a given set is a
destination twice.

Code is usually appended instruction by instruction, with destinations taken from a counter
(`Fresh`).  A register below the counter that is not defined by then never will be
(`Fresh.defined_append_iff`): an operand that is lost stays lost.

`Builds` is the corresponding judgement about programs that hold such code in their state, and
`Outcome` says when the code built so far is defined before use and the operands returned with it
are defined.
-/

/-- Instructions with operands that may read a register and a destination that may be absent. -/
class RegisterCode (I : Type*) (O R : outParam (Type*)) where
  operands : I → List O
  register : O → Option R
  destination : I → Option R

namespace RegisterCode

variable {I O R : Type*} [RegisterCode I O R]

/-! ## Lists of instructions -/

/-- The register is known or a destination. -/
def Available (known : Set R) (is : List I) (r : R) : Prop :=
  r ∈ known ∨ ∃ i ∈ is, destination i = some r

/-- The operand reads no register, or an available one. -/
def Defined (known : Set R) (is : List I) (v : O) : Prop :=
  ∀ r, register I v = some r → Available known is r

/-- Every register that is read is known or the destination of an earlier instruction. -/
def DefinedBeforeUse (known : Set R) (is : List I) : Prop :=
  ∀ before i after, is = before ++ i :: after → ∀ v ∈ operands i, Defined known before v

/-- No register of the set is the destination of two instructions. -/
def SingleDef (temps : Set R) (is : List I) : Prop :=
  is.Pairwise fun i j => ∀ r ∈ temps, destination i = some r → destination j ≠ some r

variable {known temps : Set R} {is js : List I} {i : I} {v : O} {r : R}

/-- Availability in two parts. -/
lemma available_append :
    Available known (is ++ js) r ↔ Available known is r ∨ ∃ j ∈ js, destination j = some r := by
  unfold Available
  simp only [List.mem_append, or_and_right, exists_or, or_assoc]

/-- A defined operand stays defined when code is appended. -/
lemma Defined.append (h : Defined known is v) (js : List I) : Defined known (is ++ js) v :=
  fun r hr => available_append.mpr (Or.inl (h r hr))

/-- Code with one more instruction is split at that instruction or before it. -/
lemma split_of_concat {α : Type*} {l before after : List α} {a b : α}
    (h : l ++ [a] = before ++ b :: after) :
    l = before ∧ a = b ∨ ∃ after', l = before ++ b :: after' := by
  rcases List.eq_nil_or_concat after with rfl | ⟨after, c, rfl⟩
  · obtain ⟨hl, hab⟩ := List.append_inj' h rfl
    exact Or.inl ⟨hl, by simpa using hab⟩
  · rw [List.concat_eq_append, ← List.cons_append, ← List.append_assoc] at h
    exact Or.inr ⟨after, (List.append_inj' h rfl).1⟩

/-- Empty code reads nothing. -/
lemma definedBeforeUse_nil : DefinedBeforeUse known ([] : List I) := by
  intro before i after h
  exact absurd h.symm (by simp)

/-- One more instruction: its operands must be defined. -/
lemma definedBeforeUse_concat :
    DefinedBeforeUse known (is ++ [i]) ↔
      DefinedBeforeUse known is ∧ ∀ v ∈ operands i, Defined known is v := by
  constructor
  · intro h
    refine ⟨fun before j after hsplit => ?_, h is i [] rfl⟩
    exact h before j (after ++ [i]) (by rw [hsplit]; simp)
  · rintro ⟨his, hi⟩ before j after hsplit
    rcases split_of_concat hsplit with ⟨rfl, rfl⟩ | ⟨after', his'⟩
    · exact hi
    · exact his before j after' his'

/-- A prefix of code that is defined before use is so, too. -/
lemma DefinedBeforeUse.of_append (h : DefinedBeforeUse known (is ++ js)) :
    DefinedBeforeUse known is :=
  fun before i after hsplit => h before i (after ++ js) (by rw [hsplit]; simp)

/-- One more instruction with a destination outside the set, or a new one. -/
lemma SingleDef.append (his : SingleDef temps is) (hjs : SingleDef temps js)
    (h : ∀ i ∈ is, ∀ j ∈ js, ∀ r ∈ temps, destination i = some r → destination j ≠ some r) :
    SingleDef temps (is ++ js) :=
  List.pairwise_append.mpr ⟨his, hjs, h⟩

/-! ## Destinations taken from a counter -/

section Counter

variable {I O : Type*} [RegisterCode I O ℕ] {is js : List I} {i : I} {v : O} {base n n' n'' : ℕ}

/-- All destinations are below the counter. -/
def Below (n : ℕ) (is : List I) : Prop := ∀ i ∈ is, ∀ r, destination i = some r → r < n

/-- The code defines registers below `base`, which are written at will, and registers that a counter
handed out between `n` and `n'`, each at most once. -/
structure Fresh (base n : ℕ) (is : List I) (n' : ℕ) : Prop where
  le : n ≤ n'
  destination : ∀ i ∈ is, ∀ r, destination i = some r → r < base ∨ n ≤ r ∧ r < n'
  single : SingleDef (Set.Ici base) is

/-- No code, whatever the counter does. -/
lemma Fresh.nil (h : n ≤ n') : Fresh base n ([] : List I) n' :=
  ⟨h, by simp, List.Pairwise.nil⟩

/-- One instruction without a destination. -/
lemma Fresh.of_destination_eq_none (h : RegisterCode.destination i = none) :
    Fresh base n [i] n where
  le := le_rfl
  destination := by simp [h]
  single := List.pairwise_singleton _ _

/-- One instruction whose destination is the next register. -/
lemma Fresh.next (h : RegisterCode.destination i = some n) : Fresh base n [i] (n + 1) where
  le := n.le_succ
  destination := by simp [h]
  single := List.pairwise_singleton _ _

/-- Fresh code in two parts. -/
lemma Fresh.append (his : Fresh base n is n') (hjs : Fresh base n' js n'') :
    Fresh base n (is ++ js) n'' where
  le := his.le.trans hjs.le
  destination i hi r hr := by
    have hle := his.le
    have hle' := hjs.le
    rcases List.mem_append.mp hi with hi | hi
    · have := his.destination i hi r hr
      omega
    · have := hjs.destination i hi r hr
      omega
  single := by
    refine his.single.append hjs.single fun i hi j hj r hr hir hjr => ?_
    have hbase : base ≤ r := hr
    have := his.destination i hi r hir
    have := hjs.destination j hj r hjr
    omega

/-- Fresh code keeps all destinations below the counter. -/
lemma Below.append (his : Below n is) (hjs : Fresh base n js n') (hbase : base ≤ n) :
    Below n' (is ++ js) := by
  intro i hi r hr
  have hle := hjs.le
  rcases List.mem_append.mp hi with hi | hi
  · exact (his i hi r hr).trans_le hle
  · have := hjs.destination i hi r hr
    omega

/-- Fresh code adds no second definition of a register of the counter. -/
lemma SingleDef.append_fresh (hs : SingleDef (Set.Ici base) is) (his : Below n is)
    (hjs : Fresh base n js n') : SingleDef (Set.Ici base) (is ++ js) := by
  refine hs.append hjs.single fun i hi j hj r hr hir hjr => ?_
  have hbase : base ≤ r := hr
  have := his i hi r hir
  have := hjs.destination j hj r hjr
  omega

/-- A register that the counter has passed is available after fresh code only if it was before. -/
lemma Fresh.defined_append_iff (hjs : Fresh base n js n')
    (hv : ∀ r, register I v = some r → r < n) :
    Defined (Set.Iio base) (is ++ js) v ↔ Defined (Set.Iio base) is v := by
  refine ⟨fun h r hr => ?_, fun h => h.append js⟩
  rcases available_append.mp (h r hr) with hav | ⟨j, hj, hjr⟩
  · exact hav
  · have hlt := hv r hr
    have := hjs.destination j hj r hjr
    exact Or.inl (Set.mem_Iio.mpr (by omega))

/-- The next register of the counter is not available. -/
lemma Below.not_available (his : Below n is) (hbase : base ≤ n) :
    ¬ Available (Set.Iio base) is n := by
  rintro (hlt | ⟨i, hi, hin⟩)
  · exact absurd (Set.mem_Iio.mp hlt) (by omega)
  · exact absurd (his i hi n hin) (lt_irrefl n)

end Counter

/-! ## Programs that build code -/

open Throwing

/-- How the state of a program holds the code under construction and the register counter, and when
code can be appended; registers below `base` do not come from the counter. -/
structure View (σ I : Type) where
  base : ℕ
  code : σ → List I
  next : σ → ℕ
  IsOpen : σ → Prop

namespace View

variable {σ I O α β : Type} [RegisterCode I O ℕ] (V : View σ I) {s t u : σ} {v w : O}

/-- The code built so far is defined before use. -/
def Closed (s : σ) : Prop := DefinedBeforeUse (Set.Iio V.base) (V.code s)

/-- The operand is defined by the code built so far. -/
def Known (s : σ) (v : O) : Prop := Defined (Set.Iio V.base) (V.code s) v

/-- The counter has passed the register of the operand. -/
def Passed (s : σ) (v : O) : Prop := ∀ r, register I v = some r → r < V.next s

/-- Code can be appended, and the counter is past the fixed registers and all destinations. -/
structure Ready (s : σ) : Prop where
  isOpen : V.IsOpen s
  base_le : V.base ≤ V.next s
  below : Below (V.next s) (V.code s)

/-- Fresh code was appended. -/
def Grows (s t : σ) : Prop :=
  ∃ is, V.code t = V.code s ++ is ∧ Fresh V.base (V.next s) is (V.next t)

variable {V}

/-- A state whose code is unchanged and whose counter has not gone back has grown. -/
lemma Grows.of_code_eq (hcode : V.code t = V.code s) (hnext : V.next s ≤ V.next t) : V.Grows s t :=
  ⟨[], by simpa using hcode, Fresh.nil hnext⟩

lemma Grows.refl (s : σ) : V.Grows s s := Grows.of_code_eq rfl le_rfl

lemma Grows.trans (h : V.Grows s t) (h' : V.Grows t u) : V.Grows s u := by
  obtain ⟨is, hcode, his⟩ := h
  obtain ⟨js, hcode', hjs⟩ := h'
  exact ⟨is ++ js, by rw [hcode', hcode, List.append_assoc], his.append hjs⟩

lemma Grows.next_le (h : V.Grows s t) : V.next s ≤ V.next t := by
  obtain ⟨is, -, his⟩ := h
  exact his.le

lemma Grows.passed (h : V.Grows s t) (hv : V.Passed s v) : V.Passed t v :=
  fun r hr => (hv r hr).trans_le h.next_le

/-- Growing code neither defines nor loses an operand that the counter has passed. -/
lemma Grows.known_iff (h : V.Grows s t) (hv : V.Passed s v) : V.Known t v ↔ V.Known s v := by
  obtain ⟨is, hcode, his⟩ := h
  unfold Known
  rw [hcode]
  exact his.defined_append_iff hv

/-- Code that grew to be defined before use was so already. -/
lemma Grows.closed (h : V.Grows s t) (ht : V.Closed t) : V.Closed s := by
  obtain ⟨is, hcode, -⟩ := h
  unfold Closed at ht
  rw [hcode] at ht
  exact ht.of_append

/-- A state that has grown and is open is ready. -/
lemma Ready.grows (hs : V.Ready s) (h : V.Grows s t) (ht : V.IsOpen t) : V.Ready t where
  isOpen := ht
  base_le := hs.base_le.trans h.next_le
  below := by
    obtain ⟨is, hcode, his⟩ := h
    rw [hcode]
    exact hs.below.append his hs.base_le

/-- One more instruction: its operands must be known. -/
lemma closed_iff_of_code_eq {i : I} (h : V.code t = V.code s ++ [i]) :
    V.Closed t ↔ V.Closed s ∧ ∀ v ∈ operands i, V.Known s v := by
  unfold Closed
  rw [h]
  exact definedBeforeUse_concat

variable (V)

/-- The program returns, with fresh code appended and room for more, and the postcondition holds of
its value and state. -/
def Builds (act : Prog σ α) (s : σ) (Q : α → σ → Prop) : Prop :=
  ∃ a t, act.run s = .ok a t ∧ V.IsOpen t ∧ V.Grows s t ∧ Q a t

/-- The code is defined before use and the operand is known afterwards exactly when the code was
defined before use and the condition holds. -/
structure Outcome (s t : σ) (v : O) (good : Prop) : Prop where
  passed : V.Passed t v
  iff : V.Closed t ∧ V.Known t v ↔ V.Closed s ∧ good

variable {V}

lemma Builds.pure {a : α} {Q : α → σ → Prop} (hs : V.Ready s) (h : Q a s) :
    V.Builds (pure a) s Q :=
  ⟨a, s, rfl, hs.isOpen, Grows.refl s, h⟩

/-- Programs that build code do so one after the other. -/
lemma Builds.bind {act : Prog σ α} {f : α → Prog σ β} {P : α → σ → Prop} {Q : β → σ → Prop}
    (hs : V.Ready s) (h : V.Builds act s P)
    (hf : ∀ a t, V.Ready t → V.Grows s t → P a t → V.Builds (f a) t Q) :
    V.Builds (act >>= f) s Q := by
  obtain ⟨a, t, hrun, hopen, hgrows, hP⟩ := h
  obtain ⟨b, u, hrun', hopen', hgrows', hQ⟩ := hf a t (hs.grows hgrows hopen) hgrows hP
  exact ⟨b, u, by rw [run_bind_of_ok hrun, hrun'], hopen', hgrows.trans hgrows', hQ⟩

lemma Builds.mono {act : Prog σ α} {P Q : α → σ → Prop} (h : V.Builds act s P)
    (hPQ : ∀ a t, V.Grows s t → P a t → Q a t) : V.Builds act s Q := by
  obtain ⟨a, t, hrun, hopen, hgrows, hP⟩ := h
  exact ⟨a, t, hrun, hopen, hgrows, hPQ a t hgrows hP⟩

/-- The destination of the last instruction is known. -/
lemma known_of_destination {i : I} {r : ℕ} (h : V.code t = V.code s ++ [i])
    (hi : destination i = some r) (hv : register I v = some r) : V.Known t v := by
  intro r' hr'
  obtain rfl : r = r' := Option.some.inj (hv.symm.trans hr')
  exact h ▸ available_append.mpr (Or.inr ⟨i, List.mem_singleton_self i, hi⟩)

section Define

variable {i : I} (hcode : V.code t = V.code s ++ [i]) (hnext : V.next t = V.next s + 1)
  (hi : destination i = some (V.next s))

include hcode hnext hi

/-- An instruction that defines the next register. -/
lemma Grows.define : V.Grows s t :=
  ⟨[i], hcode, hnext ▸ Fresh.next hi⟩

/-- The register it defines, as an operand. -/
lemma Outcome.define (hv : register I v = some (V.next s)) :
    V.Outcome s t v (∀ u ∈ operands i, V.Known s u) where
  passed r hr := by
    obtain rfl : V.next s = r := Option.some.inj (hv.symm.trans hr)
    rw [hnext]
    exact Nat.lt_succ_self _
  iff := by
    rw [closed_iff_of_code_eq hcode]
    exact and_iff_left (known_of_destination hcode hi hv)

end Define

/-- An operand that is at hand. -/
lemma Outcome.refl (hv : V.Passed s v) : V.Outcome s s v (V.Known s v) := ⟨hv, Iff.rfl⟩

/-- An operand that enters the computation of the next one. -/
lemma Outcome.trans {good good' : Prop} (h : V.Outcome s t v good)
    (h' : V.Outcome t u w (V.Known t v ∧ good')) : V.Outcome s u w (good ∧ good') := by
  refine ⟨h'.passed, ?_⟩
  rw [h'.iff, ← and_assoc, h.iff, and_assoc]

/-- Two operands, one after the other: the first one is not lost meanwhile. -/
lemma Outcome.both {good good' : Prop} (h : V.Outcome s t v good) (hgrows : V.Grows t u)
    (h' : V.Outcome t u w good') :
    V.Closed u ∧ V.Known u v ∧ V.Known u w ↔ V.Closed s ∧ good ∧ good' := by
  rw [hgrows.known_iff h.passed, and_left_comm, h'.iff, and_left_comm, ← and_assoc, h.iff,
    and_assoc]

end View

end RegisterCode
