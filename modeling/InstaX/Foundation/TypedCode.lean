import InstaX.Foundation.RegisterCode

/-!
# Types of registers in straight-line code

A type system for register code gives types to operands and results and to some fixed registers, and
has a rule of its own for instructions.  A register has the types of all its definitions, wherever
they stand in the code; an instruction is typed in the code if it obeys the rule and uses the
registers of its operands and of its destination at the types they have.

Code is usually appended with destinations from a counter.  Such code gives no new type to a
register that the counter has passed (`Later.hasType_append_iff`), so that an instruction can be
judged when it is appended (`typed_concat_iff`).  `TypedWhen` is the corresponding judgement about
programs.
-/

/-- Types for register code. -/
structure TypeSystem (I O R T : Type*) where
  typeOf : O → T
  resultType : I → T
  fixed : R → Option T
  rule : I → Prop

namespace TypeSystem

open RegisterCode Throwing

variable {I O R T : Type*} [RegisterCode I O R] (S : TypeSystem I O R T)

/-- The register is fixed at the type, or defined at it. -/
def HasType (is : List I) (r : R) (τ : T) : Prop :=
  S.fixed r = some τ ∨ ∃ i ∈ is, destination i = some r ∧ S.resultType i = τ

/-- The operand uses its register at the types that the register has. -/
def Agrees (is : List I) (v : O) : Prop :=
  ∀ r, register I v = some r → ∀ τ, S.HasType is r τ → S.typeOf v = τ

/-- The instruction is typed in the code. -/
structure Typed (is : List I) (i : I) : Prop where
  rule : S.rule i
  operands : ∀ v ∈ operands i, S.Agrees is v
  destination : ∀ r, destination i = some r → ∀ τ, S.HasType is r τ → S.resultType i = τ

variable {S} {is js : List I} {i : I} {v : O} {r : R} {τ : T}

/-- A register has its type from one of two pieces of code. -/
lemma hasType_append_iff :
    S.HasType (is ++ js) r τ ↔
      S.HasType is r τ ∨ ∃ j ∈ js, destination j = some r ∧ S.resultType j = τ := by
  unfold HasType
  simp only [List.mem_append, or_and_right, exists_or, or_assoc]

/-- An operand that reads no register agrees with all code. -/
lemma agrees_of_register_eq_none (hv : register I v = none) : S.Agrees is v :=
  fun _ hr => absurd (hv.symm.trans hr) (by simp)

/-- What agrees with code agrees with a part of it. -/
lemma Agrees.of_append (h : S.Agrees (is ++ js) v) : S.Agrees is v :=
  fun r hr τ hτ => h r hr τ (hasType_append_iff.mpr (Or.inl hτ))

/-! ## Destinations taken from a counter -/

section Counter

variable {I O T : Type*} [RegisterCode I O ℕ] (S : TypeSystem I O ℕ T) {is js : List I} {i : I}
  {v : O} {n n' r : ℕ} {τ : T}

/-- The counter has passed the registers of the instruction. -/
structure Behind (n : ℕ) (i : I) : Prop where
  operands : ∀ v ∈ operands i, ∀ r, register I v = some r → r < n
  destination : ∀ r, destination i = some r → r < n

/-- The code defines fixed registers, at their types, and registers that the counter has not
passed. -/
def Later (n : ℕ) (js : List I) : Prop :=
  ∀ j ∈ js, ∀ r, destination j = some r → S.fixed r = some (S.resultType j) ∨ n ≤ r

variable {S}

lemma Behind.of_le (h : Behind n i) (hn : n ≤ n') : Behind n' i :=
  ⟨fun v hv r hr => (h.operands v hv r hr).trans_le hn, fun r hr =>
    (h.destination r hr).trans_le hn⟩

lemma later_nil : S.Later n ([] : List I) := by simp [Later]

/-- Later code may be appended to later code. -/
lemma Later.append (his : S.Later n is) (hjs : S.Later n' js) (hn : n ≤ n') :
    S.Later n (is ++ js) := by
  intro i hi r hr
  rcases List.mem_append.mp hi with hi | hi
  · exact his i hi r hr
  · exact (hjs i hi r hr).imp_right hn.trans

/-- Later code gives no type to a register that the counter has passed. -/
lemma Later.hasType_append_iff (hjs : S.Later n js) (hr : r < n) :
    S.HasType (is ++ js) r τ ↔ S.HasType is r τ := by
  rw [TypeSystem.hasType_append_iff]
  refine or_iff_left_of_imp ?_
  rintro ⟨j, hj, hjr, rfl⟩
  exact Or.inl ((hjs j hj r hjr).resolve_right (by omega))

/-- Whether a passed operand agrees does not depend on later code. -/
lemma Later.agrees_append_iff (hjs : S.Later n js) (hv : ∀ r, register I v = some r → r < n) :
    S.Agrees (is ++ js) v ↔ S.Agrees is v :=
  forall₂_congr fun r hr => forall_congr' fun _ => by rw [hjs.hasType_append_iff (hv r hr)]

/-- An instruction is judged when it is appended: later code changes nothing. -/
lemma Later.typed_append_iff (hjs : S.Later n js) (hi : Behind n i) :
    S.Typed (is ++ js) i ↔ S.Typed is i := by
  have hops : (∀ v ∈ operands i, S.Agrees (is ++ js) v) ↔ ∀ v ∈ operands i, S.Agrees is v :=
    forall₂_congr fun v hv => hjs.agrees_append_iff (hi.operands v hv)
  have hdst : (∀ r, destination i = some r → ∀ τ, S.HasType (is ++ js) r τ → S.resultType i = τ) ↔
      ∀ r, destination i = some r → ∀ τ, S.HasType is r τ → S.resultType i = τ :=
    forall₂_congr fun r hr => forall_congr' fun τ => by
      rw [hjs.hasType_append_iff (hi.destination r hr)]
  exact ⟨fun h => ⟨h.rule, hops.mp h.operands, hdst.mp h.destination⟩,
    fun h => ⟨h.rule, hops.mpr h.operands, hdst.mpr h.destination⟩⟩

end Counter

/-! ## Programs that append typed code -/

section Programs

variable {σ I O T α β : Type} [RegisterCode I O ℕ] (S : TypeSystem I O ℕ T) (V : View σ I)
  {s t u : σ} {v : O} {i : I} {τ : T}

/-- The counter is past all registers, and fixed registers were defined at their types only. -/
structure Settled (s : σ) : Prop where
  base_le : V.base ≤ V.next s
  behind : ∀ i ∈ V.code s, Behind (V.next s) i
  fixed : ∀ i ∈ V.code s, ∀ r, destination i = some r → ∀ τ, S.fixed r = some τ →
    S.resultType i = τ

/-- Code with later destinations was appended. -/
def Grows (s t : σ) : Prop :=
  V.next s ≤ V.next t ∧ ∃ is, V.code t = V.code s ++ is ∧ S.Later (V.next s) is

/-- The operand has the type, and its register, which the counter has passed, has no other. -/
structure HasOperand (s : σ) (v : O) (τ : T) : Prop where
  type : S.typeOf v = τ
  passed : V.Passed s v
  agrees : S.Agrees (V.code s) v

/-- The program returns and appends code, in which all is typed exactly when the condition holds;
there is room for more, and the postcondition holds of its value and state. -/
def TypedWhen (act : Prog σ α) (s : σ) (good : Prop) (Q : α → σ → Prop) : Prop :=
  ∃ a t is, act.run s = .ok a t ∧ V.code t = V.code s ++ is ∧ V.IsOpen t ∧ S.Settled V t ∧
    V.next s ≤ V.next t ∧ S.Later (V.next s) is ∧ ((∀ i ∈ is, S.Typed (V.code t) i) ↔ good) ∧ Q a t

variable {S V}

lemma Grows.refl (s : σ) : S.Grows V s s := ⟨le_rfl, [], by simp, later_nil⟩

lemma Grows.trans (h : S.Grows V s t) (h' : S.Grows V t u) : S.Grows V s u := by
  obtain ⟨hnext, is, hcode, his⟩ := h
  obtain ⟨hnext', js, hcode', hjs⟩ := h'
  refine ⟨hnext.trans hnext', is ++ js, ?_, his.append hjs hnext⟩
  rw [hcode', hcode, List.append_assoc]

lemma Grows.passed (h : S.Grows V s t) (hv : V.Passed s v) : V.Passed t v :=
  fun r hr => (hv r hr).trans_le h.1

/-- Whether a passed operand agrees does not change as the code grows. -/
lemma Grows.agrees_iff (h : S.Grows V s t) (hv : V.Passed s v) :
    S.Agrees (V.code t) v ↔ S.Agrees (V.code s) v := by
  obtain ⟨-, is, hcode, his⟩ := h
  rw [hcode]
  exact his.agrees_append_iff hv

/-- An instruction is judged where it stands: later code changes nothing. -/
lemma Grows.typed_iff (hs : S.Settled V s) (h : S.Grows V s t) (hi : i ∈ V.code s) :
    S.Typed (V.code t) i ↔ S.Typed (V.code s) i := by
  obtain ⟨-, is, hcode, his⟩ := h
  rw [hcode]
  exact his.typed_append_iff (hs.behind i hi)

/-- An operand keeps its type as the code grows. -/
lemma HasOperand.grows (h : S.HasOperand V s v τ) (hgrows : S.Grows V s t) :
    S.HasOperand V t v τ :=
  ⟨h.type, hgrows.passed h.passed, (hgrows.agrees_iff h.passed).mpr h.agrees⟩

/-- An operand that reads no register. -/
lemma hasOperand_of_register_eq_none (hv : register I v = none) (hτ : S.typeOf v = τ) :
    S.HasOperand V s v τ :=
  ⟨hτ, fun _ hr => absurd (hv.symm.trans hr) (by simp), agrees_of_register_eq_none hv⟩

/-- A fixed register, as an operand of its type. -/
lemma hasOperand_of_fixed {r : ℕ} (hs : S.Settled V s) (hr : register I v = some r)
    (hlt : r < V.base) (hfixed : S.fixed r = some τ) (hτ : S.typeOf v = τ) :
    S.HasOperand V s v τ := by
  refine ⟨hτ, fun r' hr' => ?_, fun r' hr' τ' hτ' => ?_⟩
  · obtain rfl : r = r' := Option.some.inj (hr.symm.trans hr')
    exact hlt.trans_le hs.base_le
  · obtain rfl : r = r' := Option.some.inj (hr.symm.trans hr')
    rw [hτ]
    rcases hτ' with h | ⟨j, hj, hjr, rfl⟩
    · exact Option.some.inj (hfixed.symm.trans h)
    · exact (hs.fixed j hj r hjr τ hfixed).symm

namespace TypedWhen

variable {act : Prog σ α} {f : α → Prog σ β} {good good' : Prop} {P Q : α → σ → Prop}

lemma pure {a : α} (hopen : V.IsOpen s) (hs : S.Settled V s) (h : Q a s) :
    S.TypedWhen V (pure a) s True Q :=
  ⟨a, s, [], rfl, by simp, hopen, hs, le_rfl, later_nil, by simp, h⟩

/-- Code in two parts is typed exactly when both parts are. -/
lemma bind {R : β → σ → Prop} (h : S.TypedWhen V act s good P)
    (hf : ∀ a t, V.IsOpen t → S.Settled V t → S.Grows V s t → P a t →
      S.TypedWhen V (f a) t good' R) :
    S.TypedWhen V (act >>= f) s (good ∧ good') R := by
  obtain ⟨a, t, is, hrun, hcode, hopen, ht, hnext, his, hgood, hP⟩ := h
  obtain ⟨b, u, js, hrun', hcode', hopen', hu, hnext', hjs, hgood', hR⟩ :=
    hf a t hopen ht ⟨hnext, is, hcode, his⟩ hP
  refine ⟨b, u, is ++ js, by rw [run_bind_of_ok hrun, hrun'], ?_, hopen', hu, hnext.trans hnext',
    his.append hjs hnext, ?_, hR⟩
  · rw [hcode', hcode, List.append_assoc]
  · have hfirst : (∀ i ∈ is, S.Typed (V.code u) i) ↔ ∀ i ∈ is, S.Typed (V.code t) i := by
      refine forall₂_congr fun i hi => Grows.typed_iff ht ⟨hnext', js, hcode', hjs⟩ ?_
      rw [hcode]
      exact List.mem_append_right _ hi
    rw [List.forall_mem_append, hfirst, hgood, hgood']

lemma mono (h : S.TypedWhen V act s good P) (hiff : good ↔ good')
    (hPQ : ∀ a t, S.Grows V s t → P a t → Q a t) : S.TypedWhen V act s good' Q := by
  obtain ⟨a, t, is, hrun, hcode, hopen, ht, hnext, his, hgood, hP⟩ := h
  exact ⟨a, t, is, hrun, hcode, hopen, ht, hnext, his, hgood.trans hiff,
    hPQ a t ⟨hnext, is, hcode, his⟩ hP⟩

/-- Only the run matters. -/
lemma of_run_eq {act' : Prog σ α} (hrun : act.run s = act'.run s)
    (h : S.TypedWhen V act' s good Q) : S.TypedWhen V act s good Q := by
  unfold TypedWhen
  rw [hrun]
  exact h

lemma congr (h : S.TypedWhen V act s good P) (hiff : good ↔ good') : S.TypedWhen V act s good' P :=
  h.mono hiff fun _ _ _ hP => hP

/-- Less may be asked of the states of a program. -/
lemma of_isOpen {p : σ → Prop} (h : S.TypedWhen V act s good P) (hp : ∀ t, V.IsOpen t → p t) :
    S.TypedWhen { V with IsOpen := p } act s good P := by
  obtain ⟨a, t, is, hrun, hcode, hopen, ht, hnext, his, hgood, hP⟩ := h
  exact ⟨a, t, is, hrun, hcode, hp t hopen, ⟨ht.base_le, ht.behind, ht.fixed⟩, hnext, his,
    hgood, hP⟩

/-- Code in two parts, of which the first is typed. -/
lemma bind_of_true {R : β → σ → Prop} (h : S.TypedWhen V act s True P)
    (hf : ∀ a t, V.IsOpen t → S.Settled V t → S.Grows V s t → P a t →
      S.TypedWhen V (f a) t good R) : S.TypedWhen V (act >>= f) s good R :=
  (h.bind hf).congr (and_iff_right trivial)

end TypedWhen

/-- The program returns and appends code, whether it is typed or not. -/
def Runs (S : TypeSystem I O ℕ T) (V : View σ I) (act : Prog σ α) (s : σ) (Q : α → σ → Prop) :
    Prop :=
  ∃ good, S.TypedWhen V act s good Q

/-- A program with a judgement runs. -/
lemma TypedWhen.runs {act : Prog σ α} {good : Prop} {Q : α → σ → Prop}
    (h : S.TypedWhen V act s good Q) : Runs S V act s Q := ⟨good, h⟩

lemma Runs.mono {act : Prog σ α} {P Q : α → σ → Prop} (h : Runs S V act s P)
    (hPQ : ∀ a t, S.Grows V s t → P a t → Q a t) : Runs S V act s Q :=
  h.elim fun good h => ⟨good, h.mono Iff.rfl hPQ⟩

/-- Code in two parts, of which the second is never typed. -/
lemma Runs.bind_of_false {act : Prog σ α} {f : α → Prog σ β} {P : α → σ → Prop}
    {Q : β → σ → Prop} (h : Runs S V act s P)
    (hf : ∀ a t, V.IsOpen t → S.Settled V t → S.Grows V s t → P a t →
      S.TypedWhen V (f a) t False Q) : S.TypedWhen V (act >>= f) s False Q :=
  h.elim fun _ h => (h.bind hf).congr (and_iff_right_of_imp False.elim)

/-- Programs in sequence run in sequence. -/
lemma Runs.bind {act : Prog σ α} {f : α → Prog σ β} {P : α → σ → Prop} {Q : β → σ → Prop}
    (h : Runs S V act s P)
    (hf : ∀ a t, V.IsOpen t → S.Settled V t → S.Grows V s t → P a t → Runs S V (f a) t Q) :
    Runs S V (act >>= f) s Q := by
  obtain ⟨good, a, t, is, hrun, hcode, hopen, ht, hnext, his, hgood, hP⟩ := h
  obtain ⟨good', hrest⟩ := hf a t hopen ht ⟨hnext, is, hcode, his⟩ hP
  have hfirst : S.TypedWhen V act s good fun a' t' => a' = a ∧ t' = t :=
    ⟨a, t, is, hrun, hcode, hopen, ht, hnext, his, hgood, rfl, rfl⟩
  refine ⟨good ∧ good', hfirst.bind ?_⟩
  rintro _ _ _ _ _ ⟨rfl, rfl⟩
  exact hrest

/-- The destination of an appended instruction: none, a fixed register at its type, or the next
register of the counter. -/
def Defines (S : TypeSystem I O ℕ T) (V : View σ I) (i : I) (s t : σ) : Prop :=
  destination i = none ∧ V.next t = V.next s ∨
    (∃ r, destination i = some r ∧ r < V.base ∧ S.fixed r = some (S.resultType i)) ∧
        V.next t = V.next s ∨
      destination i = some (V.next s) ∧ V.next t = V.next s + 1

lemma Defines.next_le (h : Defines S V i s t) : V.next s ≤ V.next t := by
  rcases h with ⟨-, h⟩ | ⟨-, h⟩ | ⟨-, h⟩ <;> omega

/-- The instruction comes later than the counter. -/
lemma Defines.later (h : Defines S V i s t) : S.Later (V.next s) [i] := by
  intro j hj r hr
  obtain rfl := List.mem_singleton.mp hj
  rcases h with ⟨h, -⟩ | ⟨⟨r', h, -, hr'⟩, -⟩ | ⟨h, -⟩
  · exact absurd (h.symm.trans hr) (by simp)
  · obtain rfl : r' = r := Option.some.inj (h.symm.trans hr)
    exact Or.inl hr'
  · exact Or.inr (Option.some.inj (h.symm.trans hr)).le

section Push

variable (hs : S.Settled V s) (hcode : V.code t = V.code s ++ [i])
  (hops : ∀ v ∈ operands i, V.Passed s v) (hfixed : ∀ r, V.base ≤ r → S.fixed r = none)
  (hdst : Defines S V i s t)

include hs hcode hops hfixed hdst

/-- The state stays settled. -/
lemma settled_of_defines : S.Settled V t := by
  have hnext : V.next s ≤ V.next t := hdst.next_le
  have hbase := hs.base_le
  refine ⟨hbase.trans hnext, fun j hj => ?_, fun j hj r hr τ hτ => ?_⟩
  · rw [hcode] at hj
    rcases List.mem_append.mp hj with hj | hj
    · exact (hs.behind j hj).of_le hnext
    · obtain rfl := List.mem_singleton.mp hj
      refine ⟨fun v hv r hr => (hops v hv r hr).trans_le hnext, fun r hr => ?_⟩
      rcases hdst with ⟨h, -⟩ | ⟨⟨r', h, hlt, -⟩, -⟩ | ⟨h, hnext'⟩
      · exact absurd (h.symm.trans hr) (by simp)
      · obtain rfl : r' = r := Option.some.inj (h.symm.trans hr)
        omega
      · obtain rfl : V.next s = r := Option.some.inj (h.symm.trans hr)
        omega
  · rw [hcode] at hj
    rcases List.mem_append.mp hj with hj | hj
    · exact hs.fixed j hj r hr τ hτ
    · obtain rfl := List.mem_singleton.mp hj
      have hnone : V.base ≤ r → False := fun h => by simp [hfixed r h] at hτ
      rcases hdst.later j (by simp) r hr with h | h
      · exact Option.some.inj (h.symm.trans hτ)
      · exact absurd (hbase.trans h) hnone

/-- One more instruction is typed exactly when it obeys the rule and its operands agree with the
code before it. -/
lemma typed_concat_iff :
    S.Typed (V.code t) i ↔ S.rule i ∧ ∀ v ∈ operands i, S.Agrees (V.code s) v := by
  have hlater := hdst.later
  have hagrees : ∀ v ∈ operands i, (S.Agrees (V.code t) v ↔ S.Agrees (V.code s) v) := by
    intro v hv
    rw [hcode]
    exact hlater.agrees_append_iff (hops v hv)
  refine ⟨fun h => ⟨h.rule, fun v hv => (hagrees v hv).mp (h.operands v hv)⟩, ?_⟩
  rintro ⟨hrule, hops'⟩
  refine ⟨hrule, fun v hv => (hagrees v hv).mpr (hops' v hv), fun r hr τ hτ => ?_⟩
  have ht := settled_of_defines hs hcode hops hfixed hdst
  have hi : i ∈ V.code t := by simp [hcode]
  -- a fixed register has no other type; the next register of the counter has no other definition
  rcases hτ with hτ | ⟨j, hj, hjr, rfl⟩
  · exact ht.fixed i hi r hr τ hτ
  · rw [hcode] at hj
    rcases List.mem_append.mp hj with hj | hj
    · rcases hlater i (by simp) r hr with h | h
      · exact (hs.fixed j hj r hjr _ h).symm
      · exact absurd ((hs.behind j hj).destination r hjr) (not_lt.mpr h)
    · obtain rfl := List.mem_singleton.mp hj
      rfl

/-- Appending one instruction. -/
lemma typedWhen_of_run {act : Prog σ α} {a : α} {Q : α → σ → Prop} (hrun : act.run s = .ok a t)
    (hopen : V.IsOpen t) (hQ : Q a t) :
    S.TypedWhen V act s (S.rule i ∧ ∀ v ∈ operands i, S.Agrees (V.code s) v) Q := by
  refine ⟨a, t, [i], hrun, hcode, hopen, settled_of_defines hs hcode hops hfixed hdst,
    hdst.next_le, hdst.later, ?_, hQ⟩
  rw [List.forall_mem_singleton]
  exact typed_concat_iff hs hcode hops hfixed hdst

end Push

/-- The next register, just defined, as an operand of the type of its definition. -/
lemma hasOperand_of_defined (hs : S.Settled V s) (hcode : V.code t = V.code s ++ [i])
    (hnext : V.next t = V.next s + 1) (hfixed : ∀ r, V.base ≤ r → S.fixed r = none)
    (hi : destination i = some (V.next s)) (hv : register I v = some (V.next s))
    (hτ : S.typeOf v = S.resultType i) : S.HasOperand V t v (S.resultType i) := by
  refine ⟨hτ, fun r hr => ?_, fun r hr τ hτ' => ?_⟩
  · obtain rfl : V.next s = r := Option.some.inj (hv.symm.trans hr)
    omega
  · obtain rfl : V.next s = r := Option.some.inj (hv.symm.trans hr)
    rcases hτ' with h | ⟨j, hj, hjr, rfl⟩
    · exact absurd ((hfixed _ hs.base_le).symm.trans h) (by simp)
    · rw [hcode] at hj
      rcases List.mem_append.mp hj with hj | hj
      · exact absurd ((hs.behind j hj).destination _ hjr) (lt_irrefl _)
      · obtain rfl := List.mem_singleton.mp hj
        exact hτ

end Programs

end TypeSystem
