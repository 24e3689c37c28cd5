import InstaX.Foundation.TypedCode
import InstaX.IR.Syntax

/-!
# Typed code

The types of the intermediate representation: a general purpose register is used at 64 bits and a
temporary at the type it is defined at, the operands of a binary operation have the type of its
result, a truncation narrows and an extension widens an integer.
-/

namespace InstaX

open RegisterCode TypeSystem

/-- Both types are integer types, and the first one is narrower. -/
def IRType.Narrower (τ υ : IRType) : Prop :=
  τ.isInteger = true ∧ υ.isInteger = true ∧ τ.width < υ.width

instance (τ υ : IRType) : Decidable (τ.Narrower υ) :=
  inferInstanceAs (Decidable (_ ∧ _ ∧ _))

/-- The operations on two values of one type. -/
def Opcode.isBinary : Opcode → Bool
  | .add | .sub | .mul | .sdiv | .udiv | .srem | .urem | .and | .or | .xor | .shl | .lshr | .ashr
  | .fadd | .fsub | .fmul | .fdiv => true
  | _ => false

/-- The operations that ask something of types. -/
def Opcode.asksTypes : Opcode → Bool
  | .trunc | .zext | .sext => true
  | op => op.isBinary

namespace IRInst

/-- What the operation asks of the types of its operands and its result. -/
structure KeepsTypes (i : IRInst) : Prop where
  binary : i.opcode.isBinary = true → ∀ v ∈ i.operands, v.type = i.resultType
  trunc : i.opcode = .trunc → ∀ v ∈ i.operands, i.resultType.Narrower v.type
  ext : i.opcode = .zext ∨ i.opcode = .sext → ∀ v ∈ i.operands, v.type.Narrower i.resultType

variable {op : Opcode} {d : VReg} {ty : IRType} {v w : IRValue} {i : IRInst}

/-- An operation that asks nothing. -/
lemma keepsTypes_of_other (h : i.opcode.asksTypes = false) : i.KeepsTypes where
  binary hop := by
    have hasks : i.opcode.asksTypes = true := by
      unfold Opcode.asksTypes
      split <;> first | rfl | exact hop
    cases h.symm.trans hasks
  trunc hop := by
    rw [hop] at h
    cases h
  ext hop := by
    rcases hop with hop | hop
    · rw [hop] at h
      cases h
    · rw [hop] at h
      cases h

/-- A move keeps types whatever it moves. -/
lemma keepsTypes_makeMov : (makeMov d ty v).KeepsTypes :=
  keepsTypes_of_other rfl

/-- A binary operation keeps types if both operands have its type. -/
lemma keepsTypes_makeBinop (hop : op.isBinary = true) :
    (makeBinop op d ty v w).KeepsTypes ↔ v.type = ty ∧ w.type = ty := by
  constructor
  · intro h
    exact ⟨h.binary hop v (by simp [makeBinop]), h.binary hop w (by simp [makeBinop])⟩
  · rintro ⟨hv, hw⟩
    refine ⟨fun _ => by simpa [makeBinop] using ⟨hv, hw⟩, fun h => ?_, fun h => ?_⟩
    · obtain rfl : op = .trunc := h
      cases hop
    · rcases h with h | h
      · obtain rfl : op = .zext := h
        cases hop
      · obtain rfl : op = .sext := h
        cases hop

/-- A truncation has to go to a narrower type. -/
lemma keepsTypes_makeTrunc : (makeCast .trunc d ty v).KeepsTypes ↔ ty.Narrower v.type := by
  constructor
  · intro h
    exact h.trunc rfl v (by simp [makeCast])
  · intro h
    refine ⟨fun h' => ?_, fun _ => by simpa [makeCast] using h, fun h' => ?_⟩
    · cases h'
    · rcases h' with h' | h' <;> cases h'

/-- An extension has to come from a narrower type. -/
lemma keepsTypes_makeExt (hop : op = .zext ∨ op = .sext) :
    (makeCast op d ty v).KeepsTypes ↔ v.type.Narrower ty := by
  constructor
  · intro h
    exact h.ext hop v (by simp [makeCast])
  · intro h
    refine ⟨fun h' => ?_, fun h' => ?_, fun _ => by simpa [makeCast] using h⟩
    · rcases hop with rfl | rfl <;> cases h'
    · rcases hop with rfl | rfl <;> cases h'

end IRInst

/-- The types of the intermediate representation. -/
def irTypes : TypeSystem IRInst IRValue ℕ IRType where
  typeOf := IRValue.type
  resultType := IRInst.resultType
  fixed id := if id < 16 then some .i64 else none
  rule := IRInst.KeepsTypes

@[simp] lemma irTypes_typeOf (v : IRValue) : irTypes.typeOf v = v.type := rfl

@[simp] lemma irTypes_resultType (i : IRInst) : irTypes.resultType i = i.resultType := rfl

@[simp] lemma irTypes_rule (i : IRInst) : irTypes.rule i ↔ i.KeepsTypes := Iff.rfl

/-- The guest registers have 64 bits. -/
lemma irTypes_fixed_of_lt {id : ℕ} (h : id < 16) : irTypes.fixed id = some .i64 := if_pos h

/-- No other register has a fixed type. -/
lemma irTypes_fixed_of_ge {id : ℕ} (h : 16 ≤ id) : irTypes.fixed id = none :=
  if_neg (not_lt.mpr h)

end InstaX
