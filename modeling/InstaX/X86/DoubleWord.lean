import InstaX.Foundation.DoubleWidth
import InstaX.X86.Semantics

/-!
# Wide multiplication and division

One-operand `IMUL`, `DIV` and `IDIV` of a 16-bit, 32-bit or 64-bit register (`execWide`), which work
on the double word in `RDX:RAX` at the width of the operand.

The 64-bit product, quotient and remainder of `RAX` and the operand, extended with zeros, are what
the processor leaves in the two registers exactly if the product has no high half, the dividend is
`RAX` alone, and the upper halves of `RAX` and `RDX` come out as the processor keeps or clears them
(`imul_eq_write_iff`, `div_eq_write_iff`, `idiv_eq_write_iff`).
-/

namespace InstaX

open FixedWidth DoubleWidth

/-! ## The architecture -/

/-- The words that a wide instruction leaves in `RAX` and `RDX`, from the words `a` and `d` in them
and the operand; `none` is a divide error. -/
def ZydisMnemonic.wideResult {w : ℕ} (mnemonic : ZydisMnemonic) (a d b : BitVec w) :
    Option (BitVec w × BitVec w) :=
  match mnemonic with
  | .imul =>
      let product := a.toInt * b.toInt
      some (BitVec.ofInt w product, BitVec.ofInt w (product / 2 ^ w))
  | .div =>
      let dividend := d.toNat * 2 ^ w + a.toNat
      if b = 0 ∨ 2 ^ w ≤ dividend / b.toNat then none
      else some (BitVec.ofNat w (dividend / b.toNat), BitVec.ofNat w (dividend % b.toNat))
  | .idiv =>
      let dividend := d.toInt * 2 ^ w + a.toNat
      let quotient := dividend.tdiv b.toInt
      if b = 0 ∨ quotient < -2 ^ (w - 1) ∨ 2 ^ (w - 1) ≤ quotient then none
      else some (BitVec.ofInt w quotient, BitVec.ofInt w (dividend.tmod b.toInt))
  | _ => none

namespace ZydisMnemonic

variable {w : ℕ} {a d b q r : BitVec w}

/-- An unsigned division: quotient and remainder of the double word. -/
lemma spec_of_wideResult_div (h : wideResult .div a d b = some (q, r)) :
    q.toNat * b.toNat + r.toNat = d.toNat * 2 ^ w + a.toNat ∧ r.toNat < b.toNat := by
  simp only [wideResult] at h
  split_ifs at h with herr
  push Not at herr
  obtain ⟨hb, hq⟩ := herr
  have hb' : 0 < b.toNat := Nat.pos_of_ne_zero fun h0 =>
    hb (BitVec.toNat_inj.mp (by simpa using h0))
  have hr := Nat.mod_lt (d.toNat * 2 ^ w + a.toNat) hb'
  obtain ⟨rfl, rfl⟩ : BitVec.ofNat w _ = q ∧ BitVec.ofNat w _ = r := by simpa using h
  rw [BitVec.toNat_ofNat, BitVec.toNat_ofNat, Nat.mod_eq_of_lt hq,
    Nat.mod_eq_of_lt (hr.trans b.isLt)]
  exact ⟨Nat.div_add_mod' _ _, hr⟩

/-- A signed division: quotient and remainder of the double word, truncated towards zero. -/
lemma spec_of_wideResult_idiv (h : wideResult .idiv a d b = some (q, r)) :
    b ≠ 0 ∧ q.toInt = (d.toInt * 2 ^ w + a.toNat).tdiv b.toInt ∧
      r.toInt = (d.toInt * 2 ^ w + a.toNat).tmod b.toInt := by
  simp only [wideResult] at h
  split_ifs at h with herr
  push Not at herr
  obtain ⟨hb, hlo, hhi⟩ := herr
  obtain ⟨rfl, rfl⟩ : BitVec.ofInt w _ = q ∧ BitVec.ofInt w _ = r := by simpa using h
  have hw := width_pos_of_ne_zero hb
  exact ⟨hb, BitVec.toInt_ofInt_eq_self hw hlo hhi, toInt_ofInt_tmod _ hb⟩

/-- So the dividend is the quotient times the operand and a smaller remainder. -/
lemma sum_of_wideResult_idiv (h : wideResult .idiv a d b = some (q, r)) :
    q.toInt * b.toInt + r.toInt = d.toInt * 2 ^ w + a.toNat ∧
      r.toInt.natAbs < b.toInt.natAbs := by
  obtain ⟨hb, hq, hr⟩ := spec_of_wideResult_idiv h
  rw [hq, hr]
  exact ⟨Int.tdiv_mul_add_tmod _ _, natAbs_tmod_lt _ hb⟩

end ZydisMnemonic

namespace ZydisDecodedInstruction

/-- A one-operand `imul`, a `div` or an `idiv` of the part `p` of `g`, which is wider than a
byte. -/
structure WideForm (z : ZydisDecodedInstruction) (g : Gpr) (p : RegPart) : Prop where
  mnemonic : z.mnemonic = .imul ∧ z.operandCountVisible = 1 ∨ z.mnemonic = .div ∨ z.mnemonic = .idiv
  type : (z.op 0).type = .register
  view : (z.op 0).reg.view = some (g, p)
  wide : p.type ≠ .i8

/-- The register file of the processor after a wide instruction, unless it raises a divide error. -/
def execWide (z : ZydisDecodedInstruction) (f : RegFile) (g : Gpr) (p : RegPart) : Option RegFile :=
  (z.mnemonic.wideResult (f.read .rax p) (f.read .rdx p) (f.read g p)).map fun out =>
    (f.write .rax p out.1).write .rdx p out.2

end ZydisDecodedInstruction

namespace RegPart

variable {p : RegPart}

/-- The bits above a part that a write of it keeps, as a number. -/
def keptNat (p : RegPart) (x : BitVec 64) : ℕ := if p = .word then x.toNat / 2 ^ 16 else 0

/-- The bits above a part that a write of it keeps, as a number in two's complement. -/
def keptInt (p : RegPart) (x : BitVec 64) : ℤ := if p = .word then x.toInt / 2 ^ 16 else 0

/-- A register after a write, as a number. -/
lemma toNat_write (hp : p.type ≠ .i8) (x : BitVec 64) (v : BitVec p.type.width) :
    (p.write x v).toNat = p.keptNat x * 2 ^ p.type.width + v.toNat := by
  cases p with
  | low8 | high8 => exact absurd rfl hp
  | word => exact toNat_insertBits_zero x v (by decide)
  | dword =>
    have hv : (v.setWidth 64).toNat = v.toNat := BitVec.toNat_setWidth_of_le (by decide)
    simp [write, keptNat, hv]
  | qword => simp [write, keptNat]

/-- A register after a write that is narrower, as a number in two's complement. -/
lemma toInt_write (hp : p.type ≠ .i8) (hq : p ≠ .qword) (x : BitVec 64) (v : BitVec p.type.width) :
    (p.write x v).toInt = p.keptInt x * 2 ^ p.type.width + v.toNat := by
  have hwrite := toNat_write hp x v
  have hx := x.isLt
  cases p with
  | low8 | high8 => exact absurd rfl hp
  | word =>
    have hv : v.toNat < 2 ^ 16 := v.isLt
    simp only [keptNat, keptInt, if_true, IRType.width] at hwrite ⊢
    rw [BitVec.toInt_eq_toNat_cond, BitVec.toInt_eq_toNat_cond, hwrite]
    split_ifs <;> omega
  | dword =>
    have hv : v.toNat < 2 ^ 32 := v.isLt
    simp only [keptNat, keptInt, IRType.width, reduceCtorEq, if_false] at hwrite ⊢
    rw [BitVec.toInt_eq_toNat_cond, hwrite]
    split_ifs <;> omega
  | qword => exact absurd rfl hq

/-- The part at bit zero, as a number. -/
lemma toNat_read (hp : p.type ≠ .i8) (x : BitVec 64) :
    (p.read x).toNat = x.toNat % 2 ^ p.type.width := by
  have hoffset : p.offset = 0 := by
    cases p <;> first | rfl | exact absurd rfl hp
  rw [read, hoffset, BitVec.ushiftRight_zero, BitVec.toNat_setWidth]

/-- A register is the bits above a part and the part. -/
lemma div_mul_add_toNat_read (hp : p.type ≠ .i8) (x : BitVec 64) :
    x.toNat / 2 ^ p.type.width * 2 ^ p.type.width + (p.read x).toNat = x.toNat := by
  rw [toNat_read hp]
  exact Nat.div_add_mod' _ _

/-- A register is the bits above a narrower part, in two's complement, and the part. -/
lemma div_mul_add_toInt_read (hp : p.type ≠ .i8) (hq : p ≠ .qword) (x : BitVec 64) :
    x.toInt / 2 ^ p.type.width * 2 ^ p.type.width + (p.read x).toNat = x.toInt := by
  rw [toNat_read hp, BitVec.toInt_eq_toNat_cond]
  cases p with
  | low8 | high8 => exact absurd rfl hp
  | word | dword => simp only [IRType.width]; split_ifs <;> omega
  | qword => exact absurd rfl hq

end RegPart

/-! ## When single words do -/

/-- A single-word division has a value. -/
structure Divides (isSigned : Bool) (a b : BitVec 64) : Prop where
  ne_zero : b ≠ 0
  no_overflow : isSigned = true → ¬ (a = BitVec.intMin 64 ∧ b = -1)

section Conditions

variable (f : RegFile) (g : Gpr) (p : RegPart)

/-- The signed product. -/
def wideProduct : ℤ := (f.read .rax p).toInt * (f.read g p).toInt

/-- The signed dividend. -/
def signedDividend : ℤ := (f.read .rdx p).toInt * 2 ^ p.type.width + (f.read .rax p).toNat

/-- The quotient of the signed dividend, as a word. -/
def signedQuotient : BitVec p.type.width :=
  BitVec.ofInt _ ((signedDividend f p).tdiv (f.read g p).toInt)

/-- The remainder of the signed dividend. -/
def signedRemainder : ℤ := (signedDividend f p).tmod (f.read g p).toInt

/-- What makes a product of `RAX`, with zero for its high half, right. -/
structure ImulRight : Prop where
  /-- The signed product has no high half. -/
  product : 0 ≤ wideProduct f g p ∧ wideProduct f g p < 2 ^ p.type.width
  /-- The bits of `RDX` that a write keeps are zero. -/
  rdx : p.keptNat (f .rdx) = 0
  /-- The bits above the operand in `RAX` become zero, or what they were if a write keeps them. -/
  rax : (2 : ℤ) ^ (64 - p.type.width) ∣
    ((f .rax).toNat / 2 ^ p.type.width : ℕ) * (f.read g p).toNat - p.keptNat (f .rax) +
      signExcess (f.read .rax p) (f.read g p)

/-- What makes an unsigned division of `RAX` alone right. -/
structure DivRight : Prop where
  /-- A 16-bit dividend has no upper word, and nothing is kept above the quotient unless it is
  divided by one. -/
  word : p = .word → f .rdx = 0 ∧ ((f .rax).toNat < 2 ^ 16 ∨ (f.read g p).toNat = 1)
  /-- The upper word of a 32-bit dividend is in the upper half of `RAX` too. -/
  dword : p = .dword → (f .rdx).toNat % 2 ^ 32 = (f .rax).toNat / 2 ^ 32
  /-- A 64-bit dividend has no upper word. -/
  qword : p = .qword → f .rdx = 0

/-- What makes a signed division of `RAX` alone, by the unsigned operand if that is narrower,
right. -/
structure IdivRight : Prop where
  /-- The upper word of a 64-bit dividend is the sign of `RAX`. -/
  qword : p = .qword → (f .rdx).toInt = -wraps (f .rax).toInt
  /-- The bits of `RDX` that a write keeps, or zero, are the sign of the remainder. -/
  rdx : p ≠ .qword → p.keptInt (f .rdx) = -wraps (signedRemainder f g p)
  /-- The remainder has the sign of `RAX`. -/
  sign : p ≠ .qword → (0 ≤ (f .rax).toInt → 0 ≤ signedRemainder f g p) ∧
    ((f .rax).toInt < 0 → signedRemainder f g p ≤ 0)
  /-- The bits above the operand in `RAX` are the upper word of the dividend, up to what is kept
  above the quotient and what the quotient and the operand lose by being read as unsigned words. -/
  rax : p ≠ .qword → (f .rax).toInt / 2 ^ p.type.width =
    p.keptInt (f .rax) * (f.read g p).toNat + (f.read .rdx p).toInt +
      signExcess (signedQuotient f g p) (f.read g p)

end Conditions

namespace RegPart

variable {f : RegFile} {g : Gpr} {p : RegPart}

/-- An operand that is extended with zeros. -/
lemma toNat_setWidth_read (x : BitVec p.type.width) : (x.setWidth 64).toNat = x.toNat :=
  BitVec.toNat_setWidth_of_le p.type.width_le

/-- A write leaves zero exactly if it writes zero below zero bits. -/
lemma write_eq_zero_iff (hp : p.type ≠ .i8) (x : BitVec 64) (v : BitVec p.type.width) :
    p.write x v = 0 ↔ p.keptNat x = 0 ∧ v = 0 := by
  rw [← BitVec.toNat_inj, toNat_write hp, ← BitVec.toNat_inj]
  simp

/-- It is zero only if the operand is. -/
lemma setWidth_read_ne_zero {x : BitVec p.type.width} (hx : x ≠ 0) : x.setWidth 64 ≠ 0 := by
  intro h0
  have hnat := congrArg BitVec.toNat h0
  rw [toNat_setWidth_read] at hnat
  exact hx (BitVec.toNat_inj.mp (by simpa using hnat))

/-- The product of `RAX` and the operand is a signed product without a high half, below the bits
that a write keeps. -/
lemma mul_eq_write_iff (hp : p.type ≠ .i8) (h0 : 0 ≤ wideProduct f g p)
    (hlt : wideProduct f g p < 2 ^ p.type.width) :
    f .rax * (f.read g p).setWidth 64 = p.write (f .rax) (BitVec.ofInt _ (wideProduct f g p)) ↔
      (2 : ℤ) ^ (64 - p.type.width) ∣
        ((f .rax).toNat / 2 ^ p.type.width : ℕ) * (f.read g p).toNat - p.keptNat (f .rax) +
          signExcess (f.read .rax p) (f.read g p) := by
  have hsplit : (((f .rax).toNat / 2 ^ p.type.width : ℕ) : ℤ) * 2 ^ p.type.width +
      (f.read .rax p).toNat = (f .rax).toNat := by
    exact_mod_cast div_mul_add_toNat_read hp (f .rax)
  have hwrite : ((p.write (f .rax) (BitVec.ofInt _ (wideProduct f g p))).toNat : ℤ) =
      p.keptNat (f .rax) * 2 ^ p.type.width + wideProduct f g p := by
    rw [toNat_write hp, Nat.cast_add, toNat_ofInt_of_lt h0 hlt]
    push_cast
    rfl
  have hbound := (p.write (f .rax) (BitVec.ofInt _ (wideProduct f g p))).isLt
  rw [← dvd_sub_iff p.type.width_le, ← BitVec.toNat_inj, BitVec.toNat_mul, toNat_setWidth_read,
    hsplit, ← wideProduct, ← hwrite]
  -- both sides say that a product and a word agree modulo the register width
  generalize (p.write (f .rax) (BitVec.ofInt _ (wideProduct f g p))).toNat = y at hbound ⊢
  rw [← Nat.cast_mul]
  generalize (f .rax).toNat * (f.read g p).toNat = x
  omega

/-- The product of `RAX` and the operand, with zero above it, is what the processor writes. -/
lemma imul_eq_write_iff (hp : p.type ≠ .i8) :
    f .rax * (f.read g p).setWidth 64 = p.write (f .rax) (BitVec.ofInt _ (wideProduct f g p)) ∧
        0 = p.write (f .rdx) (BitVec.ofInt _ (wideProduct f g p / 2 ^ p.type.width)) ↔
      ImulRight f g p := by
  have hrdx : 0 = p.write (f .rdx) (BitVec.ofInt _ (wideProduct f g p / 2 ^ p.type.width)) ↔
      p.keptNat (f .rdx) = 0 ∧ 0 ≤ wideProduct f g p ∧ wideProduct f g p < 2 ^ p.type.width := by
    rw [eq_comm, write_eq_zero_iff hp, wideProduct, ofInt_div_eq_zero_iff]
  rw [hrdx]
  constructor
  · rintro ⟨hprod, hkept, hlo, hhi⟩
    exact ⟨⟨hlo, hhi⟩, hkept, (mul_eq_write_iff hp hlo hhi).mp hprod⟩
  · rintro ⟨⟨hlo, hhi⟩, hkept, hdvd⟩
    exact ⟨(mul_eq_write_iff hp hlo hhi).mpr hdvd, hkept, hlo, hhi⟩

/-- The conditions of an unsigned division, as equations of the bits above the operand. -/
lemma divRight_iff (hp : p.type ≠ .i8) (hb : 0 < (f.read g p).toNat) :
    DivRight f g p ↔ p.keptNat (f .rdx) = 0 ∧ (f .rax).toNat / 2 ^ p.type.width =
      p.keptNat (f .rax) * (f.read g p).toNat + (f.read .rdx p).toNat := by
  have hread : (f.read .rdx p).toNat = (f .rdx).toNat % 2 ^ p.type.width := toNat_read hp _
  have hzero : f .rdx = 0 ↔ (f .rdx).toNat = 0 := BitVec.toNat_inj.symm
  have ha := (f .rax).isLt
  have hd := (f .rdx).isLt
  rw [hread]
  cases p with
  | low8 | high8 => exact absurd rfl hp
  | word =>
    rw [keptNat, keptNat, if_pos rfl, if_pos rfl]
    simp only [IRType.width]
    constructor
    · intro h
      obtain ⟨h0, hlt | hone⟩ := h.word rfl
      · rw [hzero.mp h0, Nat.div_eq_of_lt hlt]
        omega
      · rw [hzero.mp h0, hone]
        omega
    · rintro ⟨hkept, heq⟩
      have hle := Nat.le_mul_of_pos_right ((f .rax).toNat / 2 ^ 16) hb
      refine ⟨fun _ => ⟨hzero.mpr (by omega), ?_⟩, nofun, nofun⟩
      rcases Nat.eq_zero_or_pos ((f .rax).toNat / 2 ^ 16) with h0 | hpos
      · exact Or.inl (by omega)
      · refine Or.inr (Nat.eq_of_mul_eq_mul_left hpos ?_)
        omega
  | dword =>
    rw [keptNat, keptNat, if_neg (by decide), if_neg (by decide), zero_mul, zero_add]
    exact ⟨fun h => ⟨rfl, (h.dword rfl).symm⟩,
      fun h => ⟨nofun, fun _ => h.2.symm, nofun⟩⟩
  | qword =>
    rw [keptNat, keptNat, if_neg (by decide), if_neg (by decide), zero_mul, zero_add,
      Nat.mod_eq_of_lt hd, Nat.div_eq_of_lt ha]
    exact ⟨fun h => ⟨rfl, (hzero.mp (h.qword rfl)).symm⟩,
      fun h => ⟨nofun, nofun, fun _ => hzero.mpr h.2.symm⟩⟩

/-- Quotient and remainder of `RAX` and the operand are what the processor writes. -/
lemma div_eq_write_iff (hp : p.type ≠ .i8) {q r : BitVec p.type.width}
    (h : ZydisMnemonic.wideResult .div (f.read .rax p) (f.read .rdx p) (f.read g p) = some (q, r)) :
    f .rax / (f.read g p).setWidth 64 = p.write (f .rax) q ∧
        f .rax % (f.read g p).setWidth 64 = p.write (f .rdx) r ↔ DivRight f g p := by
  obtain ⟨hdiv, hr⟩ := ZydisMnemonic.spec_of_wideResult_div h
  have hsplit : (f .rax).toNat / 2 ^ p.type.width * 2 ^ p.type.width + (f.read .rax p).toNat =
      (f .rax).toNat := div_mul_add_toNat_read hp (f .rax)
  rw [divRight_iff hp (by omega), ← div_mod_eq_iff (f.read g p).isLt hr hdiv, ← BitVec.toNat_inj,
    ← BitVec.toNat_inj, toNat_write hp, toNat_write hp, BitVec.toNat_udiv, BitVec.toNat_umod,
    toNat_setWidth_read, hsplit]

/-- The quotient and the remainder of a 64-bit `idiv` are those of `RAX` exactly if `RDX` is its
sign; then the division has a value. -/
lemma idiv_eq_iff {a d b q r : BitVec 64} (h : ZydisMnemonic.wideResult .idiv a d b = some (q, r)) :
    Divides true a b ∧ a.sdiv b = q ∧ a.srem b = r ↔ d.toInt = -wraps a.toInt := by
  obtain ⟨hb, hq, hr⟩ := ZydisMnemonic.spec_of_wideResult_idiv h
  have hread := toNat_eq_toInt_add a
  have hsame : d.toInt * 2 ^ 64 + a.toNat = a.toInt ↔ d.toInt = -wraps a.toInt := by omega
  rw [← hsame]
  constructor
  · rintro ⟨hdiv, rfl, rfl⟩
    rw [BitVec.toInt_sdiv_of_ne_or_ne _ _ (by_contra fun hc => hdiv.no_overflow rfl
      (by simpa [not_or] using hc))] at hq
    rw [BitVec.toInt_srem] at hr
    rw [← Int.tmod_add_mul_tdiv (d.toInt * 2 ^ 64 + a.toNat) b.toInt, ← hq, ← hr,
      Int.tmod_add_mul_tdiv]
  · intro heq
    rw [heq] at hq hr
    have hdiv : ¬ (a = BitVec.intMin 64 ∧ b = -1) := by
      rintro ⟨rfl, rfl⟩
      have hlt := BitVec.toInt_lt (x := q)
      rw [hq] at hlt
      exact absurd hlt (by decide)
    refine ⟨⟨hb, fun _ => hdiv⟩, ?_, ?_⟩
    · rw [← BitVec.toInt_inj, hq]
      exact BitVec.toInt_sdiv_of_ne_or_ne _ _ (not_and_or.mp hdiv)
    · rw [← BitVec.toInt_inj, hr]
      exact BitVec.toInt_srem _ _

/-- A narrower operand that is extended with zeros is not negative. -/
lemma toInt_setWidth_read (hq : p ≠ .qword) (x : BitVec p.type.width) :
    (x.setWidth 64).toInt = x.toNat := by
  have hwidth : p.type.width ≤ 32 := by
    cases p <;> first | decide | exact absurd rfl hq
  have hlt := x.isLt.trans_le (Nat.pow_le_pow_right (by decide) hwidth)
  rw [BitVec.toInt_eq_toNat_of_lt, toNat_setWidth_read]
  rw [toNat_setWidth_read]
  omega

/-- So it divides, if it is not zero: it is not minus one either. -/
lemma divides_setWidth_read (hq : p ≠ .qword) {x : BitVec p.type.width} (hx : x ≠ 0)
    (a : BitVec 64) : Divides true a (x.setWidth 64) := by
  refine ⟨setWidth_read_ne_zero hx, fun _ hoverflow => ?_⟩
  have hone : (-1 : ℤ) = x.toNat := by
    rw [← toInt_setWidth_read hq, hoverflow.2]
    rfl
  omega

/-- The conditions of a signed division by a narrower operand. -/
lemma idivRight_iff (hq : p ≠ .qword) :
    IdivRight f g p ↔ p.keptInt (f .rdx) = -wraps (signedRemainder f g p) ∧
      (0 ≤ (f .rax).toInt → 0 ≤ signedRemainder f g p) ∧
        ((f .rax).toInt < 0 → signedRemainder f g p ≤ 0) ∧
          (f .rax).toInt / 2 ^ p.type.width =
            p.keptInt (f .rax) * (f.read g p).toNat + (f.read .rdx p).toInt +
              signExcess (signedQuotient f g p) (f.read g p) := by
  constructor
  · intro h
    exact ⟨h.rdx hq, (h.sign hq).1, (h.sign hq).2, h.rax hq⟩
  · rintro ⟨hrdx, hnonneg, hneg, hrax⟩
    exact ⟨fun h => absurd h hq, fun _ => hrdx, fun _ => ⟨hnonneg, hneg⟩, fun _ => hrax⟩

/-- Quotient and remainder of `RAX` and a narrower operand are what the processor writes. -/
lemma idiv_eq_write_iff_of_narrow (hp : p.type ≠ .i8) (hq : p ≠ .qword) {q r : BitVec p.type.width}
    (h : ZydisMnemonic.wideResult .idiv (f.read .rax p) (f.read .rdx p) (f.read g p) =
      some (q, r)) :
    Divides true (f .rax) ((f.read g p).setWidth 64) ∧
        (f .rax).sdiv ((f.read g p).setWidth 64) = p.write (f .rax) q ∧
          (f .rax).srem ((f.read g p).setWidth 64) = p.write (f .rdx) r ↔ IdivRight f g p := by
  obtain ⟨hb, hquot, hrem⟩ := ZydisMnemonic.spec_of_wideResult_idiv h
  obtain ⟨hsum, hlt⟩ := ZydisMnemonic.sum_of_wideResult_idiv h
  have hdivides := divides_setWidth_read hq hb (f .rax)
  have hquotient : signedQuotient f g p = q := by
    rw [signedQuotient, signedDividend, ← hquot, BitVec.ofInt_toInt]
  have hremainder : signedRemainder f g p = r.toInt := hrem.symm
  have hsplit : (f .rax).toInt / 2 ^ p.type.width * 2 ^ p.type.width + (f.read .rax p).toNat =
      (f .rax).toInt := div_mul_add_toInt_read hp hq (f .rax)
  have hwords : (f .rax).sdiv ((f.read g p).setWidth 64) = p.write (f .rax) q ∧
        (f .rax).srem ((f.read g p).setWidth 64) = p.write (f .rdx) r ↔
      (f .rax).toInt.tdiv (f.read g p).toNat =
          p.keptInt (f .rax) * 2 ^ p.type.width + q.toNat ∧
        (f .rax).toInt.tmod (f.read g p).toNat =
          p.keptInt (f .rdx) * 2 ^ p.type.width + r.toNat := by
    rw [← BitVec.toInt_inj, ← BitVec.toInt_inj, toInt_write hp hq, toInt_write hp hq,
      BitVec.toInt_sdiv_of_ne_or_ne _ _ (not_and_or.mp (hdivides.no_overflow rfl)),
      BitVec.toInt_srem, toInt_setWidth_read hq]
  rw [and_iff_right hdivides, hwords, ← hsplit, tdiv_tmod_eq_iff hlt hsum, hsplit,
    idivRight_iff hq, hquotient, hremainder]

/-- Quotient and remainder of `RAX` and the operand are what the processor writes. -/
lemma idiv_eq_write_iff (hp : p.type ≠ .i8) {q r : BitVec p.type.width}
    (h : ZydisMnemonic.wideResult .idiv (f.read .rax p) (f.read .rdx p) (f.read g p) =
      some (q, r)) :
    Divides true (f .rax) ((f.read g p).setWidth 64) ∧
        (f .rax).sdiv ((f.read g p).setWidth 64) = p.write (f .rax) q ∧
          (f .rax).srem ((f.read g p).setWidth 64) = p.write (f .rdx) r ↔ IdivRight f g p := by
  by_cases hq : p = .qword
  · subst hq
    have hread : ∀ g, f.read g .qword = f g := fun g => by simp [RegFile.read, read, offset]
    simp only [hread] at h
    rw [hread, BitVec.setWidth_eq]
    refine (idiv_eq_iff h).trans ⟨fun hsign => ?_, fun hright => hright.qword rfl⟩
    exact ⟨fun _ => hsign, fun hne => absurd rfl hne, fun hne => absurd rfl hne,
      fun hne => absurd rfl hne⟩
  · exact idiv_eq_write_iff_of_narrow hp hq h

end RegPart

end InstaX
