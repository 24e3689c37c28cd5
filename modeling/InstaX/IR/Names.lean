import InstaX.IR.Printer

/-!
# Names of temporaries

The printed text of a temporary is its id and the name that it is given where it occurs.  So the
occurrences of one temporary have one text exactly if they have one name.  Names are types
(`nameTypes`): a temporary has the names of its definitions, and an operand, which has none, agrees
with the code if its temporary is not defined there under another name (`printsApart_iff`).
-/

namespace InstaX

open Throwing RegisterCode TypeSystem

/-- The name of a temporary; the names of fixed registers do not count. -/
def VReg.tempName (r : VReg) : String := if r.id < 20 then "" else r.debugName

/-- The name of the temporary that an operand reads. -/
def IRValue.tempName (v : IRValue) : String := (v.vreg?.map VReg.tempName).getD ""

/-- Names as types. -/
def nameTypes : TypeSystem IRInst IRValue ℕ String where
  typeOf := IRValue.tempName
  resultType i := (i.dst.map VReg.tempName).getD ""
  fixed id := if id < 20 then some "" else none
  rule i := ∀ v ∈ i.operands, v.tempName = ""

/-- The instruction is printed, and its operands have no names. -/
structure IRInst.PrintsPlainly (i : IRInst) : Prop where
  prints : i.PrintsRegisters
  unnamed : ∀ v ∈ i.operands, v.tempName = ""

/-- Instructions that define a temporary under a name, from operands that do not depend on it. -/
structure IRInst.DefinesNamed (inst : ℕ → IRInst) (ops : List IRValue) : Prop where
  dst : ∀ id, ∃ name ≠ "", (inst id).dst = some ⟨id, name⟩
  operands : ∀ id, (inst id).operands = ops
  prints : ∀ id, (inst id).PrintsRegisters
  isTerminator : ∀ id, (inst id).isTerminator = false

/-- Every instruction is printed, and any two occurrences of temporaries have the same text exactly
if they have the same id. -/
structure PrintsApart (code : List IRInst) : Prop where
  prints : ∀ i ∈ code, i.PrintsRegisters
  apart : ∀ i ∈ code, ∀ j ∈ code, ∀ r ∈ i.registers, ∀ r' ∈ j.registers, 20 ≤ r.id → 20 ≤ r'.id →
    (r.toString = r'.toString ↔ r.id = r'.id)

variable {code : List IRInst} {i : IRInst} {v : IRValue} {r : VReg} {id : ℕ}

/-! ## Names as types -/

/-- A fixed register has no temporary's name. -/
lemma VReg.tempName_of_lt (h : r.id < 20) : r.tempName = "" := if_pos h

/-- A temporary has its debug name. -/
lemma VReg.tempName_of_ge (h : 20 ≤ r.id) : r.tempName = r.debugName := if_neg (not_lt.mpr h)

/-- The fixed registers are typed by the empty name. -/
lemma nameTypes_fixed_of_lt (h : id < 20) : nameTypes.fixed id = some "" := if_pos h

/-- No temporary is fixed. -/
lemma nameTypes_fixed_of_ge (h : 20 ≤ id) : nameTypes.fixed id = none := if_neg (not_lt.mpr h)

/-- The id of an operand is that of its register. -/
lemma IRValue.vregId?_eq (v : IRValue) : v.vregId? = v.vreg?.map VReg.id := by
  unfold vregId? vreg?
  cases v.payload <;> rfl

@[simp] lemma IRValue.makeVReg_tempName (id : ℕ) (ty : IRType) :
    (makeVReg id ty).tempName = "" := by
  simp [tempName, vreg?, makeVReg, VReg.tempName]

@[simp] lemma IRValue.makeImm_tempName (c : BitVec 64) (ty : IRType) :
    (makeImm c ty).tempName = "" := rfl

/-- A fixed register has no name, whatever it is called. -/
lemma IRValue.makeVReg_tempName_of_lt (h : id < 20) (ty : IRType) (name : String) :
    (makeVReg id ty name).tempName = "" :=
  VReg.tempName_of_lt (r := ⟨id, name⟩) h

/-- An operand has the name of its register. -/
lemma typeOf_eq_of_vreg? (hv : v.vreg? = some r) : nameTypes.typeOf v = r.tempName := by
  change (v.vreg?.map VReg.tempName).getD "" = r.tempName
  rw [hv]
  rfl

/-- A result has the name of the destination. -/
lemma resultType_eq_of_dst {d : VReg} (hd : i.dst = some d) :
    nameTypes.resultType i = d.tempName := by
  change (i.dst.map VReg.tempName).getD "" = d.tempName
  rw [hd]
  rfl

/-- The destination of the code is that of the instruction. -/
lemma destination_eq_of_dst {d : VReg} (hd : i.dst = some d) : destination i = some d.id :=
  congrArg (Option.map VReg.id) hd

/-- A temporary that is defined has the name of its definition. -/
lemma hasType_of_dst {d : VReg} (hi : i ∈ code) (hd : i.dst = some d) :
    nameTypes.HasType code d.id d.tempName :=
  Or.inr ⟨i, hi, destination_eq_of_dst hd, resultType_eq_of_dst hd⟩

/-- In typed code every occurrence of a temporary has the names of its definitions. -/
lemma tempName_eq_of_typed (hi : nameTypes.Typed code i) (hr : r ∈ i.registers) {name : String}
    (hname : nameTypes.HasType code r.id name) : r.tempName = name := by
  rcases IRInst.mem_registers.mp hr with hd | ⟨v, hv, hvr⟩
  · rw [← resultType_eq_of_dst hd]
    exact hi.destination r.id (destination_eq_of_dst hd) name hname
  · have hreg : v.vregId? = some r.id := by
      rw [v.vregId?_eq, hvr]
      rfl
    rw [← typeOf_eq_of_vreg? hvr]
    exact hi.operands v hv r.id hreg name hname

/-- Plain code prints its temporaries apart exactly if it is typed. -/
theorem printsApart_iff (hplain : ∀ i ∈ code, i.PrintsPlainly) :
    PrintsApart code ↔ ∀ i ∈ code, nameTypes.Typed code i := by
  constructor
  · -- a temporary has the name of every definition, by the text of the two occurrences
    intro h i hi
    have hname : ∀ r ∈ i.registers, ∀ name, nameTypes.HasType code r.id name →
      r.tempName = name := by
      rintro r hr name (hfixed | ⟨j, hj, hjr, rfl⟩)
      · rcases Nat.lt_or_ge r.id 20 with hlt | hge
        · rw [nameTypes_fixed_of_lt hlt] at hfixed
          rw [VReg.tempName_of_lt hlt, Option.some.inj hfixed]
        · rw [nameTypes_fixed_of_ge hge] at hfixed
          cases hfixed
      · obtain ⟨d, hd, hdr⟩ := Option.map_eq_some_iff.mp hjr
        rw [resultType_eq_of_dst hd]
        rcases Nat.lt_or_ge r.id 20 with hlt | hge
        · rw [VReg.tempName_of_lt hlt, VReg.tempName_of_lt (hdr ▸ hlt)]
        · have hdj : d ∈ j.registers := IRInst.mem_registers.mpr (.inl hd)
          have htext := (h.apart i hi j hj r hr d hdj hge (hdr ▸ hge)).mpr hdr.symm
          rw [VReg.toString_injective htext]
    refine ⟨(hplain i hi).unnamed, fun v hv id hid name hτ => ?_, fun id hid name hτ => ?_⟩
    · obtain ⟨r, hr, rfl⟩ := Option.map_eq_some_iff.mp ((v.vregId?_eq).symm.trans hid)
      rw [typeOf_eq_of_vreg? hr]
      exact hname r (IRInst.mem_registers.mpr (.inr ⟨v, hv, hr⟩)) name hτ
    · obtain ⟨d, hd, rfl⟩ := Option.map_eq_some_iff.mp hid
      rw [resultType_eq_of_dst hd]
      exact hname d (IRInst.mem_registers.mpr (.inl hd)) name hτ
  · intro h
    refine ⟨fun i hi => (hplain i hi).prints, fun i hi j hj r hr r' hr' hid hid' => ?_⟩
    refine ⟨fun htext => congrArg VReg.id (VReg.toString_injective htext), fun heq => ?_⟩
    have hnames : r.debugName = r'.debugName := by
      rw [← VReg.tempName_of_ge hid, ← VReg.tempName_of_ge hid']
      rcases IRInst.mem_registers.mp hr with hd | ⟨v, hv, hvr⟩
      · exact (tempName_eq_of_typed (h j hj) hr' (heq ▸ hasType_of_dst hi hd)).symm
      rcases IRInst.mem_registers.mp hr' with hd' | ⟨v', hv', hvr'⟩
      · exact tempName_eq_of_typed (h i hi) hr (heq ▸ hasType_of_dst hj hd')
      · rw [← typeOf_eq_of_vreg? hvr, ← typeOf_eq_of_vreg? hvr']
        exact ((hplain i hi).unnamed v hv).trans ((hplain j hj).unnamed v' hv').symm
    rw [VReg.toString, VReg.toString, hnames, heq]

/-! ## Definitions under a name -/

namespace IRInst

variable {op : Opcode} {name : String} {ty : IRType} {w : IRValue} (hname : name ≠ "")

include hname

/-- A binary operation defines its temporary under the name it is given. -/
lemma definesNamed_makeBinop (hop : op.isBinary = true) :
    DefinesNamed (fun id => makeBinop op ⟨id, name⟩ ty v w) [v, w] where
  dst _ := ⟨name, hname, rfl⟩
  operands _ := rfl
  prints _ := printsRegisters_makeBinop hop
  isTerminator _ := by cases op <;> first | rfl | cases hop

/-- So does a negation or complement. -/
lemma definesNamed_makeUnop (hop : op = .neg ∨ op = .not) :
    DefinesNamed (fun id => makeUnop op ⟨id, name⟩ ty v) [v] where
  dst _ := ⟨name, hname, rfl⟩
  operands _ := rfl
  prints _ := printsRegisters_makeUnop hop
  isTerminator _ := by rcases hop with rfl | rfl <;> rfl

/-- So does a conversion. -/
lemma definesNamed_makeCast (hop : op.isCast = true) :
    DefinesNamed (fun id => makeCast op ⟨id, name⟩ ty v) [v] where
  dst _ := ⟨name, hname, rfl⟩
  operands _ := rfl
  prints _ := printsRegisters_makeCast hop
  isTerminator _ := by cases op <;> first | rfl | cases hop

/-- So does a comparison. -/
lemma definesNamed_makeIcmp {cond : IcmpCond} :
    DefinesNamed (fun id => makeIcmp cond ⟨id, name⟩ v w) [v, w] where
  dst _ := ⟨name, hname, rfl⟩
  operands _ := rfl
  prints _ := printsRegisters_makeIcmp
  isTerminator _ := rfl

/-- So does a load. -/
lemma definesNamed_makeLoad {flags : MemFlags} :
    DefinesNamed (fun id => makeLoad ⟨id, name⟩ ty v flags) [v] where
  dst _ := ⟨name, hname, rfl⟩
  operands _ := rfl
  prints _ := printsRegisters_makeLoad
  isTerminator _ := rfl

/-- So does a call. -/
lemma definesNamed_makeCall {cc : CallingConv} :
    DefinesNamed (fun id => makeCall (some ⟨id, name⟩) ty v [] cc false) [v] where
  dst _ := ⟨name, hname, rfl⟩
  operands _ := rfl
  prints _ := printsRegisters_makeCall
  isTerminator _ := rfl

end IRInst

/-! ## Programs that use operands -/

section Programs

variable {σ β : Type} {V : View σ IRInst} {s t : σ} {clean good : Prop}

/-- The operand has no name, and the counter has passed its register. -/
structure Unnamed (V : View σ IRInst) (v : IRValue) (s : σ) : Prop where
  tempName : v.tempName = ""
  passed : V.Passed s v

/-- The operand has no name, and its temporary is not defined under another one exactly if it is
clean. -/
structure UsableWhen (V : View σ IRInst) (clean : Prop) (v : IRValue) (s : σ) : Prop
    extends Unnamed V v s where
  agrees : nameTypes.Agrees (V.code s) v ↔ clean

/-- An operand without a name stays one while code is appended. -/
lemma Unnamed.grows (h : Unnamed V v s) (hgrows : nameTypes.Grows V s t) : Unnamed V v t :=
  ⟨h.tempName, hgrows.passed h.passed⟩

/-- When an operand is usable does not change while code is appended. -/
lemma UsableWhen.grows (h : UsableWhen V clean v s) (hgrows : nameTypes.Grows V s t) :
    UsableWhen V clean v t :=
  ⟨h.toUnnamed.grows hgrows, (hgrows.agrees_iff h.passed).trans h.agrees⟩

lemma UsableWhen.congr (h : UsableWhen V clean v s) {clean' : Prop} (hiff : clean ↔ clean') :
    UsableWhen V clean' v s := ⟨h.toUnnamed, h.agrees.trans hiff⟩

/-- A single operand agrees exactly if it is clean. -/
lemma forall_singleton_agrees_iff (hv : UsableWhen V clean v s) :
    (∀ u ∈ [v], nameTypes.Agrees (V.code s) u) ↔ clean := by
  rw [List.forall_mem_singleton, hv.agrees]

/-- Two operands agree exactly if both are clean. -/
lemma forall_pair_agrees_iff {w : IRValue} {clean' : Prop} (hv : UsableWhen V clean v s)
    (hw : UsableWhen V clean' w s) :
    (∀ u ∈ [v, w], nameTypes.Agrees (V.code s) u) ↔ clean ∧ clean' := by
  rw [List.forall_mem_cons, List.forall_mem_singleton, hv.agrees, hw.agrees]

/-- An operand that reads no register. -/
lemma usableWhen_of_vreg?_eq_none (hv : v.vreg? = none) (s : σ) : UsableWhen V True v s := by
  have hreg : v.vregId? = none := by
    rw [v.vregId?_eq, hv]
    rfl
  refine ⟨⟨by rw [IRValue.tempName, hv]; rfl, fun _ hr => ?_⟩, ?_⟩
  · exact absurd (hreg.symm.trans hr) (by simp)
  · exact iff_of_true (agrees_of_register_eq_none hreg) trivial

/-- A fixed register. -/
lemma usableWhen_of_lt {name : String} {ty : IRType} (hs : nameTypes.Settled V s)
    (hbase : V.base = 20) (hid : id < 20) : UsableWhen V True (.makeVReg id ty name) s := by
  have hop := hasOperand_of_fixed (v := IRValue.makeVReg id ty name) hs rfl (hbase ▸ hid)
    (nameTypes_fixed_of_lt hid) (IRValue.makeVReg_tempName_of_lt hid ty name)
  exact ⟨⟨hop.type, hop.passed⟩, iff_of_true hop.agrees trivial⟩

/-- The next temporary of the counter is defined nowhere. -/
lemma agrees_next (hs : nameTypes.Settled V s) (hbase : V.base = 20) (ty : IRType) :
    nameTypes.Agrees (V.code s) (.makeVReg (V.next s) ty) := by
  intro r hr name hname
  obtain rfl : V.next s = r := Option.some.inj hr
  have hge : 20 ≤ V.next s := hbase ▸ hs.base_le
  rcases hname with hfixed | ⟨i, hi, hdst, -⟩
  · rw [nameTypes_fixed_of_ge hge] at hfixed
    cases hfixed
  · exact absurd ((hs.behind i hi).destination _ hdst) (lt_irrefl _)

/-- The program returns an operand, and the code that it appends is typed if the operand is
clean. -/
def Yields (V : View σ IRInst) (act : Prog σ IRValue) (s : σ) (clean : Prop) (Q : σ → Prop) :
    Prop :=
  ∃ good, nameTypes.TypedWhen V act s good (fun v t => UsableWhen V clean v t ∧ Q t) ∧
    (clean → good)

variable {act : Prog σ IRValue} {f : IRValue → Prog σ β} {Q : σ → Prop} {R : β → σ → Prop}

/-- A program that yields an operand runs. -/
lemma Yields.runs (h : Yields V act s clean Q) :
    Runs nameTypes V act s fun v t => UsableWhen V clean v t ∧ Q t :=
  h.elim fun _ h => h.1.runs

lemma Yields.mono {P : σ → Prop} (h : Yields V act s clean P) (hPQ : ∀ t, P t → Q t) :
    Yields V act s clean Q := by
  obtain ⟨good, hact, hclean⟩ := h
  exact ⟨good, hact.mono Iff.rfl fun _ t _ h => ⟨h.1, hPQ t h.2⟩, hclean⟩

/-- Reading a clean operand makes no difference to the code after it. -/
lemma Yields.exists_bind (h : Yields V act s clean Q)
    (hf : ∀ v t, V.IsOpen t → nameTypes.Settled V t → nameTypes.Grows V s t →
      UsableWhen V clean v t → Q t → nameTypes.TypedWhen V (f v) t good R) :
    ∃ good', nameTypes.TypedWhen V (act >>= f) s good' R ∧ (good' → good) ∧
      (clean → good → good') := by
  obtain ⟨good', hact, hclean⟩ := h
  exact ⟨good' ∧ good, hact.bind fun v t hopen ht hgrows hv => hf v t hopen ht hgrows hv.1 hv.2,
    And.right, fun h hgood => ⟨hclean h, hgood⟩⟩

/-- Code that uses the operand is typed only if the operand is clean. -/
lemma Yields.bind (h : Yields V act s clean Q)
    (hf : ∀ v t, V.IsOpen t → nameTypes.Settled V t → nameTypes.Grows V s t →
      UsableWhen V clean v t → Q t → nameTypes.TypedWhen V (f v) t (clean ∧ good) R) :
    nameTypes.TypedWhen V (act >>= f) s (clean ∧ good) R := by
  obtain ⟨good', hrun, hgood, hgood'⟩ := h.exists_bind hf
  exact hrun.congr ⟨hgood, fun h => hgood' h.1 h⟩

/-- Code that uses two operands is typed only if both are clean. -/
lemma Yields.bind_both {clean' : Prop} {act' : Prog σ IRValue} {P : σ → Prop}
    {f : IRValue → IRValue → Prog σ β} (h : Yields V act s clean Q)
    (h' : ∀ t, V.IsOpen t → nameTypes.Settled V t → Q t → Yields V act' t clean' P)
    (hf : ∀ v w t, V.IsOpen t → nameTypes.Settled V t → nameTypes.Grows V s t →
      UsableWhen V clean v t → UsableWhen V clean' w t → P t →
        nameTypes.TypedWhen V (f v w) t ((clean ∧ clean') ∧ good) R) :
    nameTypes.TypedWhen V (do let v ← act; let w ← act'; f v w) s
      ((clean ∧ clean') ∧ good) R := by
  refine (h.bind fun v s₁ hopen₁ hs₁ h₁ hv hQ => ?_).congr and_assoc.symm
  refine (Yields.bind (h' s₁ hopen₁ hs₁ hQ) fun w s₂ hopen₂ hs₂ h₂ hw hP =>
    (hf v w s₂ hopen₂ hs₂ (h₁.trans h₂) (hv.grows h₂) hw hP).congr ?_).congr and_left_comm
  exact and_assoc.trans and_left_comm

/-- An operand that is not clean. -/
lemma yields_of_runs (h : Runs nameTypes V act s fun v t => UsableWhen V False v t ∧ Q t) :
    Yields V act s False Q :=
  h.elim fun good h => ⟨good, h, False.elim⟩

lemma Yields.congr (h : Yields V act s clean Q) {clean' : Prop} (hiff : clean ↔ clean') :
    Yields V act s clean' Q := propext hiff ▸ h

section Define

variable {inst : ℕ → IRInst} {ops : List IRValue} (hinst : IRInst.DefinesNamed inst ops)
  (hs : nameTypes.Settled V s) (hbase : V.base = 20)
  (hcode : V.code t = V.code s ++ [inst (V.next s)]) (hnext : V.next t = V.next s + 1)

include hinst hs hbase hcode hnext

/-- A temporary that was just defined under a name, as an operand. -/
lemma usableWhen_of_defined (ty : IRType) : UsableWhen V False (.makeVReg (V.next s) ty) t where
  tempName := IRValue.makeVReg_tempName _ ty
  passed r hr := by
    obtain rfl : V.next s = r := Option.some.inj hr
    omega
  agrees := by
    obtain ⟨name, hname, hdst⟩ := hinst.dst (V.next s)
    refine iff_of_false (fun h => hname ?_) not_false
    have hge : 20 ≤ V.next s := hbase ▸ hs.base_le
    have hi : inst (V.next s) ∈ V.code t := by simp [hcode]
    have htype : nameTypes.HasType (V.code t) (V.next s) (VReg.tempName ⟨V.next s, name⟩) :=
      hasType_of_dst hi hdst
    rw [VReg.tempName_of_ge hge] at htype
    exact (h _ rfl _ htype).symm.trans (IRValue.makeVReg_tempName _ ty)

/-- Defining a temporary under a name uses the operands of its definition. -/
lemma typedWhen_defines (hops : ∀ v ∈ ops, Unnamed V v s) {ty : IRType} {P : IRValue → σ → Prop}
    (hrun : act.run s = .ok (.makeVReg (V.next s) ty) t) (hopen : V.IsOpen t)
    (hP : P (.makeVReg (V.next s) ty) t) :
    nameTypes.TypedWhen V act s (∀ v ∈ ops, nameTypes.Agrees (V.code s) v)
      fun v t => UsableWhen V False v t ∧ P v t := by
  have hfixed : ∀ r, V.base ≤ r → nameTypes.fixed r = none := fun r hr =>
    nameTypes_fixed_of_ge (hbase ▸ hr)
  have hvalue := usableWhen_of_defined hinst hs hbase hcode hnext ty
  obtain rfl := hinst.operands (V.next s)
  obtain ⟨name, -, hdst⟩ := hinst.dst (V.next s)
  refine (typedWhen_of_run hs hcode (fun v hv => (hops v hv).passed) hfixed
    (Or.inr (Or.inr ⟨destination_eq_of_dst hdst, hnext⟩)) hrun hopen ⟨hvalue, hP⟩).congr ?_
  exact and_iff_right fun v hv => (hops v hv).tempName

end Define

end Programs

end InstaX
