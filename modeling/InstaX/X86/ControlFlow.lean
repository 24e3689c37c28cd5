import InstaX.Foundation.LeaderCut
import InstaX.X86.Instruction

/-!
# Disassembly and the control flow graph

`X86Disassembler::disassemble` and `CFGBuilder::buildCFG` (`src/backend/x86/X86Lifter.cpp`).  The
decoder is a parameter; all that is asked of it is that a decoded instruction has at least one byte
and ends within the buffer.  Then the instructions tile the buffer (`tiles_disassembleFrom`), and
the graph built from them cuts the stream into blocks without losing anything (`isCut_buildCFG`).

A block starts at every target that control flow gives rise to.  An instruction with a relative
target that `isControlFlow` does not list (`jrcxz` is one) gives rise to none, so the graph has a
block at every target exactly if the targets of such instructions are leaders anyway
(`disassemble_buildCFG_iff`).
-/

namespace InstaX

namespace X86Disassembler

/-- The decoder, on the bytes that remain; `none` is a failure status. -/
abbrev Decoder := List (BitVec 8) → Option ZydisDecodedInstruction

/-- On success the length is positive and within the remaining bytes. -/
def Decoder.Lawful (decode : Decoder) : Prop :=
  ∀ bytes z, decode bytes = some z → 1 ≤ z.length.toNat ∧ z.length.toNat ≤ bytes.length

variable (decode : Decoder) (data : List (BitVec 8)) (baseVA : U64)

/-- The instruction at an offset; bytes that do not decode are a one-byte `nop`. -/
def decodeAt (offset : ℕ) : DecodedInstr :=
  match decode (data.drop offset) with
  | some z => { va := baseVA + BitVec.ofNat 64 offset, length := z.length, zydis := z }
  | none =>
    { va := baseVA + BitVec.ofNat 64 offset, length := 1,
      zydis := { mnemonic := .nop, length := 1, operandCountVisible := 0 } }

/-- The decoding loop from an offset on, with a bound on the number of turns. -/
def disassembleFrom : ℕ → ℕ → Option (List DecodedInstr)
  | 0, offset => if offset < data.length then none else some []
  | fuel + 1, offset =>
      if offset < data.length then
        let di := decodeAt decode data baseVA offset
        (disassembleFrom fuel (offset + di.length.toNat)).map (di :: ·)
      else some []

/-- Decode a buffer from its start. -/
def disassemble (fuel : ℕ) : Option (List DecodedInstr) :=
  disassembleFrom decode data baseVA fuel 0

end X86Disassembler

/-- The instructions lie end to end, in order, from `lo` to `hi`. -/
def Tiles : ℕ → List DecodedInstr → ℕ → Prop
  | lo, [], hi => lo = hi
  | lo, di :: instrs, hi =>
      di.va.toNat = lo ∧ 0 < di.length.toNat ∧ Tiles (lo + di.length.toNat) instrs hi

/-- Instructions that lie end to end have increasing addresses, from the start on. -/
lemma Tiles.pairwise {lo hi : ℕ} {instrs : List DecodedInstr} (h : Tiles lo instrs hi) :
    (∀ di ∈ instrs, lo ≤ di.va.toNat) ∧ instrs.Pairwise fun x y => x.va < y.va := by
  induction instrs generalizing lo with
  | nil => simp
  | cons di instrs ih =>
    obtain ⟨hva, hlen, hrest⟩ := h
    obtain ⟨hle, hsorted⟩ := ih hrest
    refine ⟨fun x hx => ?_, List.pairwise_cons.mpr ⟨fun x hx => ?_, hsorted⟩⟩
    · rcases List.mem_cons.mp hx with rfl | hx
      · omega
      · have := hle x hx
        omega
    · have := hle x hx
      rw [BitVec.lt_def]
      omega

namespace X86Disassembler

variable {decode : Decoder} {data : List (BitVec 8)} {baseVA : U64}

/-- An instruction starts at its offset and ends within the buffer. -/
lemma decodeAt_spec (hlaw : decode.Lawful) (hbase : baseVA.toNat + data.length ≤ 2 ^ 64)
    {offset : ℕ} (hoffset : offset < data.length) :
    (decodeAt decode data baseVA offset).va.toNat = baseVA.toNat + offset ∧
      0 < (decodeAt decode data baseVA offset).length.toNat ∧
      offset + (decodeAt decode data baseVA offset).length.toNat ≤ data.length := by
  have hva : (baseVA + BitVec.ofNat 64 offset).toNat = baseVA.toNat + offset := by
    rw [BitVec.toNat_add, BitVec.toNat_ofNat, Nat.add_mod_mod, Nat.mod_eq_of_lt (by omega)]
  unfold decodeAt
  cases hz : decode (data.drop offset) with
  | none => exact ⟨hva, by simp, by simp; omega⟩
  | some z =>
    obtain ⟨hpos, hle⟩ := hlaw _ z hz
    rw [List.length_drop] at hle
    exact ⟨hva, hpos, by dsimp only; omega⟩

/-- The loop ends after as many turns as bytes remain, and its instructions tile them. -/
lemma tiles_disassembleFrom (hlaw : decode.Lawful) (hbase : baseVA.toNat + data.length ≤ 2 ^ 64)
    (n : ℕ) : ∀ offset, data.length - offset ≤ n → offset ≤ data.length →
      ∃ instrs, (∀ fuel, n ≤ fuel → disassembleFrom decode data baseVA fuel offset = some instrs) ∧
        Tiles (baseVA.toNat + offset) instrs (baseVA.toNat + data.length) := by
  induction n with
  | zero =>
    intro offset hn hoffset
    refine ⟨[], fun fuel _ => ?_, by rw [Tiles]; omega⟩
    cases fuel <;> rw [disassembleFrom, if_neg (by omega)]
  | succ n ih =>
    intro offset hn hoffset
    rcases Nat.lt_or_ge offset data.length with hlt | hge
    · obtain ⟨hva, hpos, hle⟩ := decodeAt_spec hlaw hbase hlt
      obtain ⟨instrs, hrun, htiles⟩ :=
        ih (offset + (decodeAt decode data baseVA offset).length.toNat) (by omega) hle
      refine ⟨decodeAt decode data baseVA offset :: instrs, fun fuel hfuel => ?_, hva, hpos, ?_⟩
      · obtain ⟨fuel, rfl⟩ : ∃ k, fuel = k + 1 := ⟨fuel - 1, by omega⟩
        rw [disassembleFrom, if_pos hlt]
        simp only [hrun fuel (by omega), Option.map_some]
      · rwa [Nat.add_assoc]
    · refine ⟨[], fun fuel _ => ?_, by rw [Tiles]; omega⟩
      cases fuel <;> rw [disassembleFrom, if_neg (by omega)]

variable (decode data baseVA) in
/-- The stream is a buffer, disassembled at an address from which it does not wrap around. -/
structure Disassembles (instrs : List DecodedInstr) : Prop where
  lawful : decode.Lawful
  fits : baseVA.toNat + data.length ≤ 2 ^ 64
  run : disassemble decode data baseVA data.length = some instrs

/-- The instructions of a buffer tile it. -/
lemma Disassembles.tiles {instrs : List DecodedInstr} (h : Disassembles decode data baseVA instrs) :
    Tiles baseVA.toNat instrs (baseVA.toNat + data.length) := by
  obtain ⟨instrs', hrun, htiles⟩ :=
    tiles_disassembleFrom h.lawful h.fits data.length 0 (Nat.sub_le _ _) (Nat.zero_le _)
  obtain rfl : instrs' = instrs := Option.some_inj.mp ((hrun _ le_rfl).symm.trans h.run)
  exact htiles

end X86Disassembler

namespace CFGBuilder

/-- The instructions that end a straight-line sequence. -/
def isControlFlow (di : DecodedInstr) : Bool :=
  match di.zydis.mnemonic with
  | .jmp | .call | .ret | .retf | .jb | .jbe | .jl | .jle | .jnb | .jnbe | .jnl | .jnle | .jno
  | .jnp | .jns | .jnz | .jo | .jp | .js | .jz | .loop | .loope | .loopne => true
  | _ => false

/-- The target of a direct branch, or zero. -/
def directTarget (di : DecodedInstr) : U64 := di.relativeTarget

/-- The leaders that control flow gives rise to: the instruction after it, and its target unless
that is zero. -/
def branchLeaders : List DecodedInstr → List U64
  | [] => []
  | di :: rest =>
      if isControlFlow di then
        (rest.head?.map DecodedInstr.va).toList ++
          (if directTarget di ≠ 0 then [directTarget di] else []) ++ branchLeaders rest
      else branchLeaders rest

/-- The addresses at which a block starts; of the set only membership is used. -/
def leaders : List DecodedInstr → List U64
  | [] => []
  | front :: rest => front.va :: branchLeaders (front :: rest)

/-- Cut the stream into blocks, filed under the address of their first instruction. -/
def buildCFG : List DecodedInstr → List (U64 × List DecodedInstr)
  | [] => []
  | front :: rest =>
      let instrs := front :: rest
      LeaderCut.pass DecodedInstr.va (fun di => (leaders instrs).contains di.va) front.va
        (LeaderCut.modify front.va [] id []) instrs

/-- The stream cut into blocks: non-empty blocks under increasing addresses, each starting at its
address, that concatenate to the stream; control flow only at the end of a block, and a block after
every control flow. -/
structure IsCut (instrs : List DecodedInstr) (blocks : List (U64 × List DecodedInstr)) : Prop where
  sorted : blocks.Pairwise fun e e' => e.1 < e'.1
  head : ∀ e ∈ blocks, e.2.head?.map DecodedInstr.va = some e.1
  flatten : (blocks.map Prod.snd).flatten = instrs
  controlFlow_last : ∀ e ∈ blocks, ∀ di ∈ e.2.dropLast, isControlFlow di = false
  following : ∀ pre di di' post, instrs = pre ++ di :: di' :: post → isControlFlow di = true →
    di'.va ∈ blocks.map Prod.fst

/-- A graph of the stream: the stream cut into blocks, with a block at every direct target that is
the address of an instruction. -/
structure IsCFG (instrs : List DecodedInstr) (blocks : List (U64 × List DecodedInstr)) :
    Prop extends
    IsCut instrs blocks where
  target : ∀ di ∈ instrs, ∀ di' ∈ instrs, directTarget di = di'.va →
    directTarget di ∈ blocks.map Prod.fst

/-! ## Leaders -/

/-- The leaders of control flow: what follows it, and its targets. -/
lemma mem_branchLeaders_iff {instrs : List DecodedInstr} {a : U64} :
    a ∈ branchLeaders instrs ↔ ∃ pre di post, instrs = pre ++ di :: post ∧ isControlFlow di = true ∧
      (post.head?.map DecodedInstr.va = some a ∨ directTarget di ≠ 0 ∧ directTarget di = a) := by
  induction instrs with
  | nil => simp [branchLeaders]
  | cons x rest ih =>
    have hrest : a ∈ branchLeaders rest ↔ ∃ pre di post, x :: rest = (x :: pre) ++ di :: post ∧
        isControlFlow di = true ∧
          (post.head?.map DecodedInstr.va = some a ∨ directTarget di ≠ 0 ∧
            directTarget di = a) := by
      simpa using ih
    have hfirst : (a ∈ (rest.head?.map DecodedInstr.va).toList ++
        if directTarget x ≠ 0 then [directTarget x] else []) ↔
          rest.head?.map DecodedInstr.va = some a ∨ directTarget x ≠ 0 ∧ directTarget x = a := by
      rw [List.mem_append, Option.mem_toList]
      refine or_congr_right ?_
      by_cases ht : directTarget x = 0
      · simp [ht]
      · simp [eq_comm]
    rw [branchLeaders]
    constructor
    · intro h
      by_cases hcf : isControlFlow x = true
      · rw [if_pos hcf] at h
        rcases List.mem_append.mp h with h | h
        · exact ⟨[], x, rest, rfl, hcf, hfirst.mp h⟩
        · obtain ⟨pre, di, post, hsplit, hdi⟩ := hrest.mp h
          exact ⟨x :: pre, di, post, hsplit, hdi⟩
      · rw [if_neg hcf] at h
        obtain ⟨pre, di, post, hsplit, hdi⟩ := hrest.mp h
        exact ⟨x :: pre, di, post, hsplit, hdi⟩
    · rintro ⟨pre, di, post, hsplit, hcf, hdi⟩
      cases pre with
      | nil =>
        obtain ⟨rfl, rfl⟩ := List.cons.inj hsplit
        rw [if_pos hcf]
        exact List.mem_append_left _ (hfirst.mpr hdi)
      | cons y pre =>
        obtain ⟨rfl, -⟩ := List.cons.inj hsplit
        have hmem := hrest.mpr ⟨pre, di, post, hsplit, hcf, hdi⟩
        by_cases hx : isControlFlow x = true
        · rw [if_pos hx]
          exact List.mem_append_right _ hmem
        · rw [if_neg hx]
          exact hmem

/-- An instruction of the stream that is the first one, follows control flow, or is the target of
control flow. -/
def IsLeader (instrs : List DecodedInstr) (di : DecodedInstr) : Prop :=
  instrs.head? = some di ∨
    (∃ pre before post, instrs = pre ++ before :: di :: post ∧ isControlFlow before = true) ∨
    ∃ branch ∈ instrs, isControlFlow branch = true ∧ directTarget branch = di.va

instance : IsStrictOrder U64 (· < ·) where
  irrefl a h := by rw [BitVec.lt_def] at h; omega
  trans a b c h h' := by rw [BitVec.lt_def] at *; omega

/-- The addresses of the graph are those of the leaders. -/
lemma mem_starts_iff {instrs : List DecodedInstr} {a : U64} :
    a ∈ (buildCFG instrs).map Prod.fst ↔ ∃ di ∈ instrs, di.va = a ∧ a ∈ leaders instrs := by
  cases instrs with
  | nil => simp [buildCFG]
  | cons front rest =>
    have hfirst : a ∈ (LeaderCut.modify front.va ([] : List DecodedInstr) id []).map Prod.fst ↔
        a = front.va := by
      simp [LeaderCut.modify]
    rw [buildCFG, LeaderCut.mem_keys_pass _ _ (LeaderCut.mem_keys_modify.mpr (Or.inl rfl)), hfirst]
    constructor
    · rintro (rfl | ⟨di, hdi, hleader, rfl⟩)
      · exact ⟨front, List.mem_cons_self, rfl, List.mem_cons_self⟩
      · exact ⟨di, hdi, rfl, by simpa using hleader⟩
    · rintro ⟨di, hdi, rfl, hmem⟩
      exact Or.inr ⟨di, hdi, by simpa using hmem, rfl⟩

section Sorted

variable {instrs : List DecodedInstr} {di di' : DecodedInstr}

/-- Increasing addresses tell instructions apart. -/
lemma eq_of_va_eq (hsorted : instrs.Pairwise fun x y => x.va < y.va) (hdi : di ∈ instrs)
    (hdi' : di' ∈ instrs) (h : di.va = di'.va) : di = di' := by
  by_contra hne
  have hapart := hsorted.imp (S := fun x y : DecodedInstr => x.va ≠ y.va)
    fun hlt heq => absurd (heq ▸ hlt) (BitVec.lt_irrefl _)
  have hsymm : Std.Symm fun x y : DecodedInstr => x.va ≠ y.va := ⟨fun _ _ hne => hne.symm⟩
  exact hapart.forall hdi hdi' hne h

/-- The instruction at the address zero is the first one. -/
lemma head_of_va_eq_zero (hsorted : instrs.Pairwise fun x y => x.va < y.va) (hdi : di ∈ instrs)
    (h : di.va = 0) : instrs.head? = some di := by
  cases instrs with
  | nil => cases hdi
  | cons front rest =>
    rcases List.mem_cons.mp hdi with rfl | hrest
    · rfl
    · have hlt := (List.pairwise_cons.mp hsorted).1 di hrest
      rw [h, BitVec.lt_def] at hlt
      exact absurd hlt (Nat.not_lt_zero _)

/-- The leaders among the instructions.  The target zero, which the source takes for none, can only
be that of the first one. -/
lemma va_mem_leaders_iff (hsorted : instrs.Pairwise fun x y => x.va < y.va) (hdi : di ∈ instrs) :
    di.va ∈ leaders instrs ↔ IsLeader instrs di := by
  obtain ⟨front, rest, rfl⟩ : ∃ front rest, instrs = front :: rest :=
    List.exists_cons_of_ne_nil (List.ne_nil_of_mem hdi)
  rw [leaders, List.mem_cons, mem_branchLeaders_iff]
  constructor
  · rintro (hva | ⟨pre, branch, post, hsplit, hcf, hnext | ⟨-, htarget⟩⟩)
    · left
      rw [eq_of_va_eq hsorted hdi List.mem_cons_self hva]
      rfl
    · obtain ⟨after, hafter, hva⟩ := Option.map_eq_some_iff.mp hnext
      obtain ⟨post', rfl⟩ := List.head?_eq_some_iff.mp hafter
      have hmem : after ∈ front :: rest := by simp [hsplit]
      rw [eq_of_va_eq hsorted hdi hmem hva.symm]
      exact Or.inr (Or.inl ⟨pre, branch, post', hsplit, hcf⟩)
    · exact Or.inr (Or.inr ⟨branch, by simp [hsplit], hcf, htarget⟩)
  · rintro (hhead | ⟨pre, before, post, hsplit, hcf⟩ | ⟨branch, hbranch, hcf, htarget⟩)
    · obtain rfl : front = di := Option.some_inj.mp hhead
      exact Or.inl rfl
    · exact Or.inr ⟨pre, before, di :: post, hsplit, hcf, Or.inl rfl⟩
    · by_cases hzero : directTarget branch = 0
      · have hhead := head_of_va_eq_zero hsorted hdi (htarget.symm.trans hzero)
        obtain rfl : front = di := Option.some_inj.mp hhead
        exact Or.inl rfl
      · obtain ⟨pre, post, hsplit⟩ := List.append_of_mem hbranch
        exact Or.inr ⟨pre, branch, post, hsplit, hcf, Or.inr ⟨hzero, htarget⟩⟩

/-- An instruction starts a block exactly if it is a leader. -/
lemma va_mem_starts_iff (hsorted : instrs.Pairwise fun x y => x.va < y.va) (hdi : di ∈ instrs) :
    di.va ∈ (buildCFG instrs).map Prod.fst ↔ IsLeader instrs di := by
  rw [mem_starts_iff, ← va_mem_leaders_iff hsorted hdi]
  exact ⟨fun ⟨_, _, _, h⟩ => h, fun h => ⟨di, hdi, rfl, h⟩⟩

/-! ## The graph -/

/-- A stream with increasing addresses is cut into blocks. -/
theorem isCut_buildCFG (hsorted : instrs.Pairwise fun x y => x.va < y.va) :
    IsCut instrs (buildCFG instrs) := by
  cases instrs with
  | nil =>
    exact ⟨List.Pairwise.nil, by simp [buildCFG], rfl, by simp [buildCFG],
      fun pre di di' post h => by simp at h⟩
  | cons front rest =>
    set instrs := front :: rest with hinstrs
    set isLeader := fun di : DecodedInstr => (leaders instrs).contains di.va with hleader
    have hcut : buildCFG instrs = (instrs.splitBy fun _ x => !isLeader x).map
        (LeaderCut.keyed DecodedInstr.va 0) :=
      LeaderCut.pass_eq_splitBy hsorted
    have hfollowing : ∀ pre x y post, instrs = pre ++ x :: y :: post → isControlFlow x = true →
        IsLeader instrs y := fun pre x y post hsplit hcf =>
      Or.inr (Or.inl ⟨pre, x, post, hsplit, hcf⟩)
    have hchain : instrs.IsChain fun x y => isControlFlow x = true → isLeader y = true := by
      rw [List.isChain_iff_forall_rel_of_append_cons_cons]
      intro x y pre post hsplit hcf
      have hy : y ∈ instrs := by rw [hsplit]; simp
      simpa [hleader] using (va_mem_leaders_iff hsorted hy).mpr (hfollowing pre x y post hsplit hcf)
    refine ⟨hcut ▸ LeaderCut.pairwise_keyed hsorted, ?_, ?_, ?_, ?_⟩
    · intro e he
      rw [hcut] at he
      obtain ⟨b, hb, rfl⟩ := List.mem_map.mp he
      cases b with
      | nil => exact absurd hb (List.nil_notMem_splitBy _ _)
      | cons di b => rfl
    · rw [hcut, List.map_map]
      exact (congrArg List.flatten (List.map_id _)).trans (List.flatten_splitBy _ _)
    · intro e he di hdi
      rw [hcut] at he
      obtain ⟨b, hb, rfl⟩ := List.mem_map.mp he
      by_contra hcf
      exact LeaderCut.not_mem_dropLast_of_followed hchain hb (by simpa using hcf) hdi
    · intro pre di di' post hsplit hcf
      have hdi' : di' ∈ instrs := by rw [hsplit]; simp
      exact (va_mem_starts_iff hsorted hdi').mpr (hfollowing pre di di' post hsplit hcf)

/-- Control flow goes to the start of a block. -/
lemma target_mem_starts (hsorted : instrs.Pairwise fun x y => x.va < y.va) (hdi : di ∈ instrs)
    (hcf : isControlFlow di = true) (hdi' : di' ∈ instrs) (htarget : directTarget di = di'.va) :
    directTarget di ∈ (buildCFG instrs).map Prod.fst := by
  rw [htarget, va_mem_starts_iff hsorted hdi']
  exact Or.inr (Or.inr ⟨di, hdi, hcf, htarget⟩)

/-- Every instruction with a direct target in the stream is control flow, or its target is a leader
anyway. -/
def TargetsAreLeaders (instrs : List DecodedInstr) : Prop :=
  ∀ di ∈ instrs, isControlFlow di = false → ∀ di' ∈ instrs, directTarget di = di'.va →
    IsLeader instrs di'

/-- The stream has a block at every direct target exactly if the targets of what is not control flow
are leaders. -/
lemma isCFG_buildCFG_iff (hsorted : instrs.Pairwise fun x y => x.va < y.va) :
    IsCFG instrs (buildCFG instrs) ↔ TargetsAreLeaders instrs := by
  constructor
  · intro h di hdi _ di' hdi' htarget
    have hstart := h.target di hdi di' hdi' htarget
    rwa [htarget, va_mem_starts_iff hsorted hdi'] at hstart
  · intro h
    refine ⟨isCut_buildCFG hsorted, fun di hdi di' hdi' htarget => ?_⟩
    cases hcf : isControlFlow di with
    | true => exact target_mem_starts hsorted hdi hcf hdi' htarget
    | false =>
      rw [htarget, va_mem_starts_iff hsorted hdi']
      exact h di hdi hcf di' hdi' htarget

end Sorted

/-- Disassembling a buffer ends, with instructions that tile it.  What is built from them is a graph
of the stream exactly if every direct target of an instruction that `isControlFlow` does not list is
a leader anyway. -/
theorem disassemble_buildCFG_iff {decode : X86Disassembler.Decoder} (hlaw : decode.Lawful)
    {data : List (BitVec 8)} {baseVA : U64} (hbase : baseVA.toNat + data.length ≤ 2 ^ 64) :
    ∃ instrs, (∀ fuel, data.length ≤ fuel →
        X86Disassembler.disassemble decode data baseVA fuel = some instrs) ∧
      Tiles baseVA.toNat instrs (baseVA.toNat + data.length) ∧
      (IsCFG instrs (buildCFG instrs) ↔ TargetsAreLeaders instrs) := by
  obtain ⟨instrs, hrun, htiles⟩ := X86Disassembler.tiles_disassembleFrom hlaw hbase data.length 0
    (Nat.sub_le _ _) (Nat.zero_le _)
  exact ⟨instrs, hrun, htiles, isCFG_buildCFG_iff htiles.pairwise.2⟩

/-- A decoder of two short branches that fails on everything else: `jmp` (`eb rel8`), and `jrcxz`
(`e3 rel8`), whose mnemonic is none of those that the program distinguishes. -/
def branchDecoder : X86Disassembler.Decoder
  | 0xeb :: rel :: _ => some (branch .jmp rel)
  | 0xe3 :: rel :: _ => some (branch (.other 0) rel)
  | _ => none
where
  branch (mnemonic : ZydisMnemonic) (rel : BitVec 8) : ZydisDecodedInstruction :=
    { mnemonic := mnemonic, length := 2, operandCountVisible := 1,
      operands := [{ type := .immediate, size := 8,
                     imm := { isRelative := true, value := rel.signExtend 64 } }] }

/-- A branch has two bytes. -/
lemma lawful_branchDecoder : branchDecoder.Lawful := by
  intro bytes z hz
  unfold branchDecoder at hz
  split at hz
  · cases hz
    simp [branchDecoder.branch]
  · cases hz
    simp [branchDecoder.branch]
  · cases hz

/-- A branch over one byte and two bytes that do not decode, at `0x1000`. -/
def branchStream (mnemonic : ZydisMnemonic) : List DecodedInstr :=
  [{ va := 0x1000, length := 2, zydis := branchDecoder.branch mnemonic 1 },
    { va := 0x1002, length := 1, zydis := { mnemonic := .nop } },
    { va := 0x1003, length := 1, zydis := { mnemonic := .nop } }]

/-- `jmp +1` and two bytes that do not decode: the second of them is a block. -/
theorem disassemble_buildCFG_iff_jmp :
    ∃ instrs, (∀ fuel, 4 ≤ fuel →
        X86Disassembler.disassemble branchDecoder [0xeb, 0x01, 0x90, 0x90] 0x1000 fuel =
          some instrs) ∧
      Tiles 0x1000 instrs 0x1004 ∧ IsCFG instrs (buildCFG instrs) := by
  have hbase : (0x1000 : U64).toNat + ([0xeb, 0x01, 0x90, 0x90] : List (BitVec 8)).length ≤
    2 ^ 64 := by
    decide
  obtain ⟨instrs, hrun, htiles, hiff⟩ := disassemble_buildCFG_iff lawful_branchDecoder hbase
  refine ⟨instrs, hrun, htiles, hiff.mpr ?_⟩
  obtain rfl : instrs = branchStream .jmp := Option.some_inj.mp ((hrun 4 le_rfl).symm.trans rfl)
  have hnone : ∀ di ∈ branchStream .jmp, isControlFlow di = false → ∀ di' ∈ branchStream .jmp,
      directTarget di ≠ di'.va := by decide
  exact fun di hdi hcf di' hdi' htarget => absurd htarget (hnone di hdi hcf di' hdi')

/-- `jrcxz +1` and two bytes that do not decode: the second of them is the target of the `jrcxz`,
and is no block. -/
theorem not_isCFG_jrcxz : branchDecoder.Lawful ∧
    ∃ instrs, X86Disassembler.disassemble branchDecoder [0xe3, 0x01, 0x90, 0x90] 0x1000 4 =
        some instrs ∧ ¬ IsCFG instrs (buildCFG instrs) := by
  refine ⟨lawful_branchDecoder, branchStream (.other 0), rfl, fun h => ?_⟩
  have htarget := h.target _ List.mem_cons_self _ (List.mem_of_getLast? rfl) (by decide)
  exact absurd htarget (by decide)

end CFGBuilder

end InstaX
