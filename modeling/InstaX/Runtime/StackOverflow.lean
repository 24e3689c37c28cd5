import InstaX.Runtime.StackRecord
import InstaX.Runtime.StackWalk

/-!
# Overflow of the initial stack

`buildInitialStack` moves its cursor down by whatever the strings need and leaves it to the check of
each write to notice when the stack is full.  That check asks for mapped memory, not for the stack,
and the test against the low end of the stack comes after all strings.  So an overflow is noticed
in time exactly if the program is stopped before its first write outside the stack
(`noticesOverflow_iff`); where the memory below the stack is mapped, it is not.
-/

namespace InstaX

open Throwing Tracing Rounding ByteStore GuestMemory GuestStack

namespace StackRecord

variable {m : GuestMemory} {low top : U64} {image : GuestElfImage} {argv envp : List StdString}

/-! ## The purpose -/

/-- A range inside the stack. -/
def Inside (low top : U64) (e : U64 × U64) : Prop :=
  ∀ x ∈ span e.1 e.2.toNat, low.toNat ≤ x.toNat ∧ x.toNat < top.toNat

/-- Everything has room in the stack. -/
def Fits (low top : U64) (image : GuestElfImage) (argv envp : List StdString) : Prop :=
  stackNeed image argv envp ≤ top.toNat - low.toNat

/-- What does not fit is refused, and in any case nothing is written outside the stack and no stack
pointer outside of it is returned. -/
structure NoticesOverflow (write64 : U64 → U64 → Prog World Unit) (k : HostKernel)
    (image : GuestElfImage) (argv envp : List StdString) (stackTop stackSize : U64) (w : World) :
    Prop where
  throws : ¬ Fits (guestPageAlignUp stackTop - guestPageAlignUp stackSize)
      (guestPageAlignUp stackTop) image argv envp →
    ¬ Returns (buildInitialStack write64 k image argv envp stackTop stackSize) (w, [])
  inside : ∀ t, Leaves (buildInitialStack write64 k image argv envp stackTop stackSize) (w, []) t →
    ∀ e ∈ t.2, Inside (guestPageAlignUp stackTop - guestPageAlignUp stackSize)
      (guestPageAlignUp stackTop) e
  rsp : ∀ stack t, (buildInitialStack write64 k image argv envp stackTop stackSize).run (w, []) =
    .ok stack t → stack.low.toNat ≤ stack.rsp.toNat ∧ stack.rsp.toNat < stack.top.toNat

/-! ## The condition -/

/-- Where the block of words begins. -/
def rspOf (top : U64) (image : GuestElfImage) (argv envp : List StdString) : U64 :=
  alignDown (randomAddrOf top image argv envp -
    BitVec.ofNat 64 (slotCount argv.length envp.length 19) * 8) kStackAlign

/-- The ranges of all writes in order; there is no block if it began below the stack. -/
def stackRanges (low top : U64) (image : GuestElfImage) (argv envp : List StdString) :
    List (U64 × U64) :=
  pushedRanges top image argv envp ++
    if rspOf top image argv envp < low then []
    else wordRanges (rspOf top image argv envp) (slotCount argv.length envp.length 19)

/-- The regions after the stack is mapped. -/
def stackMemory (m : GuestMemory) (low size : U64) : GuestMemory :=
  if size = 0 then m
  else { m with regions := m.regions ++ [⟨low, size, kProtRead ||| kProtWrite, "stack"⟩] }

/-- A write of the list is refused, and all writes before it lie in the stack. -/
def StopsInside (m : GuestMemory) (low top : U64) (l : List (U64 × U64)) : Prop :=
  ∃ l₁ e l₂, l = l₁ ++ e :: l₂ ∧ (∀ d ∈ l₁, Inside low top d) ∧ ¬ m.Accessible e.1 e.2

/-- The program is stopped before it leaves the stack, or it does not leave it: the mapping fails,
everything fits, a write is refused in time, or the block would begin below the stack and everything
above it lies inside. -/
def StoppedInTime (k : HostKernel) (image : GuestElfImage) (argv envp : List StdString)
    (stackTop stackSize : U64) (w : World) : Prop :=
  let top := guestPageAlignUp stackTop
  let size := guestPageAlignUp stackSize
  let low := top - size
  ¬ Returns (map k low size (kProtRead ||| kProtWrite) "stack") w ∨
    Fits low top image argv envp ∨
    StopsInside (stackMemory w.mem low size) low top (stackRanges low top image argv envp) ∨
    rspOf top image argv envp < low ∧ ∀ e ∈ pushedRanges top image argv envp, Inside low top e

/-! ## What fits lies inside -/

/-- A range between the ends is inside. -/
lemma inside_of_bounds {e : U64 × U64} (hlow : low.toNat ≤ e.1.toNat)
    (htop : e.1.toNat + e.2.toNat ≤ top.toNat) : Inside low top e := by
  intro x hx
  have hlt := top.isLt
  rw [mem_span_iff (by omega)] at hx
  omega

/-- Strings that fit are pushed inside. -/
lemma inside_pushRanges {l : List StdString} {c : U64} (hc : c.toNat ≤ top.toNat)
    (hroom : low.toNat + stringBytes l ≤ c.toNat) :
    (∀ e ∈ pushRanges c l, Inside low top e) ∧ (pushCursor c l).toNat + stringBytes l =
      c.toNat := by
  induction l generalizing c with
  | nil => exact ⟨by simp [pushRanges], rfl⟩
  | cons s l ih =>
    have hsum : stringBytes (s :: l) = s.length + 1 + stringBytes l := by
      simp [stringBytes]
    have hlt := c.isLt
    have hlen : (pushRange c s).2.toNat = s.length + 1 := by
      rw [pushRange, BitVec.toNat_ofNat, Nat.mod_eq_of_lt (by omega)]
    have hstart : (pushRange c s).1.toNat = c.toNat - (pushRange c s).2.toNat :=
      BitVec.toNat_sub_of_le (by rw [BitVec.le_def]; change (pushRange c s).2.toNat ≤ _; omega)
    obtain ⟨hinside, hcursor⟩ := ih (c := (pushRange c s).1) (by omega) (by omega)
    refine ⟨List.forall_mem_cons.mpr ⟨?_, hinside⟩, ?_⟩
    · exact inside_of_bounds (by omega) (by omega)
    · rw [pushCursor]
      omega

/-- What all strings together take. -/
lemma stringBytes_pushedStrings (image : GuestElfImage) (argv envp : List StdString) :
    stringBytes (pushedStrings image argv envp) =
      image.path.length + 1 + (platformName.length + 1) +
      stringBytes envp + stringBytes argv := by
  rw [← stringBytes_reverse envp, ← stringBytes_reverse argv, pushedStrings]
  simp only [stringBytes, List.map_cons, List.map_append, List.sum_cons, List.sum_append]
  omega

/-- If everything fits, all writes are inside, and the block begins there. -/
lemma inside_of_fits (htop : 16 ∣ top.toNat) (hfits : Fits low top image argv envp) :
    ¬ rspOf top image argv envp < low ∧
      ∀ e ∈ stackRanges low top image argv envp, Inside low top e := by
  have hbytes := stringBytes_pushedStrings image argv envp
  set slots := slotCount argv.length envp.length 19 with hslots
  have hpos : 0 < slots := by
    rw [hslots, slotCount]
    omega
  unfold Fits stackNeed at hfits
  rw [← hbytes, ← hslots, roundUp16, roundUp16] at hfits
  have hlt := top.isLt
  have hroom : low.toNat + stringBytes (pushedStrings image argv envp) ≤ top.toNat := by
    omega
  obtain ⟨hstrings, hcursor⟩ := inside_pushRanges le_rfl hroom
  -- the random bytes
  have hrandom : (randomAddrOf top image argv envp).toNat =
      top.toNat - (stringBytes (pushedStrings image argv envp) + 15) / 16 * 16 - 16 := by
    have hn : kRandomBytes.toNat = 16 := rfl
    rw [randomAddrOf, BitVec.toNat_sub_of_le, toNat_alignDown_kStackAlign, hn]
    · omega
    · rw [BitVec.le_def, toNat_alignDown_kStackAlign, hn]
      omega
  -- the block
  have hblock : (BitVec.ofNat 64 slots * 8).toNat = 8 * slots := by
    have height : (8 : U64).toNat = 8 := rfl
    rw [BitVec.toNat_mul, BitVec.toNat_ofNat, height, Nat.mod_mul_mod, Nat.mod_eq_of_lt (by omega)]
    omega
  have hrsp : (rspOf top image argv envp).toNat =
      ((randomAddrOf top image argv envp).toNat - 8 * slots) / 16 * 16 := by
    rw [rspOf, ← hslots, toNat_alignDown_kStackAlign,
      BitVec.toNat_sub_of_le (by rw [BitVec.le_def, hblock]; omega), hblock]
    omega
  have hnot : ¬ rspOf top image argv envp < low := by
    rw [BitVec.lt_def]
    omega
  refine ⟨hnot, ?_⟩
  rw [stackRanges, if_neg hnot, pushedRanges]
  simp only [List.forall_mem_append, List.forall_mem_singleton]
  refine ⟨⟨hstrings, ?_⟩, ?_⟩
  · have hn : kRandomBytes.toNat = 16 := rfl
    exact inside_of_bounds (by dsimp only; omega) (by dsimp only; omega)
  · intro e he
    obtain ⟨i, hi, rfl⟩ := mem_wordRanges.mp he
    have height : (8 : U64).toNat = 8 := rfl
    have haddr : (wordAddr (rspOf top image argv envp) i).toNat =
        (rspOf top image argv envp).toNat + 8 * i := toNat_add_ofNat (by omega)
    exact inside_of_bounds (by dsimp only; omega) (by dsimp only; omega)

/-! ## The run -/

variable {write64 : U64 → U64 → Prog World Unit} {k : HostKernel} {stackTop stackSize size : U64}
  {w w₁ : World}

/-- The regions after the mapping. -/
lemma mem_of_run_mapStack {u : Unit} (htop : 4096 ∣ top.toNat) (hsize : 4096 ∣ size.toNat)
    (h : (map k (top - size) size (kProtRead ||| kProtWrite) "stack").run w = .ok u w₁) :
    w₁.mem = stackMemory w.mem (top - size) size := by
  have hlow : 4096 ∣ (top - size).toNat := by
    rw [BitVec.toNat_sub]
    omega
  unfold stackMemory
  rcases mapsPages_of_run_map h with ⟨hzero, rfl⟩ | ⟨hne, hmaps⟩
  · rw [if_pos hzero]
  · rw [if_neg hne, hmaps.mem, guestPageAlignDown_of_dvd hlow, sub_add_cancel,
      guestPageAlignUp_of_dvd htop, sub_sub_cancel]

/-- How the part after the mapping ends. -/
inductive Outcome (m : GuestMemory) (low top : U64) (image : GuestElfImage)
    (argv envp : List StdString) (r : EStateM.Result Exn
      (World × List (U64 × U64)) GuestStackImage) :
    Prop where
  /-- A write is refused. -/
  | refused (l₁ : List (U64 × U64)) (e : U64 × U64) (l₂ : List (U64 × U64))
      (hsplit : stackRanges low top image argv envp = l₁ ++ e :: l₂)
      (hall : ∀ d ∈ l₁, m.Accessible d.1 d.2) (he : ¬ m.Accessible e.1 e.2) (exn : Exn)
      (t : World × List (U64 × U64)) (hrun : r = .error exn t) (hrecord : t.2 = l₁)
  /-- The block would begin below the stack. -/
  | tooLarge (hlow : rspOf top image argv envp < low)
      (hall : ∀ d ∈ stackRanges low top image argv envp, m.Accessible d.1 d.2) (exn : Exn)
      (t : World × List (U64 × U64)) (hrun : r = .error exn t)
      (hrecord : t.2 = stackRanges low top image argv envp)
  /-- All writes are made. -/
  | built (hlow : ¬ rspOf top image argv envp < low)
      (hall : ∀ d ∈ stackRanges low top image argv envp, m.Accessible d.1 d.2)
      (stack : GuestStackImage) (t : World × List (U64 × U64)) (hrun : r = .ok stack t)
      (hrecord : t.2 = stackRanges low top image argv envp) (hlowEq : stack.low = low)
      (htopEq : stack.top = top) (hrsp : stack.rsp = rspOf top image argv envp)

/-- Once the stack is mapped, the program has one of its outcomes. -/
lemma outcome_of_run_map (hw : ChecksWrite64 write64)
    (hmap : (map k (guestPageAlignUp stackTop - guestPageAlignUp stackSize)
      (guestPageAlignUp stackSize) (kProtRead ||| kProtWrite) "stack").run w = .ok () w₁) :
    Outcome w₁.mem (guestPageAlignUp stackTop - guestPageAlignUp stackSize)
      (guestPageAlignUp stackTop) image argv envp
      ((buildInitialStack write64 k image argv envp stackTop stackSize).run (w, [])) := by
  have hsilent : (silent (map k (guestPageAlignUp stackTop - guestPageAlignUp stackSize)
      (guestPageAlignUp stackSize) (kProtRead ||| kProtWrite) "stack") :
        Traced (U64 × U64) World Unit).run (w, []) = .ok () (w₁, []) :=
    run_silent_eq_ok_iff.mpr ⟨hmap, rfl⟩
  unfold buildInitialStack
  dsimp only
  rw [run_bind_of_ok hsilent]
  generalize guestPageAlignUp stackTop = top
  generalize guestPageAlignUp stackSize = size
  obtain ⟨p, hrandom, hargs, henvs, hpush⟩ := writes_pushObjects (m := w₁.mem) top image argv envp
  have hrsp : alignDown (p.randomAddr - BitVec.ofNat 64 (slotCount argv.length envp.length
      (p.aux image).length) * 8) kStackAlign = rspOf top image argv envp := by
    rw [hrandom]
    rfl
  by_cases hlow : rspOf top image argv envp < top - size
  · have hranges : stackRanges (top - size) top image argv envp =
        pushedRanges top image argv envp := by
      rw [stackRanges, if_pos hlow, List.append_nil]
    rcases hpush.outcome (s := (w₁, [])) rfl with
      ⟨hall, t, hrun, -, hrecord⟩ | ⟨l₁, e, l₂, hsplit, hall, he, exn, t, hrun, hrecord⟩
    · have hthrow : (placeBlock write64 (top - size) top size p.randomAddr argv.length envp.length
          p.argAddrs p.envAddrs (p.aux image)).run t = .error (.runtimeError
            "GuestStack: argv/envp are too large for the stack size requested") t := by
        unfold placeBlock
        dsimp only
        rw [hrsp, if_pos hlow]
        rfl
      exact .tooLarge hlow (by rw [hranges]; exact hall) _ t
        ((run_bind_of_ok hrun _).trans hthrow) (by rw [hrecord, hranges, List.nil_append])
    · exact .refused l₁ e l₂ (by rw [hranges, hsplit]) hall he exn t (run_bind_of_error hrun _)
        (by rw [hrecord, List.nil_append])
  · have hranges : stackRanges (top - size) top image argv envp =
      pushedRanges top image argv envp ++
        wordRanges (rspOf top image argv envp) (slotCount argv.length envp.length 19) := by
      rw [stackRanges, if_neg hlow]
    obtain ⟨stack, hlowEq, htopEq, hrspEq, hplace⟩ :=
      writes_placeBlock (m := w₁.mem) hw top size hargs henvs hrsp hlow
    have haux : (p.aux image).length = 19 := rfl
    rw [haux] at hplace
    have hwrites : Writes w₁.mem (stackRanges (top - size) top image argv envp) stack
        (pushObjects top image argv envp >>= fun p => placeBlock write64 (top - size) top size
          p.randomAddr argv.length envp.length p.argAddrs p.envAddrs (p.aux image)) := by
      rw [hranges]
      exact hpush.bind hplace
    rcases hwrites.outcome (s := (w₁, [])) rfl with
      ⟨hall, t, hrun, -, hrecord⟩ | ⟨l₁, e, l₂, hsplit, hall, he, exn, t, hrun, hrecord⟩
    · exact .built hlow hall stack t hrun (by rw [hrecord, List.nil_append]) hlowEq htopEq hrspEq
    · exact .refused l₁ e l₂ hsplit hall he exn t hrun (by rw [hrecord, List.nil_append])

/-- What is noticed in the recorded program is noticed in `buildInitialStack` itself: every run of
it has a record of writes inside the stack, what does not fit is refused, and no stack pointer
outside of the stack is returned. -/
lemma NoticesOverflow.buildInitialStack
    (h : NoticesOverflow write64 k image argv envp stackTop stackSize w) :
    (¬ Fits (guestPageAlignUp stackTop - guestPageAlignUp stackSize)
        (guestPageAlignUp stackTop) image argv envp →
      ¬ Returns (GuestStack.buildInitialStack write64 k image argv envp stackTop stackSize) w) ∧
    (∀ w', Leaves (GuestStack.buildInitialStack write64 k image argv envp stackTop stackSize) w w' →
      ∃ writes, Leaves (StackRecord.buildInitialStack write64 k image argv envp stackTop stackSize)
          (w, []) (w', writes) ∧
        ∀ e ∈ writes, Inside (guestPageAlignUp stackTop - guestPageAlignUp stackSize)
          (guestPageAlignUp stackTop) e) ∧
    ∀ stack w',
      (GuestStack.buildInitialStack write64 k image argv envp stackTop stackSize).run w =
        .ok stack w' → stack.low.toNat ≤ stack.rsp.toNat ∧ stack.rsp.toNat < stack.top.toNat := by
  have herases := @erases_buildInitialStack write64 k image argv envp stackTop stackSize
  refine ⟨fun hnot hreturns => ?_, fun w' hleaves => ?_, fun stack w' hrun => ?_⟩
  · obtain ⟨stack, w', hrun⟩ := hreturns
    obtain ⟨writes, hrecorded⟩ := herases.exists_run_eq_ok hrun []
    exact h.throws hnot ⟨stack, _, hrecorded⟩
  · obtain ⟨writes, hrecorded⟩ := herases.exists_leaves hleaves []
    exact ⟨writes, hrecorded, h.inside _ hrecorded⟩
  · obtain ⟨writes, hrecorded⟩ := herases.exists_run_eq_ok hrun []
    exact h.rsp stack _ hrecorded

/-! ## When the overflow is noticed -/

/-- Nothing is written if the stack cannot be mapped. -/
lemma noticesOverflow_of_not_returns_map (h : ¬ Returns (map k (guestPageAlignUp stackTop -
      guestPageAlignUp stackSize) (guestPageAlignUp stackSize)
        (kProtRead ||| kProtWrite) "stack") w) :
    NoticesOverflow write64 k image argv envp stackTop stackSize w := by
  obtain ⟨exn, t, hmap⟩ := throws_of_not_returns h
  have hsilent : (silent (map k (guestPageAlignUp stackTop - guestPageAlignUp stackSize)
      (guestPageAlignUp stackSize) (kProtRead ||| kProtWrite) "stack") :
        Traced (U64 × U64) World Unit).run (w, []) = .error exn (t, []) :=
    run_silent_eq_error_iff.mpr ⟨hmap, rfl⟩
  have hrun : (buildInitialStack write64 k image argv envp stackTop stackSize).run (w, []) =
      .error exn (t, []) := run_bind_of_error hsilent _
  refine ⟨?_, ?_, ?_⟩
  · rintro - ⟨stack, t', h'⟩
    cases hrun.symm.trans h'
  · rintro t' (⟨stack, h'⟩ | ⟨exn', h'⟩) e he
    · cases hrun.symm.trans h'
    · obtain ⟨-, rfl⟩ := EStateM.Result.error.inj (hrun.symm.trans h')
      exact absurd he List.not_mem_nil
  · intro stack t' h'
    cases hrun.symm.trans h'

/-- If the writes that are made lie inside, and all of them are made only if everything fits, then
an overflow is noticed. -/
lemma noticesOverflow_of_outcome
    (h : Outcome m (guestPageAlignUp stackTop - guestPageAlignUp stackSize)
      (guestPageAlignUp stackTop) image argv envp
      ((buildInitialStack write64 k image argv envp stackTop stackSize).run (w, [])))
    (hinside : ∀ l₁ l₂, stackRanges (guestPageAlignUp stackTop - guestPageAlignUp stackSize)
      (guestPageAlignUp stackTop) image argv envp = l₁ ++ l₂ →
      (∀ d ∈ l₁, m.Accessible d.1 d.2) → ∀ d ∈ l₁,
        Inside (guestPageAlignUp stackTop - guestPageAlignUp stackSize)
          (guestPageAlignUp stackTop) d)
    (hfits : ¬ rspOf (guestPageAlignUp stackTop) image argv envp <
        guestPageAlignUp stackTop - guestPageAlignUp stackSize →
      (∀ d ∈ stackRanges (guestPageAlignUp stackTop - guestPageAlignUp stackSize)
        (guestPageAlignUp stackTop) image argv envp, m.Accessible d.1 d.2) →
      Fits (guestPageAlignUp stackTop - guestPageAlignUp stackSize) (guestPageAlignUp stackTop)
        image argv envp) :
    NoticesOverflow write64 k image argv envp stackTop stackSize w := by
  have htop : 16 ∣ (guestPageAlignUp stackTop).toNat := by
    have := dvd_guestPageAlignUp stackTop
    omega
  refine ⟨?_, ?_, ?_⟩
  · rintro hnot ⟨stack, t, hreturns⟩
    rcases h with ⟨_, _, _, -, -, -, exn, t', hr, -⟩ | ⟨-, -, exn, t', hr, -⟩ | ⟨hlow, hall, -⟩
    · cases hr.symm.trans hreturns
    · cases hr.symm.trans hreturns
    · exact hnot (hfits hlow hall)
  · intro t hleaves
    -- the record is an initial piece of the ranges
    obtain ⟨l₂, hsplit, hall⟩ : ∃ l₂, stackRanges (guestPageAlignUp stackTop -
        guestPageAlignUp stackSize) (guestPageAlignUp stackTop) image argv envp = t.2 ++ l₂ ∧
          ∀ d ∈ t.2, m.Accessible d.1 d.2 := by
      rcases h with ⟨l₁, e, l₂, hsplit, hall, -, exn, t', hr, hrecord⟩ |
        ⟨-, hall, exn, t', hr, hrecord⟩ | ⟨-, hall, stack, t', hr, hrecord, -⟩
      · obtain rfl := hleaves.unique (Or.inr ⟨exn, hr⟩)
        rw [hrecord]
        exact ⟨e :: l₂, hsplit, hall⟩
      · obtain rfl := hleaves.unique (Or.inr ⟨exn, hr⟩)
        rw [hrecord]
        exact ⟨[], (List.append_nil _).symm, hall⟩
      · obtain rfl := hleaves.unique (Or.inl ⟨stack, hr⟩)
        rw [hrecord]
        exact ⟨[], (List.append_nil _).symm, hall⟩
    exact hinside t.2 l₂ hsplit hall
  · intro stack t hreturns
    rcases h with ⟨_, _, _, -, -, -, exn, t', hr, -⟩ | ⟨-, -, exn, t', hr, -⟩ |
      ⟨hlow, hall, stack', t', hr, -, hlowEq, htopEq, hrsp⟩
    · cases hr.symm.trans hreturns
    · cases hr.symm.trans hreturns
    · obtain ⟨rfl, rfl⟩ := EStateM.Result.ok.inj (hr.symm.trans hreturns)
      have hblock := (inside_of_fits htop (hfits hlow hall)).2
        (rspOf (guestPageAlignUp stackTop) image argv envp, 8) (by
          rw [stackRanges, if_neg hlow]
          exact List.mem_append_right _ (mem_wordRanges.mpr
            ⟨0, by unfold slotCount; omega, by rw [wordAddr_zero]⟩))
      rw [hlowEq, htopEq, hrsp]
      refine hblock _ ?_
      rw [mem_span, sub_self]
      exact Nat.zero_lt_succ 7

/-- The overflow of an initial stack is noticed before any damage exactly if the program is stopped
in time.  It is then noticed by the program without a record
(`NoticesOverflow.buildInitialStack`). -/
theorem noticesOverflow_iff (hw : ChecksWrite64 write64) :
    NoticesOverflow write64 k image argv envp stackTop stackSize w ↔
      StoppedInTime k image argv envp stackTop stackSize w := by
  unfold StoppedInTime
  dsimp only
  by_cases hmap : Returns (map k (guestPageAlignUp stackTop - guestPageAlignUp stackSize)
    (guestPageAlignUp stackSize) (kProtRead ||| kProtWrite) "stack") w
  swap
  · exact iff_of_true (noticesOverflow_of_not_returns_map hmap) (Or.inl hmap)
  obtain ⟨_, w₁, hrun⟩ := hmap
  have hmem := mem_of_run_mapStack (dvd_guestPageAlignUp stackTop) (dvd_guestPageAlignUp stackSize)
    hrun
  have houtcome : Outcome w₁.mem (guestPageAlignUp stackTop - guestPageAlignUp stackSize)
      (guestPageAlignUp stackTop) image argv envp
      ((buildInitialStack write64 k image argv envp stackTop stackSize).run (w, [])) :=
    outcome_of_run_map hw hrun
  rw [hmem] at houtcome
  constructor
  · -- what the run wrote lies inside, so it was stopped in time
    intro h
    by_cases hfits : Fits (guestPageAlignUp stackTop - guestPageAlignUp stackSize)
      (guestPageAlignUp stackTop) image argv envp
    · exact Or.inr (Or.inl hfits)
    · refine Or.inr (Or.inr ?_)
      rcases houtcome with ⟨l₁, e, l₂, hsplit, -, he, exn, t, hr, rfl⟩ |
        ⟨hlow, -, exn, t, hr, hrecord⟩ | ⟨-, -, stack, t, hr, -⟩
      · exact Or.inl ⟨_, e, l₂, hsplit, h.inside t (Or.inr ⟨exn, hr⟩), he⟩
      · have hinside := h.inside t (Or.inr ⟨exn, hr⟩)
        rw [hrecord, stackRanges, if_pos hlow, List.append_nil] at hinside
        exact Or.inr ⟨hlow, hinside⟩
      · exact absurd ⟨stack, t, hr⟩ (h.throws hfits)
  · rintro (hnot | hfits | ⟨l₁', e, l₂', hsplit', hinside, he⟩ | ⟨hlow, hinside⟩)
    · exact absurd ⟨_, w₁, hrun⟩ hnot
    · have htop : 16 ∣ (guestPageAlignUp stackTop).toNat := by
        have := dvd_guestPageAlignUp stackTop
        omega
      refine noticesOverflow_of_outcome houtcome (fun l₁ l₂ hsplit _ d hd => ?_) fun _ _ => hfits
      refine (inside_of_fits htop hfits).2 d ?_
      rw [hsplit]
      exact List.mem_append_left l₂ hd
    · refine noticesOverflow_of_outcome houtcome (fun l₁ l₂ hsplit hall d hd => ?_) fun _ hall => ?_
      · exact hinside d (subset_of_split hall he (hsplit.symm.trans hsplit') hd)
      · exact absurd (hall e (by rw [hsplit']; simp)) he
    · refine noticesOverflow_of_outcome houtcome (fun l₁ l₂ hsplit _ d hd => ?_) fun hnot _ =>
        absurd hlow hnot
      rw [stackRanges, if_pos hlow, List.append_nil] at hsplit
      exact hinside d (by rw [hsplit]; exact List.mem_append_left l₂ hd)

/-! ## A stack above mapped memory -/

/-- The eight bytes of a word are checked like any other write. -/
lemma checksWrite64_writeLittleEndian : ChecksWrite64 writeLittleEndian where
  toIsWrite64 := isWrite64_writeLittleEndian
  returns_iff _ _ _ := returns_write

/-- A guest memory that reserved three pages, with the first and the last of them mapped. -/
def betweenPages : World where
  mem := ⟨0, 0x1000, 0x3000, 0x1000, 0x4000,
    [⟨0x1000, 0x1000, 3, "below"⟩, ⟨0x3000, 0x1000, 3, "above"⟩]⟩
  host := ⟨fun _ => 0, fun _ => some PROT_NONE⟩

/-- An image without a name. -/
def namelessImage : GuestElfImage :=
  ⟨[], false, false, false, [], 0, 0x400000, 0x400000, 0x401000, 0, 0x400040, 56, 1, 0x401000⟩

/-- On one page between the two, the criterion for one short argument. -/
theorem noticesOverflow_iff_betweenPages :
    NoticesOverflow writeLittleEndian ElfMapper.fixedKernel namelessImage [[0x61]] [] 0x3000 0x1000
        betweenPages ↔
      StoppedInTime ElfMapper.fixedKernel namelessImage [[0x61]] [] 0x3000 0x1000 betweenPages :=
  noticesOverflow_iff checksWrite64_writeLittleEndian

/-- An argument of 4200 characters is written over the end of the page below the stack. -/
theorem not_noticesOverflow_betweenPages :
    ¬ NoticesOverflow writeLittleEndian ElfMapper.fixedKernel namelessImage
      [List.replicate 4200 0x61] [] 0x3000 0x1000 betweenPages := by
  intro h
  obtain ⟨t, ht⟩ := exists_leaves (buildInitialStack writeLittleEndian ElfMapper.fixedKernel
    namelessImage [List.replicate 4200 0x61] [] 0x3000 0x1000) (betweenPages, [])
  have hrecord : t.2 = [(0x2fff, 1), (0x2ff8, 7), (0x1f8f, 4201), (0x1f70, 16)] :=
    (recordOf_of_leaves ht).symm.trans (by decide +kernel)
  have hinside := h.inside t ht (0x1f8f, 4201) (by rw [hrecord]; decide) 0x1f8f
    (mem_span.mpr (by decide))
  exact absurd hinside.1 (by decide)

end StackRecord

end InstaX
