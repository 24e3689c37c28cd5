import InstaX.Foundation.Tracing
import InstaX.Runtime.StackLayout

/-!
# What the initial stack writes

`buildInitialStack` with a record of the ranges it writes, for the strings, the random bytes and the
words; without the record it is the program of `GuestStack`
(`StackRecord.erases_buildInitialStack`).

Which ranges these are depends on the arguments alone, and whether a write returns depends on the
mapped regions alone, which no write changes.  So each part of the program makes the writes of a
list in order and stops at the first that is refused (`performs_pushObjects`,
`performs_writeBlock`).
-/

namespace InstaX

open Throwing Tracing Rounding ByteStore GuestMemory GuestStack

/-- `write64` is checked like `write`. -/
structure ChecksWrite64 (write64 : U64 → U64 → Prog World Unit) : Prop extends
    IsWrite64 write64 where
  returns_iff : ∀ a v w, Returns (write64 a v) w ↔ w.mem.Accessible a 8

/-! ## The recorded program -/

namespace StackRecord

/-- A write with a record of its range. -/
def recorded (a n : U64) (x : Prog World Unit) : Traced (U64 × U64) World Unit := do
  silent x
  emit (a, n)

/-- Push a string with its terminator. -/
def pushString (cursor : U64) (s : StdString) : Traced (U64 × U64) World U64 := do
  let bytes := BitVec.ofNat 64 (s.length + 1)
  recorded (cursor - bytes) bytes (write (cursor - bytes) (fun i => s.getD i 0) bytes)
  pure (cursor - bytes)

/-- Push strings one below another. -/
def pushStrings (cursor : U64) : List StdString → Traced (U64 × U64) World (U64 × List U64)
  | [] => pure (cursor, [])
  | s :: l => do
      let addr ← pushString cursor s
      let rest ← pushStrings addr l
      pure (rest.1, addr :: rest.2)

section Block

variable (write64 : U64 → U64 → Prog World Unit)

/-- Write words upwards. -/
def writeWords (p : U64) : List U64 → Traced (U64 × U64) World U64
  | [] => pure p
  | value :: l => do
      recorded p 8 (write64 p value)
      writeWords (p + 8) l

/-- Write pairs of words upwards. -/
def writeAuxv (p : U64) : List (U64 × U64) → Traced (U64 × U64) World Unit
  | [] => pure ()
  | (key, value) :: l => do
      recorded p 8 (write64 p key)
      recorded (p + 8) 8 (write64 (p + 8) value)
      writeAuxv (p + 16) l

/-- Write the block of words. -/
def writeBlock (rsp : U64) (argc : ℕ) (argAddrs envAddrs : List U64) (aux : List (U64 × U64)) :
    Traced (U64 × U64) World (U64 × U64 × U64) := do
  recorded rsp 8 (write64 rsp (BitVec.ofNat 64 argc))
  let argvEnd ← writeWords write64 (rsp + 8) argAddrs
  recorded argvEnd 8 (write64 argvEnd 0)
  let envpEnd ← writeWords write64 (argvEnd + 8) envAddrs
  recorded envpEnd 8 (write64 envpEnd 0)
  writeAuxv write64 (envpEnd + 8) aux
  pure (rsp + 8, argvEnd + 8, envpEnd + 8)

/-- Place the block below the random bytes, unless it does not fit. -/
def placeBlock (low top size randomAddr : U64) (argc envc : ℕ) (argAddrs envAddrs : List U64)
    (aux : List (U64 × U64)) : Traced (U64 × U64) World GuestStackImage :=
  let slots := slotCount argc envc aux.length
  let rsp := alignDown (randomAddr - BitVec.ofNat 64 slots * 8) kStackAlign
  if rsp < low then
    throw (.runtimeError "GuestStack: argv/envp are too large for the stack size requested")
  else do
    let addrs ← writeBlock write64 rsp argc argAddrs envAddrs aux
    pure
      { low := low
        top := top
        size := size
        rsp := rsp
        argvAddr := addrs.1
        envpAddr := addrs.2.1
        auxvAddr := addrs.2.2
        argc := BitVec.ofNat 64 argc }

/-- Push the strings and the random bytes. -/
def pushObjects (top : U64) (image : GuestElfImage) (argv envp : List StdString) :
    Traced (U64 × U64) World StackPointers := do
  let execfnAddr ← pushString top image.path
  let platformAddr ← pushString execfnAddr platformName
  let env ← pushStrings platformAddr envp.reverse
  let arg ← pushStrings env.1 argv.reverse
  let randomAddr := alignDown arg.1 kStackAlign - kRandomBytes
  recorded randomAddr kRandomBytes (write randomAddr randomByte kRandomBytes)
  pure ⟨arg.2.reverse, env.2.reverse, execfnAddr, platformAddr, randomAddr⟩

/-- Map the stack and lay out what a program finds on it at entry. -/
def buildInitialStack (k : HostKernel) (image : GuestElfImage) (argv envp : List StdString)
    (stackTop stackSize : U64) : Traced (U64 × U64) World GuestStackImage := do
  let top := guestPageAlignUp stackTop
  let size := guestPageAlignUp stackSize
  let low := top - size
  silent (map k low size (kProtRead ||| kProtWrite) "stack")
  let p ← pushObjects top image argv envp
  placeBlock write64 low top size p.randomAddr argv.length envp.length p.argAddrs p.envAddrs
    (p.aux image)

end Block

/-! ## Without the record -/

/-- Without its record, a recorded write is the write. -/
lemma erases_recorded (a n : U64) (x : Prog World Unit) : Erases (recorded a n x) x :=
  (erases_silent x).bind_emit _

/-- Without its record, pushing a string is `pushString`. -/
lemma erases_pushString (cursor : U64) (s : StdString) :
    Erases (pushString cursor s) (GuestStack.pushString cursor s) :=
  (erases_recorded _ _ _).bind fun _ => erases_pure _

/-- Without its record, pushing strings is `pushStrings`. -/
lemma erases_pushStrings (l : List StdString) (cursor : U64) :
    Erases (pushStrings cursor l) (GuestStack.pushStrings cursor l) := by
  induction l generalizing cursor with
  | nil => exact erases_pure _
  | cons s l ih =>
    exact (erases_pushString cursor s).bind fun addr => (ih addr).bind fun _ => erases_pure _

variable (write64 : U64 → U64 → Prog World Unit)

/-- Without its record, writing words is `writeWords`. -/
lemma erases_writeWords (l : List U64) (p : U64) :
    Erases (writeWords write64 p l) (GuestStack.writeWords write64 p l) := by
  induction l generalizing p with
  | nil => exact erases_pure _
  | cons v l ih => exact (erases_recorded _ _ _).bind fun _ => ih (p + 8)

/-- Without its record, writing pairs is `writeAuxv`. -/
lemma erases_writeAuxv (aux : List (U64 × U64)) (p : U64) :
    Erases (writeAuxv write64 p aux) (GuestStack.writeAuxv write64 p aux) := by
  induction aux generalizing p with
  | nil => exact erases_pure _
  | cons e aux ih =>
    exact (erases_recorded _ _ _).bind fun _ => (erases_recorded _ _ _).bind fun _ => ih (p + 16)

/-- Without its record, writing the block is `writeBlock`. -/
lemma erases_writeBlock (rsp : U64) (argc : ℕ) (argAddrs envAddrs : List U64)
    (aux : List (U64 × U64)) : Erases (writeBlock write64 rsp argc argAddrs envAddrs aux)
      (GuestStack.writeBlock write64 rsp argc argAddrs envAddrs aux) := by
  refine (erases_recorded _ _ _).bind fun _ => ?_
  refine (erases_writeWords write64 argAddrs _).bind fun _ => ?_
  refine (erases_recorded _ _ _).bind fun _ => ?_
  refine (erases_writeWords write64 envAddrs _).bind fun _ => ?_
  refine (erases_recorded _ _ _).bind fun _ => ?_
  exact (erases_writeAuxv write64 aux _).bind fun _ => erases_pure _

/-- Without its record, placing the block is `placeBlock`. -/
lemma erases_placeBlock (low top size randomAddr : U64) (argc envc : ℕ)
    (argAddrs envAddrs : List U64) (aux : List (U64 × U64)) :
    Erases (placeBlock write64 low top size randomAddr argc envc argAddrs envAddrs aux)
      (GuestStack.placeBlock write64 low top size randomAddr argc envc argAddrs envAddrs aux) := by
  unfold placeBlock GuestStack.placeBlock
  dsimp only
  split_ifs
  · exact erases_throw _
  · exact (erases_writeBlock write64 _ _ _ _ _).bind fun _ => erases_pure _

/-- Without its record, the recorded program is `buildInitialStack`. -/
theorem erases_buildInitialStack (k : HostKernel) (image : GuestElfImage)
    (argv envp : List StdString) (stackTop stackSize : U64) :
    Erases (buildInitialStack write64 k image argv envp stackTop stackSize)
      (GuestStack.buildInitialStack write64 k image argv envp stackTop stackSize) := by
  unfold buildInitialStack pushObjects
  simp only [bind_assoc, pure_bind]
  refine (erases_silent _).bind fun _ => ?_
  refine (erases_pushString _ _).bind fun _ => (erases_pushString _ _).bind fun _ => ?_
  refine (erases_pushStrings _ _).bind fun _ => (erases_pushStrings _ _).bind fun _ => ?_
  exact (erases_recorded _ _ _).bind fun _ => erases_placeBlock write64 _ _ _ _ _ _ _ _ _

/-! ## The ranges -/

variable {m : GuestMemory} {write64 : U64 → U64 → Prog World Unit}

/-- The range of a string below a cursor. -/
def pushRange (cursor : U64) (s : StdString) : U64 × U64 :=
  (cursor - BitVec.ofNat 64 (s.length + 1), BitVec.ofNat 64 (s.length + 1))

/-- The ranges of strings one below another. -/
def pushRanges (cursor : U64) : List StdString → List (U64 × U64)
  | [] => []
  | s :: l => pushRange cursor s :: pushRanges (pushRange cursor s).1 l

/-- The cursor after strings. -/
def pushCursor (cursor : U64) : List StdString → U64
  | [] => cursor
  | s :: l => pushCursor (pushRange cursor s).1 l

/-- The ranges of two lists of strings. -/
lemma pushRanges_append (cursor : U64) (l l' : List StdString) : pushRanges cursor (l ++ l') =
    pushRanges cursor l ++ pushRanges (pushCursor cursor l) l' := by
  induction l generalizing cursor with
  | nil => rfl
  | cons s l ih =>
    rw [List.cons_append, pushRanges, pushRanges, pushCursor, ih, List.cons_append]

/-- Every string has one range. -/
lemma length_pushRanges (cursor : U64) (l : List StdString) :
    (pushRanges cursor l).length = l.length := by
  induction l generalizing cursor with
  | nil => rfl
  | cons s l ih => rw [pushRanges, List.length_cons, List.length_cons, ih]

/-- The cursor goes down string by string. -/
lemma pushCursor_append (cursor : U64) (l l' : List StdString) :
    pushCursor cursor (l ++ l') = pushCursor (pushCursor cursor l) l' := by
  induction l generalizing cursor with
  | nil => rfl
  | cons s l ih => rw [List.cons_append, pushCursor, pushCursor, ih]

/-- The strings in the order in which they are pushed. -/
def pushedStrings (image : GuestElfImage) (argv envp : List StdString) : List StdString :=
  image.path :: platformName :: (envp.reverse ++ argv.reverse)

/-- The address of the random bytes. -/
def randomAddrOf (top : U64) (image : GuestElfImage) (argv envp : List StdString) : U64 :=
  alignDown (pushCursor top (pushedStrings image argv envp)) kStackAlign - kRandomBytes

/-- The ranges of the strings and of the random bytes. -/
def pushedRanges (top : U64) (image : GuestElfImage) (argv envp : List StdString) :
    List (U64 × U64) :=
  pushRanges top (pushedStrings image argv envp) ++
    [(randomAddrOf top image argv envp, kRandomBytes)]

/-- The ranges of words upwards from an address. -/
def wordRanges (p : U64) : ℕ → List (U64 × U64)
  | 0 => []
  | n + 1 => (p, 8) :: wordRanges (p + 8) n

/-- The ranges of two runs of words. -/
lemma wordRanges_add (p : U64) (n n' : ℕ) :
    wordRanges p (n + n') = wordRanges p n ++ wordRanges (wordAddr p n) n' := by
  induction n generalizing p with
  | zero => rw [Nat.zero_add, wordAddr_zero, wordRanges, List.nil_append]
  | succ n ih =>
    rw [Nat.succ_add, wordRanges, ih, wordRanges, List.cons_append, ← wordAddr_succ]

/-- A range of the block is that of one of its words. -/
lemma mem_wordRanges {p : U64} {n : ℕ} {e : U64 × U64} :
    e ∈ wordRanges p n ↔ ∃ i < n, e = (wordAddr p i, 8) := by
  induction n generalizing p with
  | zero => simp [wordRanges]
  | succ n ih =>
    rw [wordRanges, List.mem_cons, ih]
    constructor
    · rintro (rfl | ⟨i, hi, rfl⟩)
      · exact ⟨0, by omega, by rw [wordAddr_zero]⟩
      · exact ⟨i + 1, by omega, by rw [wordAddr_succ]⟩
    · rintro ⟨i, hi, rfl⟩
      cases i with
      | zero => exact Or.inl (by rw [wordAddr_zero])
      | succ i => exact Or.inr ⟨i, by omega, by rw [wordAddr_succ]⟩

/-! ## The writes of the parts -/

/-- The writes of a list, over a memory with the given regions: each has to pass the check. -/
abbrev Writes {α : Type} (m : GuestMemory) (l : List (U64 × U64)) (a : α)
    (x : Traced (U64 × U64) World α) : Prop :=
  Performs (fun w => w.mem = m) (fun e => m.Accessible e.1 e.2) l a x

/-- What does not return throws. -/
lemma throws_of_not_returns {α : Type} {x : Prog World α} {w : World} (h : ¬ Returns x w) :
    ∃ exn t, x.run w = .error exn t := by
  cases hrun : x.run w with
  | ok a t => exact absurd ⟨a, t, hrun⟩ h
  | error exn t => exact ⟨exn, t, rfl⟩

/-- A recorded write. -/
lemma writes_recorded {a n : U64} {x : Prog World Unit}
    (hreturns : ∀ w, Returns x w ↔ w.mem.Accessible a n)
    (hmem : ∀ w u w', x.run w = .ok u w' → w'.mem = w.mem) :
    Writes m [(a, n)] () (recorded a n x) := by
  refine performs_emit (fun hok w hw => ?_) fun hnot w hw => ?_
  · obtain ⟨u, t, hrun⟩ := (hreturns w).mpr (by rw [hw]; exact hok)
    exact ⟨t, hrun, (hmem w u t hrun).trans hw⟩
  · exact throws_of_not_returns fun h => hnot (by rw [← hw]; exact (hreturns w).mp h)

/-- A write writes its range. -/
lemma writes_write (a n : U64) (src : ℕ → Byte) :
    Writes m [(a, n)] () (recorded a n (write a src n)) :=
  writes_recorded (fun _ => returns_write) fun _ _ _ h => (patched_of_run_write h).1

/-- Pushing a string writes its range. -/
lemma writes_pushString (cursor : U64) (s : StdString) :
    Writes m [pushRange cursor s] (pushRange cursor s).1 (pushString cursor s) :=
  (writes_write _ _ _).bind_pure fun _ => (pushRange cursor s).1

/-- Pushing strings writes their ranges. -/
lemma writes_pushStrings (l : List StdString) (cursor : U64) :
    Writes m (pushRanges cursor l) (pushCursor cursor l, (pushRanges cursor l).map Prod.fst)
      (pushStrings cursor l) := by
  induction l generalizing cursor with
  | nil => exact performs_pure _
  | cons s l ih =>
    exact (writes_pushString cursor s).bind
      ((ih (pushRange cursor s).1).bind_pure fun rest => (rest.1, (pushRange cursor s).1 :: rest.2))

/-- The strings and the random bytes. -/
lemma writes_pushObjects (top : U64) (image : GuestElfImage) (argv envp : List StdString) :
    ∃ p : StackPointers, p.randomAddr = randomAddrOf top image argv envp ∧
      p.argAddrs.length = argv.length ∧ p.envAddrs.length = envp.length ∧
      Writes m (pushedRanges top image argv envp) p (pushObjects top image argv envp) := by
  unfold pushedRanges randomAddrOf pushedStrings
  rw [pushRanges, pushRanges, pushRanges_append, pushCursor, pushCursor, pushCursor_append]
  simp only [List.cons_append, List.append_assoc]
  set c := (pushRange (pushRange top image.path).1 platformName).1
  refine ⟨⟨((pushRanges (pushCursor c envp.reverse) argv.reverse).map Prod.fst).reverse,
    ((pushRanges c envp.reverse).map Prod.fst).reverse, (pushRange top image.path).1, c,
    alignDown (pushCursor (pushCursor c envp.reverse) argv.reverse) kStackAlign - kRandomBytes⟩,
    rfl, ?_, ?_, ?_⟩
  · rw [List.length_reverse, List.length_map, length_pushRanges, List.length_reverse]
  · rw [List.length_reverse, List.length_map, length_pushRanges, List.length_reverse]
  · refine (writes_pushString top image.path).bind ((writes_pushString _ platformName).bind ?_)
    refine (writes_pushStrings envp.reverse c).bind ((writes_pushStrings argv.reverse _).bind ?_)
    exact (writes_write _ _ _).bind_pure fun _ => _

section Block

variable (hw : ChecksWrite64 write64)

include hw

/-- Writing a word writes its range. -/
lemma writes_write64 (a v : U64) : Writes m [(a, 8)] () (recorded a 8 (write64 a v)) :=
  writes_recorded (hw.returns_iff a v) fun _ _ _ h => hw.mem h

/-- Writing words writes their ranges. -/
lemma writes_writeWords (l : List U64) (p : U64) :
    Writes m (wordRanges p l.length) (wordAddr p l.length) (writeWords write64 p l) := by
  induction l generalizing p with
  | nil =>
    rw [List.length_nil, wordAddr_zero]
    exact performs_pure p
  | cons v l ih =>
    rw [List.length_cons, wordAddr_succ]
    exact (writes_write64 hw p v).bind (ih (p + 8))

/-- Writing pairs writes the ranges of their words. -/
lemma writes_writeAuxv (aux : List (U64 × U64)) (p : U64) :
    Writes m (wordRanges p (aux.length * 2)) () (writeAuxv write64 p aux) := by
  induction aux generalizing p with
  | nil => exact performs_pure ()
  | cons e aux ih =>
    have haddr : p + 8 + 8 = p + 16 := by
      rw [add_assoc]
      rfl
    rw [List.length_cons, Nat.succ_mul, wordRanges, wordRanges, haddr]
    exact (writes_write64 hw p e.1).bind ((writes_write64 hw (p + 8) e.2).bind (ih (p + 16)))

/-- The block is as many words as are counted. -/
lemma writes_writeBlock (rsp : U64) (argc : ℕ) (argAddrs envAddrs : List U64)
    (aux : List (U64 × U64)) :
    ∃ addrs, Writes m (wordRanges rsp (slotCount argAddrs.length envAddrs.length aux.length)) addrs
      (writeBlock write64 rsp argc argAddrs envAddrs aux) := by
  have hcount : slotCount argAddrs.length envAddrs.length aux.length =
      1 + (argAddrs.length + (1 + (envAddrs.length + (1 + aux.length * 2)))) := by
    unfold slotCount
    omega
  rw [hcount, wordRanges_add, wordRanges_add, wordRanges_add, wordRanges_add, wordRanges_add]
  refine ⟨(rsp + 8, wordAddr (rsp + 8) argAddrs.length + 8,
    wordAddr (wordAddr (rsp + 8) argAddrs.length + 8) envAddrs.length + 8), ?_⟩
  refine (writes_write64 hw _ _).bind ?_
  refine (writes_writeWords hw argAddrs _).bind ?_
  refine (writes_write64 hw _ _).bind ?_
  refine (writes_writeWords hw envAddrs _).bind ?_
  refine (writes_write64 hw _ _).bind ?_
  exact (writes_writeAuxv hw aux _).bind_pure fun _ => (rsp + 8,
    wordAddr (rsp + 8) argAddrs.length + 8,
    wordAddr (wordAddr (rsp + 8) argAddrs.length + 8) envAddrs.length + 8)

/-- The block, if it does not begin below the stack. -/
lemma writes_placeBlock {low randomAddr rsp : U64} (top size : U64) {argc envc : ℕ}
    {argAddrs envAddrs : List U64} {aux : List (U64 × U64)} (hargs : argAddrs.length = argc)
    (henvs : envAddrs.length = envc)
    (hrsp : alignDown (randomAddr - BitVec.ofNat 64 (slotCount argc envc aux.length) * 8)
      kStackAlign = rsp) (hlow : ¬ rsp < low) :
    ∃ stack : GuestStackImage, stack.low = low ∧ stack.top = top ∧ stack.rsp = rsp ∧
      Writes m (wordRanges rsp (slotCount argc envc aux.length)) stack
        (placeBlock write64 low top size randomAddr argc envc argAddrs envAddrs aux) := by
  unfold placeBlock
  dsimp only
  rw [hrsp, if_neg hlow]
  subst hargs henvs
  obtain ⟨addrs, hblock⟩ := writes_writeBlock (m := m) hw rsp argAddrs.length argAddrs envAddrs aux
  let stackOf (addrs : U64 × U64 × U64) : GuestStackImage :=
    ⟨low, top, size, rsp, addrs.1, addrs.2.1, addrs.2.2, BitVec.ofNat 64 argAddrs.length⟩
  exact ⟨stackOf addrs, rfl, rfl, rfl, hblock.bind_pure stackOf⟩

end Block

end StackRecord

end InstaX
