import InstaX.Runtime.GuestBytes
import InstaX.Runtime.GuestStack

/-!
# The layout of the initial stack

`buildInitialStack` writes objects one below another: the strings, each with its terminator, and the
random bytes.  Below them it writes a block of words.  If everything fits, no cursor wraps, so the
objects form a descending layout (`run_pushStrings`) and are all in memory when the block is
written, and the block, which lies below them, leaves them alone (`run_writeBlock`).
-/

namespace InstaX

open Throwing Rounding ByteStore GuestMemory

/-- What `write64` is declared for: it leaves the bookkeeping alone, changes no byte outside the
eight of its word, and makes the word the one that `read64` then reads. -/
structure IsWrite64 (write64 : U64 → U64 → Prog World Unit) : Prop where
  mem : ∀ {a v w x w'}, (write64 a v).run w = .ok x w' → w'.mem = w.mem
  frame : ∀ {a v w x w'}, (write64 a v).run w = .ok x w' → ∀ y ∉ span a 8, w'.bytes y = w.bytes y
  word : ∀ {a v w x w'}, (write64 a v).run w = .ok x w' → w'.word a = v

namespace GuestStack

variable {w w' : World}

/-! ## Strings -/

/-- A string with its terminator at an address. -/
def cString (a : U64) (s : StdString) : U64 × List Byte := (a, s ++ [0])

/-- The bytes of strings with their terminators. -/
def stringBytes (l : List StdString) : ℕ := (l.map fun s => s.length + 1).sum

/-- What `c_str` shows of a string is the string with its terminator. -/
lemma getD_append_zero (s : StdString) (i : ℕ) : (s ++ [0]).getD i 0 = s.getD i 0 := by
  rw [List.getD_eq_getElem?_getD, List.getD_eq_getElem?_getD]
  rcases lt_or_ge i s.length with hi | hi
  · rw [List.getElem?_append_left hi]
  · rw [List.getElem?_append_right hi, List.getElem?_eq_none hi]
    cases i - s.length <;> rfl

/-- Pushing a string writes it right below the cursor. -/
lemma run_pushString {c a : U64} {s : StdString} (hle : s.length + 1 ≤ c.toNat)
    (h : (pushString c s).run w = .ok a w') :
    a.toNat + (s.length + 1) = c.toNat ∧ w'.mem = w.mem ∧
      w.mem.isMapped a (BitVec.ofNat 64 (s.length + 1)) = true ∧
      Patched (objectPatch (cString a s)).1 (objectPatch (cString a s)).2 w.bytes w'.bytes := by
  have hlt := c.isLt
  have hlen : (BitVec.ofNat 64 (s.length + 1)).toNat = s.length + 1 := by
    rw [BitVec.toNat_ofNat, Nat.mod_eq_of_lt (by omega)]
  rw [pushString, run_bind_eq_ok_iff] at h
  obtain ⟨_, w₁, hwrite, hpure⟩ := h
  obtain ⟨rfl, rfl⟩ := EStateM.Result.ok.inj hpure
  obtain ⟨haccess, -⟩ := run_write_eq_ok_iff.mp hwrite
  obtain ⟨hmem, hpatch⟩ := patched_of_run_write hwrite
  rw [hlen] at hpatch
  have hne : BitVec.ofNat 64 (s.length + 1) ≠ 0 := by
    intro h0
    rw [h0] at hlen
    cases hlen
  refine ⟨?_, hmem, (haccess hne).1, ?_⟩
  · rw [BitVec.toNat_sub_of_le (by rw [BitVec.le_def, hlen]; exact hle), hlen]
    omega
  · simpa only [objectPatch, cString, List.length_append, List.length_singleton,
      getD_append_zero] using hpatch

/-- Pushing strings writes them one below another. -/
lemma run_pushStrings {l : List StdString} {c : U64} {r : U64 × List U64}
    (hle : stringBytes l ≤ c.toNat) (h : (pushStrings c l).run w = .ok r w') :
    r.1.toNat + stringBytes l = c.toNat ∧ r.2.length = l.length ∧ w'.mem = w.mem ∧
      Patches ((List.zipWith cString r.2 l).map objectPatch) w.bytes w'.bytes ∧
      Descending c.toNat (List.zipWith cString r.2 l) r.1.toNat := by
  induction l generalizing c r w with
  | nil =>
    obtain ⟨rfl, rfl⟩ := EStateM.Result.ok.inj h
    exact ⟨rfl, rfl, rfl, .nil _, le_rfl⟩
  | cons s l ih =>
    have hsum : stringBytes (s :: l) = s.length + 1 + stringBytes l := by
      simp [stringBytes]
    obtain ⟨a, w₁, hpush, h⟩ := run_bind_eq_ok_iff.mp h
    obtain ⟨rest, w₂, htail, hpure⟩ := run_bind_eq_ok_iff.mp h
    obtain ⟨rfl, rfl⟩ := EStateM.Result.ok.inj hpure
    obtain ⟨ha, hmem₁, -, hpatch⟩ := run_pushString (by omega) hpush
    obtain ⟨hbottom, hlength, hmem₂, hpatches, hdesc⟩ := ih (by omega) htail
    refine ⟨?_, by simp [hlength], hmem₂.trans hmem₁, ?_, ?_⟩
    · change rest.1.toNat + stringBytes (s :: l) = c.toNat
      omega
    · rw [List.zipWith_cons_cons, List.map_cons]
      exact .cons hpatch hpatches
    · rw [List.zipWith_cons_cons]
      exact ⟨by simp [cString]; omega, hdesc⟩

/-! ## Words -/

/-- Words upwards from an address. -/
def WordsAt (w : World) : U64 → List U64 → Prop
  | _, [] => True
  | a, v :: l => w.word a = v ∧ WordsAt w (a + 8) l

/-- The address behind `n` words. -/
def wordAddr (a : U64) (n : ℕ) : U64 := a + BitVec.ofNat 64 (8 * n)

lemma wordAddr_zero (a : U64) : wordAddr a 0 = a := by
  simp [wordAddr]

lemma wordAddr_succ (a : U64) (n : ℕ) : wordAddr a (n + 1) = wordAddr (a + 8) n := by
  rw [wordAddr, wordAddr, Nat.mul_succ, Nat.add_comm, BitVec.ofNat_add, ← add_assoc]
  rfl

/-- Word addresses add up. -/
lemma wordAddr_add (a : U64) (n n' : ℕ) : wordAddr a (n + n') = wordAddr (wordAddr a n) n' := by
  rw [wordAddr, wordAddr, wordAddr, Nat.mul_add, BitVec.ofNat_add, add_assoc]

/-- Behind a word is the next one. -/
lemma wordAddr_add_eight (a : U64) (n : ℕ) : wordAddr a n + 8 = wordAddr a (n + 1) := by
  rw [wordAddr_add a n 1]
  rfl

/-- The words of pairs. -/
def pairWords (aux : List (U64 × U64)) : List U64 := aux.flatMap fun e => [e.1, e.2]

/-- The words of the block. -/
def blockWords (argc : ℕ) (argAddrs envAddrs : List U64) (aux : List (U64 × U64)) : List U64 :=
  BitVec.ofNat 64 argc :: (argAddrs ++ 0 :: (envAddrs ++ 0 :: pairWords aux))

section Block

variable {write64 : U64 → U64 → Prog World Unit}

/-- Words behind words. -/
lemma run_writeWords_append {l l' : List U64} {p p' q : U64} {w₁ : World}
    (h : (writeWords write64 p l).run w = .ok p' w₁)
    (h' : (writeWords write64 p' l').run w₁ = .ok q w') :
    (writeWords write64 p (l ++ l')).run w = .ok q w' := by
  induction l generalizing p w with
  | nil =>
    obtain ⟨rfl, rfl⟩ := EStateM.Result.ok.inj h
    exact h'
  | cons v l ih =>
    obtain ⟨u, w₂, hword, htail⟩ := run_bind_eq_ok_iff.mp h
    exact run_bind_eq_ok_iff.mpr ⟨u, w₂, hword, ih htail⟩

/-- A word in front of words. -/
lemma run_writeWords_cons {v q p : U64} {l : List U64} {u : Unit} {w₁ : World}
    (h : (write64 p v).run w = .ok u w₁) (h' : (writeWords write64 (p + 8) l).run w₁ = .ok q w') :
    (writeWords write64 p (v :: l)).run w = .ok q w' :=
  run_bind_eq_ok_iff.mpr ⟨u, w₁, h, h'⟩

/-- The auxiliary vector is written word by word. -/
lemma run_writeAuxv {aux : List (U64 × U64)} {p : U64} {u : Unit}
    (h : (writeAuxv write64 p aux).run w = .ok u w') :
    ∃ q, (writeWords write64 p (pairWords aux)).run w = .ok q w' := by
  induction aux generalizing p w with
  | nil =>
    obtain ⟨-, rfl⟩ := EStateM.Result.ok.inj h
    exact ⟨p, rfl⟩
  | cons e aux ih =>
    obtain ⟨u₁, w₁, hkey, h⟩ := run_bind_eq_ok_iff.mp h
    obtain ⟨u₂, w₂, hvalue, h⟩ := run_bind_eq_ok_iff.mp h
    obtain ⟨q, htail⟩ := ih h
    have haddr : p + 16 = p + 8 + 8 := by
      rw [add_assoc]
      rfl
    rw [haddr] at htail
    exact ⟨q, run_writeWords_cons hkey (run_writeWords_cons hvalue htail)⟩

variable (hw : IsWrite64 write64)

include hw

/-- Writing words upwards writes them there and nothing else. -/
lemma run_writeWords {l : List U64} {p q : U64} (hlen : 8 * l.length ≤ 2 ^ 64)
    (h : (writeWords write64 p l).run w = .ok q w') :
    q = wordAddr p l.length ∧ w'.mem = w.mem ∧
      (∀ x ∉ span p (8 * l.length), w'.bytes x = w.bytes x) ∧ WordsAt w' p l := by
  induction l generalizing p w with
  | nil =>
    obtain ⟨rfl, rfl⟩ := EStateM.Result.ok.inj h
    exact ⟨(wordAddr_zero p).symm, rfl, fun _ _ => rfl, trivial⟩
  | cons v l ih =>
    rw [List.length_cons] at hlen
    obtain ⟨_, w₁, hword, htail⟩ := run_bind_eq_ok_iff.mp h
    obtain ⟨hq, hmem, hframe, hwords⟩ := ih (by omega) htail
    have hspan : ∀ x, x ∈ span (p + 8) (8 * l.length) ↔
        8 ≤ (x - p).toNat ∧ (x - p).toNat < 8 + 8 * l.length := fun x =>
      mem_span_add_ofNat (a := p) (p := 8) (by omega)
    refine ⟨hq.trans (wordAddr_succ p l.length).symm, hmem.trans (hw.mem hword), ?_, ?_, hwords⟩
    · intro x hx
      rw [List.length_cons, mem_span] at hx
      rw [hframe x fun hx' => hx (by have := (hspan x).mp hx'; omega),
        hw.frame hword x fun hx' => hx (by rw [mem_span] at hx'; omega)]
    · rw [← hw.word hword]
      refine leWord_congr fun i hi => hframe _ fun hx => ?_
      rw [hspan, toNat_add_ofNat_sub (by omega)] at hx
      omega

/-- The block is written word by word, and the three arrays begin behind the words in front of
them. -/
lemma run_writeBlock {argc : ℕ} {argAddrs envAddrs : List U64} {aux : List (U64 × U64)}
    {rsp : U64} {addrs : U64 × U64 × U64}
    (hlen : 8 * (blockWords argc argAddrs envAddrs aux).length ≤ 2 ^ 64)
    (h : (writeBlock write64 rsp argc argAddrs envAddrs aux).run w = .ok addrs w') :
    (∃ q, (writeWords write64 rsp (blockWords argc argAddrs envAddrs aux)).run w = .ok q w') ∧
      addrs = (wordAddr rsp 1, wordAddr rsp (argAddrs.length + 2),
        wordAddr rsp (argAddrs.length + envAddrs.length + 3)) := by
  simp only [blockWords, List.length_cons, List.length_append] at hlen
  obtain ⟨u₁, w₁, hargc, h⟩ := run_bind_eq_ok_iff.mp h
  obtain ⟨argvEnd, w₂, hargs, h⟩ := run_bind_eq_ok_iff.mp h
  obtain ⟨u₂, w₃, hzero, h⟩ := run_bind_eq_ok_iff.mp h
  obtain ⟨envpEnd, w₄, henvs, h⟩ := run_bind_eq_ok_iff.mp h
  obtain ⟨u₃, w₅, hzero', h⟩ := run_bind_eq_ok_iff.mp h
  obtain ⟨u₄, w₆, haux, hpure⟩ := run_bind_eq_ok_iff.mp h
  obtain ⟨rfl, rfl⟩ := EStateM.Result.ok.inj hpure
  obtain ⟨q, hpairs⟩ := run_writeAuxv haux
  refine ⟨⟨q, ?_⟩, ?_⟩
  · exact run_writeWords_cons hargc (run_writeWords_append hargs
      (run_writeWords_cons hzero (run_writeWords_append henvs (run_writeWords_cons hzero' hpairs))))
  · obtain ⟨rfl, -⟩ := run_writeWords hw (by omega) hargs
    obtain ⟨rfl, -⟩ := run_writeWords hw (by omega) henvs
    have h1 : rsp + 8 = wordAddr rsp 1 := rfl
    have hargv : 1 + argAddrs.length + 1 = argAddrs.length + 2 := by
      omega
    have henvp : argAddrs.length + 2 + envAddrs.length + 1 =
        argAddrs.length + envAddrs.length + 3 := by
      omega
    rw [h1, ← wordAddr_add, wordAddr_add_eight, hargv, ← wordAddr_add, wordAddr_add_eight, henvp]

end Block

/-! ## What fits -/

/-- `n` rounded up to a multiple of 16. -/
def roundUp16 (n : ℕ) : ℕ := (n + 15) / 16 * 16

/-- The bytes below the top of the stack that the strings, the random bytes and the block of words
take, with their padding. -/
def stackNeed (image : GuestElfImage) (argv envp : List StdString) : ℕ :=
  roundUp16 (roundUp16 (image.path.length + 1 + (platformName.length + 1) + stringBytes envp +
    stringBytes argv) + 16 + 8 * slotCount argv.length envp.length 19)

/-! ## The layout -/

/-- Where the objects of a stack lie. -/
structure StackPointers where
  argAddrs : List U64
  envAddrs : List U64
  execfnAddr : U64
  platformAddr : U64
  randomAddr : U64

namespace StackPointers

/-- The objects behind the pointers, with their bytes. -/
def objects (p : StackPointers) (image : GuestElfImage) (argv envp : List StdString) :
    List (U64 × List Byte) :=
  cString p.execfnAddr image.path :: cString p.platformAddr platformName ::
    (List.zipWith cString p.envAddrs envp ++ List.zipWith cString p.argAddrs argv ++
      [(p.randomAddr, (List.range 16).map randomByte)])

/-- The auxiliary vector that the source makes of the pointers. -/
def aux (p : StackPointers) (image : GuestElfImage) : List (U64 × U64) :=
  auxv image p.randomAddr p.platformAddr p.execfnAddr

/-- The words of a block with the pointers and an auxiliary vector. -/
def words (p : StackPointers) (argc : ℕ) (aux : List (U64 × U64)) : List U64 :=
  blockWords argc p.argAddrs p.envAddrs aux

end StackPointers

/-- An auxiliary vector that describes the image and points to the objects of the stack: one entry
for each of its keys, `AT_NULL` at the end. -/
structure IsAuxv (image : GuestElfImage) (p : StackPointers) (aux : List (U64 × U64)) : Prop where
  execfn : (AT_EXECFN, p.execfnAddr) ∈ aux
  platform : (AT_PLATFORM, p.platformAddr) ∈ aux
  random : (AT_RANDOM, p.randomAddr) ∈ aux
  phdr : (AT_PHDR, image.phdrAddr) ∈ aux
  phent : (AT_PHENT, image.phEntSize) ∈ aux
  phnum : (AT_PHNUM, image.phNum) ∈ aux
  entry : (AT_ENTRY, image.entry) ∈ aux
  pagesz : (AT_PAGESZ, 4096) ∈ aux
  /-- No interpreter and no flags. -/
  base : (AT_BASE, 0) ∈ aux ∧ (AT_FLAGS, 0) ∈ aux
  /-- An ordinary user. -/
  user : (AT_UID, 1000) ∈ aux ∧ (AT_EUID, 1000) ∈ aux ∧ (AT_GID, 1000) ∈ aux ∧
    (AT_EGID, 1000) ∈ aux ∧ (AT_SECURE, 0) ∈ aux
  /-- A clock of 100 ticks and no hardware capabilities. -/
  machine : (AT_CLKTCK, 100) ∈ aux ∧ (AT_HWCAP, 0) ∈ aux ∧ (AT_HWCAP2, 0) ∈ aux
  nodup : (aux.map Prod.fst).Nodup
  /-- Nothing else. -/
  length : aux.length = 19
  null_last : aux.getLast? = some (AT_NULL, 0)

/-- The vector of the source is one. -/
lemma StackPointers.isAuxv_aux (p : StackPointers) (image : GuestElfImage) :
    IsAuxv image p (p.aux image) where
  execfn := by simp [aux, auxv]
  platform := by simp [aux, auxv]
  random := by simp [aux, auxv]
  phdr := by simp [aux, auxv]
  phent := by simp [aux, auxv]
  phnum := by simp [aux, auxv]
  entry := by simp [aux, auxv]
  pagesz := by simp [aux, auxv, GUEST_PAGE_SIZE]
  base := by simp [aux, auxv]
  user := by simp [aux, auxv]
  machine := by simp [aux, auxv]
  nodup := (by decide : [AT_PHDR, AT_PHENT, AT_PHNUM, AT_PAGESZ, AT_BASE, AT_FLAGS, AT_ENTRY,
    AT_UID, AT_EUID, AT_GID, AT_EGID, AT_SECURE, AT_CLKTCK, AT_HWCAP, AT_HWCAP2, AT_RANDOM,
    AT_PLATFORM, AT_EXECFN, AT_NULL].Nodup)
  length := rfl
  null_last := rfl

namespace IsAuxv

variable {image : GuestElfImage} {p : StackPointers} {aux : List (U64 × U64)}

/-- A key has one value. -/
lemma eq_of_mem (h : IsAuxv image p aux) {key value value' : U64} (he : (key, value) ∈ aux)
    (he' : (key, value') ∈ aux) : value = value' :=
  congrArg Prod.snd (List.inj_on_of_nodup_map h.nodup he he' rfl)

/-- `AT_NULL` ends the vector and is no key in front of its end. -/
lemma exists_front (h : IsAuxv image p aux) :
    ∃ front, aux = front ++ [(AT_NULL, 0)] ∧ front.length = 18 ∧ ∀ e ∈ front, e.1 ≠ AT_NULL := by
  obtain ⟨front, rfl⟩ := List.getLast?_eq_some_iff.mp h.null_last
  have hlength := h.length
  rw [List.length_append, List.length_singleton] at hlength
  refine ⟨front, rfl, by omega, fun e he heq => ?_⟩
  have hnodup := h.nodup
  rw [List.map_append, List.nodup_append] at hnodup
  exact hnodup.2.2 e.1 (List.mem_map_of_mem he) AT_NULL (by simp) heq

end IsAuxv

/-- A memory holds an initial stack: the block of words at `rsp`, and the strings and random bytes
that the pointers in it refer to, all inside the stack and apart from each other. -/
structure IsInitialStack (image : GuestElfImage) (argv envp : List StdString)
    (stack : GuestStackImage) (p : StackPointers) (aux : List (U64 × U64)) (w : World) : Prop where
  rsp_aligned : 16 ∣ stack.rsp.toNat
  rsp_mem : stack.low.toNat ≤ stack.rsp.toNat ∧ stack.rsp.toNat < stack.top.toNat
  argc : stack.argc = BitVec.ofNat 64 argv.length
  argvAddr : stack.argvAddr = wordAddr stack.rsp 1
  envpAddr : stack.envpAddr = wordAddr stack.rsp (argv.length + 2)
  auxvAddr : stack.auxvAddr = wordAddr stack.rsp (argv.length + envp.length + 3)
  argAddrs_length : p.argAddrs.length = argv.length
  envAddrs_length : p.envAddrs.length = envp.length
  auxv : IsAuxv image p aux
  /-- The words from `rsp` upwards. -/
  words : WordsAt w stack.rsp (p.words argv.length aux)
  /-- Every pointer points to its object. -/
  holds : ∀ o ∈ p.objects image argv envp, Holds w.bytes o
  /-- The block and the objects do not overlap. -/
  disjoint : (span stack.rsp (8 * (p.words argv.length aux).length) ::
    (p.objects image argv envp).map fun o => span o.1 o.2.length).Pairwise Disjoint
  /-- The block lies inside the stack, and the objects lie between it and the top. -/
  block_inside : stack.rsp.toNat + 8 * (p.words argv.length aux).length ≤ stack.top.toNat
  above : ∀ o ∈ p.objects image argv envp,
    stack.rsp.toNat + 8 * (p.words argv.length aux).length ≤ o.1.toNat ∧
      o.1.toNat + o.2.length ≤ stack.top.toNat

/-! ## The steps of the run -/

/-- The stack pointer is rounded down to a multiple of sixteen. -/
lemma toNat_alignDown_kStackAlign (v : U64) :
    (alignDown v kStackAlign).toNat = v.toNat - v.toNat % 16 := by
  have h : kStackAlign = BitVec.twoPow 64 4 := by
    decide
  rw [h, toNat_alignDown (by omega)]
  rfl

/-- The random bytes are an object. -/
lemma patched_of_run_writeRandom {r : U64} {u : Unit}
    (h : (write r randomByte kRandomBytes).run w = .ok u w') : w'.mem = w.mem ∧
      Patched (objectPatch (r, (List.range 16).map randomByte)).1
        (objectPatch (r, (List.range 16).map randomByte)).2 w.bytes w'.bytes := by
  obtain ⟨hmem, hpatch⟩ := patched_of_run_write h
  have hn : kRandomBytes.toNat = 16 := rfl
  rw [hn] at hpatch
  refine ⟨hmem, ?_⟩
  rw [objectPatch, List.length_map, List.length_range]
  refine hpatch.congr fun x hx => ?_
  rw [mem_span] at hx
  simp only [List.getD_eq_getElem?_getD, List.getElem?_map, List.getElem?_range hx, Option.map_some,
    Option.getD_some]

/-- The words of the auxiliary vector. -/
lemma length_pairWords (aux : List (U64 × U64)) : (pairWords aux).length = aux.length * 2 := by
  induction aux with
  | nil => rfl
  | cons e aux ih =>
    rw [pairWords, List.flatMap_cons, List.length_append, ← pairWords, ih, List.length_cons]
    simp
    omega

/-- The slot count agrees with what is written. -/
lemma length_blockWords {argc envc : ℕ} {argAddrs envAddrs : List U64} {aux : List (U64 × U64)}
    (hargs : argAddrs.length = argc) (henvs : envAddrs.length = envc) :
    (blockWords argc argAddrs envAddrs aux).length = slotCount argc envc aux.length := by
  rw [blockWords, slotCount, List.length_cons, List.length_append, List.length_cons,
    List.length_append, List.length_cons, length_pairWords, hargs, henvs]
  omega

/-- Placing the block below the random bytes: it fits above `low`, and only its words change. -/
lemma run_placeBlock {write64 : U64 → U64 → Prog World Unit} (hw : IsWrite64 write64)
    {low top size randomAddr : U64} {argc envc : ℕ} {argAddrs envAddrs : List U64}
    {aux : List (U64 × U64)} {stack : GuestStackImage} (hargs : argAddrs.length = argc)
    (henvs : envAddrs.length = envc) (hroom : 8 * slotCount argc envc aux.length ≤ randomAddr.toNat)
    (h : (placeBlock write64 low top size randomAddr argc envc argAddrs envAddrs aux).run w =
      .ok stack w') :
    (low.toNat ≤ stack.rsp.toNat ∧
      stack.rsp.toNat = (randomAddr.toNat - 8 * slotCount argc envc aux.length) / 16 * 16) ∧
    stack = ⟨low, top, size, stack.rsp, wordAddr stack.rsp 1, wordAddr stack.rsp (argc + 2),
      wordAddr stack.rsp (argc + envc + 3), BitVec.ofNat 64 argc⟩ ∧
    w'.mem = w.mem ∧
    (∀ x ∉ span stack.rsp (8 * slotCount argc envc aux.length), w'.bytes x = w.bytes x) ∧
    WordsAt w' stack.rsp (blockWords argc argAddrs envAddrs aux) := by
  set slots := slotCount argc envc aux.length with hslots
  have hlt := randomAddr.isLt
  have hlen : (blockWords argc argAddrs envAddrs aux).length = slots :=
    length_blockWords hargs henvs
  rw [placeBlock, ← hslots] at h
  set rsp := alignDown (randomAddr - BitVec.ofNat 64 slots * 8) kStackAlign with hrsp
  have hval : rsp.toNat = (randomAddr.toNat - 8 * slots) / 16 * 16 := by
    have hblock : (BitVec.ofNat 64 slots * 8).toNat = 8 * slots := by
      have height : (8 : U64).toNat = 8 := rfl
      rw [BitVec.toNat_mul, BitVec.toNat_ofNat, height, Nat.mod_mul_mod,
        Nat.mod_eq_of_lt (by omega)]
      omega
    rw [hrsp, toNat_alignDown_kStackAlign, BitVec.toNat_sub_of_le (by rw [BitVec.le_def]; omega),
      hblock]
    omega
  split_ifs at h with hroom'
  · cases h
  · obtain ⟨addrs, w₁, hblock, hpure⟩ := run_bind_eq_ok_iff.mp h
    obtain ⟨rfl, rfl⟩ := EStateM.Result.ok.inj hpure
    obtain ⟨⟨q, hwords⟩, rfl⟩ := run_writeBlock hw (by omega) hblock
    obtain ⟨-, hmem, hframe, hat⟩ := run_writeWords hw (by omega) hwords
    rw [hlen] at hframe
    rw [BitVec.lt_def, not_lt] at hroom'
    refine ⟨⟨hroom', hval⟩, ?_, hmem, hframe, hat⟩
    rw [hargs, henvs]

/-- All pages from `low` to the one at `top` are in recorded regions. -/
def PagesFound (m : GuestMemory) (low top : ℕ) : Prop :=
  ∀ p : U64, 4096 ∣ p.toNat → low ≤ p.toNat → p.toNat ≤ top → (m.findRegion p).isSome = true

/-- An address inside a recorded region is found. -/
lemma findRegion_isSome_of_mem {m : GuestMemory} {r : GuestRegion} (hr : r ∈ m.regions) {p : U64}
    (hlo : r.guestAddr ≤ p) (hhi : p < r.guestAddr + r.length) :
    (m.findRegion p).isSome = true := by
  rw [findRegion, List.find?_isSome]
  exact ⟨r, hr, by simp [hlo, hhi]⟩

/-- Mapping a stack that is not empty records its pages. -/
lemma region_of_run_map {k : HostKernel} {top size : U64} {prot : CInt} {name : String} {u : Unit}
    (htop : 4096 ∣ top.toNat) (hsize : 4096 ∣ size.toNat) (hle : size.toNat ≤ top.toNat)
    (hpos : 0 < size.toNat) (h : (map k (top - size) size prot name).run w = .ok u w') :
    ⟨top - size, size, prot, name⟩ ∈ w'.mem.regions := by
  have hsub : (top - size).toNat = top.toNat - size.toNat :=
    BitVec.toNat_sub_of_le (BitVec.le_def.mpr hle)
  have hdown : guestPageAlignDown (top - size) = top - size :=
    guestPageAlignDown_of_dvd (by rw [hsub]; exact Nat.dvd_sub htop hsize)
  rcases mapsPages_of_run_map h with ⟨rfl, -⟩ | ⟨-, hmaps⟩
  · exact absurd hpos (by decide)
  · rw [hmaps.mem, hdown, sub_add_cancel, guestPageAlignUp_of_dvd htop, sub_sub_cancel]
    exact List.mem_append_right _ (List.mem_singleton.mpr rfl)

/-- If the stack is recorded and a range that ends at its top passes the check, then all pages are
found, that at the top included. -/
lemma pagesFound_of_isMapped {m : GuestMemory} {a n top size : U64} {prot : CInt} {name : String}
    (htop : 4096 ∣ top.toNat) (hle : size.toNat ≤ top.toNat)
    (hregion : ⟨top - size, size, prot, name⟩ ∈ m.regions) (hn : 0 < n.toNat)
    (hend : a.toNat + n.toNat = top.toNat) (hmapped : m.isMapped a n = true) :
    PagesFound m (top.toNat - size.toNat) top.toNat := by
  have hlt := top.isLt
  have hsub : (top - size).toNat = top.toNat - size.toNat :=
    BitVec.toNat_sub_of_le (BitVec.le_def.mpr hle)
  intro p hp hlo hhi
  rcases Nat.eq_or_lt_of_le hhi with heq | hltop
  · have hlast : (a + n - 1).toNat = top.toNat - 1 := by
      rw [toNat_last hn, hend, Nat.mod_eq_of_lt (by omega)]
    refine (isMapped_iff_findRegion hn).mp hmapped p hp (by omega) ?_
    rw [toNat_guestPageAlignUp (by omega), hlast]
    omega
  · refine findRegion_isSome_of_mem hregion ?_ ?_
    · rw [BitVec.le_def, hsub]
      exact hlo
    · rw [sub_add_cancel, BitVec.lt_def]
      exact hltop

/-- The objects in the order in which they are pushed. -/
def pushedObjects (p : StackPointers) (image : GuestElfImage) (argv envp : List StdString) :
    List (U64 × List Byte) :=
  cString p.execfnAddr image.path :: cString p.platformAddr platformName ::
    (List.zipWith cString p.envAddrs.reverse envp.reverse ++
      (List.zipWith cString p.argAddrs.reverse argv.reverse ++
        [(p.randomAddr, (List.range 16).map randomByte)]))

/-- The pushed objects are the objects of the layout in another order. -/
lemma perm_pushedObjects {p : StackPointers} {image : GuestElfImage} {argv envp : List StdString}
    (hargs : p.argAddrs.length = argv.length) (henvs : p.envAddrs.length = envp.length) :
    (pushedObjects p image argv envp).Perm (p.objects image argv envp) := by
  rw [pushedObjects, StackPointers.objects, ← List.reverse_zipWith henvs,
    ← List.reverse_zipWith hargs, List.append_assoc]
  exact (((List.reverse_perm _).append ((List.reverse_perm _).append_right _)).cons _).cons _

/-- The order of strings does not change what they take. -/
lemma stringBytes_reverse (l : List StdString) : stringBytes l.reverse = stringBytes l := by
  rw [stringBytes, List.map_reverse, List.sum_reverse, stringBytes]

/-- The pushing part of the run. -/
lemma run_pushObjects (image : GuestElfImage) (argv envp : List StdString) {top : U64}
    {α : Type} (f : StackPointers → Prog World α) {x : α}
    (hroom : roundUp16 (image.path.length + 1 + (platformName.length + 1) + stringBytes envp +
      stringBytes argv) + 16 ≤ top.toNat) (htop : 16 ∣ top.toNat)
    (h : (do
      let execfnAddr ← pushString top image.path
      let platformAddr ← pushString execfnAddr platformName
      let env ← pushStrings platformAddr envp.reverse
      let arg ← pushStrings env.1 argv.reverse
      write (alignDown arg.1 kStackAlign - kRandomBytes) randomByte kRandomBytes
      f ⟨arg.2.reverse, env.2.reverse, execfnAddr, platformAddr,
        alignDown arg.1 kStackAlign - kRandomBytes⟩ : Prog World α).run w = .ok x w') :
    ∃ (p : StackPointers) (w₁ : World), (f p).run w₁ = .ok x w' ∧ w₁.mem = w.mem ∧
      p.argAddrs.length = argv.length ∧ p.envAddrs.length = envp.length ∧
      p.randomAddr.toNat + 16 + roundUp16 (image.path.length + 1 + (platformName.length + 1) +
        stringBytes envp + stringBytes argv) = top.toNat ∧
      (∃ a n : U64, 0 < n.toNat ∧ a.toNat + n.toNat = top.toNat ∧ w₁.mem.isMapped a n = true) ∧
      Descending top.toNat (pushedObjects p image argv envp) p.randomAddr.toNat ∧
      Patches ((pushedObjects p image argv envp).map objectPatch) w.bytes w₁.bytes := by
  rw [roundUp16] at hroom ⊢
  have hlt := top.isLt
  obtain ⟨execfnAddr, w₁, hexecfn, h⟩ := run_bind_eq_ok_iff.mp h
  obtain ⟨platformAddr, w₂, hplatform, h⟩ := run_bind_eq_ok_iff.mp h
  obtain ⟨env, w₃, henv, h⟩ := run_bind_eq_ok_iff.mp h
  obtain ⟨arg, w₄, harg, h⟩ := run_bind_eq_ok_iff.mp h
  obtain ⟨_, w₅, hrandom, h⟩ := run_bind_eq_ok_iff.mp h
  -- every cursor is below the one before it
  obtain ⟨hexecfnAddr, hmem₁, hmapped, hpatch₁⟩ := run_pushString (by omega) hexecfn
  obtain ⟨hplatformAddr, hmem₂, -, hpatch₂⟩ := run_pushString (by omega) hplatform
  have henvRoom : stringBytes envp.reverse ≤ platformAddr.toNat := by
    rw [stringBytes_reverse]
    omega
  obtain ⟨henvEnd, henvLength, hmem₃, hpatches₃, hdesc₃⟩ := run_pushStrings henvRoom henv
  have hargRoom : stringBytes argv.reverse ≤ env.1.toNat := by
    rw [stringBytes_reverse] at henvEnd ⊢
    omega
  obtain ⟨hargEnd, hargLength, hmem₄, hpatches₄, hdesc₄⟩ := run_pushStrings hargRoom harg
  obtain ⟨hmem₅, hpatch₅⟩ := patched_of_run_writeRandom hrandom
  rw [stringBytes_reverse] at henvEnd hargEnd
  have hrandomAddr : (alignDown arg.1 kStackAlign - kRandomBytes).toNat =
      arg.1.toNat - arg.1.toNat % 16 - 16 := by
    have hn : kRandomBytes.toNat = 16 := rfl
    rw [BitVec.toNat_sub_of_le, toNat_alignDown_kStackAlign, hn]
    rw [BitVec.le_def, toNat_alignDown_kStackAlign, hn]
    omega
  refine ⟨_, w₅, h, ?_, by simpa using hargLength, by simpa using henvLength, ?_, ?_, ?_, ?_⟩
  · rw [hmem₅, hmem₄, hmem₃, hmem₂, hmem₁]
  · dsimp only
    omega
  · refine ⟨execfnAddr, BitVec.ofNat 64 (image.path.length + 1), ?_, ?_, ?_⟩
    · rw [BitVec.toNat_ofNat, Nat.mod_eq_of_lt (by omega)]
      omega
    · rw [BitVec.toNat_ofNat, Nat.mod_eq_of_lt (by omega)]
      exact hexecfnAddr
    · rw [hmem₅, hmem₄, hmem₃, hmem₂, hmem₁]
      exact hmapped
  · simp only [pushedObjects, List.reverse_reverse]
    refine ⟨?_, ?_, hdesc₃.append (hdesc₄.append ⟨?_, le_rfl⟩)⟩
    · simp [cString]
      omega
    · simp [cString]
      omega
    · rw [List.length_map, List.length_range, hrandomAddr]
      omega
  · simp only [pushedObjects, List.reverse_reverse, List.map_cons, List.map_append, List.map_nil]
    exact .cons hpatch₁ (.cons hpatch₂ (hpatches₃.append (hpatches₄.append hpatch₅.patches)))

/-- The block has as many words as were counted. -/
lemma length_words {image : GuestElfImage} {p : StackPointers} {argv envp : List StdString}
    {aux : List (U64 × U64)} (hargs : p.argAddrs.length = argv.length)
    (henvs : p.envAddrs.length = envp.length) (haux : IsAuxv image p aux) :
    (p.words argv.length aux).length = slotCount argv.length envp.length 19 := by
  rw [← haux.length]
  exact length_blockWords hargs henvs

/-- Objects that were pushed one below another and a block of words that was written below them are
an initial stack. -/
lemma isInitialStack_of_frame {image : GuestElfImage} {argv envp : List StdString}
    {p : StackPointers} {stack : GuestStackImage} {low top size : U64} {m : U64 → Byte}
    (hargs : p.argAddrs.length = argv.length) (henvs : p.envAddrs.length = envp.length)
    (hdesc : Descending top.toNat (pushedObjects p image argv envp) p.randomAddr.toNat)
    (hpatches : Patches ((pushedObjects p image argv envp).map objectPatch) m w.bytes)
    (hstack : stack = ⟨low, top, size, stack.rsp, wordAddr stack.rsp 1,
      wordAddr stack.rsp (argv.length + 2), wordAddr stack.rsp (argv.length + envp.length + 3),
      BitVec.ofNat 64 argv.length⟩)
    (haligned : 16 ∣ stack.rsp.toNat) (hlow : low.toNat ≤ stack.rsp.toNat)
    (hblock : stack.rsp.toNat + 8 * slotCount argv.length envp.length 19 ≤ p.randomAddr.toNat)
    (hframe : ∀ x ∉ span stack.rsp (8 * slotCount argv.length envp.length 19),
      w'.bytes x = w.bytes x)
    (hwords : WordsAt w' stack.rsp (p.words argv.length (p.aux image))) :
    IsInitialStack image argv envp stack p (p.aux image) w' := by
  have hlt := top.isLt
  have hperm : (pushedObjects p image argv envp).Perm (p.objects image argv envp) :=
    perm_pushedObjects hargs henvs
  have hslots : 0 < slotCount argv.length envp.length 19 := by
    unfold slotCount
    omega
  have htop := hdesc.le
  have htopEq : stack.top = top := congrArg GuestStackImage.top hstack
  have hinside : ∀ o ∈ p.objects image argv envp,
      p.randomAddr.toNat ≤ o.1.toNat ∧ o.1.toNat + o.2.length ≤ top.toNat := fun o ho =>
    hdesc.inside (hperm.mem_iff.mpr ho)
  -- the objects lie above the block
  have habove : ∀ o ∈ p.objects image argv envp,
      Disjoint (span stack.rsp (8 * slotCount argv.length envp.length 19))
        (span o.1 o.2.length) := by
    intro o ho
    obtain ⟨hlo, hhi⟩ := hinside o ho
    refine Set.disjoint_left.mpr fun y hy hy' => ?_
    rw [mem_span_iff (by omega)] at hy hy'
    omega
  constructor
  · exact haligned
  · rw [congrArg GuestStackImage.low hstack, htopEq]
    exact ⟨hlow, by omega⟩
  · exact congrArg GuestStackImage.argc hstack
  · exact congrArg GuestStackImage.argvAddr hstack
  · exact congrArg GuestStackImage.envpAddr hstack
  · exact congrArg GuestStackImage.auxvAddr hstack
  · exact hargs
  · exact henvs
  · exact p.isAuxv_aux image
  · exact hwords
  · intro o ho
    have hheld := hdesc.holds hlt.le hpatches (hperm.mem_iff.mpr ho)
    have hhi := (hinside o ho).2
    exact hheld.congr (by omega) fun y hy => hframe y (Set.disjoint_right.mp (habove o ho) hy)
  · rw [length_words hargs henvs (p.isAuxv_aux image), List.pairwise_cons, List.forall_mem_map]
    refine ⟨habove, ?_⟩
    rw [← (hperm.map _).pairwise_iff fun h => h.symm, List.pairwise_map]
    exact hdesc.pairwise_disjoint hlt.le
  · rw [length_words hargs henvs (p.isAuxv_aux image), htopEq]
    omega
  · intro o ho
    obtain ⟨hlo, hhi⟩ := hinside o ho
    rw [length_words hargs henvs (p.isAuxv_aux image), htopEq]
    exact ⟨by omega, hhi⟩

/-- What `buildInitialStack` does to a stack with enough room, once it is mapped: it writes inside
the stack only. -/
structure StackBuilt (image : GuestElfImage) (argv envp : List StdString)
    (stackTop stackSize : U64) (stack : GuestStackImage) (w w' : World) : Prop where
  top : stack.top = guestPageAlignUp stackTop
  low : stack.low = guestPageAlignUp stackTop - guestPageAlignUp stackSize
  size : stack.size = guestPageAlignUp stackSize
  mem : w'.mem = w.mem
  frame : ∀ x ∉ interval stack.low stack.top, w'.bytes x = w.bytes x
  initial : ∃ p aux, IsInitialStack image argv envp stack p aux w'
  pages : PagesFound w'.mem stack.low.toNat stack.top.toNat

/-- Building the initial stack is a mapping, followed by writes inside what was mapped. -/
lemma built_of_run_buildInitialStack {write64 : U64 → U64 → Prog World Unit}
    (hw : IsWrite64 write64) {k : HostKernel} {image : GuestElfImage} {argv envp : List StdString}
    {stackTop stackSize : U64} {stack : GuestStackImage}
    (hsize : (guestPageAlignUp stackSize).toNat ≤ (guestPageAlignUp stackTop).toNat)
    (hfits : stackNeed image argv envp ≤ (guestPageAlignUp stackSize).toNat)
    (h : (buildInitialStack write64 k image argv envp stackTop stackSize).run w = .ok stack w') :
    ∃ w₁, (map k (guestPageAlignUp stackTop - guestPageAlignUp stackSize)
        (guestPageAlignUp stackSize) (kProtRead ||| kProtWrite) "stack").run w = .ok () w₁ ∧
      StackBuilt image argv envp stackTop stackSize stack w₁ w' := by
  unfold buildInitialStack at h
  dsimp only at h
  have htop := dvd_guestPageAlignUp stackTop
  have hsize' := dvd_guestPageAlignUp stackSize
  generalize htopIs : guestPageAlignUp stackTop = top at *
  generalize hsizeIs : guestPageAlignUp stackSize = size at *
  rw [stackNeed, roundUp16] at hfits
  obtain ⟨_, w₁, hmap, h⟩ := run_bind_eq_ok_iff.mp h
  have hregion := region_of_run_map htop hsize' hsize (by omega) hmap
  -- the pushed objects
  obtain ⟨p, w₂, hplace, hmem₂, hargs, henvs, hrandom, ⟨a, n, hn, hend, hmapped⟩, hdesc,
    hpatches⟩ :=
    run_pushObjects image argv envp (fun p => placeBlock write64 (top - size) top size p.randomAddr
      argv.length envp.length p.argAddrs p.envAddrs (p.aux image))
      (by rw [roundUp16] at hfits ⊢; omega) (by omega) h
  rw [roundUp16] at hfits hrandom
  -- the block
  have haux : (p.aux image).length = 19 := rfl
  obtain ⟨⟨hlow, hrsp⟩, hstack, hmem, hframe, hwords⟩ :=
    run_placeBlock hw hargs henvs (by rw [haux]; omega) hplace
  rw [haux] at hrsp hframe
  have hlowEq : stack.low = top - size := congrArg GuestStackImage.low hstack
  have htopEq : stack.top = top := congrArg GuestStackImage.top hstack
  have hsizeEq : stack.size = size := congrArg GuestStackImage.size hstack
  refine ⟨w₁, hmap, htopEq.trans htopIs.symm, hlowEq.trans (by rw [htopIs, hsizeIs]),
    hsizeEq.trans hsizeIs.symm, hmem.trans hmem₂, fun x hx => ?_, ⟨p, p.aux image, ?_⟩, ?_⟩
  · -- the block lies above `low`, and the objects between the block and the top
    rw [mem_interval, htopEq, hlowEq] at hx
    have hbelow := top.isLt
    have hblock : x ∉ span stack.rsp (8 * slotCount argv.length envp.length 19) := by
      rw [mem_span_iff (by omega)]
      omega
    have hobjects : ∀ o ∈ (pushedObjects p image argv envp).map objectPatch, x ∉ o.1 := by
      intro _ hpatch
      obtain ⟨o, ho, rfl⟩ := List.mem_map.mp hpatch
      obtain ⟨hlo, hhi⟩ := hdesc.inside ho
      rw [objectPatch, mem_span_iff (by omega)]
      omega
    rw [hframe x hblock, hpatches.eq_of_forall_notMem hobjects]
  · exact isInitialStack_of_frame hargs henvs hdesc hpatches hstack
      (by rw [hrsp]; exact Nat.dvd_mul_left _ _) hlow (by omega) hframe hwords
  · rw [hlowEq, htopEq, hmem]
    rw [hmem₂] at hmapped ⊢
    rw [BitVec.toNat_sub_of_le (BitVec.le_def.mpr hsize)]
    exact pagesFound_of_isMapped htop hsize hregion hn hend hmapped

/-- Whenever `buildInitialStack` returns, on a stack in which everything fits, the memory holds an
initial stack, and the pages of the stack and the one at its top are recorded. -/
theorem run_buildInitialStack {write64 : U64 → U64 → Prog World Unit} (hw : IsWrite64 write64)
    {k : HostKernel} {image : GuestElfImage} {argv envp : List StdString} {stackTop stackSize : U64}
    {stack : GuestStackImage}
    (hsize : (guestPageAlignUp stackSize).toNat ≤ (guestPageAlignUp stackTop).toNat)
    (hfits : stackNeed image argv envp ≤ (guestPageAlignUp stackSize).toNat)
    (h : (buildInitialStack write64 k image argv envp stackTop stackSize).run w = .ok stack w') :
    stack.top = guestPageAlignUp stackTop ∧
      stack.low = guestPageAlignUp stackTop - guestPageAlignUp stackSize ∧
      (∃ p aux, IsInitialStack image argv envp stack p aux w') ∧
      PagesFound w'.mem stack.low.toNat stack.top.toNat := by
  obtain ⟨w₁, -, hbuilt⟩ := built_of_run_buildInitialStack hw hsize hfits h
  exact ⟨hbuilt.top, hbuilt.low, hbuilt.initial, hbuilt.pages⟩

end GuestStack

end InstaX
