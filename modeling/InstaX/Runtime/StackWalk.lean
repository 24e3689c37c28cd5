import InstaX.Runtime.ImageContents
import InstaX.Runtime.StackLayout

/-!
# Walking the initial stack

`describeStack` reads the block of words back: the count of the arguments, the first pointers of the
two arrays with their strings, and the auxiliary vector up to `AT_NULL`.  On an initial stack whose
pages are all recorded no read throws (`Readable.accessible`), the loops end at the terminators
that `buildInitialStack` wrote, and the report is that of the strings it was given
(`buildInitialStack_describeStack`).
-/

namespace InstaX

open Throwing Rounding ByteStore GuestMemory

namespace GuestStack

variable {w w' : World}

/-! ## Reads -/

/-- The part of guest memory that a walk reads: addresses from `low` to `top`, on pages that are all
recorded. -/
structure Readable (m : GuestMemory) (low top : ℕ) : Prop where
  pages : PagesFound m low top
  low_dvd : 4096 ∣ low
  top_dvd : 4096 ∣ top
  top_lt : top < 2 ^ 64

variable {low top : ℕ}

/-- A range inside the readable part passes the check. -/
lemma Readable.isMapped {m : GuestMemory} (h : Readable m low top) {a n : U64} (hn : 0 < n.toNat)
    (ha : low ≤ a.toNat) (hend : a.toNat + n.toNat ≤ top) : m.isMapped a n = true := by
  have hlow := h.low_dvd
  have htop := h.top_dvd
  have hlt := h.top_lt
  refine (isMapped_iff_findRegion hn).mpr fun p hp hap hpl => h.pages p hp (by omega) ?_
  have hlast : (a + n - 1).toNat = a.toNat + n.toNat - 1 := by
    rw [toNat_last hn, Nat.mod_eq_of_lt (by omega)]
  rw [toNat_guestPageAlignUp (by omega), hlast] at hpl
  omega

/-- A range between the ends is accessible. -/
lemma Readable.accessible {m : GuestMemory} (h : Readable m low top) {a n : U64}
    (ha : low ≤ a.toNat) (hend : a.toNat + n.toNat ≤ top) : m.Accessible a n := by
  intro hne
  have hone : (1 : U64).toNat = 1 := rfl
  have hn : 0 < n.toNat := Nat.pos_of_ne_zero fun h0 => hne (BitVec.eq_of_toNat_eq h0)
  exact ⟨h.isMapped hn ha hend, h.isMapped (by rw [hone]; omega) ha (by rw [hone]; omega)⟩

/-- Words that `read64` reads, upwards from an address. -/
def ReadsWords (w : World) : U64 → List U64 → Prop
  | _, [] => True
  | a, v :: l => (read64 a).run w = .ok v w ∧ ReadsWords w (a + 8) l

/-- Words in the readable part are read. -/
lemma readsWords_of_wordsAt (hr : Readable w.mem low top) {a : U64} {l : List U64}
    (ha : low ≤ a.toNat) (hend : a.toNat + 8 * l.length ≤ top) (h : WordsAt w a l) :
    ReadsWords w a l := by
  induction l generalizing a with
  | nil => trivial
  | cons v l ih =>
    obtain ⟨rfl, htail⟩ := h
    have height : (8 : U64).toNat = 8 := rfl
    have hlt := hr.top_lt
    rw [List.length_cons] at hend
    have hnext : (a + 8).toNat = a.toNat + 8 ∨ l = [] := by
      rcases Nat.lt_or_ge (a.toNat + 8) (2 ^ 64) with h8 | h8
      · left
        rw [BitVec.toNat_add, height, Nat.mod_eq_of_lt h8]
      · omega
    refine ⟨run_read64_eq_ok_iff.mpr ⟨hr.accessible ha (by rw [height]; omega), rfl, rfl⟩, ?_⟩
    rcases hnext with hnext | rfl
    · exact ih (by omega) (by omega) htail
    · trivial

/-- Reading a list of words and what follows it. -/
lemma readsWords_append {a : U64} {l l' : List U64} :
    ReadsWords w a (l ++ l') ↔ ReadsWords w a l ∧ ReadsWords w (wordAddr a l.length) l' := by
  induction l generalizing a with
  | nil => simp [ReadsWords, wordAddr_zero]
  | cons v l ih =>
    rw [List.cons_append, ReadsWords, ReadsWords, ih, List.length_cons, wordAddr_succ, and_assoc]

/-- A word in the middle of words that are read. -/
lemma run_read64_of_readsWords {a : U64} {l : List U64} (h : ReadsWords w a l) {i : ℕ} {v : U64}
    (hi : l[i]? = some v) : (read64 (wordAddr a i)).run w = .ok v w := by
  induction l generalizing a i with
  | nil => cases hi
  | cons v' l ih =>
    cases i with
    | zero =>
      obtain rfl : v' = v := by simpa using hi
      rw [wordAddr_zero]
      exact h.1
    | succ i =>
      rw [wordAddr_succ]
      exact ih h.2 (by simpa using hi)

/-! ## Strings -/

/-- A string in the readable part, with its terminator, behind a pointer that is not null. -/
structure StringAt (w : World) (low top : ℕ) (a : U64) (s : StdString) : Prop where
  holds : Holds w.bytes (cString a s)
  noNul : 0 ∉ s
  pos : 0 < a.toNat
  low_le : low ≤ a.toNat
  le_top : a.toNat + s.length + 1 ≤ top

/-- One byte of a string is read. -/
lemma run_readGuestString_succ {a : U64} (hmapped : w.mem.isMapped a 1 = true) (limit : ℕ) :
    (readGuestString a (limit + 1)).run w =
      if w.bytes a = 0 then .ok [] w
      else (do let s ← readGuestString (a + 1) limit; pure (w.bytes a :: s)).run w := by
  have hread : (read a 1).run w = .ok (w.host.load (a + w.mem.hostOffset) (1 : U64).toNat) w :=
    run_read_eq_ok_iff.mpr ⟨fun _ => ⟨hmapped, hmapped⟩, rfl, rfl⟩
  have hbyte : (w.host.load (a + w.mem.hostOffset) (1 : U64).toNat).getD 0 0 = w.bytes a := by
    change w.host.bytes (a + w.mem.hostOffset + 0) = w.host.bytes (a + w.mem.hostOffset)
    rw [add_zero]
  have hget : (get : Prog World World).run w = .ok w w := rfl
  rw [readGuestString, run_bind_of_ok hget, if_pos hmapped, run_bind_of_ok hread, hbyte]
  dsimp only
  split_ifs <;> rfl

/-- Reading a string gives the string, cut at the limit. -/
lemma run_readGuestString (hr : Readable w.mem low top) {a : U64} {s : StdString}
    (h : StringAt w low top a s) (limit : ℕ) :
    (readGuestString a limit).run w = .ok (s.take limit) w := by
  induction limit generalizing a s with
  | zero => rfl
  | succ limit ih =>
    have hone : (1 : U64).toNat = 1 := rfl
    have hend := h.le_top
    have hlt := hr.top_lt
    rw [run_readGuestString_succ (hr.isMapped (by rw [hone]; omega) h.low_le (by rw [hone]; omega))]
    have hfirst : (s ++ [0]).head? = some (w.bytes a) := by
      have hpos : 0 < (cString a s).2.length := by simp [cString]
      have h0 := h.holds 0 hpos
      rw [BitVec.add_zero] at h0
      rw [List.head?_eq_getElem?]
      exact (List.getElem?_eq_getElem hpos).trans (congrArg some h0.symm)
    cases s with
    | nil =>
      rw [if_pos (by simpa using hfirst.symm)]
      rfl
    | cons c s =>
      have hc : w.bytes a = c := by simpa using hfirst.symm
      have hne : c ≠ 0 := fun h0 => h.noNul (h0 ▸ List.mem_cons_self)
      rw [List.length_cons] at hend
      have hnext : (a + 1).toNat = a.toNat + 1 := by
        rw [BitVec.toNat_add, hone, Nat.mod_eq_of_lt (by omega)]
      have htail : StringAt w low top (a + 1) s := by
        refine ⟨fun i hi => ?_, fun h0 => h.noNul (List.mem_cons_of_mem _ h0), by omega, ?_,
          by omega⟩
        · have hi' := h.holds (i + 1) (by simpa [cString] using hi)
          rw [BitVec.ofNat_add, BitVec.add_comm (BitVec.ofNat 64 i), ← BitVec.add_assoc] at hi'
          simpa [cString] using hi'
        · have := h.low_le
          omega
      rw [hc, if_neg hne, run_bind_of_ok (ih htail)]
      rfl

/-! ## The loops -/

/-- The first pointers of an array are read with their strings. -/
lemma run_readPointers (hr : Readable w.mem low top) {a : U64} {ptrs : List U64}
    {strs : List StdString} (hstrs : List.Forall₂ (StringAt w low top) ptrs strs)
    (hwords : ReadsWords w a ptrs) {n : ℕ} (hn : n ≤ ptrs.length) :
    (readPointers a n).run w =
      .ok ((ptrs.zip (strs.map fun s => s.take 128)).take n) w := by
  induction hstrs generalizing a n with
  | nil =>
    obtain rfl : n = 0 := by simpa using hn
    rfl
  | cons hhead _ ih =>
    cases n with
    | zero => rfl
    | succ n =>
      rw [readPointers, run_bind_of_ok hwords.1, run_bind_of_ok (run_readGuestString hr hhead 128),
        run_bind_of_ok (ih hwords.2 (by simpa using hn))]
      rfl

/-- The address of a word by a product. -/
lemma add_ofNat_mul_eight (a : U64) (i : ℕ) : a + BitVec.ofNat 64 i * 8 = wordAddr a i := by
  rw [wordAddr, Nat.mul_comm, BitVec.ofNat_mul]
  rfl

/-- The words in front of the first zero are counted. -/
lemma run_countWords {a : U64} {l : List U64} (hwords : ReadsWords w a (l ++ [0]))
    (hne : ∀ v ∈ l, v ≠ 0) {fuel i : ℕ} (hi : i ≤ l.length) (hfuel : l.length < fuel + i) :
    (countWords a fuel (BitVec.ofNat 64 i)).run w = .ok (some (BitVec.ofNat 64 l.length)) w := by
  induction fuel generalizing i with
  | zero => omega
  | succ fuel ih =>
    rw [countWords, add_ofNat_mul_eight]
    rcases Nat.eq_or_lt_of_le hi with rfl | hlt
    · have hlast : (l ++ [0])[l.length]? = some 0 := by simp
      rw [run_bind_of_ok (run_read64_of_readsWords hwords hlast)]
      rfl
    · have hget : (l ++ [0])[i]? = some l[i] := by
        rw [List.getElem?_append_left hlt, List.getElem?_eq_getElem hlt]
      rw [run_bind_of_ok (run_read64_of_readsWords hwords hget),
        if_pos (hne _ (List.getElem_mem hlt))]
      have hsucc : BitVec.ofNat 64 i + 1 = BitVec.ofNat 64 (i + 1) := (BitVec.ofNat_add i 1).symm
      rw [hsucc]
      exact ih hlt (by omega)

/-- The entries of the auxiliary vector are read up to `AT_NULL`. -/
lemma run_readAuxv {a i last : U64} (front : List (U64 × U64)) {note : U64 → Option StdString}
    (hwords : ReadsWords w (a + i * 16) (pairWords (front ++ [(AT_NULL, last)])))
    (hne : ∀ e ∈ front, e.1 ≠ AT_NULL)
    (hnote : ∀ e ∈ front ++ [(AT_NULL, last)], (readNote e.1 e.2).run w = .ok (note e.1) w)
    {fuel : ℕ} (hfuel : front.length < fuel) :
    (readAuxv a fuel i).run w =
      .ok (some ((front ++ [(AT_NULL, last)]).map fun e => (e.1, e.2, note e.1))) w := by
  induction front generalizing i fuel with
  | nil =>
    obtain ⟨fuel, rfl⟩ := Nat.exists_eq_succ_of_ne_zero (Nat.ne_zero_of_lt hfuel)
    rw [readAuxv, run_bind_of_ok hwords.1, run_bind_of_ok hwords.2.1,
      run_bind_of_ok (hnote _ List.mem_cons_self)]
    rfl
  | cons e front ih =>
    obtain ⟨fuel, rfl⟩ := Nat.exists_eq_succ_of_ne_zero (Nat.ne_zero_of_lt hfuel)
    have hnext : a + (i + 1) * 16 = a + i * 16 + 8 + 8 := by
      rw [add_mul, one_mul, ← add_assoc, add_assoc _ 8 8]
      rfl
    have htail := ih (i := i + 1) (by rw [hnext]; exact hwords.2.2)
      (fun e' he' => hne e' (List.mem_cons_of_mem _ he'))
      (fun e' he' => hnote e' (List.mem_cons_of_mem _ he')) (Nat.lt_of_succ_lt_succ hfuel)
    rw [readAuxv, run_bind_of_ok hwords.1, run_bind_of_ok hwords.2.1,
      run_bind_of_ok (hnote e List.mem_cons_self), if_neg (hne e List.mem_cons_self),
      run_bind_of_ok htail]
    rfl

/-! ## The report -/

/-- The string shown with a key of the auxiliary vector. -/
def noteOf (image : GuestElfImage) (key : U64) : Option StdString :=
  if key = AT_EXECFN then some (image.path.take 128)
  else if key = AT_PLATFORM then some platformName
  else none

/-- The report of a stack that was built from `argv` and `envp`. -/
def reportOf (image : GuestElfImage) (argv envp : List StdString) (p : StackPointers)
    (aux : List (U64 × U64)) : StackReport where
  argc := BitVec.ofNat 64 argv.length
  argv := (p.argAddrs.zip (argv.map fun s => s.take 128)).take 8
  envCount := BitVec.ofNat 64 envp.length
  envp := (p.envAddrs.zip (envp.map fun s => s.take 128)).take 3
  auxv := aux.map fun e => (e.1, e.2, noteOf image e.1)

variable {image : GuestElfImage} {argv envp : List StdString} {stack : GuestStackImage}
  {p : StackPointers} {aux : List (U64 × U64)}

/-- Every entry of the auxiliary vector is shown with its string. -/
lemma run_readNote (hr : Readable w.mem low top)
    (hexecfn : StringAt w low top p.execfnAddr image.path)
    (hplatform : StringAt w low top p.platformAddr platformName) {e : U64 × U64}
    (haux : IsAuxv image p aux) (he : e ∈ aux) :
    (readNote e.1 e.2).run w = .ok (noteOf image e.1) w := by
  obtain ⟨key, value⟩ := e
  have hexecfnKey : key = AT_EXECFN → value = p.execfnAddr := by
    rintro rfl
    exact haux.eq_of_mem he haux.execfn
  have hplatformKey : key = AT_PLATFORM → value = p.platformAddr := by
    rintro rfl
    exact haux.eq_of_mem he haux.platform
  dsimp only
  rw [readNote, noteOf]
  by_cases hx : key = AT_EXECFN
  · rw [if_pos (Or.inl hx), if_pos hx, hexecfnKey hx,
      run_bind_of_ok (run_readGuestString hr hexecfn 128)]
    rfl
  · by_cases hp : key = AT_PLATFORM
    · rw [if_pos (Or.inr hp), if_neg hx, if_pos hp, hplatformKey hp,
        run_bind_of_ok (run_readGuestString hr hplatform 128)]
      rfl
    · rw [if_neg (not_or.mpr ⟨hx, hp⟩), if_neg hx, if_neg hp]
      rfl

/-- The strings of an initial stack are in memory with their terminators. -/
lemma IsInitialStack.stringAt (h : IsInitialStack image argv envp stack p aux w) {a : U64}
    {s : StdString} (hs : 0 ∉ s) (ha : cString a s ∈ p.objects image argv envp) :
    StringAt w stack.low.toNat stack.top.toNat a s := by
  obtain ⟨hlo, hhi⟩ := h.above _ ha
  have hlow := h.rsp_mem.1
  have hlen : (cString a s).2.length = s.length + 1 := by
    simp [cString]
  rw [hlen] at hhi
  have hlength : 0 < (p.words argv.length aux).length := Nat.succ_pos _
  have haddr : (cString a s).1 = a := rfl
  rw [haddr] at hlo hhi
  exact ⟨h.holds _ ha, hs, by omega, by omega, by omega⟩

/-- The strings of an array are in memory, in order. -/
lemma forall₂_stringAt (h : IsInitialStack image argv envp stack p aux w) {ptrs : List U64}
    {strs : List StdString} (hlen : ptrs.length = strs.length) (hnul : ∀ s ∈ strs, 0 ∉ s)
    (hmem : ∀ o ∈ List.zipWith cString ptrs strs, o ∈ p.objects image argv envp) :
    List.Forall₂ (StringAt w stack.low.toNat stack.top.toNat) ptrs strs := by
  refine List.forall₂_iff_zip.mpr ⟨hlen, fun {a s} has => ?_⟩
  refine h.stringAt (hnul s (List.of_mem_zip has).2) (hmem _ ?_)
  rw [← List.map_uncurry_zip_eq_zipWith]
  exact List.mem_map_of_mem has

/-- The pointers to strings are not null. -/
lemma ne_zero_of_forall₂ {ptrs : List U64} {strs : List StdString}
    (h : List.Forall₂ (StringAt w low top) ptrs strs) : ∀ v ∈ ptrs, v ≠ 0 := by
  induction h with
  | nil => simp
  | cons hhead _ ih =>
    refine List.forall_mem_cons.mpr ⟨?_, ih⟩
    rintro rfl
    exact absurd hhead.pos (by decide)

/-- Showing at most `n` strings of an array. -/
lemma take_min_zip {ptrs : List U64} {strs : List StdString} (hlen : ptrs.length = strs.length)
    (n : ℕ) : (ptrs.zip (strs.map fun s => s.take 128)).take (min strs.length n) =
      (ptrs.zip (strs.map fun s => s.take 128)).take n := by
  have hzip : (ptrs.zip (strs.map fun s => s.take 128)).length = strs.length := by
    rw [List.length_zip, List.length_map, hlen, min_self]
  rw [Nat.min_comm, ← hzip, ← List.take_eq_take_min]

/-- Walking an initial stack whose pages are recorded gives the report of what it was built from. -/
theorem run_describeStack (h : IsInitialStack image argv envp stack p aux w)
    (hnul : ∀ s ∈ image.path :: (argv ++ envp), 0 ∉ s)
    (hr : Readable w.mem stack.low.toNat stack.top.toNat) {fuel : ℕ}
    (hfuel : max (envp.length + 1) 19 ≤ fuel) :
    (describeStack fuel stack).run w = .ok (some (reportOf image argv envp p aux)) w := by
  have hlt := hr.top_lt
  have hinside := h.block_inside
  rw [length_words h.argAddrs_length h.envAddrs_length h.auxv, slotCount] at hinside
  -- the block taken apart: the count, the two arrays with their terminators, the vector
  obtain ⟨hargc, htail⟩ : ReadsWords w stack.rsp (p.words argv.length aux) :=
    readsWords_of_wordsAt hr h.rsp_mem.1 h.block_inside h.words
  obtain ⟨hargs, -, htail⟩ := readsWords_append.mp htail
  rw [List.append_cons] at htail
  obtain ⟨henvs, haux⟩ := readsWords_append.mp htail
  have hargvAddr : stack.rsp + 8 = stack.argvAddr := h.argvAddr.symm
  have henvpAddr : wordAddr stack.argvAddr p.argAddrs.length + 8 = stack.envpAddr := by
    rw [h.argvAddr, ← wordAddr_add, wordAddr_add_eight, h.envpAddr, h.argAddrs_length,
      Nat.add_comm 1]
  have hauxvAddr : wordAddr stack.envpAddr (p.envAddrs ++ [0]).length =
    stack.auxvAddr + 0 * 16 := by
    rw [h.envpAddr, ← wordAddr_add, zero_mul, add_zero, h.auxvAddr, List.length_append,
      List.length_singleton, h.envAddrs_length]
    exact congrArg _ (by omega)
  rw [hargvAddr] at hargs henvs haux
  rw [henvpAddr] at henvs haux
  rw [hauxvAddr] at haux
  -- the strings
  have hexecfn := h.stringAt (hnul _ List.mem_cons_self) List.mem_cons_self
  have hplatform := h.stringAt (s := platformName) (by decide)
    (List.mem_cons_of_mem _ List.mem_cons_self)
  have hargv := forall₂_stringAt h h.argAddrs_length
    (fun s hs => hnul s (List.mem_cons_of_mem _ (List.mem_append_left _ hs)))
    (fun o ho => by simp [StackPointers.objects, ho])
  have henvp := forall₂_stringAt h h.envAddrs_length
    (fun s hs => hnul s (List.mem_cons_of_mem _ (List.mem_append_right _ hs)))
    (fun o ho => by simp [StackPointers.objects, ho])
  -- the run
  have hargcNat : (BitVec.ofNat 64 argv.length).toNat = argv.length := by
    rw [BitVec.toNat_ofNat, Nat.mod_eq_of_lt (by omega)]
  have henvcNat : (BitVec.ofNat 64 p.envAddrs.length).toNat = envp.length := by
    rw [BitVec.toNat_ofNat, h.envAddrs_length, Nat.mod_eq_of_lt (by omega)]
  have hcount : (countWords stack.envpAddr fuel 0).run w =
      .ok (some (BitVec.ofNat 64 p.envAddrs.length)) w :=
    run_countWords henvs (ne_zero_of_forall₂ henvp) (Nat.zero_le _)
      (by rw [h.envAddrs_length]; omega)
  have hread : (readAuxv stack.auxvAddr fuel 0).run w =
      .ok (some (aux.map fun e => (e.1, e.2, noteOf image e.1))) w := by
    have hnote : ∀ e ∈ aux, (readNote e.1 e.2).run w = .ok (noteOf image e.1) w := fun e he =>
      run_readNote hr hexecfn hplatform h.auxv he
    obtain ⟨front, rfl, hlength, hne⟩ := h.auxv.exists_front
    exact run_readAuxv front haux hne hnote (by omega)
  rw [describeStack, run_bind_of_ok hargc, hargcNat,
    run_bind_of_ok (run_readPointers hr hargv hargs (by rw [h.argAddrs_length]; omega)),
    run_bind_of_ok hcount]
  dsimp only
  rw [henvcNat, run_bind_of_ok (run_readPointers hr henvp (readsWords_append.mp henvs).1
    (by rw [h.envAddrs_length]; omega)), run_bind_of_ok hread]
  rw [h.envAddrs_length, take_min_zip h.argAddrs_length, take_min_zip h.envAddrs_length]
  rfl

/-! ## The stack that is built -/

/-- The pages of a stack that was built are readable. -/
lemma readable_of_pagesFound {m : GuestMemory} {stackTop stackSize : U64}
    (htop : stack.top = guestPageAlignUp stackTop)
    (hlow : stack.low = guestPageAlignUp stackTop - guestPageAlignUp stackSize)
    (hsize : (guestPageAlignUp stackSize).toNat ≤ (guestPageAlignUp stackTop).toNat)
    (hpages : PagesFound m stack.low.toNat stack.top.toNat) :
    Readable m stack.low.toNat stack.top.toNat := by
  refine ⟨hpages, ?_, ?_, stack.top.isLt⟩
  · rw [hlow, BitVec.toNat_sub_of_le (BitVec.le_def.mpr hsize)]
    exact Nat.dvd_sub (dvd_guestPageAlignUp _) (dvd_guestPageAlignUp _)
  · rw [htop]
    exact dvd_guestPageAlignUp _

/-- For strings without a NUL byte that fit, with their padding, the random bytes and the block of
words, in the rounded stack size: whenever `buildInitialStack` returns, the memory holds an initial
stack, and walking it finds the arguments, the environment and the auxiliary vector it was built
from. -/
theorem buildInitialStack_describeStack {write64 : U64 → U64 → Prog World Unit}
    (hwrite64 : IsWrite64 write64) {k : HostKernel} {stackTop stackSize : U64}
    (hnul : ∀ s ∈ image.path :: (argv ++ envp), 0 ∉ s)
    (hsize : (guestPageAlignUp stackSize).toNat ≤ (guestPageAlignUp stackTop).toNat)
    (hfits : stackNeed image argv envp ≤ (guestPageAlignUp stackSize).toNat)
    (hrun : (buildInitialStack write64 k image argv envp stackTop stackSize).run w =
      .ok stack w') :
    stack.top = guestPageAlignUp stackTop ∧
      stack.low = guestPageAlignUp stackTop - guestPageAlignUp stackSize ∧
      ∃ p aux, IsInitialStack image argv envp stack p aux w' ∧
        ∀ fuel, max (envp.length + 1) 19 ≤ fuel →
          (describeStack fuel stack).run w' = .ok (some (reportOf image argv envp p aux)) w' := by
  obtain ⟨htop, hlow, ⟨p, aux, hstack⟩, hpages⟩ := run_buildInitialStack hwrite64 hsize hfits hrun
  exact ⟨htop, hlow, p, aux, hstack, fun fuel =>
    run_describeStack hstack hnul (readable_of_pagesFound htop hlow hsize hpages)⟩

/-- `write64` as a write of the eight bytes of the word. -/
def writeLittleEndian (a v : U64) : Prog World Unit := write a (leByte v) 8

/-- The little-endian writer is a `write64`. -/
lemma isWrite64_writeLittleEndian : IsWrite64 writeLittleEndian where
  mem h := (patched_of_run_write h).1
  frame h _ hy := (patched_of_run_write h).2.frame hy
  word {a v w x w'} h := by
    refine Eq.trans (leWord_congr fun i hi => ?_) (leWord_leByte v (n := 8) le_rfl)
    have hi64 : i < 2 ^ 64 := by omega
    rw [(patched_of_run_write h).2.eqOn ((mem_span_iff_exists (by decide)).mpr ⟨i, hi, rfl⟩)]
    exact congrArg _ (toNat_add_ofNat_sub hi64)

/-- A guest memory that reserved two pages, with the upper one mapped. -/
def reservedStack : World where
  mem := ⟨0, 0x10000, 0x2000, 0x10000, 0x12000, [⟨0x11000, 0x1000, 3, "above"⟩]⟩
  host := ⟨fun _ => 0, fun _ => some PROT_NONE⟩

/-- A program without arguments of its own and one environment variable. -/
theorem buildInitialStack_describeStack_tiny :
    ∃ image stack w' p aux,
      (buildInitialStack writeLittleEndian ElfMapper.fixedKernel image [[0x61]] [[0x62]] 0x11000
        0x1000).run reservedStack = .ok stack w' ∧
      IsInitialStack image [[0x61]] [[0x62]] stack p aux w' ∧
      (describeStack 19 stack).run w' =
        .ok (some (reportOf image [[0x61]] [[0x62]] p aux)) w' := by
  let image : GuestElfImage := ⟨[0x61], false, false, false, [], 0, 0x400000, 0x400000, 0x401000, 0,
    0x400040, 56, 1, 0x401000⟩
  obtain ⟨stack, w', hrun⟩ : Returns (buildInitialStack writeLittleEndian ElfMapper.fixedKernel
      image [[0x61]] [[0x62]] 0x11000 0x1000) reservedStack := by decide +kernel
  obtain ⟨-, -, p, aux, hstack, hwalk⟩ :=
    buildInitialStack_describeStack isWrite64_writeLittleEndian
    (by decide) (by decide) (by decide) hrun
  exact ⟨image, stack, w', p, aux, hrun, hstack, hwalk 19 (by decide)⟩

end GuestStack

end InstaX
