import InstaX.Foundation.ByteStore
import InstaX.Foundation.Rounding
import InstaX.IR.Syntax

/-!
# The host address space

What the runtime uses of the operating system: the bytes of the process, which addresses are mapped
and how they are protected, and the calls `mmap`, `munmap` and `mprotect`.  The kernel decides where
a mapping goes and whether a call succeeds; these decisions are the fields of `HostKernel`, with the
documented rules they obey.  What a successful call does to the address space is defined here.
-/

namespace InstaX

open ByteStore

/-- A byte. -/
abbrev Byte := BitVec 8

/-- A C++ `int`, used for the permission masks. -/
abbrev CInt := BitVec 32

/-- `PROT_NONE` -/
def PROT_NONE : CInt := 0

/-- `PROT_READ` -/
def PROT_READ : CInt := 1

/-- `PROT_WRITE` -/
def PROT_WRITE : CInt := 2

/-- The address space of the process. -/
structure Host where
  /-- The bytes in memory. -/
  bytes : U64 → Byte
  /-- The protection of every mapped address. -/
  prot : U64 → Option CInt

namespace Host

/-- Zeroed pages with protection `prot` replace whatever was in the range. -/
def commit (h : Host) (addr length : U64) (prot : CInt) : Host :=
  { bytes := store h.bytes addr length.toNat fun _ => 0
    prot := store h.prot addr length.toNat fun _ => some prot }

/-- Nothing is mapped in the range any more. -/
def release (h : Host) (addr length : U64) : Host :=
  { h with prot := store h.prot addr length.toNat fun _ => none }

/-- `memcpy(dst, src, n)` -/
def memcpy (h : Host) (dst : U64) (src : ℕ → Byte) (n : U64) : Host :=
  { h with bytes := store h.bytes dst n.toNat src }

/-- `memset(dst, value, n)` -/
def memset (h : Host) (dst : U64) (value : Byte) (n : U64) : Host :=
  h.memcpy dst (fun _ => value) n

/-- The bytes a `memcpy` from `src` reads. -/
def load (h : Host) (src : U64) (n : ℕ) : List Byte :=
  (List.range n).map fun i => h.bytes (src + BitVec.ofNat 64 i)

end Host

/-- Where an anonymous private mapping may go. -/
inductive MapFlag where
  /-- `MAP_FIXED` -/
  | fixed
  /-- `MAP_FIXED_NOREPLACE` -/
  | fixedNoReplace
  /-- neither flag: the address is a hint -/
  | anywhere
  deriving DecidableEq, Repr

/-- The choices of the operating system, with the rules they follow. -/
structure HostKernel where
  /-- The page size is `2 ^ pageBits`. -/
  pageBits : ℕ
  /-- The address `mmap` returns, or `MAP_FAILED`. -/
  place : Host → (addr length : U64) → MapFlag → Option U64
  /-- How many bytes of its range `mprotect` reaches before it fails. -/
  reach : Host → (addr length : U64) → CInt → ℕ
  /-- A host page consists of guest pages. -/
  guestPage_le : 12 ≤ pageBits
  /-- The page size fits in a word. -/
  pageBits_lt : pageBits < 64
  /-- An empty mapping is refused. -/
  place_zero : ∀ h addr flag, place h addr 0 flag = none
  /-- `MAP_FIXED` maps at the given address. -/
  place_fixed : ∀ h addr length r, place h addr length .fixed = some r → r = addr
  /-- Every other mapping takes addresses that are not in use. -/
  place_free : ∀ h addr length flag r, flag ≠ .fixed → place h addr length flag = some r →
    ∀ x ∈ span r length.toNat, h.prot x = none

namespace HostKernel

variable (k : HostKernel)

/-- `sysconf(_SC_PAGESIZE)` -/
def pageSize : U64 := BitVec.twoPow 64 k.pageBits

/-- `mmap(addr, length, prot, MAP_PRIVATE | MAP_ANONYMOUS | flag, -1, 0)`: the address of the
mapping unless it failed, and the address space afterwards. -/
def mmap (h : Host) (addr length : U64) (prot : CInt) (flag : MapFlag) : Option U64 × Host :=
  match k.place h addr length flag with
  | some r => (some r, h.commit r length prot)
  | none => (none, h)

/-- A mapping that did not fail is not empty and committed its range. -/
lemma commit_of_mmap_eq_some {h : Host} {addr length r : U64} {prot : CInt} {flag : MapFlag}
    (hr : (k.mmap h addr length prot flag).1 = some r) :
    length ≠ 0 ∧ (k.mmap h addr length prot flag).2 = h.commit r length prot := by
  cases hplace : k.place h addr length flag with
  | none => simp [mmap, hplace] at hr
  | some s =>
    obtain rfl : s = r := by simpa [mmap, hplace] using hr
    refine ⟨?_, by simp [mmap, hplace]⟩
    rintro rfl
    rw [k.place_zero] at hplace
    cases hplace

/-- `mprotect(addr, length, prot)`: whether it succeeded, and the address space afterwards. -/
def mprotect (h : Host) (addr length : U64) (prot : CInt) : Bool × Host :=
  let reached := min (k.reach h addr length prot) length.toNat
  (reached == length.toNat,
    { h with prot := store h.prot addr reached fun _ => some prot })

end HostKernel

end InstaX
