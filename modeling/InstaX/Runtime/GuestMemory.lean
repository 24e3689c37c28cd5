import Mathlib.Data.List.Sort
import InstaX.Foundation.Throwing
import InstaX.Runtime.Host

/-!
# Guest memory

`GuestMemory` (`include/runtime/GuestMemory.h`, `src/runtime/GuestMemory.cpp`): the guest's address
space as a list of recorded regions over host memory at a fixed offset.  A `World` is the guest
memory together with the host address space; the member functions that change one of them or throw
are programs over it.

The source has spellings that no compiler accepts.  They are read as what they stand for:
`isIdentity` compares `m_hostOffset` with zero, and the placement flag of `map` is
`insideReservation ? MAP_FIXED : MAP_FIXED_NOREPLACE`.
-/

namespace InstaX

open Throwing Rounding

/-- `std::hex << v` -/
def hex (v : U64) : String := String.ofList (Nat.toDigits 16 v.toNat)

/-- `std::max` -/
def stdMax (a b : U64) : U64 := if a < b then b else a

/-- `std::min` -/
def stdMin (a b : U64) : U64 := if b < a then b else a

/-- The smaller of two words as numbers. -/
lemma toNat_stdMin (a b : U64) : (stdMin a b).toNat = min a.toNat b.toNat := by
  unfold stdMin
  split_ifs with h <;> rw [BitVec.lt_def] at h <;> omega

/-- The larger of two words as numbers. -/
lemma toNat_stdMax (a b : U64) : (stdMax a b).toNat = max a.toNat b.toNat := by
  unfold stdMax
  split_ifs with h <;> rw [BitVec.lt_def] at h <;> omega

/-- `kProtNone` -/
def kProtNone : CInt := 0

/-- `kProtRead` -/
def kProtRead : CInt := 1

/-- `kProtWrite` -/
def kProtWrite : CInt := 2

/-- `kProtExec` -/
def kProtExec : CInt := 4

/-- `Elf::GUEST_PAGE_SIZE` -/
def GUEST_PAGE_SIZE : U64 := 4096

/-- A recorded range of guest memory. -/
structure GuestRegion where
  guestAddr : U64
  length : U64
  prot : CInt
  name : String
  deriving DecidableEq, Repr

/-- The bookkeeping of the guest's address space. -/
structure GuestMemory where
  hostOffset : U64
  windowBase : U64
  windowSize : U64
  reservedLow : U64
  reservedHigh : U64
  regions : List GuestRegion
  deriving DecidableEq, Repr

/-- The guest memory and the host address space it lives in. -/
structure World where
  mem : GuestMemory
  host : Host

/-- Rendering of a permission mask. -/
def protToString (guestProt : CInt) : String :=
  (if guestProt &&& kProtRead ≠ 0 then "r" else "-") ++
    (if guestProt &&& kProtWrite ≠ 0 then "w" else "-") ++
    (if guestProt &&& kProtExec ≠ 0 then "x" else "-")

/-- The host protection of a guest permission: always readable, never executable. -/
def hostProtFor (guestProt : CInt) : CInt :=
  if guestProt = kProtNone then PROT_NONE
  else if guestProt &&& kProtWrite ≠ 0 then PROT_READ ||| PROT_WRITE
  else PROT_READ

namespace GuestMemory

def guestPageAlignDown (addr : U64) : U64 := alignDown addr GUEST_PAGE_SIZE

def guestPageAlignUp (addr : U64) : U64 := alignUp addr GUEST_PAGE_SIZE

/-! ## Construction -/

/-- Biased mapping: a window where the host likes, for the guest addresses from `probeLow` on. -/
def reserveWindow (k : HostKernel) (probeLow windowSize : U64) : Prog Host GuestMemory := do
  let h ← get
  let window := k.mmap h 0 windowSize PROT_NONE .anywhere
  set window.2
  match window.1 with
  | some base => pure ⟨base - probeLow, base, windowSize, probeLow, probeLow + windowSize, []⟩
  | none =>
    throw (.runtimeError ("GuestMemory: could not reserve a guest address window " ++
      "(identity mapping was refused and the fallback reservation failed too)"))

/-- Reserve the addresses of an image: the host pages of the image themselves, or else a window. -/
def construct (k : HostKernel) (imageLow imageHigh fallBackWindowSize : U64) :
    Prog Host GuestMemory := do
  let probeLow := alignDown imageLow k.pageSize
  let probeHigh := alignUp imageHigh k.pageSize
  let probeSize := probeHigh - probeLow
  if probeSize = 0 then
    throw (.invalidArgument "GuestMemory: empty image span")
  else do
    let h ← get
    let identity := k.mmap h probeLow probeSize PROT_NONE .fixedNoReplace
    if identity.1 = some probeLow then do
      set identity.2
      pure ⟨0, probeLow, probeSize, probeLow, probeHigh, []⟩
    else do
      -- a mapping somewhere else is given back
      set ((identity.1.map (identity.2.release · probeSize)).getD identity.2)
      let windowSize := alignUp fallBackWindowSize k.pageSize
      reserveWindow k probeLow
        (if windowSize < probeSize then alignUp (probeSize * 2) k.pageSize else windowSize)

/-! ## Queries -/

def isIdentity (m : GuestMemory) : Bool := m.hostOffset == 0

/-- Can the range be given a host address under the current mapping mode? -/
def isAddressable (m : GuestMemory) (guestAddr length : U64) : Bool :=
  if m.isIdentity then true
  else if guestAddr < m.reservedLow then false
  else if guestAddr + length < guestAddr then false
  else decide (guestAddr + length ≤ m.reservedHigh)

/-- The first recorded region that contains an address. -/
def findRegion (m : GuestMemory) (guestAddr : U64) : Option GuestRegion :=
  m.regions.find? fun region =>
    decide (region.guestAddr ≤ guestAddr ∧ guestAddr < region.guestAddr + region.length)

/-- Is every byte of `[guestAddr, guestAddr + length)` mapped?  The loop has fuel for all the pages
of the address space. -/
def isMapped (m : GuestMemory) (guestAddr length : U64) : Bool :=
  if length = 0 then true
  else
    let first := guestPageAlignDown guestAddr
    let last := guestPageAlignUp (guestAddr + length - 1)
    strideAll (fun page => (m.findRegion page).isSome) GUEST_PAGE_SIZE last (2 ^ 52) first

/-- The permissions in force at an address. -/
def protAt (m : GuestMemory) (guestAddr : U64) : CInt :=
  match m.findRegion guestAddr with
  | some region => region.prot
  | none => kProtNone

/-! ## Accesses

The copies are modelled as if the host carried them out.  A copy that touches a host page which does
not allow it ends the process instead; `Runtime.HostFaults` says when (`Ending`). -/

/-- The host address of a mapped guest address. -/
def toHost (guestAddr : U64) : Prog World U64 := do
  let w ← get
  if w.mem.isMapped guestAddr 1 then
    pure (guestAddr + w.mem.hostOffset)
  else
    throw (.outOfRange ("GuestMemory::toHost: unmapped guest address 0x" ++ hex guestAddr))

/-- The guest address of a host address. -/
def toGuest (m : GuestMemory) (hostptr : U64) : U64 := hostptr - m.hostOffset

/-- The check that `write`, `read` and `zero` make before they ask for the host address. -/
def toHostRange (function : String) (guestAddr n : U64) : Prog World U64 := do
  let w ← get
  if w.mem.isMapped guestAddr n then
    toHost guestAddr
  else
    throw (.outOfRange ("GuestMemory::" ++ function ++ ": [0x" ++ hex guestAddr ++ ", 0x" ++
      hex (guestAddr + n) ++ ") is not fully mapped"))

/-- Copy `n` bytes to the guest, if the host lets them be written (`World.LetsWrite`). -/
def write (guestAddr : U64) (src : ℕ → Byte) (n : U64) : Prog World Unit :=
  if n = 0 then pure ()
  else do
    let dst ← toHostRange "write" guestAddr n
    modify fun w => { w with host := w.host.memcpy dst src n }

/-- Copy `n` bytes from the guest, if the host lets them be read (`World.LetsRead`). -/
def read (guestAddr n : U64) : Prog World (List Byte) :=
  if n = 0 then pure []
  else do
    let src ← toHostRange "read" guestAddr n
    let w ← get
    pure (w.host.load src n.toNat)

/-- Zero `n` bytes of the guest, if the host lets them be written (`World.LetsWrite`). -/
def zero (guestAddr n : U64) : Prog World Unit :=
  if n = 0 then pure ()
  else do
    let dst ← toHostRange "zero" guestAddr n
    modify fun w => { w with host := w.host.memset dst 0 n }

/-- Read a little-endian word. -/
def read64 (guestAddr : U64) : Prog World U64 := do
  let bytes ← read guestAddr 8
  pure (ByteStore.leWord 64 (fun i => bytes.getD i 0) 8)

/-! ## Mapping -/

/-- The message of a range that has no host address. -/
def outsideWindow (m : GuestMemory) (start end' : U64) (name : String) : String :=
  "GuestMemory::map: guest range [0x" ++ hex start ++ ", 0x" ++ hex end' ++ ") for '" ++ name ++
    "' lies outside the reserved window [0x" ++ hex m.reservedLow ++ ", 0x" ++ hex m.reservedHigh ++
    ") — in biased mode every guest address must fall inside the single reservation"

/-- The message of a range that the host did not map. -/
def mapFailed (start end' : U64) (name : String) (insideReservation : Bool) : String :=
  "GuestMemory::map: failed to map guest range [0x" ++ hex start ++ ", 0x" ++ hex end' ++
    ") for '" ++ name ++ "'" ++
    (if insideReservation then "" else " — the host refused this address; it is already occupied")

/-- `map` on the guest pages `[start, end')`. -/
def mapPages (k : HostKernel) (start end' : U64) (guestProt : CInt) (name : String) :
    Prog World Unit := do
  let w ← get
  if w.mem.isAddressable start (end' - start) then
    let hostStart := alignDown start k.pageSize
    let hostEnd := alignUp end' k.pageSize
    let desired := hostStart + w.mem.hostOffset
    let insideReservation := decide (w.mem.reservedLow ≤ start ∧ end' ≤ w.mem.reservedHigh)
    let fixedFlag := if insideReservation then MapFlag.fixed else MapFlag.fixedNoReplace
    let got := k.mmap w.host desired (hostEnd - hostStart) (PROT_READ ||| PROT_WRITE) fixedFlag
    let region : GuestRegion := ⟨start, end' - start, guestProt, name⟩
    if got.1 = some desired then
      set { w with
        host := got.2
        mem := { w.mem with regions := w.mem.regions ++ [region] } }
    else do
      -- a mapping somewhere else is given back
      set { w with host := (got.1.map (got.2.release · (hostEnd - hostStart))).getD got.2 }
      throw (.runtimeError (mapFailed start end' name insideReservation))
  else
    throw (.runtimeError (outsideWindow w.mem start end' name))

/-- Commit zero-filled memory at the pages of `[guestAddr, guestAddr + length)`. -/
def map (k : HostKernel) (guestAddr length : U64) (guestProt : CInt) (name : String) :
    Prog World Unit :=
  if length = 0 then pure ()
  else mapPages k (guestPageAlignDown guestAddr) (guestPageAlignUp (guestAddr + length)) guestProt
    name

/-! ## Changing permissions -/

/-- Does the range of a `protect` call miss the region? -/
def misses (start end' : U64) (region : GuestRegion) : Bool :=
  decide (region.guestAddr + region.length ≤ start ∨ end' ≤ region.guestAddr)

/-- What `protect` makes of one region: the part before the range, the part inside it with the new
permission, and the part after it. -/
def splitRegion (start end' : U64) (guestProt : CInt) (name : String) (region : GuestRegion) :
    List GuestRegion :=
  let regionStart := region.guestAddr
  let regionEnd := region.guestAddr + region.length
  if misses start end' region then [region]
  else
    let bodyStart := stdMax regionStart start
    let bodyEnd := stdMin regionEnd end'
    (if regionStart < start then [{ region with length := start - regionStart }] else []) ++
      [⟨bodyStart, bodyEnd - bodyStart, guestProt, if name.isEmpty then region.name else name⟩] ++
      (if end' < regionEnd then
        [{ region with guestAddr := end', length := regionEnd - end' }] else [])

/-- Apply the host protection of a guest permission; a failure is ignored. -/
def applyHostProtection (k : HostKernel) (guestAddr length : U64) (guestProt : CInt) :
    Prog World Unit :=
  modify fun w =>
    let hostStart := alignDown guestAddr k.pageSize
    let hostEnd := alignUp (guestAddr + length) k.pageSize
    { w with host := (k.mprotect w.host (hostStart + w.mem.hostOffset) (hostEnd - hostStart)
        (hostProtFor guestProt)).2 }

/-- Change the recorded permissions of the pages of a range and keep the regions in the order of
their addresses. -/
def protect (k : HostKernel) (guestAddr length : U64) (guestProt : CInt) (name : String) :
    Prog World Unit :=
  if length = 0 then pure ()
  else do
    let start := guestPageAlignDown guestAddr
    let end' := guestPageAlignUp (guestAddr + length)
    let w ← get
    if w.mem.regions.all (misses start end') then
      throw (.outOfRange "GuestMemory::protect: range is not mapped")
    else do
      let rebuilt := w.mem.regions.flatMap (splitRegion start end' guestProt name)
      let sorted := rebuilt.insertionSort fun a b => a.guestAddr ≤ b.guestAddr
      set { w with mem := { w.mem with regions := sorted } }
      applyHostProtection k start (end' - start) guestProt

end GuestMemory

end InstaX
