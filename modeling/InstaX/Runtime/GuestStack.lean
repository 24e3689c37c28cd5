import InstaX.Runtime.ElfMapper

/-!
# The initial stack

`buildInitialStack` and `describeStack` (`src/runtime/GuestStack.cpp`).  The first pushes the
strings and the random bytes from the top of the stack down and then writes, upwards, the block of
words that a program finds at its entry; the second walks that block again.

`GuestMemory::write64` is declared without a body, so it is a parameter here, with its purpose as
`IsWrite64`.  What `describeStack` prints is kept as a record of the values it found; its two loops
without a bound have fuel.
-/

namespace InstaX

open Throwing Rounding ByteStore GuestMemory

/-- `GuestStackImage` -/
structure GuestStackImage where
  low : U64
  top : U64
  size : U64
  rsp : U64
  argvAddr : U64
  envpAddr : U64
  auxvAddr : U64
  argc : U64
  deriving DecidableEq, Repr

/-- The alignment of the stack at entry. -/
def kStackAlign : U64 := 16

/-- The number of bytes behind `AT_RANDOM`. -/
def kRandomBytes : U64 := 16

def AT_NULL : U64 := 0
def AT_PHDR : U64 := 3
def AT_PHENT : U64 := 4
def AT_PHNUM : U64 := 5
def AT_PAGESZ : U64 := 6
def AT_BASE : U64 := 7
def AT_FLAGS : U64 := 8
def AT_ENTRY : U64 := 9
def AT_UID : U64 := 11
def AT_EUID : U64 := 12
def AT_GID : U64 := 13
def AT_EGID : U64 := 14
def AT_PLATFORM : U64 := 15
def AT_HWCAP : U64 := 16
def AT_CLKTCK : U64 := 17
def AT_SECURE : U64 := 23
def AT_RANDOM : U64 := 25
def AT_HWCAP2 : U64 := 26
def AT_EXECFN : U64 := 31

namespace GuestStack

/-! ## The strings -/

/-- The string `"x86_64"`. -/
def platformName : StdString := [0x78, 0x38, 0x36, 0x5f, 0x36, 0x34]

/-- The `i`th of the bytes behind `AT_RANDOM`. -/
def randomByte (i : ℕ) : Byte := (0xa5 ^^^ BitVec.ofNat 64 (i * 31)).setWidth 8

/-- Push a string with its terminator; the new cursor is the address of the string. -/
def pushString (cursor : U64) (s : StdString) : Prog World U64 := do
  let bytes := BitVec.ofNat 64 (s.length + 1)
  write (cursor - bytes) (fun i => s.getD i 0) bytes
  pure (cursor - bytes)

/-- Push strings one below another: the last cursor and the addresses. -/
def pushStrings (cursor : U64) : List StdString → Prog World (U64 × List U64)
  | [] => pure (cursor, [])
  | s :: l => do
      let addr ← pushString cursor s
      let rest ← pushStrings addr l
      pure (rest.1, addr :: rest.2)

/-! ## The block of words -/

/-- The auxiliary vector. -/
def auxv (image : GuestElfImage) (randomAddr platformAddr execfnAddr : U64) : List (U64 × U64) :=
  [(AT_PHDR, image.phdrAddr), (AT_PHENT, image.phEntSize), (AT_PHNUM, image.phNum),
    (AT_PAGESZ, GUEST_PAGE_SIZE), (AT_BASE, 0), (AT_FLAGS, 0), (AT_ENTRY, image.entry),
    (AT_UID, 1000), (AT_EUID, 1000), (AT_GID, 1000), (AT_EGID, 1000), (AT_SECURE, 0),
    (AT_CLKTCK, 100), (AT_HWCAP, 0), (AT_HWCAP2, 0), (AT_RANDOM, randomAddr),
    (AT_PLATFORM, platformAddr), (AT_EXECFN, execfnAddr), (AT_NULL, 0)]

/-- The number of words in the block. -/
def slotCount (argc envc auxc : ℕ) : ℕ := 1 + argc + 1 + envc + 1 + auxc * 2

section Block

variable (write64 : U64 → U64 → Prog World Unit)

/-- Write words upwards from `p`; the address behind them. -/
def writeWords (p : U64) : List U64 → Prog World U64
  | [] => pure p
  | value :: l => do
      write64 p value
      writeWords (p + 8) l

/-- Write pairs of words upwards from `p`. -/
def writeAuxv (p : U64) : List (U64 × U64) → Prog World Unit
  | [] => pure ()
  | (key, value) :: l => do
      write64 p key
      write64 (p + 8) value
      writeAuxv (p + 16) l

/-- Write the block at `rsp`: the count of the arguments, the two pointer arrays with their
terminators, and the auxiliary vector.  The result is the addresses of the three arrays. -/
def writeBlock (rsp : U64) (argc : ℕ) (argAddrs envAddrs : List U64) (aux : List (U64 × U64)) :
    Prog World (U64 × U64 × U64) := do
  write64 rsp (BitVec.ofNat 64 argc)
  let argvEnd ← writeWords write64 (rsp + 8) argAddrs
  write64 argvEnd 0
  let envpEnd ← writeWords write64 (argvEnd + 8) envAddrs
  write64 envpEnd 0
  writeAuxv write64 (envpEnd + 8) aux
  pure (rsp + 8, argvEnd + 8, envpEnd + 8)

/-- Place the block below the random bytes, unless it does not fit. -/
def placeBlock (low top size randomAddr : U64) (argc envc : ℕ) (argAddrs envAddrs : List U64)
    (aux : List (U64 × U64)) : Prog World GuestStackImage :=
  let slots := slotCount argc envc aux.length
  let rsp := alignDown (randomAddr - BitVec.ofNat 64 slots * 8) kStackAlign
  if rsp < low then
    throw (.runtimeError "GuestStack: argv/envp are too large for the stack size requested")
  else do
    let addrs ← writeBlock write64 rsp argc argAddrs envAddrs aux
    pure
      { low := low
        top := top
        size := size
        rsp := rsp
        argvAddr := addrs.1
        envpAddr := addrs.2.1
        auxvAddr := addrs.2.2
        argc := BitVec.ofNat 64 argc }

/-- Map the stack and lay out what a program finds on it at entry. -/
def buildInitialStack (k : HostKernel) (image : GuestElfImage) (argv envp : List StdString)
    (stackTop stackSize : U64) : Prog World GuestStackImage := do
  let top := guestPageAlignUp stackTop
  let size := guestPageAlignUp stackSize
  let low := top - size
  map k low size (kProtRead ||| kProtWrite) "stack"
  let execfnAddr ← pushString top image.path
  let platformAddr ← pushString execfnAddr platformName
  let env ← pushStrings platformAddr envp.reverse
  let arg ← pushStrings env.1 argv.reverse
  let randomAddr := alignDown arg.1 kStackAlign - kRandomBytes
  write randomAddr randomByte kRandomBytes
  placeBlock write64 low top size randomAddr argv.length envp.length arg.2.reverse env.2.reverse
    (auxv image randomAddr platformAddr execfnAddr)

end Block

/-! ## Walking the block -/

/-- The guest string at an address, of at most `limit` bytes. -/
def readGuestString (addr : U64) : ℕ → Prog World StdString
  | 0 => pure []
  | limit + 1 => do
      let w ← get
      if w.mem.isMapped addr 1 then do
        let bytes ← read addr 1
        let c := bytes.getD 0 0
        if c = 0 then pure []
        else do
          let s ← readGuestString (addr + 1) limit
          pure (c :: s)
      else pure []

/-- The strings behind the first `n` pointers of an array. -/
def readPointers (addr : U64) : ℕ → Prog World (List (U64 × StdString))
  | 0 => pure []
  | n + 1 => do
      let ptr ← read64 addr
      let s ← readGuestString ptr 128
      let rest ← readPointers (addr + 8) n
      pure ((ptr, s) :: rest)

/-- Count the words in front of the first zero. -/
def countWords (addr : U64) : (fuel : ℕ) → (count : U64) → Prog World (Option U64)
  | 0, _ => pure none
  | fuel + 1, count => do
      let value ← read64 (addr + count * 8)
      if value ≠ 0 then countWords addr fuel (count + 1) else pure (some count)

/-- The string that is shown with an entry of the auxiliary vector. -/
def readNote (key value : U64) : Prog World (Option StdString) :=
  if key = AT_EXECFN ∨ key = AT_PLATFORM then do
    let s ← readGuestString value 128
    pure (some s)
  else pure none

/-- The entries of the auxiliary vector from the `i`th on, through `AT_NULL`. -/
def readAuxv (addr : U64) : (fuel : ℕ) → (i : U64) →
    Prog World (Option (List (U64 × U64 × Option StdString)))
  | 0, _ => pure none
  | fuel + 1, i => do
      let key ← read64 (addr + i * 16)
      let value ← read64 (addr + i * 16 + 8)
      let note ← readNote key value
      if key = AT_NULL then pure (some [(key, value, note)])
      else do
        let rest ← readAuxv addr fuel (i + 1)
        pure (rest.map ((key, value, note) :: ·))

/-- What `describeStack` finds. -/
structure StackReport where
  argc : U64
  argv : List (U64 × StdString)
  envCount : U64
  envp : List (U64 × StdString)
  auxv : List (U64 × U64 × Option StdString)

/-- Walk the block of a stack; `none` if the fuel did not last. -/
def describeStack (fuel : ℕ) (stack : GuestStackImage) : Prog World (Option StackReport) := do
  let argc ← read64 stack.rsp
  let argv ← readPointers stack.argvAddr (min argc.toNat 8)
  let envCount ← countWords stack.envpAddr fuel 0
  match envCount with
  | none => pure none
  | some envCount => do
      let envp ← readPointers stack.envpAddr (min envCount.toNat 3)
      let entries ← readAuxv stack.auxvAddr fuel 0
      pure (entries.map fun entries => ⟨argc, argv, envCount, envp, entries⟩)

end GuestStack

end InstaX
