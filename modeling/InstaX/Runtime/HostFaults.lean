import InstaX.Runtime.MemoryCalls

/-!
# Copies that the host stops

`read`, `write` and `zero` ask the record of the guest before they copy; nothing asks the host.  A
copy that touches a host page which is not mapped, or whose protection does not include the access,
neither returns nor throws: the host kills the process.  So a call has three endings (`Ending`).

The member functions are modelled up to the copy, as if it were always carried out.  Whether the
host carries it out is decided here, by the protection of the host pages at the time: a call that
passes its own checks returns if the host allows its copy and is killed otherwise, and a call that
does not pass them throws in front of the copy (`Ending.Of`).
-/

namespace InstaX

open Throwing ByteStore

/-- How a call ends. -/
inductive Ending where
  /-- It returns. -/
  | returned
  /-- It throws. -/
  | threw
  /-- It touches a host page that does not allow it, and the host kills the process. -/
  | killed
  deriving DecidableEq, Repr

namespace Ending

/-- The ending of a call that passes its own checks or not, and whose copy the host allows or
not. -/
def Of (passes allowed : Prop) : Ending → Prop
  | returned => passes ∧ allowed
  | threw => ¬ passes
  | killed => passes ∧ ¬ allowed

variable {passes allowed passes' allowed' : Prop}

/-- A call ends in one way. -/
lemma existsUnique_of (passes allowed : Prop) : ∃! ending, Of passes allowed ending := by
  by_cases hpasses : passes
  · by_cases hallowed : allowed
    · refine ⟨returned, ⟨hpasses, hallowed⟩, fun ending h => ?_⟩
      cases ending with
      | returned => rfl
      | threw => exact absurd hpasses h
      | killed => exact absurd hallowed h.2
    · refine ⟨killed, ⟨hpasses, hallowed⟩, fun ending h => ?_⟩
      cases ending with
      | returned => exact absurd h.2 hallowed
      | threw => exact absurd hpasses h
      | killed => rfl
  · refine ⟨threw, hpasses, fun ending h => ?_⟩
    cases ending with
    | returned => exact absurd h.1 hpasses
    | threw => rfl
    | killed => exact absurd h.1 hpasses

/-- What the host allows matters only for a call that passes its checks. -/
lemma of_congr (hpasses : passes ↔ passes') (hallowed : passes → (allowed ↔ allowed'))
    (ending : Ending) : Of passes allowed ending ↔ Of passes' allowed' ending := by
  cases ending with
  | returned => exact and_congr_left' hpasses |>.trans (and_congr_right fun h =>
      hallowed (hpasses.mpr h))
  | threw => exact not_congr hpasses
  | killed => exact and_congr_left' hpasses |>.trans (and_congr_right fun h =>
      not_congr (hallowed (hpasses.mpr h)))

end Ending

/-! ## What the host allows -/

namespace World

/-- The host lets the byte behind a guest address be read. -/
def HostReadable (w : World) (x : U64) : Prop :=
  ∃ q, w.host.prot (x + w.mem.hostOffset) = some q ∧ q &&& PROT_READ ≠ 0

/-- The host lets the byte behind a guest address be written. -/
def HostWritable (w : World) (x : U64) : Prop :=
  ∃ q, w.host.prot (x + w.mem.hostOffset) = some q ∧ q &&& PROT_WRITE ≠ 0

/-- The host lets `n` bytes be copied from a guest address. -/
def LetsRead (w : World) (a n : U64) : Prop := ∀ x ∈ span a n.toNat, w.HostReadable x

/-- The host lets `n` bytes be copied to a guest address. -/
def LetsWrite (w : World) (a n : U64) : Prop := ∀ x ∈ span a n.toNat, w.HostWritable x

/-- A copy of no bytes touches no page. -/
lemma letsRead_zero (w : World) (a : U64) : w.LetsRead a 0 := by
  intro x hx
  exact absurd (mem_span.mp hx) (Nat.not_lt_zero _)

end World

/-- The host allows the copy of a call. -/
def MemoryCall.AllowedIn (w : World) : MemoryCall → Prop
  | map .. => True
  | protect .. => True
  | write guestAddr _ n => w.LetsWrite guestAddr n
  | zero guestAddr n => w.LetsWrite guestAddr n

/-- How a call ends. -/
def MemoryCall.Ends (k : HostKernel) (w : World) (c : MemoryCall) : Ending → Prop :=
  Ending.Of (Returns (c.run k) w) (c.AllowedIn w)

/-- How a read ends. -/
def GuestMemory.ReadEnds (w : World) (a n : U64) : Ending → Prop :=
  Ending.Of (Returns (GuestMemory.read a n) w) (w.LetsRead a n)

end InstaX
