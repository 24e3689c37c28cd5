import InstaX.Runtime.FinalPermissions
import InstaX.Runtime.LoaderWrites
import InstaX.Runtime.ProtectedRegions
import InstaX.Runtime.StackLayout

/-!
# Permissions in the record

Which permissions the regions have depends on the calls alone: a mapping records the permission that
it is given, and of a region that `protect` splits, every part has the old permission or the new
one, however the ranges overlap or wrap.  So a property of permissions that holds of all that a
program asks for (`KeepsProts`) holds at every address in the end (`protAt_satisfies`).  It is
followed here through the mapping of an image, its RELRO ranges and the initial stack.
-/

namespace InstaX

open Throwing ByteStore GuestMemory

namespace GuestMemory

variable {P : CInt → Prop} {α β : Type} {m : GuestMemory} {w w' : World}

/-- Every recorded permission satisfies `P`. -/
def ProtsSatisfy (P : CInt → Prop) (m : GuestMemory) : Prop := ∀ r ∈ m.regions, P r.prot

/-- A program that, if it returns, leaves only permissions that satisfy `P`, if it found only
such. -/
def KeepsProts (P : CInt → Prop) (x : Prog World α) : Prop :=
  ∀ w a w', x.run w = .ok a w' → ProtsSatisfy P w.mem → ProtsSatisfy P w'.mem

/-- The permission of an address is a recorded one, or none. -/
lemma protAt_satisfies (h : ProtsSatisfy P m) (hnone : P kProtNone) (x : U64) : P (m.protAt x) := by
  unfold protAt
  cases hfind : m.findRegion x with
  | none => exact hnone
  | some r => exact h r (List.mem_of_find?_eq_some hfind)

/-! ## Programs -/

/-- A program that leaves the record alone. -/
lemma keepsProts_of_mem_eq {x : Prog World α}
    (h : ∀ w a w', x.run w = .ok a w' → w'.mem = w.mem) : KeepsProts P x := by
  intro w a w' hrun hstart
  rwa [h w a w' hrun]

/-- A program that does nothing. -/
lemma keepsProts_pure (a : α) : KeepsProts P (pure a : Prog World α) :=
  keepsProts_of_mem_eq fun w _ w' hrun => by
    obtain ⟨-, rfl⟩ := EStateM.Result.ok.inj hrun
    rfl

/-- A program that throws has nothing to keep. -/
lemma keepsProts_throw (e : Exn) : KeepsProts P (throw e : Prog World α) := by
  intro w a w' hrun
  cases hrun

/-- A sequence. -/
lemma KeepsProts.bind {x : Prog World α} {f : α → Prog World β} (hx : KeepsProts P x)
    (hf : ∀ a, KeepsProts P (f a)) : KeepsProts P (x >>= f) := by
  intro w b w' hrun hstart
  obtain ⟨a, w₁, hfirst, hrest⟩ := run_bind_eq_ok_iff.mp hrun
  exact hf a w₁ b w' hrest (hx w a w₁ hfirst hstart)

/-- A loop. -/
lemma keepsProts_forM {f : α → Prog World PUnit} {l : List α} (h : ∀ a ∈ l, KeepsProts P (f a)) :
    KeepsProts P (forM l f) := by
  intro w _ w' hrun hstart
  exact run_forM_induction (fun a ha s t hs hstep => h a ha s _ t hstep hs) hstart hrun

/-! ## The member functions -/

/-- A mapping records the permission that it is given. -/
lemma keepsProts_map {k : HostKernel} {a n : U64} {guestProt : CInt} {name : String}
    (hprot : P guestProt) : KeepsProts P (map k a n guestProt name) := by
  intro w _ w' hrun hstart
  obtain ⟨-, rfl⟩ | ⟨-, hmaps⟩ := mapsPages_of_run_map hrun
  · exact hstart
  · rw [hmaps.mem]
    intro r hr
    rcases List.mem_append.mp hr with hr | hr
    · exact hstart r hr
    · obtain rfl := List.mem_singleton.mp hr
      exact hprot

/-- A part of a region has the permission of the region or the new one. -/
lemma prot_of_mem_splitRegion {start end' : U64} {guestProt : CInt} {name : String}
    {r t : GuestRegion} (ht : t ∈ splitRegion start end' guestProt name r) :
    t.prot = r.prot ∨ t.prot = guestProt := by
  by_cases hmisses : misses start end' r = true
  · rw [splitRegion, if_pos hmisses, List.mem_singleton] at ht
    exact Or.inl (congrArg GuestRegion.prot ht)
  · rw [splitRegion_of_meets hmisses, List.mem_append, List.mem_append, List.mem_singleton] at ht
    rcases ht with (hbefore | rfl) | hafter
    · split_ifs at hbefore with hlt
      · obtain rfl := List.mem_singleton.mp hbefore
        exact Or.inl rfl
      · cases hbefore
    · exact Or.inr rfl
    · split_ifs at hafter with hlt
      · obtain rfl := List.mem_singleton.mp hafter
        exact Or.inl rfl
      · cases hafter

/-- A change of permissions records the permission that it is given. -/
lemma keepsProts_protect {k : HostKernel} {a n : U64} {guestProt : CInt} {name : String}
    (hprot : P guestProt) : KeepsProts P (protect k a n guestProt name) := by
  intro w _ w' hrun hstart
  obtain ⟨-, rfl⟩ | ⟨-, -, rfl⟩ := withProtection_of_run_protect hrun
  · exact hstart
  · intro t ht
    obtain ⟨r, hr, htr⟩ := mem_regions_withProtection.mp ht
    rcases prot_of_mem_splitRegion htr with heq | heq
    · rw [heq]
      exact hstart r hr
    · rwa [heq]

/-- A write records nothing. -/
lemma keepsProts_write (a : U64) (src : ℕ → Byte) (n : U64) : KeepsProts P (write a src n) :=
  keepsProts_of_mem_eq fun _ _ _ hrun => (patched_of_run_write hrun).1

end GuestMemory

namespace ElfMapper

variable {P : CInt → Prop} {k : HostKernel} {file : ElfFile} {loadBias : U64}

/-- The mapping of an image records reading and writing, and the permissions of its segments. -/
lemma keepsProts_mapImage (hrw : P (kProtRead ||| kProtWrite))
    (hsegments : ∀ ph ∈ file.phdrs, ph.isLoad → P (protFromPhdrFlags ph.p_flags)) :
    KeepsProts P (mapImage k file loadBias) := by
  intro w image w' hrun hstart
  obtain ⟨bounds, w₁, w₂, hstages⟩ := stages_of_run_mapImage hrun
  have hcopied : ProtsSatisfy P w₂.mem := by
    rw [(frame_of_run_copySegments hstages.copy).1]
    exact keepsProts_map hrw w _ w₁ hstages.map hstart
  refine keepsProts_forM (fun ph hph => ?_) w₂ _ w' hstages.protect hcopied
  unfold protectSegment
  by_cases hskip : ph.p_type ≠ PT_LOAD ∨ ph.p_memsz = 0
  · rw [if_pos hskip]
    exact keepsProts_pure _
  · rw [if_neg hskip]
    rw [not_or, not_not] at hskip
    exact keepsProts_protect (hsegments ph hph (beq_iff_eq.mpr hskip.1))

/-- The RELRO ranges become read-only. -/
lemma keepsProts_applyRelro {image : GuestElfImage} (hread : P kProtRead) :
    KeepsProts P (applyRelro k file image) := by
  refine keepsProts_forM fun ph _ => ?_
  unfold protectRelro
  split_ifs
  · exact keepsProts_pure _
  · exact keepsProts_protect hread

end ElfMapper

namespace GuestStack

variable {P : CInt → Prop} {write64 : U64 → U64 → Prog World Unit}

/-- Pushing a string records nothing. -/
lemma keepsProts_pushString (cursor : U64) (s : StdString) : KeepsProts P (pushString cursor s) :=
  (keepsProts_write _ _ _).bind fun _ => keepsProts_pure _

/-- Pushing strings records nothing. -/
lemma keepsProts_pushStrings (l : List StdString) (cursor : U64) :
    KeepsProts P (pushStrings cursor l) := by
  induction l generalizing cursor with
  | nil => exact keepsProts_pure _
  | cons s l ih =>
    exact (keepsProts_pushString _ _).bind fun _ => (ih _).bind fun _ => keepsProts_pure _

section Block

variable (hw : IsWrite64 write64)

include hw

/-- A write of a word records nothing. -/
lemma keepsProts_write64 (a v : U64) : KeepsProts P (write64 a v) :=
  keepsProts_of_mem_eq fun _ _ _ hrun => hw.mem hrun

/-- A row of words records nothing. -/
lemma keepsProts_writeWords (l : List U64) (p : U64) : KeepsProts P (writeWords write64 p l) := by
  induction l generalizing p with
  | nil => exact keepsProts_pure _
  | cons v l ih => exact (keepsProts_write64 hw _ _).bind fun _ => ih _

/-- The auxiliary vector records nothing. -/
lemma keepsProts_writeAuxv (aux : List (U64 × U64)) (p : U64) :
    KeepsProts P (writeAuxv write64 p aux) := by
  induction aux generalizing p with
  | nil => exact keepsProts_pure _
  | cons e aux ih =>
    exact (keepsProts_write64 hw _ _).bind fun _ => (keepsProts_write64 hw _ _).bind fun _ => ih _

/-- The stack is recorded with reading and writing. -/
lemma keepsProts_buildInitialStack {k : HostKernel} {image : GuestElfImage}
    {argv envp : List StdString} {stackTop stackSize : U64} (hrw : P (kProtRead ||| kProtWrite)) :
    KeepsProts P (buildInitialStack write64 k image argv envp stackTop stackSize) := by
  refine (keepsProts_map hrw).bind fun _ => ?_
  refine (keepsProts_pushString _ _).bind fun _ => (keepsProts_pushString _ _).bind fun _ => ?_
  refine (keepsProts_pushStrings _ _).bind fun _ => (keepsProts_pushStrings _ _).bind fun _ => ?_
  refine (keepsProts_write _ _ _).bind fun _ => ?_
  unfold placeBlock
  dsimp only
  split_ifs
  · exact keepsProts_throw _
  · refine KeepsProts.bind ?_ fun _ => keepsProts_pure _
    -- the block: three single words, two arrays and the vector
    refine (keepsProts_write64 hw _ _).bind fun _ => (keepsProts_writeWords hw _ _).bind fun _ => ?_
    refine (keepsProts_write64 hw _ _).bind fun _ => (keepsProts_writeWords hw _ _).bind fun _ => ?_
    refine (keepsProts_write64 hw _ _).bind fun _ => (keepsProts_writeAuxv hw _ _).bind fun _ => ?_
    exact keepsProts_pure _

end Block

end GuestStack

end InstaX
