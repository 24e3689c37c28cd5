import InstaX.Foundation.ByteStore
import InstaX.Foundation.Pieces

/-!
# Address spaces

An address space gives some addresses a content and a permission; the other addresses are not
mapped.  Mapping a set of addresses makes all of them fresh, a change of permissions and a change of
contents reach only what is mapped.  A memory, which has a content everywhere, shows a space if the
contents agree wherever the space is mapped.
-/

namespace AddressSpace

open ByteStore Pieces

variable {α β π : Type}

/-- The mapped addresses, each with its content and its permission. -/
abbrev Space (α β π : Type) := α → Option (β × π)

/-- Map a set of addresses, with the content `v` everywhere. -/
noncomputable def allocate (s : Set α) (v : β) (p : π) (σ : Space α β π) : Space α β π :=
  assign s (v, p) σ

/-- Change the permission of the mapped addresses of a set. -/
noncomputable def protect (s : Set α) (p : π) (σ : Space α β π) : Space α β π := by
  classical exact fun a => if a ∈ s then (σ a).map fun c => (c.1, p) else σ a

/-- Change the content of the mapped addresses of a set. -/
noncomputable def fill (s : Set α) (f : α → β) (σ : Space α β π) : Space α β π := by
  classical exact fun a => if a ∈ s then (σ a).map fun c => (f a, c.2) else σ a

/-- The permissions in force. -/
def perms (σ : Space α β π) (a : α) : Option π := (σ a).map Prod.snd

/-- The memory has the contents of the space. -/
def Shows (m : α → β) (σ : Space α β π) : Prop := ∀ a c, σ a = some c → m a = c.1

variable {s t : Set α} {v : β} {p : π} {f m m' : α → β} {σ : Space α β π} {a : α}

@[simp] lemma fill_of_mem (ha : a ∈ s) : fill s f σ a = (σ a).map fun c => (f a, c.2) := if_pos ha

@[simp] lemma fill_of_notMem (ha : a ∉ s) : fill s f σ a = σ a := if_neg ha

@[simp] lemma protect_of_mem (ha : a ∈ s) : protect s p σ a = (σ a).map fun c => (c.1, p) :=
  if_pos ha

@[simp] lemma protect_of_notMem (ha : a ∉ s) : protect s p σ a = σ a := if_neg ha

/-! ## What is mapped -/

/-- Exactly the mapped addresses have a permission. -/
@[simp] lemma perms_eq_none_iff : perms σ a = none ↔ σ a = none := Option.map_eq_none_iff

/-- A change of contents maps nothing. -/
@[simp] lemma fill_eq_none_iff : fill s f σ a = none ↔ σ a = none := by
  by_cases ha : a ∈ s
  · rw [fill_of_mem ha, Option.map_eq_none_iff]
  · rw [fill_of_notMem ha]

/-- A change of permissions maps nothing. -/
@[simp] lemma protect_eq_none_iff : protect s p σ a = none ↔ σ a = none := by
  by_cases ha : a ∈ s
  · rw [protect_of_mem ha, Option.map_eq_none_iff]
  · rw [protect_of_notMem ha]

/-- A change of contents changes no permission: what is mapped after it was mapped before. -/
lemma exists_of_fill_eq_some {c : β × π} (h : fill s f σ a = some c) :
    ∃ c', σ a = some c' ∧ c'.2 = c.2 := by
  by_cases ha : a ∈ s
  · rw [fill_of_mem ha] at h
    obtain ⟨c', hc', rfl⟩ := Option.map_eq_some_iff.mp h
    exact ⟨c', hc', rfl⟩
  · rw [fill_of_notMem ha] at h
    exact ⟨c, h, rfl⟩

lemma protect_empty : protect ∅ p σ = σ := funext fun a => protect_of_notMem (Set.notMem_empty a)

lemma allocate_empty : allocate ∅ v p σ = σ := assign_empty

/-! ## Permissions -/

/-- Mapping assigns the permission on the set. -/
lemma perms_allocate : perms (allocate s v p σ) = assign s p (perms σ) := by
  funext a
  by_cases ha : a ∈ s
  · rw [perms, allocate, assign_of_mem ha, assign_of_mem ha, Option.map_some]
  · rw [perms, allocate, assign_of_notMem ha, assign_of_notMem ha, perms]

/-- Protecting reassigns the permission on the set. -/
lemma perms_protect : perms (protect s p σ) = reassign s p (perms σ) := by
  funext a
  by_cases ha : a ∈ s
  · rw [perms, protect_of_mem ha, reassign_of_mem ha, perms, Option.map_map, Option.map_map]
    rfl
  · rw [perms, protect_of_notMem ha, reassign_of_notMem ha, perms]

/-- Filling changes no permission. -/
lemma perms_fill : perms (fill s f σ) = perms σ := by
  funext a
  by_cases ha : a ∈ s
  · rw [perms, fill_of_mem ha, Option.map_map]
    rfl
  · rw [perms, fill_of_notMem ha, perms]

/-! ## Contents -/

namespace Shows

/-- Every memory shows the empty space. -/
lemma empty (m : α → β) : Shows m (fun _ => none : Space α β π) := fun _ _ h => by cases h

/-- A memory that agrees on the mapped addresses shows the same space. -/
lemma congr (h : Shows m σ) (hm : ∀ a, σ a ≠ none → m' a = m a) : Shows m' σ := by
  intro a c hc
  rw [hm a (by rw [hc]; exact Option.some_ne_none c), h a c hc]

/-- Addresses become fresh; so may others that are not mapped. -/
lemma allocate (h : Shows m σ) (hst : s ⊆ t) (hfree : ∀ a ∈ t, σ a = none)
    (hm : Patched t (fun _ => v) m m') : Shows m' (allocate s v p σ) := by
  intro a c hc
  by_cases ha : a ∈ s
  · rw [AddressSpace.allocate, assign_of_mem ha] at hc
    cases hc
    exact hm.eqOn (hst ha)
  · rw [AddressSpace.allocate, assign_of_notMem ha] at hc
    have hnot : a ∉ t := fun hat => by cases (hfree a hat).symm.trans hc
    rw [hm.frame hnot, h a c hc]

/-- A change of permissions leaves what a memory shows. -/
lemma protect (h : Shows m σ) : Shows m (protect s p σ) := by
  intro a c hc
  by_cases ha : a ∈ s
  · rw [protect_of_mem ha] at hc
    obtain ⟨c', hc', rfl⟩ := Option.map_eq_some_iff.mp hc
    exact h a c' hc'
  · rw [protect_of_notMem ha] at hc
    exact h a c hc

/-- A memory patched on the set shows the filled space. -/
lemma fill (h : Shows m σ) (hm : Patched s f m m') : Shows m' (fill s f σ) := by
  intro a c hc
  by_cases ha : a ∈ s
  · rw [fill_of_mem ha] at hc
    obtain ⟨c', -, rfl⟩ := Option.map_eq_some_iff.mp hc
    exact hm.eqOn ha
  · rw [fill_of_notMem ha] at hc
    rw [hm.frame ha, h a c hc]

end Shows

end AddressSpace
