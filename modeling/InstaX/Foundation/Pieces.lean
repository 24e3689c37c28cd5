import Mathlib.Data.Set.Lattice
import Mathlib.Order.CompletePartialOrder

/-!
# Partial functions in pieces

A list of pieces, each with a domain and a value, stands for a partial function if the domains do
not overlap: every element of a piece goes to the value of that piece (`Represents`).  The order of
the list then does not matter, and the first piece that contains an element is the only one
(`Represents.eq_find?`).

Two updates of a partial function are considered.  `assign` gives a value to a set, and its
counterpart adds a piece on a set that was free.  `reassign` changes the values on a set where there
are any, and its counterpart splits every piece along that set; `reassignAll` does so on one set
after another.
-/

namespace Pieces

variable {ι α β : Type}

/-- The partial function `f` with value `v` on `s`. -/
noncomputable def assign (s : Set α) (v : β) (f : α → Option β) : α → Option β := by
  classical exact fun a => if a ∈ s then some v else f a

/-- The partial function `f` with value `v` where it is defined on `s`. -/
noncomputable def reassign (s : Set α) (v : β) (f : α → Option β) : α → Option β := by
  classical exact fun a => if a ∈ s then (f a).map fun _ => v else f a

section Updates

variable {s : Set α} {v : β} {f : α → Option β} {a : α}

@[simp] lemma assign_of_mem (ha : a ∈ s) : assign s v f a = some v := if_pos ha

@[simp] lemma assign_of_notMem (ha : a ∉ s) : assign s v f a = f a := if_neg ha

@[simp] lemma reassign_of_mem (ha : a ∈ s) : reassign s v f a = (f a).map fun _ => v := if_pos ha

@[simp] lemma reassign_of_notMem (ha : a ∉ s) : reassign s v f a = f a := if_neg ha

lemma assign_empty : assign ∅ v f = f := funext fun a => assign_of_notMem (Set.notMem_empty a)

lemma reassign_empty : reassign ∅ v f = f := funext fun a => reassign_of_notMem (Set.notMem_empty a)

/-- Where nothing had a value, exactly the elements of the set have one. -/
lemma assign_none_eq_none_iff : assign s v (fun _ => none) a = none ↔ a ∉ s := by
  by_cases ha : a ∈ s
  · rw [assign_of_mem ha]
    exact iff_of_false (Option.some_ne_none v) (not_not.mpr ha)
  · rw [assign_of_notMem ha]
    exact iff_of_true rfl ha

/-- Reassign the values on one set after another. -/
noncomputable def reassignAll (l : List (Set α × β)) (f : α → Option β) : α → Option β :=
  l.foldl (fun f p => reassign p.1 p.2 f) f

@[simp] lemma reassignAll_nil : reassignAll [] f = f := rfl

/-- The first set is reassigned first. -/
@[simp] lemma reassignAll_cons {p : Set α × β} {l : List (Set α × β)} :
    reassignAll (p :: l) f = reassignAll l (reassign p.1 p.2 f) := rfl

/-- An element of none of the sets keeps its value. -/
lemma reassignAll_of_forall_notMem {l : List (Set α × β)} (h : ∀ p ∈ l, a ∉ p.1) :
    reassignAll l f a = f a := by
  induction l generalizing f with
  | nil => rfl
  | cons p l ih =>
    rw [reassignAll_cons, ih fun q hq => h q (List.mem_cons_of_mem p hq)]
    exact reassign_of_notMem (h p List.mem_cons_self)

/-- An element whose sets all come with one value has that value, if it had one. -/
lemma reassignAll_of_mem {l : List (Set α × β)} (hval : ∀ p ∈ l, a ∈ p.1 → p.2 = v)
    (hmem : ∃ p ∈ l, a ∈ p.1) : reassignAll l f a = (f a).map fun _ => v := by
  induction l generalizing f with
  | nil =>
    obtain ⟨p, hp, -⟩ := hmem
    exact absurd hp List.not_mem_nil
  | cons p l ih =>
    have htail : ∀ q ∈ l, a ∈ q.1 → q.2 = v := fun q hq => hval q (List.mem_cons_of_mem p hq)
    rw [reassignAll_cons]
    by_cases hlater : ∃ q ∈ l, a ∈ q.1
    · rw [ih htail hlater]
      by_cases ha : a ∈ p.1
      · rw [reassign_of_mem ha, Option.map_map]
        rfl
      · rw [reassign_of_notMem ha]
    · -- the first set is the only one
      obtain ⟨q, hq, haq⟩ := hmem
      obtain rfl : q = p := (List.mem_cons.mp hq).resolve_right fun hql => hlater ⟨q, hql, haq⟩
      rw [reassignAll_of_forall_notMem fun r hr har => hlater ⟨r, hr, har⟩, reassign_of_mem haq,
        hval q List.mem_cons_self haq]

/-- Nothing is given a value that had none. -/
lemma reassignAll_eq_none_iff {l : List (Set α × β)} : reassignAll l f a = none ↔ f a = none := by
  induction l generalizing f with
  | nil => rfl
  | cons p l ih =>
    rw [reassignAll_cons, ih]
    by_cases ha : a ∈ p.1
    · rw [reassign_of_mem ha, Option.map_eq_none_iff]
    · rw [reassign_of_notMem ha]

end Updates

/-! ## Lists of pieces -/

/-- The pieces of the list do not overlap, and `f` sends the elements of each to its value. -/
structure Represents (dom : ι → Set α) (val : ι → β) (l : List ι) (f : α → Option β) : Prop where
  disjoint : l.Pairwise fun i j => Disjoint (dom i) (dom j)
  eq_some_iff : ∀ a b, f a = some b ↔ ∃ i ∈ l, a ∈ dom i ∧ val i = b

/-- What the parts of one piece have to be, when the values on `s` become `v`: parts of the piece
that do not overlap, with the new value inside `s` and the old one outside. -/
structure Splits (dom : ι → Set α) (val : ι → β) (s : Set α) (v : β) (i : ι) (parts : List ι) :
    Prop where
  disjoint : parts.Pairwise fun j k => Disjoint (dom j) (dom k)
  /-- Every part lies in the piece, on one side of `s`, with the value of that side. -/
  sound : ∀ j ∈ parts, dom j ⊆ dom i ∧
    (dom j ⊆ s ∧ val j = v ∨ Disjoint (dom j) s ∧ val j = val i)
  /-- No element of the piece is lost. -/
  complete : ∀ a ∈ dom i, ∃ j ∈ parts, a ∈ dom j

namespace Represents

variable {dom : ι → Set α} {val : ι → β} {l l' : List ι} {f g : α → Option β} {s : Set α} {v : β}

/-- No piece represents the function without values. -/
lemma nil : Represents dom val [] fun _ => none :=
  ⟨List.Pairwise.nil, by simp⟩

/-- An element of a piece goes to the value of the piece. -/
lemma eq_some (h : Represents dom val l f) {i : ι} (hi : i ∈ l) {a : α} (ha : a ∈ dom i) :
    f a = some (val i) :=
  (h.eq_some_iff a (val i)).mpr ⟨i, hi, ha, rfl⟩

/-- The function is undefined outside the pieces. -/
lemma eq_none_iff (h : Represents dom val l f) {a : α} : f a = none ↔ ∀ i ∈ l, a ∉ dom i := by
  constructor
  · intro hnone i hi ha
    rw [h.eq_some hi ha] at hnone
    cases hnone
  · intro hout
    cases hfa : f a with
    | none => rfl
    | some b =>
      obtain ⟨i, hi, ha, -⟩ := (h.eq_some_iff a b).mp hfa
      exact absurd ha (hout i hi)

/-- The order of the pieces does not matter. -/
lemma perm (h : Represents dom val l f) (hl : l.Perm l') : Represents dom val l' f := by
  refine ⟨(hl.pairwise_iff fun hij => hij.symm).mp h.disjoint, fun a b => ?_⟩
  rw [h.eq_some_iff]
  exact exists_congr fun i => and_congr_left' hl.mem_iff

/-- The first piece with a given element gives the value there. -/
lemma eq_find? (h : Represents dom val l f) {a : α} {p : ι → Bool}
    (hp : ∀ i ∈ l, p i = true ↔ a ∈ dom i) : f a = (l.find? p).map val := by
  cases hfind : l.find? p with
  | none =>
    rw [List.find?_eq_none] at hfind
    exact h.eq_none_iff.mpr fun i hi ha => hfind i hi ((hp i hi).mpr ha)
  | some i =>
    have hi := List.mem_of_find?_eq_some hfind
    exact h.eq_some hi ((hp i hi).mp (List.find?_some hfind))

/-- A piece on a free set assigns its value there. -/
lemma append_singleton (h : Represents dom val l f) {i : ι} (hfree : ∀ a ∈ dom i, f a = none) :
    Represents dom val (l ++ [i]) (assign (dom i) (val i) f) := by
  constructor
  · rw [List.pairwise_append]
    refine ⟨h.disjoint, List.pairwise_singleton _ _, fun j hj k hk => ?_⟩
    obtain rfl := List.mem_singleton.mp hk
    rw [Set.disjoint_right]
    exact fun a ha => h.eq_none_iff.mp (hfree a ha) j hj
  · intro a b
    by_cases ha : a ∈ dom i
    · rw [assign_of_mem ha]
      have hout := h.eq_none_iff.mp (hfree a ha)
      constructor
      · intro hb
        exact ⟨i, by simp, ha, Option.some.inj hb⟩
      · rintro ⟨j, hj, haj, rfl⟩
        rcases List.mem_append.mp hj with hj | hj
        · exact absurd haj (hout j hj)
        · rw [List.mem_singleton.mp hj]
    · rw [assign_of_notMem ha, h.eq_some_iff]
      constructor
      · rintro ⟨j, hj, haj⟩
        exact ⟨j, List.mem_append_left _ hj, haj⟩
      · rintro ⟨j, hj, haj, hb⟩
        rcases List.mem_append.mp hj with hj | hj
        · exact ⟨j, hj, haj, hb⟩
        · rw [List.mem_singleton.mp hj] at haj
          exact absurd haj ha

/-- Splitting every piece along `s` reassigns the values there. -/
lemma flatMap (h : Represents dom val l f) {parts : ι → List ι}
    (hparts : ∀ i ∈ l, Splits dom val s v i (parts i)) :
    Represents dom val (l.flatMap parts) (reassign s v f) := by
  constructor
  · rw [List.pairwise_flatMap]
    refine ⟨fun i hi => (hparts i hi).disjoint, ?_⟩
    refine h.disjoint.imp_of_mem fun {i j} hi hj hij p hp q hq => ?_
    exact hij.mono ((hparts i hi).sound p hp).1 ((hparts j hj).sound q hq).1
  · -- the value of a part, seen from an element of it
    have hvalue : ∀ i ∈ l, ∀ j ∈ parts i, ∀ a ∈ dom j, reassign s v f a = some (val j) := by
      intro i hi j hj a ha
      obtain ⟨hsub, hside⟩ := (hparts i hi).sound j hj
      have hfa := h.eq_some hi (hsub ha)
      rcases hside with ⟨hs, hval⟩ | ⟨hs, hval⟩
      · rw [reassign_of_mem (hs ha), hfa, hval, Option.map_some]
      · rw [reassign_of_notMem (Set.disjoint_left.mp hs ha), hfa, hval]
    intro a b
    constructor
    · intro hb
      have hdefined : f a ≠ none := by
        intro hnone
        by_cases ha : a ∈ s
        · rw [reassign_of_mem ha, hnone] at hb
          cases hb
        · rw [reassign_of_notMem ha, hnone] at hb
          cases hb
      obtain ⟨c, hc⟩ := Option.ne_none_iff_exists'.mp hdefined
      obtain ⟨i, hi, hai, -⟩ := (h.eq_some_iff a c).mp hc
      obtain ⟨j, hj, haj⟩ := (hparts i hi).complete a hai
      refine ⟨j, List.mem_flatMap.mpr ⟨i, hi, hj⟩, haj, ?_⟩
      exact Option.some.inj ((hvalue i hi j hj a haj).symm.trans hb)
    · rintro ⟨j, hj, haj, rfl⟩
      obtain ⟨i, hi, hji⟩ := List.mem_flatMap.mp hj
      exact hvalue i hi j hji a haj

end Represents

end Pieces
