import Mathlib.Data.BitVec
import Mathlib.Data.Set.Lattice
import Mathlib.Order.CompletePartialOrder

/-!
# Stores of bytes

A store is a function on fixed-width addresses, and the addresses of an access form a cyclic
interval (`span`).  Copying `n` values to an address changes the store on the span of the access and
nowhere else.  A program that fills a store writes one patch after another (`Patches`); if the
patches do not overlap, each of them is in the final store as it was written.  The last section
reads bytes as little-endian words and back.
-/

namespace ByteStore

variable {w : ℕ} {β : Type}

/-! ## Spans -/

/-- The `n` addresses from `a` on, modulo the size of the address space. -/
def span (a : BitVec w) (n : ℕ) : Set (BitVec w) := {x | (x - a).toNat < n}

lemma mem_span {a x : BitVec w} {n : ℕ} : x ∈ span a n ↔ (x - a).toNat < n := Iff.rfl

/-- Moving an address and a span by the same offset. -/
@[simp] lemma add_mem_span_add {a x : BitVec w} {n : ℕ} (c : BitVec w) :
    x + c ∈ span (a + c) n ↔ x ∈ span a n := by
  rw [mem_span, mem_span, add_sub_add_right_eq_sub]

/-- A span that does not wrap is an interval. -/
lemma mem_span_iff {a x : BitVec w} {n : ℕ} (h : a.toNat + n ≤ 2 ^ w) :
    x ∈ span a n ↔ a.toNat ≤ x.toNat ∧ x.toNat < a.toNat + n := by
  have ha : a.toNat < 2 ^ w := a.isLt
  have hx : x.toNat < 2 ^ w := x.isLt
  rw [mem_span, BitVec.toNat_sub]
  by_cases hle : a.toNat ≤ x.toNat
  · rw [Nat.mod_eq_sub_mod (by omega), Nat.mod_eq_of_lt (by omega)]
    omega
  · rw [Nat.mod_eq_of_lt (by omega)]
    omega

/-- The `i`th address of a span that does not wrap. -/
lemma toNat_add_ofNat {a : BitVec w} {i : ℕ} (h : a.toNat + i < 2 ^ w) :
    (a + BitVec.ofNat w i).toNat = a.toNat + i := by
  rw [BitVec.toNat_add, BitVec.toNat_ofNat, Nat.add_mod_mod, Nat.mod_eq_of_lt h]

/-- The distance of the `i`th address of a span from its start. -/
lemma toNat_add_ofNat_sub {a : BitVec w} {i : ℕ} (hi : i < 2 ^ w) :
    (a + BitVec.ofNat w i - a).toNat = i := by
  rw [add_sub_cancel_left, BitVec.toNat_ofNat, Nat.mod_eq_of_lt hi]

/-- The addresses of a span, counted from its start. -/
lemma mem_span_iff_exists {a x : BitVec w} {n : ℕ} (h : n ≤ 2 ^ w) :
    x ∈ span a n ↔ ∃ i < n, x = a + BitVec.ofNat w i := by
  constructor
  · intro hx
    refine ⟨(x - a).toNat, hx, ?_⟩
    rw [BitVec.ofNat_toNat, BitVec.setWidth_eq, add_sub_cancel]
  · rintro ⟨i, hi, rfl⟩
    rw [mem_span, toNat_add_ofNat_sub (by omega)]
    exact hi

@[simp] lemma span_zero (a : BitVec w) : span a 0 = ∅ := by
  ext x
  simp [mem_span]

/-- The part of a span behind its first `p` addresses. -/
lemma mem_span_add_ofNat {a x : BitVec w} {p q : ℕ} (h : p + q ≤ 2 ^ w) :
    x ∈ span (a + BitVec.ofNat w p) q ↔ p ≤ (x - a).toNat ∧ (x - a).toNat < p + q := by
  have hx : (x - a).toNat < 2 ^ w := (x - a).isLt
  rw [mem_span, ← sub_sub, BitVec.toNat_sub, BitVec.toNat_ofNat]
  by_cases hp : p < 2 ^ w
  · rw [Nat.mod_eq_of_lt hp]
    by_cases hle : p ≤ (x - a).toNat
    · rw [Nat.mod_eq_sub_mod (by omega), Nat.mod_eq_of_lt (by omega)]
      omega
    · rw [Nat.mod_eq_of_lt (by omega)]
      omega
  · omega

/-- The addresses from `a` on and below `b`. -/
def interval (a b : BitVec w) : Set (BitVec w) := {x | a.toNat ≤ x.toNat ∧ x.toNat < b.toNat}

lemma mem_interval {a b x : BitVec w} :
    x ∈ interval a b ↔ a.toNat ≤ x.toNat ∧ x.toNat < b.toNat := Iff.rfl

/-- The span between two addresses in order. -/
lemma span_sub {a b : BitVec w} (h : a.toNat ≤ b.toNat) :
    span a (b - a).toNat = interval a b := by
  ext x
  rw [BitVec.toNat_sub_of_le (BitVec.le_def.mpr h), mem_span_iff (by omega), mem_interval]
  omega

/-- The span from an address around the end of the address space to a lower one. -/
lemma mem_span_sub_of_lt {a b x : BitVec w} (h : b.toNat < a.toNat) :
    x ∈ span a (b - a).toNat ↔ a.toNat ≤ x.toNat ∨ x.toNat < b.toNat := by
  have ha : a.toNat < 2 ^ w := a.isLt
  have hx : x.toNat < 2 ^ w := x.isLt
  have hlength : (b - a).toNat = 2 ^ w - a.toNat + b.toNat := by
    rw [BitVec.toNat_sub, Nat.mod_eq_of_lt (by omega)]
  rw [mem_span, hlength]
  rcases Nat.lt_or_ge x.toNat a.toNat with hlt | hge
  · rw [BitVec.toNat_sub, Nat.mod_eq_of_lt (by omega)]
    omega
  · rw [BitVec.toNat_sub_of_le (BitVec.le_def.mpr hge)]
    omega

/-! ## Copying into a store -/

/-- Copy `n` values to the addresses from `a` on. -/
def store (f : BitVec w → β) (a : BitVec w) (n : ℕ) (src : ℕ → β) : BitVec w → β :=
  fun x => if (x - a).toNat < n then src (x - a).toNat else f x

/-- A copy leaves the other addresses alone. -/
lemma store_of_notMem {f : BitVec w → β} {a x : BitVec w} {n : ℕ} {src : ℕ → β}
    (h : x ∉ span a n) : store f a n src x = f x := if_neg h

/-- A copy puts its values at the addresses of its span. -/
lemma store_of_mem {f : BitVec w → β} {a x : BitVec w} {n : ℕ} {src : ℕ → β}
    (h : x ∈ span a n) : store f a n src x = src (x - a).toNat := if_pos h

/-! ## Patches -/

section Patches

variable {α : Type}

/-- The store `m'` is `m` with the values of `f` on `S`. -/
structure Patched (S : Set α) (f m m' : α → β) : Prop where
  eqOn : Set.EqOn m' f S
  frame : Set.EqOn m' m Sᶜ

/-- A store after a sequence of patches. -/
inductive Patches : List (Set α × (α → β)) → (α → β) → (α → β) → Prop where
  | nil (m : α → β) : Patches [] m m
  | cons {S : Set α} {f m m₁ m' : α → β} {l : List (Set α × (α → β))} :
      Patched S f m m₁ → Patches l m₁ m' → Patches ((S, f) :: l) m m'

/-- Copying values is a patch. -/
lemma patched_store (f : BitVec w → β) (a : BitVec w) (n : ℕ) (src : ℕ → β) :
    Patched (span a n) (fun x => src (x - a).toNat) f (store f a n src) :=
  ⟨fun _ hx => store_of_mem hx, fun _ hx => store_of_notMem hx⟩

/-- Values that agree on the patched set give the same patch. -/
lemma Patched.congr {S : Set α} {f g m m' : α → β} (h : Patched S f m m') (hfg : Set.EqOn f g S) :
    Patched S g m m' :=
  ⟨h.eqOn.trans hfg, h.frame⟩

/-- Nothing is patched on the empty set. -/
lemma patched_empty (f m : α → β) : Patched ∅ f m m :=
  ⟨Set.eqOn_empty _ _, Set.eqOn_refl _ _⟩

/-- Adjacent patches are one patch. -/
lemma Patched.append_span {a : BitVec w} {p q : ℕ} (hpq : p + q ≤ 2 ^ w)
    {f g m m₁ m' : BitVec w → β} (h₁ : Patched (span a p) f m m₁)
    (h₂ : Patched (span (a + BitVec.ofNat w p) q) g m₁ m') :
    Patched (span a (p + q)) (fun x => if (x - a).toNat < p then f x else g x) m m' := by
  constructor
  · intro x hx
    rw [mem_span] at hx
    dsimp only
    split_ifs with hp
    · rw [h₂.frame fun hx' => absurd ((mem_span_add_ofNat hpq).mp hx').1 (by omega)]
      exact h₁.eqOn hp
    · exact h₂.eqOn ((mem_span_add_ofNat hpq).mpr ⟨by omega, hx⟩)
  · intro x hx
    rw [Set.mem_compl_iff, mem_span] at hx
    rw [h₂.frame fun hx' => absurd ((mem_span_add_ofNat hpq).mp hx').2 hx,
      h₁.frame fun hx' => hx (lt_of_lt_of_le hx' (by omega))]

/-- One patch. -/
lemma Patched.patches {S : Set α} {f m m' : α → β} (h : Patched S f m m') :
    Patches [(S, f)] m m' :=
  .cons h (.nil m')

/-- Two sequences of patches. -/
lemma Patches.append {l₁ l₂ : List (Set α × (α → β))} {m m₁ m' : α → β} (h₁ : Patches l₁ m m₁)
    (h₂ : Patches l₂ m₁ m') : Patches (l₁ ++ l₂) m m' := by
  induction h₁ with
  | nil m => exact h₂
  | cons hp _ ih => exact .cons hp (ih h₂)

/-- Outside the patches the store is the old one. -/
lemma Patches.eq_of_forall_notMem {l : List (Set α × (α → β))} {m m' : α → β}
    (h : Patches l m m') {x : α} (hx : ∀ p ∈ l, x ∉ p.1) : m' x = m x := by
  induction h with
  | nil m => rfl
  | cons hp _ ih =>
    rw [ih fun p hp' => hx p (List.mem_cons_of_mem _ hp'), hp.frame (hx _ List.mem_cons_self)]

/-- Patches that do not overlap are all in the final store. -/
theorem Patches.eqOn_of_mem {l : List (Set α × (α → β))} {m m' : α → β} (h : Patches l m m')
    (hd : l.Pairwise fun p q => Disjoint p.1 q.1) {p : Set α × (α → β)} (hp : p ∈ l) :
    Set.EqOn m' p.2 p.1 := by
  induction h with
  | nil m => cases hp
  | cons hpatch htail ih =>
    obtain ⟨hfirst, hrest⟩ := List.pairwise_cons.mp hd
    rcases List.mem_cons.mp hp with rfl | hp
    · -- the later patches miss the first one
      intro x hx
      rw [htail.eq_of_forall_notMem fun q hq => Set.disjoint_left.mp (hfirst q hq) hx]
      exact hpatch.eqOn hx
    · exact ih hrest hp

/-- Patches have the same value wherever two of them overlap. -/
def Agree (l : List (Set α × (α → β))) : Prop :=
  ∀ p ∈ l, ∀ q ∈ l, ∀ x ∈ p.1, x ∈ q.1 → p.2 x = q.2 x

/-- Patches that agree where they overlap are all in the final store. -/
theorem Patches.eq_of_agree {l : List (Set α × (α → β))} {m m' : α → β} (h : Patches l m m')
    (hagree : Agree l) {p : Set α × (α → β)} (hp : p ∈ l) {x : α} (hx : x ∈ p.1) :
    m' x = p.2 x := by
  induction h generalizing p with
  | nil m => cases hp
  | @cons S f m m₁ m' l hpatch htail ih =>
    have hrest : Agree l := fun q hq r hr =>
      hagree q (List.mem_cons_of_mem _ hq) r (List.mem_cons_of_mem _ hr)
    by_cases hlater : ∃ q ∈ l, x ∈ q.1
    · -- the last patch to write `x` decides, and it agrees with `p`
      obtain ⟨q, hq, hxq⟩ := hlater
      rw [ih hrest hq hxq]
      exact (hagree p hp q (List.mem_cons_of_mem _ hq) x hx hxq).symm
    · rcases List.mem_cons.mp hp with rfl | hp
      · rw [htail.eq_of_forall_notMem fun q hq hxq => hlater ⟨q, hq, hxq⟩]
        exact hpatch.eqOn hx
      · exact absurd ⟨p, hp, hx⟩ hlater

/-- The same patches, in any order and number, leave the same values. -/
theorem Patches.eq_of_mem_iff {l l₂ : List (Set α × (α → β))} {m m' m₂ m₂' : α → β}
    (h : Patches l m m') (h₂ : Patches l₂ m₂ m₂') (hagree : Agree l)
    (hmem : ∀ p, p ∈ l ↔ p ∈ l₂) {x : α} (hx : m x = m₂ x) : m' x = m₂' x := by
  have hagree₂ : Agree l₂ := fun p hp q hq =>
    hagree p ((hmem p).mpr hp) q ((hmem q).mpr hq)
  by_cases hin : ∃ p ∈ l, x ∈ p.1
  · obtain ⟨p, hp, hxp⟩ := hin
    rw [h.eq_of_agree hagree hp hxp, h₂.eq_of_agree hagree₂ ((hmem p).mp hp) hxp]
  · rw [h.eq_of_forall_notMem fun p hp hxp => hin ⟨p, hp, hxp⟩,
      h₂.eq_of_forall_notMem fun p hp hxp => hin ⟨p, (hmem p).mpr hp, hxp⟩, hx]
end Patches

/-! ## Objects -/

section Objects

/-- A store holds the bytes of an object at its address. -/
def Holds (m : BitVec w → BitVec 8) (o : BitVec w × List (BitVec 8)) : Prop :=
  ∀ i (hi : i < o.2.length), m (o.1 + BitVec.ofNat w i) = o.2[i]

/-- The patch that writes an object. -/
def objectPatch (o : BitVec w × List (BitVec 8)) : Set (BitVec w) × (BitVec w → BitVec 8) :=
  (span o.1 o.2.length, fun x => o.2.getD (x - o.1).toNat 0)

/-- Objects that lie one below another between `top` and `bottom`, without wrapping. -/
def Descending : ℕ → List (BitVec w × List (BitVec 8)) → ℕ → Prop
  | top, [], bottom => bottom ≤ top
  | top, o :: l, bottom => o.1.toNat + o.2.length ≤ top ∧ Descending o.1.toNat l bottom

variable {l l' : List (BitVec w × List (BitVec 8))} {top mid bottom : ℕ}

/-- What descends from `top` to `bottom` does not rise. -/
lemma Descending.le (h : Descending top l bottom) : bottom ≤ top := by
  induction l generalizing top with
  | nil => exact h
  | cons o l ih => exact (ih h.2).trans ((Nat.le_add_right _ _).trans h.1)

/-- Objects below objects. -/
lemma Descending.append (h : Descending top l mid) (h' : Descending mid l' bottom) :
    Descending top (l ++ l') bottom := by
  induction l generalizing top with
  | nil =>
    have hle : mid ≤ top := h
    cases l' with
    | nil => exact h'.le.trans hle
    | cons o l' => exact ⟨h'.1.trans hle, h'.2⟩
  | cons o l ih => exact ⟨h.1, ih h.2⟩

/-- Every object lies between the bounds. -/
lemma Descending.inside (h : Descending top l bottom) {o : BitVec w × List (BitVec 8)}
    (ho : o ∈ l) : bottom ≤ o.1.toNat ∧ o.1.toNat + o.2.length ≤ top := by
  induction l generalizing top with
  | nil => cases ho
  | cons o' l ih =>
    rcases List.mem_cons.mp ho with rfl | ho
    · exact ⟨h.2.le, h.1⟩
    · obtain ⟨hlo, hhi⟩ := ih h.2 ho
      exact ⟨hlo, hhi.trans ((Nat.le_add_right _ _).trans h.1)⟩

/-- Objects one below another do not overlap. -/
lemma Descending.pairwise (h : Descending top l bottom) :
    l.Pairwise fun o o' => o'.1.toNat + o'.2.length ≤ o.1.toNat := by
  induction l generalizing top with
  | nil => exact .nil
  | cons o l ih => exact .cons (fun o' ho' => (h.2.inside ho').2) (ih h.2)

/-- The spans of objects one below another are disjoint. -/
lemma Descending.pairwise_disjoint (h : Descending top l bottom) (htop : top ≤ 2 ^ w) :
    l.Pairwise fun o o' => Disjoint (span o.1 o.2.length) (span o'.1 o'.2.length) := by
  have hfits : ∀ o ∈ l, o.1.toNat + o.2.length ≤ 2 ^ w := fun o ho =>
    (h.inside ho).2.trans htop
  refine h.pairwise.imp_of_mem fun {a b} ha hb hab => Set.disjoint_left.mpr fun x hxa hxb => ?_
  have ha' := (mem_span_iff (hfits _ ha)).mp hxa
  have hb' := (mem_span_iff (hfits _ hb)).mp hxb
  omega

/-- A store into which objects were written one below another holds them all. -/
theorem Descending.holds (h : Descending top l bottom) (htop : top ≤ 2 ^ w)
    {m m' : BitVec w → BitVec 8} (hm : Patches (l.map objectPatch) m m')
    {o : BitVec w × List (BitVec 8)} (ho : o ∈ l) : Holds m' o := by
  intro i hi
  have hlen := (h.inside ho).2.trans htop
  have heq := hm.eqOn_of_mem (List.pairwise_map.mpr (h.pairwise_disjoint htop))
    (List.mem_map_of_mem ho) ((mem_span_iff_exists (by omega)).mpr ⟨i, hi, rfl⟩)
  rw [heq]
  have hsub : (o.1 + BitVec.ofNat w i - o.1).toNat = i := toNat_add_ofNat_sub (by omega)
  simp only [objectPatch, hsub, List.getD_eq_getElem?_getD, List.getElem?_eq_getElem hi,
    Option.getD_some]

/-- An object stays where its span is left alone. -/
lemma Holds.congr {m m' : BitVec w → BitVec 8} {o : BitVec w × List (BitVec 8)}
    (hlen : o.2.length ≤ 2 ^ w) (h : Holds m o) (hm : ∀ x ∈ span o.1 o.2.length, m' x = m x) :
    Holds m' o := fun i hi =>
  (hm _ ((mem_span_iff_exists hlen).mpr ⟨i, hi, rfl⟩)).trans (h i hi)

end Objects

/-! ## Little-endian words -/

/-- The `i`th byte of a word, the lowest first. -/
def leByte (x : BitVec w) (i : ℕ) : BitVec 8 := x.extractLsb' (8 * i) 8

/-- The first byte of a word. -/
lemma leByte_zero (x : BitVec w) : leByte x 0 = x.setWidth 8 := by
  refine BitVec.eq_of_getLsbD_eq fun i hi => ?_
  rw [leByte, BitVec.getLsbD_extractLsb', BitVec.getLsbD_setWidth, Nat.mul_zero, Nat.zero_add]

/-- The bytes of a word behind its first one. -/
lemma leByte_ushiftRight (x : BitVec w) (i : ℕ) : leByte (x >>> 8) i = leByte x (i + 1) := by
  refine BitVec.eq_of_getLsbD_eq fun j hj => ?_
  rw [leByte, leByte, BitVec.getLsbD_extractLsb', BitVec.getLsbD_extractLsb',
    BitVec.getLsbD_ushiftRight, Nat.mul_succ, Nat.add_comm (8 * i) 8, Nat.add_assoc]

/-- The word of `n` bytes, the lowest first. -/
def leWord (w : ℕ) (bytes : ℕ → BitVec 8) : ℕ → BitVec w
  | 0 => 0
  | n + 1 => leWord w bytes n ||| (bytes n).setWidth w <<< (8 * n)

/-- Words of the same bytes. -/
lemma leWord_congr {f g : ℕ → BitVec 8} {n : ℕ} (h : ∀ i < n, f i = g i) :
    leWord w f n = leWord w g n := by
  induction n with
  | zero => rfl
  | succ n ih => rw [leWord, leWord, ih fun i hi => h i (by omega), h n (by omega)]

/-- A word from its first byte and the others. -/
lemma leWord_succ_eq (f : ℕ → BitVec 8) (n : ℕ) :
    leWord w f (n + 1) = (f 0).setWidth w ||| leWord w (fun i => f (i + 1)) n <<< 8 := by
  induction n with
  | zero => simp [leWord]
  | succ n ih =>
    rw [leWord, ih, leWord, BitVec.shiftLeft_or_distrib, BitVec.or_assoc, ← BitVec.shiftLeft_add,
      Nat.mul_succ]

/-- The word of the low bytes of a word has its low bits. -/
lemma getLsbD_leWord_leByte (x : BitVec w) (n i : ℕ) :
    (leWord w (leByte x) n).getLsbD i = (decide (i < 8 * n) && x.getLsbD i) := by
  induction n with
  | zero => simp [leWord]
  | succ n ih =>
    rw [leWord, BitVec.getLsbD_or, ih, BitVec.getLsbD_shiftLeft, BitVec.getLsbD_setWidth, leByte,
      BitVec.getLsbD_extractLsb']
    by_cases hi : i < 8 * n
    · simp [hi, show i < 8 * (n + 1) by omega]
    · by_cases hi' : i < 8 * (n + 1)
      · by_cases hw : i < w
        · simp [hi, hi', hw, show i - 8 * n < 8 by omega, show i - 8 * n < w by omega,
            show 8 * n + (i - 8 * n) = i by omega]
        · simp [hi, hi', hw, BitVec.getLsbD_of_ge x i (by omega)]
      · simp [hi, hi', show ¬ i - 8 * n < 8 by omega]

/-- A word is the word of its bytes. -/
lemma leWord_leByte (x : BitVec w) {n : ℕ} (h : w ≤ 8 * n) : leWord w (leByte x) n = x := by
  refine BitVec.eq_of_getLsbD_eq fun i hi => ?_
  rw [getLsbD_leWord_leByte]
  simp [show i < 8 * n by omega]

end ByteStore
