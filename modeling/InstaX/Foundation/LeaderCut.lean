import Mathlib.Data.List.SplitBy
import Mathlib.Order.RelClasses

/-!
# Cutting a sequence at leaders

A sequence of items with strictly increasing keys is cut into blocks in one pass that files every
item in an ordered map, under the key of the last leader before it.  `pass_eq_splitBy` identifies
the result with `List.splitBy`, from which follows what a cut should satisfy: the blocks concatenate
to the sequence, every block starts with its key, the keys are those of the leaders
(`mem_keys_pass`), and an item that is always followed by a leader ends its block
(`not_mem_dropLast_of_followed`).
-/

namespace LeaderCut

variable {α K V : Type*}

section OrderedMap

variable [LT K] [DecidableLT K] [DecidableEq K]

/-- Apply `f` to the value under a key of an ordered map, inserting `d` first if there is none. -/
def modify (k : K) (d : V) (f : V → V) : List (K × V) → List (K × V)
  | [] => [(k, f d)]
  | (k', v) :: m =>
      if k' < k then (k', v) :: modify k d f m
      else if k' = k then (k', f v) :: m
      else (k, f d) :: (k', v) :: m

/-- A key above all others goes to the end. -/
lemma modify_of_forall_lt {k : K} {d : V} {f : V → V} {m : List (K × V)}
    (h : ∀ e ∈ m, e.1 < k) : modify k d f m = m ++ [(k, f d)] := by
  induction m with
  | nil => rfl
  | cons e m ih =>
    rw [modify, if_pos (h e List.mem_cons_self), ih fun e' he' => h e' (List.mem_cons_of_mem _ he')]
    rfl

/-- The last key is found at the end. -/
lemma modify_append_self {k : K} {d v : V} {f : V → V} {m : List (K × V)} (hk : ¬ k < k)
    (h : ∀ e ∈ m, e.1 < k) : modify k d f (m ++ [(k, v)]) = m ++ [(k, f v)] := by
  induction m with
  | nil => simp [modify, hk]
  | cons e m ih =>
    rw [List.cons_append, modify, if_pos (h e List.mem_cons_self),
      ih fun e' he' => h e' (List.mem_cons_of_mem _ he')]
    rfl

/-- The keys after a change. -/
lemma mem_keys_modify {k k' : K} {d : V} {f : V → V} {m : List (K × V)} :
    k' ∈ (modify k d f m).map Prod.fst ↔ k' = k ∨ k' ∈ m.map Prod.fst := by
  induction m with
  | nil => simp [modify]
  | cons e m ih =>
    rw [modify]
    split_ifs with hlt heq
    · rw [List.map_cons, List.mem_cons, ih, List.map_cons, List.mem_cons]
      exact or_left_comm
    · rw [← heq]
      simp
    · simp

/-- Appending one item under a key adds it to the items. -/
lemma mem_items_modify {k : K} {a b : α} {m : List (K × List α)} :
    (∃ e ∈ modify k [] (· ++ [b]) m, a ∈ e.2) ↔ (∃ e ∈ m, a ∈ e.2) ∨ a = b := by
  induction m with
  | nil => simp [modify]
  | cons e m ih =>
    rw [modify]
    split_ifs with hlt heq
    · simp only [List.mem_cons, exists_eq_or_imp, ih, or_assoc]
    · simp only [List.mem_cons, exists_eq_or_imp, List.mem_append, List.not_mem_nil, or_false]
      exact or_right_comm
    · simp only [List.mem_cons, exists_eq_or_imp, List.nil_append, List.not_mem_nil, or_false]
      exact or_comm

end OrderedMap

/-! ## The pass -/

section Pass

variable [LT K] [DecidableLT K] [DecidableEq K] (key : α → K) (isLeader : α → Bool)

/-- File every item under the current key, which becomes the item's own key at a leader. -/
def pass (current : K) (blocks : List (K × List α)) : List α → List (K × List α)
  | [] => blocks
  | a :: l =>
      let current := if isLeader a ∧ key a ≠ current then key a else current
      pass current (modify current [] (· ++ [a]) blocks) l

/-- The pass keeps the keys there were and adds those of the leaders. -/
lemma mem_keys_pass {current : K} {blocks : List (K × List α)} {l : List α} {k : K}
    (hcurrent : current ∈ blocks.map Prod.fst) :
    k ∈ (pass key isLeader current blocks l).map Prod.fst ↔
      k ∈ blocks.map Prod.fst ∨ ∃ a ∈ l, isLeader a = true ∧ key a = k := by
  induction l generalizing current blocks with
  | nil => simp [pass]
  | cons a l ih =>
    rw [pass, ih (mem_keys_modify.mpr (Or.inl rfl)), mem_keys_modify]
    split_ifs with hnew
    · grind
    · grind

/-- Every item is filed under a key. -/
lemma mem_items_pass {current : K} {blocks : List (K × List α)} {l : List α} {a : α} :
    (∃ e ∈ pass key isLeader current blocks l, a ∈ e.2) ↔ (∃ e ∈ blocks, a ∈ e.2) ∨ a ∈ l := by
  induction l generalizing current blocks with
  | nil => simp [pass]
  | cons b l ih =>
    rw [pass, ih, mem_items_modify, List.mem_cons, or_assoc]

/-- A block with the key of its first item. -/
def keyed (k₀ : K) (b : List α) : K × List α := ((b.head?.map key).getD k₀, b)

variable [IsStrictOrder K (· < ·)] (k₀ : K)

/-- The state of the pass, between the finished blocks and the items to come, is that of the loop
of `List.splitBy`. -/
private lemma pass_eq_loop (l : List α) (a : α) (g : List α) (gs : List (List α)) (current : K)
    (hkey : ((a :: g).reverse.head?.map key).getD k₀ = current)
    (hdone : ∀ b ∈ gs, (keyed key k₀ b).1 < current) (hrest : ∀ x ∈ l, current < key x)
    (hsorted : l.Pairwise fun x y => key x < key y) :
    pass key isLeader current (gs.reverse.map (keyed key k₀) ++ [(current, (a :: g).reverse)]) l =
      (List.splitBy.loop (fun _ x => !isLeader x) l a g gs).map (keyed key k₀) := by
  induction l generalizing a g gs current with
  | nil =>
    subst hkey
    simp [pass, List.splitBy.loop, keyed]
  | cons x l ih =>
    have hcur : (current, (a :: g).reverse) = keyed key k₀ (a :: g).reverse := by
      rw [keyed, hkey]
    have hlt := hrest x List.mem_cons_self
    obtain ⟨hx, hsorted⟩ := List.pairwise_cons.mp hsorted
    have hdone' : ∀ e ∈ gs.reverse.map (keyed key k₀), e.1 < current := by
      simpa using hdone
    rw [pass, List.splitBy.loop]
    cases hl : isLeader x with
    | true =>
      have hne : key x ≠ current := fun he => irrefl current (he ▸ hlt)
      have hall : ∀ e ∈ gs.reverse.map (keyed key k₀) ++ [(current, (a :: g).reverse)],
          e.1 < key x := by
        intro e he
        rcases List.mem_append.mp he with he | he
        · exact trans_of (· < ·) (hdone' e he) hlt
        · rw [List.mem_singleton.mp he]
          exact hlt
      have hstep := ih x [] ((a :: g).reverse :: gs) (key x) (by simp) (fun b hb => ?_) hx hsorted
      · simp only [hne, ne_eq, not_false_eq_true, and_self, if_true, modify_of_forall_lt hall]
        rw [hcur]
        simpa using hstep
      · rcases List.mem_cons.mp hb with rfl | hb
        · rw [← hcur]
          exact hlt
        · exact trans_of (· < ·) (hdone b hb) hlt
    | false =>
      have hhead : (x :: a :: g).reverse.head? = (a :: g).reverse.head? := by
        simp
      have hstep := ih x (a :: g) gs current (by rw [hhead, hkey]) hdone
        (fun y hy => hrest y (List.mem_cons_of_mem _ hy)) hsorted
      simp only [Bool.false_eq_true, false_and, if_false,
        modify_append_self (irrefl current) hdone']
      rw [← List.reverse_cons, hstep]
      rfl

variable {key isLeader k₀}

/-- The pass over a non-empty sequence, started with an empty block under the first key, cuts the
sequence before every leader. -/
theorem pass_eq_splitBy {a : α} {l : List α}
    (hsorted : (a :: l).Pairwise fun x y => key x < key y) :
    pass key isLeader (key a) (modify (key a) [] id []) (a :: l) =
      ((a :: l).splitBy fun _ x => !isLeader x).map (keyed key k₀) := by
  obtain ⟨ha, hl⟩ := List.pairwise_cons.mp hsorted
  have h := pass_eq_loop key isLeader k₀ l a [] [] (key a) (by simp) (by simp) ha hl
  rw [List.splitBy, ← h, pass]
  simp [modify, irrefl (key a)]

end Pass

/-! ## What a cut satisfies -/

section Cut

variable {isLeader : α → Bool} {l b : List α}

/-- Only the first item of a block is a leader. -/
lemma isLeader_eq_false_of_mem_tail (hb : b ∈ l.splitBy fun _ x => !isLeader x) {x : α}
    (hx : x ∈ b.tail) : isLeader x = false := by
  have hchain := List.isChain_of_mem_splitBy hb
  obtain ⟨pre, y, post, rfl⟩ : ∃ pre y post, b = pre ++ y :: x :: post := by
    cases b with
    | nil => cases hx
    | cons a t =>
      obtain ⟨s, t', rfl⟩ := List.append_of_mem hx
      rcases List.eq_nil_or_concat s with rfl | ⟨s, y, rfl⟩
      · exact ⟨[], a, t', rfl⟩
      · exact ⟨a :: s, y, t', by simp⟩
  have hpair := (List.isChain_append_cons_cons.mp hchain).2.1
  simpa using hpair

/-- The blocks of a sequence with increasing keys have increasing keys. -/
lemma pairwise_keyed {K : Type*} [LT K] {key : α → K} {k₀ : K}
    (hsorted : l.Pairwise fun x y => key x < key y) :
    ((l.splitBy fun _ x => !isLeader x).map (keyed key k₀)).Pairwise fun e e' => e.1 < e'.1 := by
  have hflat := hsorted
  rw [← List.flatten_splitBy (fun _ x => !isLeader x) l, List.pairwise_flatten] at hflat
  rw [List.pairwise_map]
  refine (List.Pairwise.and_mem.mp hflat.2).imp ?_
  rintro b b' ⟨hb, hb', hlt⟩
  cases b with
  | nil => exact absurd hb (List.nil_notMem_splitBy _ _)
  | cons a t =>
    cases b' with
    | nil => exact absurd hb' (List.nil_notMem_splitBy _ _)
    | cons a' t' => exact hlt a List.mem_cons_self a' List.mem_cons_self

/-- An item that is followed by a leader wherever it is followed by anything ends its block. -/
lemma not_mem_dropLast_of_followed {p : α → Prop}
    (hfollowed : l.IsChain fun x y => p x → isLeader y = true)
    (hb : b ∈ l.splitBy fun _ x => !isLeader x) {x : α} (hp : p x) : x ∉ b.dropLast := by
  intro hx
  have hinfix : b <:+: l := by
    have := List.infix_of_mem_flatten hb
    rwa [List.flatten_splitBy] at this
  obtain ⟨pre, y, post, rfl⟩ : ∃ pre y post, b = pre ++ x :: y :: post := by
    rcases List.eq_nil_or_concat b with rfl | ⟨b, z, rfl⟩
    · cases hx
    · rw [List.concat_eq_append, List.dropLast_concat] at hx
      obtain ⟨s, t, rfl⟩ := List.append_of_mem hx
      cases t with
      | nil => exact ⟨s, z, [], by simp⟩
      | cons y t => exact ⟨s, y, t ++ [z], by simp⟩
  have hchain := List.IsChain.infix hfollowed hinfix
  have hleader := (List.isChain_append_cons_cons.mp hchain).2.1 hp
  have hnot := isLeader_eq_false_of_mem_tail hb (x := y) (by cases pre <;> simp)
  rw [hleader] at hnot
  cases hnot

end Cut

end LeaderCut
