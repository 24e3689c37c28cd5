import InstaX.Foundation.Pieces
import InstaX.Runtime.GuestBytes

/-!
# Calls on the guest memory

The member functions that change the guest memory as the events of a run, and what `map` and
`protect` do to the recorded regions, whether they return or throw.  `protect` splits every region
along the pages of its range; as long as the rounded range is not turned around by a wrap, the parts
are described by `splitRegion_cases`, and they are the pieces of the region (`splits_splitRegion`).
-/

namespace InstaX

open Throwing Rounding ByteStore Pieces

/-! ## Regions as sets of bytes -/

namespace GuestRegion

variable {r s : GuestRegion}

/-- The bytes of a region. -/
def bytes (r : GuestRegion) : Set U64 := span r.guestAddr r.length.toNat

/-- The bytes of a region that does not wrap are those between its ends. -/
lemma mem_bytes_iff (hr : r.hi ≤ 2 ^ 64) {x : U64} :
    x ∈ r.bytes ↔ r.guestAddr.toNat ≤ x.toNat ∧ x.toNat < r.hi := mem_span_iff hr

/-- One past the last byte, as the code computes it. -/
lemma toNat_add_length (hr : r.hi < 2 ^ 64) : (r.guestAddr + r.length).toNat = r.hi := by
  rw [BitVec.toNat_add]
  exact Nat.mod_eq_of_lt hr

/-- A region that ends before another one starts. -/
lemma disjoint_bytes (hr : r.hi ≤ 2 ^ 64) (hs : s.hi ≤ 2 ^ 64) (h : r.hi ≤ s.guestAddr.toNat) :
    Disjoint r.bytes s.bytes := by
  rw [Set.disjoint_left]
  intro x hxr hxs
  rw [mem_bytes_iff hr] at hxr
  rw [mem_bytes_iff hs] at hxs
  omega

end GuestRegion

namespace GuestMemory

/-! ## Splitting a region -/

section Split

variable {start end' : U64} {guestProt : CInt} {name : String} {r t : GuestRegion}

/-- A region is missed if it ends before the range or starts behind it. -/
lemma misses_eq_true_iff (hr : r.hi < 2 ^ 64) :
    misses start end' r = true ↔ r.hi ≤ start.toNat ∨ end'.toNat ≤ r.guestAddr.toNat := by
  rw [misses, decide_eq_true_eq, BitVec.le_def, BitVec.le_def, r.toNat_add_length hr]

/-- The end of a region that is given by its two bounds. -/
lemma hi_mk_sub {a b : U64} (h : a.toNat ≤ b.toNat) :
    (⟨a, b - a, guestProt, name⟩ : GuestRegion).hi = b.toNat := by
  rw [GuestRegion.hi, BitVec.toNat_sub_of_le (BitVec.le_def.mpr h)]
  exact Nat.add_sub_cancel' h

/-- The part of a region in front of the range. -/
def partBefore (start : U64) (r : GuestRegion) : GuestRegion :=
  { r with length := start - r.guestAddr }

/-- The part of a region in the range. -/
def partInside (start end' : U64) (guestProt : CInt) (name : String) (r : GuestRegion) :
    GuestRegion :=
  ⟨stdMax r.guestAddr start,
    stdMin (r.guestAddr + r.length) end' - stdMax r.guestAddr start, guestProt,
    if name.isEmpty then r.name else name⟩

/-- The part of a region behind the range. -/
def partAfter (end' : U64) (r : GuestRegion) : GuestRegion :=
  { r with guestAddr := end', length := r.guestAddr + r.length - end' }

/-- A region that is met is cut into its parts. -/
lemma splitRegion_of_meets (hmeets : ¬ misses start end' r = true) :
    splitRegion start end' guestProt name r =
      (if r.guestAddr < start then [partBefore start r] else []) ++
        [partInside start end' guestProt name r] ++
        (if end' < r.guestAddr + r.length then [partAfter end' r] else []) := by
  rw [splitRegion, if_neg hmeets]
  rfl

/-- The part before the range ends where the range starts. -/
lemma hi_partBefore (h : r.guestAddr < start) : (partBefore start r).hi = start.toNat :=
  hi_mk_sub (BitVec.lt_def.mp h).le

/-- The part behind the range ends where the region ended. -/
lemma hi_partAfter (hr : r.hi < 2 ^ 64) (h : end' < r.guestAddr + r.length) :
    (partAfter end' r).hi = r.hi := by
  rw [← r.toNat_add_length hr]
  exact hi_mk_sub (BitVec.lt_def.mp h).le

/-- The part inside is the intersection. -/
lemma partInside_bounds (guestProt : CInt) (name : String) (hr : r.hi < 2 ^ 64)
    (horder : start.toNat ≤ end'.toNat)
    (hmeets : ¬ misses start end' r = true) :
    (partInside start end' guestProt name r).guestAddr.toNat = max r.guestAddr.toNat start.toNat ∧
      (partInside start end' guestProt name r).hi = min r.hi end'.toNat := by
  rw [misses_eq_true_iff hr, not_or, not_le, not_le] at hmeets
  have hlo := toNat_stdMax r.guestAddr start
  have hhi := toNat_stdMin (r.guestAddr + r.length) end'
  rw [r.toNat_add_length hr] at hhi
  have hle : r.guestAddr.toNat ≤ r.hi := Nat.le_add_right _ _
  refine ⟨hlo, ?_⟩
  rw [← hhi]
  exact hi_mk_sub (by omega)

/-- What a part of a region can be: all of it, if the range misses the region, or what lies in front
of the range, in it or behind it. -/
lemma splitRegion_cases (hr : r.hi < 2 ^ 64) (horder : start.toNat ≤ end'.toNat)
    (ht : t ∈ splitRegion start end' guestProt name r) :
    t = r ∧ (r.hi ≤ start.toNat ∨ end'.toNat ≤ r.guestAddr.toNat) ∨
    t.guestAddr.toNat = r.guestAddr.toNat ∧ t.hi = start.toNat ∧ t.prot = r.prot ∧
      r.guestAddr.toNat < start.toNat ∧ start.toNat < r.hi ∧ t.name = r.name ∨
    t.guestAddr.toNat = max r.guestAddr.toNat start.toNat ∧ t.hi = min r.hi end'.toNat ∧
      t.prot = guestProt ∧ r.guestAddr.toNat < end'.toNat ∧ start.toNat < r.hi ∧
      t.name = (if name.isEmpty then r.name else name) ∨
    t.guestAddr.toNat = end'.toNat ∧ t.hi = r.hi ∧ t.prot = r.prot ∧
      r.guestAddr.toNat < end'.toNat ∧ end'.toNat < r.hi ∧ t.name = r.name := by
  by_cases hmisses : misses start end' r = true
  · rw [splitRegion, if_pos hmisses, List.mem_singleton] at ht
    exact Or.inl ⟨ht, (misses_eq_true_iff hr).mp hmisses⟩
  · have hbounds := partInside_bounds guestProt name hr horder hmisses
    rw [splitRegion_of_meets hmisses, List.mem_append, List.mem_append, List.mem_singleton] at ht
    rw [misses_eq_true_iff hr, not_or, not_le, not_le] at hmisses
    rcases ht with (hbefore | rfl) | hafter
    · split_ifs at hbefore with hlt
      · obtain rfl := List.mem_singleton.mp hbefore
        exact Or.inr (Or.inl
          ⟨rfl, hi_partBefore hlt, rfl, BitVec.lt_def.mp hlt, hmisses.1, rfl⟩)
      · cases hbefore
    · exact Or.inr (Or.inr (Or.inl ⟨hbounds.1, hbounds.2, rfl, hmisses.2, hmisses.1, rfl⟩))
    · split_ifs at hafter with hlt
      · obtain rfl := List.mem_singleton.mp hafter
        refine Or.inr (Or.inr (Or.inr ⟨rfl, hi_partAfter hr hlt, rfl, hmisses.2, ?_, rfl⟩))
        rwa [BitVec.lt_def, r.toNat_add_length hr] at hlt
      · cases hafter

/-- The parts of a region are listed in the order of their addresses. -/
lemma pairwise_splitRegion (hr : r.hi < 2 ^ 64) (horder : start.toNat ≤ end'.toNat) :
    (splitRegion start end' guestProt name r).Pairwise fun t u => t.hi ≤ u.guestAddr.toNat := by
  by_cases hmisses : misses start end' r = true
  · rw [splitRegion, if_pos hmisses]
    exact List.pairwise_singleton _ _
  · have hbounds := partInside_bounds guestProt name hr horder hmisses
    have hafter : (partAfter end' r).guestAddr.toNat = end'.toNat := rfl
    rw [splitRegion_of_meets hmisses]
    split_ifs with hlt hgt hgt <;>
      simp only [List.nil_append, List.append_nil, List.cons_append, List.pairwise_cons,
        List.mem_cons, List.not_mem_nil, or_false, forall_eq_or_imp, forall_eq, false_imp_iff,
        implies_true, and_true, List.Pairwise.nil, hbounds, hafter]
    · rw [hi_partBefore hlt]
      omega
    · rw [hi_partBefore hlt]
      omega
    · omega

/-- `protect` splits a region into pieces. -/
lemma splits_splitRegion (hr : r.hi < 2 ^ 64) (horder : start.toNat ≤ end'.toNat) :
    Splits GuestRegion.bytes GuestRegion.prot (interval start end') guestProt r
      (splitRegion start end' guestProt name r) := by
  have hpart : ∀ t ∈ splitRegion start end' guestProt name r, t.hi ≤ r.hi ∧
      r.guestAddr.toNat ≤ t.guestAddr.toNat := by
    intro t ht
    rcases splitRegion_cases hr horder ht with ⟨rfl, -⟩ | h | h | h <;> omega
  constructor
  · refine (pairwise_splitRegion hr horder).imp_of_mem fun ht hu h => ?_
    exact GuestRegion.disjoint_bytes (by have := hpart _ ht; omega) (by have := hpart _ hu; omega) h
  · intro t ht
    have hsub := hpart t ht
    have hmem : ∀ x : U64, x ∈ t.bytes ↔ t.guestAddr.toNat ≤ x.toNat ∧ x.toNat < t.hi := by
      intro x
      exact GuestRegion.mem_bytes_iff (by omega)
    have hout : t.hi ≤ start.toNat ∨ end'.toNat ≤ t.guestAddr.toNat →
        Disjoint t.bytes (interval start end') := by
      intro h
      rw [Set.disjoint_left]
      intro x hx hin
      rw [hmem] at hx
      rw [mem_interval] at hin
      omega
    refine ⟨fun x hx => ?_, ?_⟩
    · rw [GuestRegion.mem_bytes_iff (by omega)]
      rw [hmem] at hx
      omega
    · rcases splitRegion_cases hr horder ht with ⟨rfl, h⟩ | h | h | h
      · exact Or.inr ⟨hout h, rfl⟩
      · exact Or.inr ⟨hout (by omega), h.2.2.1⟩
      · refine Or.inl ⟨fun x hx => ?_, h.2.2.1⟩
        rw [hmem] at hx
        rw [mem_interval]
        omega
      · exact Or.inr ⟨hout (by omega), h.2.2.1⟩
  · intro x hx
    rw [GuestRegion.mem_bytes_iff (by omega)] at hx
    by_cases hmisses : misses start end' r = true
    · rw [splitRegion, if_pos hmisses]
      exact ⟨r, List.mem_singleton_self r, (GuestRegion.mem_bytes_iff (by omega)).mpr hx⟩
    · have hbounds := partInside_bounds guestProt name hr horder hmisses
      have hend := r.toNat_add_length hr
      rw [splitRegion_of_meets hmisses]
      rcases lt_or_ge x.toNat start.toNat with hlt | hge
      · have hlo : r.guestAddr < start := BitVec.lt_def.mpr (by omega)
        refine ⟨partBefore start r, by simp [hlo], ?_⟩
        rw [GuestRegion.mem_bytes_iff (by rw [hi_partBefore hlo]; omega), hi_partBefore hlo]
        exact ⟨hx.1, hlt⟩
      · rcases lt_or_ge x.toNat end'.toNat with hin | hout
        · refine ⟨partInside start end' guestProt name r, by simp, ?_⟩
          rw [GuestRegion.mem_bytes_iff (by omega)]
          omega
        · have hhi : end' < r.guestAddr + r.length := by
            rw [BitVec.lt_def, hend]
            omega
          refine ⟨partAfter end' r, by simp [hhi], ?_⟩
          rw [GuestRegion.mem_bytes_iff (by rw [hi_partAfter hr hhi]; omega), hi_partAfter hr hhi]
          exact ⟨hout, hx.2⟩

/-- Splitting a region along page boundaries gives regions of whole pages. -/
lemma wellFormed_of_mem_splitRegion (hr : r.hi < 2 ^ 64) (hpages : r.WellFormed)
    (hstart : 4096 ∣ start.toNat) (hend : 4096 ∣ end'.toNat) (horder : start.toNat < end'.toNat)
    (ht : t ∈ splitRegion start end' guestProt name r) : t.WellFormed ∧ t.hi < 2 ^ 64 := by
  have hlo := hpages.page_start
  have hlength := hpages.page_length
  have hpos := hpages.nonempty
  have hhi : r.hi = r.guestAddr.toNat + r.length.toNat := rfl
  have hthi : t.hi = t.guestAddr.toNat + t.length.toNat := rfl
  rcases splitRegion_cases hr horder.le ht with ⟨rfl, -⟩ | h | h | h
  · exact ⟨hpages, hr⟩
  · exact ⟨⟨by omega, by omega, by omega, by omega⟩, by omega⟩
  · exact ⟨⟨by omega, by omega, by omega, by omega⟩, by omega⟩
  · exact ⟨⟨by omega, by omega, by omega, by omega⟩, by omega⟩

end Split

/-! ## What the calls leave behind -/

section Calls

variable {k : HostKernel} {a n start end' : U64} {guestProt : CInt} {name : String} {w w' : World}

/-- The state after a change of the permissions on the pages `[start, end')`: every region is split
and the parts are sorted, and the host pages that meet the range get the host protection of the
permission. -/
def withProtection (k : HostKernel) (start end' : U64) (guestProt : CInt) (name : String)
    (w : World) : World where
  mem := { w.mem with
    regions := (w.mem.regions.flatMap (splitRegion start end' guestProt name)).insertionSort
      fun a b => a.guestAddr ≤ b.guestAddr }
  host := (k.mprotect w.host (alignDown start k.pageSize + w.mem.hostOffset)
    (alignUp end' k.pageSize - alignDown start k.pageSize) (hostProtFor guestProt)).2

/-- `protect` throws if the pages of its range meet no region. -/
lemma run_protect (hn : n ≠ 0) : (protect k a n guestProt name).run w =
    if w.mem.regions.all (misses (guestPageAlignDown a) (guestPageAlignUp (a + n))) then
      .error (.outOfRange "GuestMemory::protect: range is not mapped") w
    else
      .ok ⟨⟩ (withProtection k (guestPageAlignDown a) (guestPageAlignUp (a + n)) guestProt name
        w) := by
  have hget : (get : Prog World World).run w = .ok w w := rfl
  unfold protect
  rw [if_neg hn, run_bind_of_ok hget]
  split_ifs with hmisses
  · rfl
  · generalize guestPageAlignUp (a + n) = end'
    rw [withProtection, ← add_sub_cancel (guestPageAlignDown a) end']
    simp only [add_sub_cancel_left]
    rfl

/-- A `protect` that returns did nothing, on an empty range, or its pages met a region. -/
lemma withProtection_of_run_protect {x : Unit}
    (h : (protect k a n guestProt name).run w = .ok x w') : n = 0 ∧ w' = w ∨ n ≠ 0 ∧
      (∃ r ∈ w.mem.regions, ¬ misses (guestPageAlignDown a) (guestPageAlignUp (a + n)) r = true) ∧
        w' = withProtection k (guestPageAlignDown a) (guestPageAlignUp (a + n)) guestProt name
          w := by
  by_cases hn : n = 0
  · rw [protect, if_pos hn] at h
    exact Or.inl ⟨hn, (EStateM.Result.ok.inj h).2.symm⟩
  · rw [run_protect hn] at h
    split_ifs at h with hmisses
    rw [List.all_eq_true, not_forall₂] at hmisses
    exact Or.inr ⟨hn, by simpa using hmisses, (EStateM.Result.ok.inj h).2.symm⟩

/-- A `protect` that throws changes nothing. -/
lemma eq_of_protect_throws {e : Exn} (h : (protect k a n guestProt name).run w = .error e w') :
    w' = w := by
  by_cases hn : n = 0
  · rw [protect, if_pos hn] at h
    cases h
  · rw [run_protect hn] at h
    split_ifs at h
    exact (EStateM.Result.error.inj h).2.symm

/-- A mapping that throws changed nothing, or was placed elsewhere and given back. -/
lemma map_throws_cases {e : Exn} (h : (map k a n guestProt name).run w = .error e w') :
    w' = w ∨ ∃ desired length flag,
      (k.mmap w.host desired length (PROT_READ ||| PROT_WRITE) flag).1 ≠ some desired ∧
        w' = { w with
          host := ((k.mmap w.host desired length (PROT_READ ||| PROT_WRITE) flag).1.map
            ((k.mmap w.host desired length (PROT_READ ||| PROT_WRITE) flag).2.release ·
              length)).getD (k.mmap w.host desired length (PROT_READ ||| PROT_WRITE) flag).2 } := by
  unfold map mapPages at h
  have hget : (get : Prog World World).run w = .ok w w := rfl
  split_ifs at h with hn
  · cases h
  · rw [run_bind_of_ok hget] at h
    dsimp only at h
    generalize (if decide (w.mem.reservedLow ≤ guestPageAlignDown a ∧
      guestPageAlignUp (a + n) ≤ w.mem.reservedHigh) then MapFlag.fixed
      else MapFlag.fixedNoReplace) = flag at h
    split_ifs at h with haddr hgot
    · cases h
    · exact Or.inr ⟨_, _, flag, hgot, (EStateM.Result.error.inj h).2.symm⟩
    · exact Or.inl (EStateM.Result.error.inj h).2.symm

/-- A mapping that throws leaves the record alone. -/
lemma mem_eq_of_map_throws {e : Exn} (h : (map k a n guestProt name).run w = .error e w') :
    w'.mem = w.mem := by
  rcases map_throws_cases h with rfl | ⟨_, _, _, _, rfl⟩ <;> rfl

/-- A failed check changes nothing. -/
lemma eq_of_toHostRange_throws {function : String} {e : Exn}
    (h : (toHostRange function a n).run w = .error e w') : w' = w := by
  have hget : (get : Prog World World).run w = .ok w w := rfl
  rw [toHostRange, run_bind_of_ok hget] at h
  split_ifs at h
  · rw [toHost, run_bind_of_ok hget] at h
    split_ifs at h
    · cases h
    · exact (EStateM.Result.error.inj h).2.symm
  · exact (EStateM.Result.error.inj h).2.symm

/-- A write that throws changes nothing. -/
lemma eq_of_write_throws {src : ℕ → Byte} {e : Exn} (h : (write a src n).run w = .error e w') :
    w' = w := by
  unfold write at h
  split_ifs at h
  · cases h
  · rcases run_bind_eq_error_iff.mp h with hcheck | ⟨_, _, _, hcopy⟩
    · exact eq_of_toHostRange_throws hcheck
    · cases hcopy

/-- A clearing that throws changes nothing. -/
lemma eq_of_zero_throws {e : Exn} (h : (zero a n).run w = .error e w') : w' = w := by
  unfold zero at h
  split_ifs at h
  · cases h
  · rcases run_bind_eq_error_iff.mp h with hcheck | ⟨_, _, _, hcopy⟩
    · exact eq_of_toHostRange_throws hcheck
    · cases hcopy

/-- A read that throws changes nothing. -/
lemma eq_of_read_throws {e : Exn} (h : (read a n).run w = .error e w') : w' = w := by
  unfold read at h
  split_ifs at h
  · cases h
  · rcases run_bind_eq_error_iff.mp h with hcheck | ⟨_, _, _, hload⟩
    · exact eq_of_toHostRange_throws hcheck
    · cases hload

/-- Writes leave the bookkeeping and the host protection alone. -/
lemma frame_of_leaves_write {src : ℕ → Byte} (h : Leaves (write a src n) w w') :
    w'.mem = w.mem ∧ w'.host.prot = w.host.prot := by
  rcases h with ⟨_, h⟩ | ⟨_, h⟩
  · obtain ⟨-, rfl⟩ := run_write_eq_ok_iff.mp h
    exact ⟨rfl, rfl⟩
  · rw [eq_of_write_throws h]
    exact ⟨rfl, rfl⟩

/-- Clearings leave the bookkeeping and the host protection alone. -/
lemma frame_of_leaves_zero (h : Leaves (zero a n) w w') :
    w'.mem = w.mem ∧ w'.host.prot = w.host.prot := by
  rcases h with ⟨_, h⟩ | ⟨_, h⟩
  · obtain ⟨-, rfl⟩ := run_zero_eq_ok_iff.mp h
    exact ⟨rfl, rfl⟩
  · rw [eq_of_zero_throws h]
    exact ⟨rfl, rfl⟩

end Calls

/-! ## The pages of a range -/

/-- The bytes of the pages that the `n` bytes from `a` on touch. -/
def pages (a n : U64) : Set U64 := {x | ∃ y ∈ span a n.toNat, x.toNat / 4096 = y.toNat / 4096}

@[simp] lemma pages_zero (a : U64) : pages a 0 = ∅ := by
  simp [pages]

lemma toNat_pos {n : U64} (hn : n ≠ 0) : 0 < n.toNat := by
  rw [Nat.pos_iff_ne_zero]
  exact fun h0 => hn (BitVec.eq_of_toNat_eq h0)

/-- The rounded bounds of a range that ends below the last page. -/
lemma rounded_bounds {a n : U64} (hn : n ≠ 0) (hfits : a.toNat + n.toNat ≤ 2 ^ 64 - 4096) :
    4096 ∣ (guestPageAlignDown a).toNat ∧ 4096 ∣ (guestPageAlignUp (a + n)).toNat ∧
      (guestPageAlignDown a).toNat ≤ a.toNat ∧ a.toNat < (guestPageAlignDown a).toNat + 4096 ∧
      a.toNat + n.toNat ≤ (guestPageAlignUp (a + n)).toNat ∧
      (guestPageAlignUp (a + n)).toNat < a.toNat + n.toNat + 4096 ∧
      (guestPageAlignDown a).toNat < (guestPageAlignUp (a + n)).toNat := by
  have hsum : (a + n).toNat = a.toNat + n.toNat := by
    rw [BitVec.toNat_add, Nat.mod_eq_of_lt (by omega)]
  have hpos := toNat_pos hn
  rw [toNat_guestPageAlignDown, toNat_guestPageAlignUp (by omega), hsum]
  omega

/-- The pages of such a range are the bytes between its rounded bounds. -/
lemma pages_eq_interval {a n : U64} (hn : n ≠ 0) (hfits : a.toNat + n.toNat ≤ 2 ^ 64 - 4096) :
    pages a n = interval (guestPageAlignDown a) (guestPageAlignUp (a + n)) := by
  have hbounds := rounded_bounds hn hfits
  have hpos := toNat_pos hn
  ext x
  rw [mem_interval]
  constructor
  · rintro ⟨y, hy, hxy⟩
    rw [mem_span_iff (by omega)] at hy
    omega
  · intro hx
    -- the byte of the range that is nearest to `x`
    rcases lt_or_ge x.toNat a.toNat with hlt | hge
    · have hpage : x.toNat / 4096 = a.toNat / 4096 := by omega
      exact ⟨a, (mem_span_iff (by omega)).mpr (by omega), hpage⟩
    · rcases lt_or_ge x.toNat (a.toNat + n.toNat) with hin | hout
      · exact ⟨x, (mem_span_iff (by omega)).mpr ⟨hge, hin⟩, rfl⟩
      · have hlast : (a + BitVec.ofNat 64 (n.toNat - 1)).toNat = a.toNat + (n.toNat - 1) :=
          toNat_add_ofNat (by omega)
        have hpage : x.toNat / 4096 = (a + BitVec.ofNat 64 (n.toNat - 1)).toNat / 4096 := by omega
        exact ⟨a + BitVec.ofNat 64 (n.toNat - 1), (mem_span_iff (by omega)).mpr (by omega), hpage⟩

end GuestMemory

/-! ## Calls as events -/

/-- A call of a member function that changes the guest memory. -/
inductive MemoryCall where
  | map (guestAddr length : U64) (guestProt : CInt) (name : String)
  | protect (guestAddr length : U64) (guestProt : CInt) (name : String)
  | write (guestAddr : U64) (src : ℕ → Byte) (n : U64)
  | zero (guestAddr n : U64)

/-- The program of a call. -/
def MemoryCall.run (k : HostKernel) : MemoryCall → Prog World Unit
  | map guestAddr length guestProt name => GuestMemory.map k guestAddr length guestProt name
  | protect guestAddr length guestProt name => GuestMemory.protect k guestAddr length guestProt name
  | write guestAddr src n => GuestMemory.write guestAddr src n
  | zero guestAddr n => GuestMemory.zero guestAddr n

namespace GuestMemory

/-- A call that returns. -/
def CallReturns (k : HostKernel) (w : World) (c : MemoryCall) (w' : World) : Prop :=
  (c.run k).run w = .ok ⟨⟩ w'

/-- A call that returns or throws. -/
def CallLeaves (k : HostKernel) (w : World) (c : MemoryCall) (w' : World) : Prop :=
  Leaves (c.run k) w w'

end GuestMemory

end InstaX
