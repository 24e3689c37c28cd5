import Mathlib.Data.List.Induction
import InstaX.Foundation.ByteStore

/-!
# Records of words in bytes

A record is a list of words of various widths, stored one after the other, each with its lowest byte
first.  Reading the words at their offsets gives a record exactly if the bytes are those of the
record (`reads_iff_encodeWords`), so that encoding and decoding are inverse to each other.  A file
is put together from records and tables, each at its offset; pieces that lie apart do not disturb
one another (`prefix_drop_overlays`).
-/

namespace ByteStore

variable {w : ℕ}

/-- A word of some width. -/
abbrev SizedWord := Σ w : ℕ, BitVec w

/-- The `n` low bytes of a word, the lowest first. -/
def leBytes (x : BitVec w) (n : ℕ) : List (BitVec 8) := (List.range n).map (leByte x)

/-- A word has as many bytes as are asked for. -/
@[simp] lemma length_leBytes (x : BitVec w) (n : ℕ) : (leBytes x n).length = n := by simp [leBytes]

/-- A word of bytes has these bytes. -/
lemma leByte_leWord (f : ℕ → BitVec 8) {n i : ℕ} (hi : i < n) (hn : 8 * n ≤ w) :
    leByte (leWord w f n) i = f i := by
  induction n generalizing f i with
  | zero => omega
  | succ n ih =>
    rw [leWord_succ_eq]
    refine BitVec.eq_of_getLsbD_eq fun j hj => ?_
    cases i with
    | zero => simp [leByte, hj, show j < w by omega]
    | succ i =>
      have hrest := congrArg (BitVec.getLsbD · j)
        (ih (fun i => f (i + 1)) (i := i) (by omega) (by omega))
      simp only [leByte, BitVec.getLsbD_extractLsb', hj, decide_true, Bool.true_and] at hrest
      simp only [leByte, BitVec.getLsbD_extractLsb', hj, decide_true, Bool.true_and,
        BitVec.getLsbD_or, BitVec.getLsbD_setWidth, BitVec.getLsbD_shiftLeft]
      rw [← hrest, show 8 * (i + 1) + j - 8 = 8 * i + j by omega,
        BitVec.getLsbD_of_ge (f 0) _ (by omega)]
      simp [show 8 * (i + 1) + j < w by omega, show ¬ 8 * (i + 1) + j < 8 by omega]

/-- The word at an offset. -/
def wordAt (w : ℕ) (raw : List (BitVec 8)) (offset : ℕ) : BitVec w :=
  leWord w (fun i => raw.getD (offset + i) 0) (w / 8)

variable {raw : List (BitVec 8)} {offset : ℕ}

/-- The word at an offset, by its bytes. -/
lemma wordAt_eq_iff {x : BitVec w} (hw : 8 ∣ w) (h : offset + w / 8 ≤ raw.length) :
    wordAt w raw offset = x ↔ leBytes x (w / 8) <+: raw.drop offset := by
  have hbits : 8 * (w / 8) = w := Nat.mul_div_cancel' hw
  rw [List.prefix_iff_eq_take, length_leBytes]
  constructor
  · rintro rfl
    refine List.ext_getElem (by simp; omega) fun i hi hi' => ?_
    rw [length_leBytes] at hi
    simp [leBytes, wordAt, leByte_leWord _ hi hbits.le, show offset + i < raw.length by omega]
  · intro hbytes
    rw [wordAt, ← leWord_leByte x hbits.ge]
    refine leWord_congr fun i hi => ?_
    have hget := congrArg (fun l => l[i]?) hbytes
    simp [leBytes, hi, show offset + i < raw.length by omega] at hget
    simp [← hget, show offset + i < raw.length by omega]

/-! ## Records -/

/-- The number of bytes of a record. -/
def byteLength (words : List SizedWord) : ℕ := (words.map fun x => x.1 / 8).sum

/-- The bytes of a record. -/
def encodeWords (words : List SizedWord) : List (BitVec 8) :=
  words.flatMap fun x => leBytes x.2 (x.1 / 8)

/-- The words of a record are found one after the other from an offset on. -/
def Reads (raw : List (BitVec 8)) : ℕ → List SizedWord → Prop
  | _, [] => True
  | offset, x :: xs => wordAt x.1 raw offset = x.2 ∧ Reads raw (offset + x.1 / 8) xs

/-- The encoded words have the sum of the lengths of the words. -/
@[simp] lemma length_encodeWords (words : List SizedWord) :
    (encodeWords words).length = byteLength words := by
  simp [encodeWords, byteLength, List.length_flatMap]

/-- Reading a record and comparing bytes is the same. -/
theorem reads_iff_encodeWords {words : List SizedWord} (hwords : ∀ x ∈ words, 8 ∣ x.1)
    (h : offset + byteLength words ≤ raw.length) :
    Reads raw offset words ↔ encodeWords words <+: raw.drop offset := by
  induction words generalizing offset with
  | nil => simp [Reads, encodeWords]
  | cons x xs ih =>
    have hlen : byteLength (x :: xs) = x.1 / 8 + byteLength xs := rfl
    have hbytes : encodeWords (x :: xs) = leBytes x.2 (x.1 / 8) ++ encodeWords xs := rfl
    obtain ⟨hx, hxs⟩ := List.forall_mem_cons.mp hwords
    rw [Reads, wordAt_eq_iff hx (by omega), ih hxs (by omega), hbytes, ← List.drop_drop]
    constructor
    · rintro ⟨⟨rest, hrest⟩, hread⟩
      rw [← hrest, List.drop_left' (length_leBytes _ _)] at hread
      rw [← hrest]
      exact (List.prefix_append_right_inj _).mpr hread
    · rintro ⟨rest, hrest⟩
      rw [List.append_assoc] at hrest
      rw [← hrest, List.drop_left' (length_leBytes _ _)]
      exact ⟨List.prefix_append _ _, List.prefix_append _ _⟩

/-- The rest of some bytes is a record exactly if its words are read there. -/
lemma reads_iff_drop_eq {words : List SizedWord} (hwords : ∀ x ∈ words, 8 ∣ x.1)
    (h : raw.length = offset + byteLength words) :
    Reads raw offset words ↔ raw.drop offset = encodeWords words := by
  rw [reads_iff_encodeWords hwords h.ge]
  have hlength : (encodeWords words).length = (raw.drop offset).length := by
    rw [length_encodeWords, List.length_drop, h]
    omega
  exact ⟨fun hread => (hread.eq_of_length hlength).symm, fun heq => heq ▸ List.prefix_rfl⟩

/-! ## Pieces at offsets -/

section Overlays

variable {β : Type} {bytes : List β} {p q : ℕ × List β} {pieces : List (ℕ × List β)}

/-- Put a piece at its offset. -/
def overlay (bytes : List β) (p : ℕ × List β) : List β :=
  bytes.take p.1 ++ p.2 ++ bytes.drop (p.1 + p.2.length)

/-- One of the pieces ends before the other one starts. -/
def Apart (p q : ℕ × List β) : Prop := p.1 + p.2.length ≤ q.1 ∨ q.1 + q.2.length ≤ p.1

/-- A piece inside a file leaves its length. -/
lemma length_overlay (hp : p.1 + p.2.length ≤ bytes.length) :
    (overlay bytes p).length = bytes.length := by
  rw [overlay, List.length_append, List.length_append, List.length_take, List.length_drop]
  omega

/-- A piece inside a file is found at its offset. -/
lemma prefix_drop_overlay (hp : p.1 + p.2.length ≤ bytes.length) :
    p.2 <+: (overlay bytes p).drop p.1 := by
  have htake : (bytes.take p.1).length = p.1 := by
    rw [List.length_take]
    omega
  rw [overlay, List.append_assoc, List.drop_left' htake]
  exact List.prefix_append _ _

/-- A piece stays where another one is put apart from it. -/
lemma prefix_drop_overlay_of_apart (hp : p.1 + p.2.length ≤ bytes.length)
    (hq : q.2 <+: bytes.drop q.1) (h : Apart p q) : q.2 <+: (overlay bytes p).drop q.1 := by
  have htake : (bytes.take p.1).length = p.1 := by
    rw [List.length_take]
    omega
  rcases h with h | h
  · have hlength : (bytes.take p.1 ++ p.2).length = p.1 + p.2.length := by
      rw [List.length_append, htake]
    obtain ⟨k, hk⟩ := Nat.exists_eq_add_of_le h
    rw [overlay, hk, ← List.drop_drop, List.drop_left' hlength, List.drop_drop, ← hk]
    exact hq
  · rw [overlay, List.append_assoc, List.drop_append_of_le_length (by omega), List.drop_take]
    have hshort : q.2 <+: (bytes.drop q.1).take (p.1 - q.1) :=
      List.prefix_take_iff.mpr ⟨hq, by omega⟩
    exact hshort.trans (List.prefix_append _ _)

/-- Pieces that lie apart from one another all stand where they are put. -/
theorem prefix_drop_overlays (hpieces : pieces.Pairwise Apart)
    (hfits : ∀ p ∈ pieces, p.1 + p.2.length ≤ bytes.length) :
    (pieces.foldl overlay bytes).length = bytes.length ∧
      ∀ p ∈ pieces, p.2 <+: (pieces.foldl overlay bytes).drop p.1 := by
  induction pieces using List.reverseRecOn with
  | nil => simp
  | append_singleton pieces p ih =>
    obtain ⟨hbefore, -, hapart⟩ := List.pairwise_append.mp hpieces
    obtain ⟨hlength, hstand⟩ := ih hbefore fun q hq => hfits q (List.mem_append_left _ hq)
    have hp : p.1 + p.2.length ≤ (pieces.foldl overlay bytes).length := hlength ▸ hfits p (by simp)
    rw [List.foldl_append, List.foldl_cons, List.foldl_nil]
    refine ⟨(length_overlay hp).trans hlength, fun q hq => ?_⟩
    rcases List.mem_append.mp hq with hq | hq
    · exact prefix_drop_overlay_of_apart hp (hstand q hq) (hapart q hq p (by simp)).symm
    · obtain rfl := List.mem_singleton.mp hq
      exact prefix_drop_overlay hp

end Overlays

end ByteStore
