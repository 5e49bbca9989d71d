import Mathlib

/-! The test of a file for holes by its block counts (`bmap_has_holes`, `ufs/ufs_bmap.c`). -/

namespace Sol8.Ufs.HasHoles

open Finset Nat

variable {b k size blocks d : ℕ} {A : Finset ℕ} {B : Finset ℕ}

def dataBlocks (b size : ℕ) : ℕ := (size + (2 ^ b - 1)) / 2 ^ b

/-- `bmap_has_holes`, with `2 ^ k` entries in an indirect block; no value if the level is not found (`cnt` is not set). -/
def bmapHasHoles (b k size blocks : ℕ) : Option Bool :=
  let nindir := 2 ^ k
  let dblks := dataBlocks b size % 2 ^ 32
  let mblks := dataBlocks b (blocks * 512) % 2 ^ 32
  if dblks ≤ 12 then some (mblks < dblks)
  else
    let dblks := dblks - 12
    if dblks < 2 ^ k then some (mblks < (12 + 1 + dblks) % 2 ^ 32)
    else
      let dblks := dblks - 2 ^ k
      if dblks < 2 ^ (2 * k) then
        some (mblks < (12 + 1 + nindir + 1 + (dblks + (nindir - 1)) / nindir + dblks) % 2 ^ 32)
      else
        let dblks := dblks - 2 ^ (2 * k)
        if dblks < 2 ^ (3 * k) then
          let n := (dblks + (nindir - 1)) / nindir
          some (mblks < (12 + 1 + nindir + 1 + nindir + nindir * nindir + 1 + (n + (nindir - 1)) / nindir + n + dblks) % 2 ^ 32)
        else none

/-! ### Blocks on the paths -/

/-- How many indirect blocks with `q` data blocks each are on the paths to the blocks of `A` from `lo` up to `hi`. -/
def indirect (A : Finset ℕ) (lo hi q : ℕ) : ℕ := ((A.filter fun i => lo ≤ i ∧ i < hi).image fun i => (i - lo) / q).card

/-- The indirect blocks of a file: one level, two levels and three levels of them. -/
def metaBlocks (k : ℕ) (A : Finset ℕ) : ℕ :=
  let one := 12 + 2 ^ k
  let two := one + 2 ^ (2 * k)
  let three := two + 2 ^ (3 * k)
  indirect A 12 one (2 ^ k) + (indirect A one two (2 ^ (2 * k)) + indirect A one two (2 ^ k)) +
    (indirect A two three (2 ^ (3 * k)) + indirect A two three (2 ^ (2 * k)) + indirect A two three (2 ^ k))

theorem indirect_mono (h : A ⊆ B) (lo hi q : ℕ) : indirect A lo hi q ≤ indirect B lo hi q :=
  card_le_card (image_subset_image (filter_subset_filter _ h))

theorem metaBlocks_mono (h : A ⊆ B) : metaBlocks k A ≤ metaBlocks k B := by
  unfold metaBlocks
  dsimp only
  gcongr <;> exact indirect_mono h ..

theorem indirect_range {lo hi q : ℕ} (hq : 0 < q) : indirect (range d) lo hi q = (min d hi - lo + (q - 1)) / q := by
  have hm : ((range d).filter fun i => lo ≤ i ∧ i < hi).image (fun i => (i - lo) / q) =
      range ((min d hi - lo + (q - 1)) / q) := by
    ext j
    simp only [mem_image, mem_filter, mem_range]
    rw [lt_div_iff_mul_lt hq]
    constructor
    · rintro ⟨i, ⟨hd, hl, hh⟩, rfl⟩
      have := div_mul_le_self (i - lo) q
      omega
    · intro hj
      refine ⟨lo + j * q, by omega, ?_⟩
      rw [Nat.add_sub_cancel_left, Nat.mul_div_cancel j hq]
  rw [indirect, hm, card_range]

section Full

variable {lo hi q t : ℕ} (hq : 0 < q)
include hq

theorem indirect_below (h : d ≤ lo) : indirect (range d) lo hi q = 0 := by
  rw [indirect_range hq, Nat.sub_eq_zero_of_le (by omega)]
  exact Nat.div_eq_of_lt (by omega)

theorem indirect_one (h : lo < d) (hh : hi = lo + q) : indirect (range d) lo hi q = 1 := by
  rw [indirect_range hq]
  exact Nat.div_eq_of_lt_le (by omega) (by omega)

theorem indirect_within (h : d ≤ hi) : indirect (range d) lo hi q = (d - lo + (q - 1)) / q := by
  rw [indirect_range hq, min_eq_left h]

theorem indirect_passed (h : hi ≤ d) {m : ℕ} (hh : hi = lo + m * q) : indirect (range d) lo hi q = m := by
  rw [indirect_range hq, min_eq_right h, hh, Nat.add_sub_cancel_left]
  exact Nat.div_eq_of_lt_le (by omega) (by rw [Nat.succ_mul]; omega)

theorem ceil_ceil : ((t + (q - 1)) / q + (q - 1)) / q = (t + (q * q - 1)) / (q * q) := by
  have hs : (q - 1) * q + q = q * q := by rw [← Nat.succ_mul, Nat.succ_eq_add_one, Nat.sub_add_cancel hq]
  rw [← Nat.add_mul_div_right _ _ hq, Nat.div_div_eq_div_mul]
  exact congrArg (· / (q * q)) (by omega)

end Full

theorem two_mul_pow : 2 ^ (2 * k) = 2 ^ k * 2 ^ k := by rw [two_mul, pow_add]

/-- Where a level of indirect blocks is full. -/
def Boundary (k d : ℕ) : Prop :=
  d = 12 + 2 ^ k ∨ d = 12 + 2 ^ k + 2 ^ (2 * k) ∨ d = 12 + 2 ^ k + 2 ^ (2 * k) + 2 ^ (3 * k)

/-- The blocks of a file without holes. -/
def full (k d : ℕ) : ℕ := d + metaBlocks k (range d)

section Levels

variable (hn : 0 < 2 ^ k) (hn2 : 0 < 2 ^ (2 * k)) (hn3 : 0 < 2 ^ (3 * k))
include hn hn2 hn3

theorem full_direct (h : d ≤ 12) : full k d = d := by
  unfold full metaBlocks
  dsimp only
  rw [indirect_below hn h, indirect_below hn2 (by omega), indirect_below hn (by omega), indirect_below hn3 (by omega),
    indirect_below hn2 (by omega), indirect_below hn (by omega)]
  rfl

theorem full_one (h : 12 < d) (h' : d ≤ 12 + 2 ^ k) : full k d = d + 1 := by
  unfold full metaBlocks
  dsimp only
  rw [indirect_one hn h rfl, indirect_below hn2 h', indirect_below hn h', indirect_below hn3 (by omega),
    indirect_below hn2 (by omega), indirect_below hn (by omega)]

theorem full_two (h : 12 + 2 ^ k < d) (h' : d ≤ 12 + 2 ^ k + 2 ^ (2 * k)) :
    full k d = d + 2 + (d - (12 + 2 ^ k) + (2 ^ k - 1)) / 2 ^ k := by
  unfold full metaBlocks
  dsimp only
  rw [indirect_one hn (by omega) rfl, indirect_one hn2 h rfl, indirect_within hn h', indirect_below hn3 h',
    indirect_below hn2 h', indirect_below hn h']
  omega

theorem full_three (h : 12 + 2 ^ k + 2 ^ (2 * k) < d) (h' : d ≤ 12 + 2 ^ k + 2 ^ (2 * k) + 2 ^ (3 * k)) :
    full k d = d + 3 + 2 ^ k + (d - (12 + 2 ^ k + 2 ^ (2 * k)) + (2 ^ (2 * k) - 1)) / 2 ^ (2 * k) +
      (d - (12 + 2 ^ k + 2 ^ (2 * k)) + (2 ^ k - 1)) / 2 ^ k := by
  unfold full metaBlocks
  dsimp only
  rw [indirect_one hn (by omega) rfl, indirect_one hn2 (by omega) rfl, indirect_passed hn h.le (m := 2 ^ k) (by rw [two_mul_pow]),
    indirect_one hn3 h rfl, indirect_within hn2 h', indirect_within hn h']
  omega

end Levels

/-- The test is exact between the boundaries, and expects one block too many at them. -/
theorem bmapHasHoles_eq (hd : d = dataBlocks b size) (hmax : d ≤ 12 + 2 ^ k + 2 ^ (2 * k) + 2 ^ (3 * k))
    (ht : full k d + 1 < 2 ^ 32) (hle : dataBlocks b (blocks * 512) ≤ full k d) :
    (¬ Boundary k d → bmapHasHoles b k size blocks = some (decide (dataBlocks b (blocks * 512) < full k d))) ∧
      (Boundary k d → bmapHasHoles b k size blocks ≠ some false) := by
  have hn : 0 < 2 ^ k := Nat.two_pow_pos k
  have hn2 : 0 < 2 ^ (2 * k) := Nat.two_pow_pos _
  have hn3 : 0 < 2 ^ (3 * k) := Nat.two_pow_pos _
  have hlt : d < 2 ^ 32 := lt_of_le_of_lt (le_add_right d _) (lt_of_le_of_lt (le_succ _) ht)
  have hmod : dataBlocks b (blocks * 512) % 2 ^ 32 = dataBlocks b (blocks * 512) := mod_eq_of_lt (by omega)
  unfold bmapHasHoles Boundary
  dsimp only
  rw [hmod, ← hd, mod_eq_of_lt hlt]
  generalize dataBlocks b (blocks * 512) = m at *
  by_cases h0 : d ≤ 12
  · rw [full_direct hn hn2 hn3 h0, if_pos h0]
    exact ⟨fun _ => rfl, fun h => by omega⟩
  rw [if_neg h0]
  by_cases h1 : d - 12 < 2 ^ k
  · have hf := full_one hn hn2 hn3 (by omega) (show d ≤ 12 + 2 ^ k by omega)
    have hcn : (12 + 1 + (d - 12)) % 2 ^ 32 = full k d := by rw [hf]; exact mod_eq_of_lt (by omega) |>.trans (by omega)
    rw [if_pos h1, hcn]
    exact ⟨fun _ => rfl, fun h => by omega⟩
  rw [if_neg h1]
  by_cases h2 : d - 12 - 2 ^ k < 2 ^ (2 * k)
  · rw [if_pos h2]
    by_cases he : d = 12 + 2 ^ k
    · have hf := full_one hn hn2 hn3 (by omega) he.le
      have hz : (d - 12 - 2 ^ k + (2 ^ k - 1)) / 2 ^ k = 0 := div_eq_of_lt (by omega)
      rw [hz, mod_eq_of_lt (by omega)]
      refine ⟨fun h => absurd (.inl he) h, fun _ => ?_⟩
      simp only [ne_eq, Option.some.injEq, decide_eq_false_iff_not, not_not]
      omega
    · have hf := full_two hn hn2 hn3 (by omega) (show d ≤ 12 + 2 ^ k + 2 ^ (2 * k) by omega)
      rw [← Nat.sub_sub] at hf
      rw [mod_eq_of_lt (by omega)]
      exact ⟨fun _ => congrArg (fun c => some (decide (m < c))) (by omega), fun h => by omega⟩
  rw [if_neg h2]
  by_cases h3 : d - 12 - 2 ^ k - 2 ^ (2 * k) < 2 ^ (3 * k)
  · rw [if_pos h3]
    have hs := two_mul_pow (k := k)
    by_cases he : d = 12 + 2 ^ k + 2 ^ (2 * k)
    · have hf := full_two hn hn2 hn3 (by omega) he.le
      have hc : (d - (12 + 2 ^ k) + (2 ^ k - 1)) / 2 ^ k = 2 ^ k :=
        Nat.div_eq_of_lt_le (by omega) (by rw [Nat.succ_mul]; omega)
      have hnn : (0 + (2 ^ k - 1)) / 2 ^ k = 0 := div_eq_of_lt (by omega)
      have hz : d - 12 - 2 ^ k - 2 ^ (2 * k) = 0 := by omega
      rw [hz, hnn, hnn, ← hs, mod_eq_of_lt (by omega)]
      refine ⟨fun h => absurd (.inr (.inl he)) h, fun _ => ?_⟩
      simp only [ne_eq, Option.some.injEq, decide_eq_false_iff_not, not_not]
      omega
    · have hf := full_three hn hn2 hn3 (by omega) hmax
      rw [← Nat.sub_sub, ← Nat.sub_sub, hs, ← ceil_ceil hn, ← hs] at hf
      rw [← hs, mod_eq_of_lt (by omega)]
      exact ⟨fun _ => congrArg (fun c => some (decide (m < c))) (by omega), fun h => by omega⟩
  rw [if_neg h3]
  exact ⟨fun h => absurd (.inr (.inr (by omega))) h, fun _ => nofun⟩

/-- `i_blocks` of a file with the blocks `A` counts their fragments, of which `cut` bytes of the last block may lack, and
the indirect blocks on the paths to them. -/
structure Consistent (b k size : ℕ) (A : Finset ℕ) (blocks : ℕ) : Prop where
  below : A ⊆ range (dataBlocks b size)
  counts : ∃ cut < 2 ^ b, (cut ≠ 0 → dataBlocks b size ≤ 12 ∧ dataBlocks b size - 1 ∈ A) ∧
    blocks * 512 + cut = (A.card + metaBlocks k A) * 2 ^ b

theorem Consistent.mblks (h : Consistent b k size A blocks) : dataBlocks b (blocks * 512) = A.card + metaBlocks k A := by
  obtain ⟨cut, hc, -, heq⟩ := h.counts
  exact Nat.div_eq_of_lt_le (by omega) (by rw [Nat.succ_mul]; omega)

/-- For a size that the indirect blocks allow, with a count of blocks that fits, the test tells the files without holes
unless a level of indirect blocks is full. -/
theorem hasHoles_iff (hb : 9 ≤ b) (hmax : dataBlocks b size ≤ 12 + 2 ^ k + 2 ^ (2 * k) + 2 ^ (3 * k))
    (hfit : full k (dataBlocks b size) + 1 < 2 ^ 32) : (∀ A blocks, Consistent b k size A blocks →
      bmapHasHoles b k size blocks = some (decide (A ≠ range (dataBlocks b size)))) ↔
      ¬ Boundary k (dataBlocks b size) := by
  constructor
  · intro ha hbn
    obtain ⟨e, rfl⟩ := Nat.exists_eq_add_of_le hb
    have hc : Consistent (9 + e) k size (range (dataBlocks (9 + e) size)) (full k (dataBlocks (9 + e) size) * 2 ^ e) := by
      refine ⟨subset_rfl, 0, Nat.two_pow_pos _, by simp, ?_⟩
      rw [card_range, pow_add, full]
      ring
    have hr := ha _ _ hc
    rw [decide_eq_false (not_not.mpr rfl)] at hr
    refine (bmapHasHoles_eq rfl hmax hfit ?_).2 hbn hr
    rw [hc.mblks, card_range, full]
  · intro hbn A blocks hc
    have hcr := card_le_card hc.below
    rw [card_range] at hcr
    have hm := metaBlocks_mono (k := k) hc.below
    have hf : A.card + metaBlocks k A < full k (dataBlocks b size) ↔ A ≠ range (dataBlocks b size) := by
      constructor
      · rintro hlt rfl
        simp [full] at hlt
      · intro hne
        have hlt := card_lt_card (hc.below.ssubset_of_ne hne)
        rw [card_range] at hlt
        unfold full
        omega
    rw [(bmapHasHoles_eq rfl hmax hfit (by rw [hc.mblks, full]; omega)).1 hbn, hc.mblks, decide_eq_decide.mpr hf]

/-- With blocks of 8192 bytes, a file that fills its first indirect block. -/
theorem hasHoles_full_level : Consistent 13 11 (2060 * 8192) (range 2060) (2061 * 16) ∧
    bmapHasHoles 13 11 (2060 * 8192) (2061 * 16) = some true := by
  have hf := full_one (k := 11) (d := 2060) (by decide) (by decide) (by decide) (by decide) (by decide)
  rw [full] at hf
  refine ⟨⟨subset_rfl, 0, by decide, by simp, ?_⟩, by decide⟩
  rw [card_range, hf]
  norm_num

theorem hasHoles_iff_five : bmapHasHoles 13 11 (5 * 8192) 80 = some false := by
  have hf := full_direct (k := 11) (d := 5) (by decide) (by decide) (by decide) (by decide)
  refine (hasHoles_iff (by decide) (by decide) ?_).mpr (by unfold Boundary; decide) (range 5) 80 ?_
  · rw [show dataBlocks 13 (5 * 8192) = 5 from rfl, hf]
    decide
  · rw [full] at hf
    refine ⟨subset_rfl, 0, by decide, by simp, ?_⟩
    rw [card_range, hf]
    norm_num

end Sol8.Ufs.HasHoles
