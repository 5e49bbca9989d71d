import Mathlib

/-! A ring buffer whose producer and consumer indices only grow.

The cell of index `i` is `i &&& mask`, with a mask of ones. -/

namespace Sol8.Lib.Ring

open Function

variable {α : Type} {buf : ℕ → α} {mask k p n : ℕ}

/-- What is in the buffer from index `p` up to `n`. -/
def slice (buf : ℕ → α) (mask p n : ℕ) : List α := (List.range' p (n - p)).map fun i => buf (i &&& mask)

theorem length_slice (buf : ℕ → α) (mask p n : ℕ) : (slice buf mask p n).length = n - p := by
  simp [slice]

theorem slice_eq_nil_iff : slice buf mask p n = [] ↔ n ≤ p := by
  rw [← List.length_eq_zero_iff, length_slice]
  omega

theorem slice_cons (h : p < n) : slice buf mask p n = buf (p &&& mask) :: slice buf mask (p + 1) n := by
  have hn : n - p = n - (p + 1) + 1 := by omega
  simp only [slice, hn, List.range'_succ, List.map_cons]

theorem and_mask_ne (hk : mask + 1 = 2 ^ k) {i : ℕ} (hi : i < n) (hn : n ≤ i + mask) : i &&& mask ≠ n &&& mask := by
  obtain rfl : mask = 2 ^ k - 1 := by omega
  rw [Nat.and_two_pow_sub_one_eq_mod, Nat.and_two_pow_sub_one_eq_mod]
  intro h
  have hdvd : 2 ^ k ∣ n - i := Nat.dvd_of_mod_eq_zero (Nat.sub_mod_eq_zero_of_mod_eq h.symm)
  have := Nat.le_of_dvd (by omega) hdvd
  omega

theorem slice_push (hk : mask + 1 = 2 ^ k) (hp : p ≤ n) (hn : n - p ≤ mask) (x : α) :
    slice (update buf (n &&& mask) x) mask p (n + 1) = slice buf mask p n ++ [x] := by
  have hlen : n + 1 - p = n - p + 1 := by omega
  rw [slice, hlen, List.range'_concat, List.map_append]
  congr 1
  · apply List.map_congr_left
    intro i hi
    rw [List.mem_range'_1] at hi
    rw [update_of_ne (and_mask_ne hk (by omega) (by omega))]
  · simp [Nat.add_sub_cancel' hp]

end Sol8.Lib.Ring
