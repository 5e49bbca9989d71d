import Mathlib

/-! Full infix binary trees whose nodes are the numbers from 0 on, without pointers. The size of a node
is the lowest bit of its successor; the node and its right subtree are the numbers from it on, as many as its size. -/

namespace Sol8.Lib.InfixTree

open Finset Nat

variable {i j k n c : ℕ}

/-- The numbers in the right subtree of `n`, with `n`. -/
def csize (n : ℕ) : ℕ := n ^^^ (n ||| (n + 1))

theorem bit_false_or (m : ℕ) : Nat.bit false m ||| (Nat.bit false m + 1) = Nat.bit true m := by
  rw [show Nat.bit false m + 1 = Nat.bit true m by simp [Nat.bit_val], Nat.lor_bit, Nat.or_self]
  rfl

attribute [local simp] bit_val

theorem bit_true_or (m : ℕ) : Nat.bit true m ||| (Nat.bit true m + 1) = Nat.bit true (m ||| (m + 1)) := by
  rw [show Nat.bit true m + 1 = Nat.bit false (m + 1) by simp; omega, lor_bit]
  rfl

theorem csize_even (m : ℕ) : csize (Nat.bit false m) = 1 := by
  rw [csize, bit_false_or, Nat.xor_bit, Nat.xor_self]
  rfl

theorem csize_odd (m : ℕ) : csize (Nat.bit true m) = 2 * csize m := by
  rw [csize, bit_true_or, xor_bit, ← csize]
  simp

/-- The nearest node with `n` in its left subtree. -/
theorem or_succ (n : ℕ) : n ||| (n + 1) = n + csize n := by
  induction n using Nat.binaryRec with
  | zero => rfl
  | bit b m ih =>
    cases b with
    | false =>
      rw [bit_false_or, csize_even]
      simp
    | true =>
      rw [bit_true_or, csize_odd]
      simp only [bit_val, Bool.toNat_true]
      omega

/-- The nearest node with `n` in its right subtree, or rather its successor. -/
theorem and_succ (n : ℕ) : (n &&& (n + 1)) + csize n = n + 1 := by
  induction n using Nat.binaryRec with
  | zero => rfl
  | bit b m ih =>
    cases b with
    | false =>
      rw [show Nat.bit false m + 1 = Nat.bit true m by simp [Nat.bit_val], Nat.land_bit, csize_even]
      simp
    | true =>
      rw [show Nat.bit true m + 1 = Nat.bit false (m + 1) by simp; omega, land_bit, csize_odd]
      simp only [bit_val, Bool.true_and, Bool.toNat_false]
      omega

/-- The size is a power of two, and it is the powers up to the size that divide the successor. -/
theorem exists_csize (n : ℕ) : ∃ k, csize n = 2 ^ k ∧ ∀ i, 2 ^ i ∣ n + 1 ↔ i ≤ k := by
  induction n using Nat.binaryRec with
  | zero =>
    refine ⟨0, rfl, fun i => ?_⟩
    simp
  | bit b m ih =>
    obtain ⟨k, hk, hdvd⟩ := ih
    cases b with
    | false =>
      refine ⟨0, csize_even m, fun i => ?_⟩
      rw [le_zero]
      constructor
      · intro h
        by_contra hi
        have h2 : 2 ∣ 2 * m + Bool.toNat false + 1 := (dvd_pow_self 2 hi).trans h
        simp only [Bool.toNat_false] at h2
        omega
      · rintro rfl
        exact one_dvd _
    | true =>
      refine ⟨k + 1, by rw [csize_odd, hk, pow_succ, mul_comm], fun i => ?_⟩
      rw [bit_val, Bool.toNat_true, show 2 * m + 1 + 1 = 2 * (m + 1) by omega]
      cases i with
      | zero => simp
      | succ i => rw [Nat.pow_succ, Nat.mul_comm, Nat.mul_dvd_mul_iff_left (by decide), hdvd, Nat.add_le_add_iff_right]

theorem csize_pos (n : ℕ) : 0 < csize n := by
  obtain ⟨k, hk, -⟩ := exists_csize n
  rw [hk]
  exact Nat.two_pow_pos k

/-- A power of two divides the successor just if it is at most the size. -/
theorem two_pow_dvd_iff : 2 ^ i ∣ n + 1 ↔ 2 ^ i ≤ csize n := by
  obtain ⟨k, hk, hdvd⟩ := exists_csize n
  rw [hdvd, hk, Nat.pow_le_pow_iff_right (by decide)]

theorem csize_dvd (n : ℕ) : csize n ∣ n + 1 := by
  obtain ⟨k, hk, hdvd⟩ := exists_csize n
  rw [hk, hdvd]

/-- What divides the successor up to a power and not the next one is the size. -/
theorem csize_eq (h : 2 ^ k ∣ n + 1) (h' : ¬ 2 ^ (k + 1) ∣ n + 1) : csize n = 2 ^ k := by
  obtain ⟨l, hl, hdvd⟩ := exists_csize n
  rw [hdvd] at h h'
  rw [hl, show l = k by omega]

/-- A larger size is a multiple of twice the smaller one. -/
theorem two_mul_csize_dvd (h : csize i < csize j) : 2 * csize i ∣ csize j := by
  obtain ⟨k, hk, -⟩ := exists_csize i
  obtain ⟨l, hl, -⟩ := exists_csize j
  rw [hk, hl] at h ⊢
  rw [← pow_succ']
  exact Nat.pow_dvd_pow 2 (Nat.succ_le_of_lt ((Nat.pow_lt_pow_iff_right (by decide)).mp h))

/-- `n` is in the right subtree of `j`, or is `j`. -/
def Covers (j n : ℕ) : Prop := j ≤ n ∧ n < j + csize j

instance : Decidable (Covers j n) := by
  unfold Covers
  infer_instance

theorem covers_self (n : ℕ) : Covers n n := ⟨Nat.le_refl n, Nat.lt_add_of_pos_right (csize_pos n)⟩

theorem Covers.csize_lt (h : Covers j n) (hne : j ≠ n) : csize n < csize j := by
  by_contra hle
  obtain ⟨h1, h₂⟩ := h
  have hdvd : csize j ∣ n + 1 := by
    obtain ⟨k, hk, -⟩ := exists_csize j
    rw [hk, two_pow_dvd_iff]
    omega
  -- no multiple of the size lies between `j + 1` and `j + 1 + csize j`
  have hsub : csize j ∣ n - j := by
    rw [show n - j = n + 1 - (j + 1) by omega]
    exact dvd_sub hdvd (csize_dvd j)
  have := le_of_dvd (by omega) hsub
  omega

theorem two_mul_csize_dvd_and (n : ℕ) : 2 * csize n ∣ (n &&& (n + 1)) := by
  obtain ⟨k, hk, hdvd⟩ := exists_csize n
  obtain ⟨t, ht⟩ := (hdvd k).mpr (le_refl k)
  have hodd : ¬ 2 ∣ t := fun h2 => by
    have : 2 ^ (k + 1) ∣ n + 1 := by
      rw [ht]
      exact mul_dvd_mul_left _ h2
    rw [hdvd] at this
    omega
  have hand : (n &&& (n + 1)) = 2 ^ k * (t - 1) := by
    have := and_succ n
    rw [Nat.mul_sub]
    omega
  rw [hand, hk, mul_comm 2]
  exact mul_dvd_mul_left _ (by omega)

/-- The nodes that cover `n` are `n` itself and those that cover the nearest node with `n` in its right subtree. -/
theorem covers_iff : Covers j n ↔ j = n ∨ ∃ p, (n &&& (n + 1)) = p + 1 ∧ Covers j p := by
  have hand := and_succ n
  constructor
  · intro h
    by_cases hne : j = n
    · exact .inl hne
    have hlt := h.csize_lt hne
    have hdvd : csize n ∣ n - j := by
      rw [show n - j = n + 1 - (j + 1) by omega]
      refine dvd_sub (csize_dvd n) ?_
      exact (Dvd.intro_left 2 rfl).trans ((two_mul_csize_dvd hlt).trans (csize_dvd j))
    obtain ⟨h1, h₂⟩ := h
    have hle := le_of_dvd (by omega) hdvd
    exact .inr ⟨n - csize n, by omega, by omega, by omega⟩
  · rintro (rfl | ⟨p, hp, hc⟩)
    · exact covers_self j
    have hd : 2 * csize n ∣ p + 1 := hp ▸ two_mul_csize_dvd_and n
    obtain ⟨k, hk, -⟩ := exists_csize n
    have hle : 2 ^ (k + 1) ≤ csize j := by
      rw [hk, ← pow_succ', two_pow_dvd_iff] at hd
      by_cases hj : j = p
      · rwa [hj]
      · exact hd.trans (hc.csize_lt hj).le
    have hn : 2 * csize n ∣ j + csize j + 1 := by
      rw [hk, ← pow_succ', add_right_comm]
      refine Nat.dvd_add (two_pow_dvd_iff.mpr hle) ?_
      obtain ⟨l, hl, -⟩ := exists_csize j
      rw [hl, Nat.pow_le_pow_iff_right (by decide)] at hle
      rw [hl]
      exact pow_dvd_pow 2 hle
    obtain ⟨h1, h₂⟩ := hc
    have hg := le_of_dvd (by omega) (dvd_sub hn hd)
    exact ⟨by omega, by omega⟩

/-- A tree of `2 ^ k - 1` nodes is full. -/
theorem add_csize_lt (h : n + 1 < 2 ^ k) : n + csize n < 2 ^ k := by
  obtain ⟨l, hl, hdvd⟩ := exists_csize n
  have hn : 2 ^ l ∣ n + 1 := (hdvd l).mpr (le_refl l)
  have hk : 2 ^ l ∣ 2 ^ k := by
    have := (le_of_dvd (by omega) hn).trans_lt h
    exact Nat.pow_dvd_pow 2 ((Nat.pow_lt_pow_iff_right (by decide)).mp this).le
  have := le_of_dvd (by omega) (dvd_sub hk hn)
  omega

/-- The leftmost nodes of the right subtree. -/
theorem csize_add (h : 2 ^ (i + 1) ≤ csize n) : csize (n + 2 ^ i) = 2 ^ i := by
  have hdvd := two_pow_dvd_iff.mpr h
  have hi : 2 ^ i ∣ n + 1 := (pow_dvd_pow 2 (le_succ i)).trans hdvd
  refine csize_eq ?_ ?_
  · rw [add_right_comm]
    exact Nat.dvd_add hi (Nat.dvd_refl _)
  · rw [Nat.add_right_comm, Nat.dvd_add_right hdvd]
    intro hle
    have := Nat.le_of_dvd (Nat.two_pow_pos i) hle
    omega

/-! Counts of a 0-1 sequence. -/

section Count

variable {b b' : ℕ → ℤ} {m l : ℕ} {d : ℤ}

/-- What `m` numbers from `n` on come to. -/
def count (b : ℕ → ℤ) (n m : ℕ) : ℤ := ∑ i ∈ Finset.Ico n (n + m), b i

theorem count_add (b : ℕ → ℤ) (n m l : ℕ) : count b n (m + l) = count b n m + count b (n + m) l := by
  rw [count, count, ← add_assoc]
  exact (sum_Ico_consecutive _ (le_add_right n m) (le_add_right (n + m) l)).symm

theorem count_congr (h : ∀ i, n ≤ i → i < n + m → b' i = b i) : count b' n m = count b n m :=
  sum_congr rfl fun i hi => h i (mem_Ico.mp hi).1 (mem_Ico.mp hi).2

theorem count_update : count (Function.update b i (b i + d)) n m = count b n m + if n ≤ i ∧ i < n + m then d else 0 := by
  by_cases hi : n ≤ i ∧ i < n + m
  · have hmem := mem_Ico.mpr hi
    rw [if_pos hi, count, count, ← add_sum_erase _ _ hmem, ← add_sum_erase _ b hmem, Function.update_self,
      sum_congr rfl fun j hj => Function.update_of_ne (ne_of_mem_erase hj) _ _]
    exact Int.add_right_comm _ _ _
  · rw [if_neg hi, Int.add_zero]
    refine count_congr fun j h1 h₂ => Function.update_of_ne ?_ _ _
    rintro rfl
    exact hi ⟨h1, h₂⟩

theorem count_eq_iff (hb : ∀ i, n ≤ i → i < n + m → b i = 0 ∨ b i = 1) :
    count b n m = m ↔ ∀ i, n ≤ i → i < n + m → b i = 1 := by
  have hle : ∀ i ∈ Finset.Ico n (n + m), b i ≤ 1 := fun i hi => by
    have := hb i (mem_Ico.mp hi).1 (mem_Ico.mp hi).2
    omega
  have hsum : ∑ _i ∈ Finset.Ico n (n + m), (1 : ℤ) = m := by simp
  rw [count, ← hsum, sum_eq_sum_iff_of_le hle]
  simp only [mem_Ico, and_imp]

end Count

end Sol8.Lib.InfixTree
