import Mathlib

/-! A bit vector kept in an array of 64-bit words: setting one bit, and the word-crossing shift by
less than a word. -/

namespace Sol8.Lib.BitWords

open Function BitVec

variable {a b : ℕ → BitVec 64} {d e s : ℕ}

def bit (a : ℕ → BitVec 64) (d : ℕ) : Bool := (a (d / 64)).getLsbD (d % 64)

theorem bit_zero (d : ℕ) : bit (fun _ => 0) d = false := getLsbD_zero

theorem getLsbD_one_shiftLeft {i j : ℕ} (hj : j < 64) : (1#64 <<< i).getLsbD j = decide (j = i) := by
  rw [← twoPow_eq]
  by_cases h : i = j
  · simp [h, hj]
  · simp [h, Ne.symm h]

theorem bit_set (a : ℕ → BitVec 64) (d e : ℕ) :
    bit (update a (d / 64) (a (d / 64) ||| 1#64 <<< (d % 64))) e = (bit a e || decide (e = d)) := by
  have he : e % 64 < 64 := Nat.mod_lt _ (by decide)
  unfold bit
  by_cases h : e / 64 = d / 64
  · rw [h, update_self, getLsbD_or, getLsbD_one_shiftLeft he]
    congr 1
    apply decide_eq_decide.mpr
    omega
  · have hne : e ≠ d := fun hd => h (by rw [hd])
    rw [update_of_ne h]
    simp [hne]

theorem and_mask_ne_zero_iff {x : BitVec 64} {i : ℕ} (hi : i < 64) : 1#64 <<< i &&& x ≠ 0 ↔ x.getLsbD i = true := by
  constructor
  · intro h
    by_contra hx
    apply h
    apply eq_of_getLsbD_eq
    intro j hj
    rw [getLsbD_and, getLsbD_one_shiftLeft hj]
    by_cases hji : j = i
    · simpa [hji] using hx
    · simp [hji]
  · intro hx h
    have := congrArg (·.getLsbD i) h
    simp [getLsbD_and, getLsbD_one_shiftLeft hi, hx] at this

def ShiftedUp (a b : ℕ → BitVec 64) (s n : ℕ) : Prop :=
  ∀ j < n, b j = if j = 0 then a 0 <<< s else a j <<< s ||| a (j - 1) >>> (64 - s)

theorem ShiftedUp.bit {n : ℕ} (h : ShiftedUp a b s n) (hs : s < 64) (hd : d / 64 < n) :
    bit b d = if d < s then false else bit a (d - s) := by
  have hmod : d % 64 < 64 := Nat.mod_lt _ (by decide)
  have hh (x : BitVec 64) (hlt : ¬ d % 64 < s) : (x <<< s).getLsbD (d % 64) = x.getLsbD (d % 64 - s) := by
    rw [getLsbD_shiftLeft]
    simp only [hmod, hlt, decide_true, decide_false, Bool.not_false, Bool.true_and]
  have hl (x : BitVec 64) (hlt : d % 64 < s) : (x <<< s).getLsbD (d % 64) = false := by
    simp [getLsbD_shiftLeft, hlt]
  unfold BitWords.bit
  rw [h _ hd]
  by_cases h0 : d / 64 = 0
  · rw [if_pos h0]
    by_cases hlt : d % 64 < s
    · rw [hl _ hlt, if_pos (by omega)]
    · rw [hh _ hlt, if_neg (by omega)]
      congr 2 <;> omega
  · rw [if_neg h0, if_neg (by omega), getLsbD_or, getLsbD_ushiftRight]
    by_cases hlt : d % 64 < s
    · rw [hl _ hlt, Bool.false_or]
      congr 2 <;> omega
    · have hge : (a (d / 64 - 1)).getLsbD (64 - s + d % 64) = false := getLsbD_of_ge _ _ (by omega)
      rw [hh _ hlt, hge, Bool.or_false]
      congr 2 <;> omega

end Sol8.Lib.BitWords
