import Sol8.Lib.Ranked

/-! Bitmaps in words of type `ulong_t` (`sys/bitmap.h`, `os/bitmap.c`): testing, setting and clearing one bit,
and the search for the highest bit that is on. -/

namespace Sol8.Os.Bitmap

open Function Sol8.Lib.Ranked Nat

-- `BT_ULSHIFT`, 6 or 5: a word has `2 ^ sh` bits
variable (sh : ℕ)

def btBiw (bitindex : ℕ) : ℕ := 1 <<< (bitindex &&& (2 ^ sh - 1))

def btTest (bitmap : ℕ → ℕ) (bitindex : ℕ) : Bool := bitmap (bitindex >>> sh) &&& btBiw sh bitindex ≠ 0

def btSet (bitmap : ℕ → ℕ) (bitindex : ℕ) : ℕ → ℕ :=
  update bitmap (bitindex >>> sh) (bitmap (bitindex >>> sh) ||| btBiw sh bitindex)

def btClear (bitmap : ℕ → ℕ) (bitindex : ℕ) : ℕ → ℕ :=
  update bitmap (bitindex >>> sh) (bitmap (bitindex >>> sh) &&& (2 ^ 2 ^ sh - 1 - btBiw sh bitindex))

def highbitSteps : ℕ → ℕ → ℕ → ℕ
  | 0, h, _ => h
  | k + 1, h, i =>
    if i &&& ((2 ^ 2 ^ k - 1) <<< 2 ^ k) ≠ 0 then highbitSteps k (h + 2 ^ k) (i >>> 2 ^ k) else highbitSteps k h i

/-- Bit number + 1 of the highest bit that is set, otherwise 0. -/
def highbit (i : ℕ) : ℕ := if i = 0 then 0 else highbitSteps sh 1 i

/-- The highest order bit that is on, within or below the word `wx`. -/
def btGethighbit (mapp : ℕ → ℕ) : ℕ → ℤ
  | 0 => if mapp 0 = 0 then -1 else (highbit sh (mapp 0) - 1 : ℕ)
  | wx + 1 =>
    if mapp (wx + 1) = 0 then btGethighbit mapp wx
    else ((wx + 1) <<< sh ||| (highbit sh (mapp (wx + 1)) - 1) : ℕ)

def Words (m : ℕ → ℕ) : Prop := ∀ k, m k < 2 ^ 2 ^ sh

variable {sh} {m : ℕ → ℕ} {i j w wx : ℕ}

theorem btBiw_eq : btBiw sh i = 2 ^ (i % 2 ^ sh) := by
  rw [btBiw, and_two_pow_sub_one_eq_mod, one_shiftLeft]

theorem btBiw_lt : btBiw sh i < 2 ^ 2 ^ sh := by
  rw [btBiw_eq]
  exact Nat.pow_lt_pow_right (by decide) (Nat.mod_lt _ (Nat.two_pow_pos _))

theorem btTest_eq : btTest sh m i = (m (i / 2 ^ sh)).testBit (i % 2 ^ sh) := by
  rw [btTest, btBiw_eq, shiftRight_eq_div_pow, and_two_pow]
  cases (m (i / 2 ^ sh)).testBit (i % 2 ^ sh) <;> simp

theorem eq_iff_word_bit (sh j i : ℕ) : j = i ↔ j / 2 ^ sh = i / 2 ^ sh ∧ j % 2 ^ sh = i % 2 ^ sh := by
  constructor
  · rintro rfl
    exact ⟨rfl, rfl⟩
  · rintro ⟨hw, hb⟩
    rw [← div_add_mod j (2 ^ sh), ← div_add_mod i (2 ^ sh), hw, hb]

theorem btTest_update : btTest sh (update m (i / 2 ^ sh) w) j =
    if j / 2 ^ sh = i / 2 ^ sh then w.testBit (j % 2 ^ sh) else btTest sh m j := by
  rw [btTest_eq, btTest_eq, update_apply]
  split <;> rfl

theorem btTest_btSet : btTest sh (btSet sh m i) j ↔ j = i ∨ btTest sh m j := by
  rw [btSet, shiftRight_eq_div_pow, btTest_update, btBiw_eq, btTest_eq, eq_iff_word_bit sh j i]
  by_cases hw : j / 2 ^ sh = i / 2 ^ sh
  · rw [if_pos hw, testBit_or, testBit_two_pow, Bool.or_eq_true, decide_eq_true_eq, eq_comm (b := j % 2 ^ sh)]
    simp [hw, or_comm]
  · simp [hw]

theorem btTest_btClear : btTest sh (btClear sh m i) j ↔ j ≠ i ∧ btTest sh m j := by
  rw [btClear, shiftRight_eq_div_pow, btTest_update, btTest_eq, Ne, eq_iff_word_bit sh j i]
  by_cases hw : j / 2 ^ sh = i / 2 ^ sh
  · have hb : j % 2 ^ sh < 2 ^ sh := Nat.mod_lt _ (Nat.two_pow_pos _)
    rw [Nat.testBit_and, Nat.sub_sub, Nat.add_comm 1, Nat.testBit_two_pow_sub_succ btBiw_lt, btBiw_eq,
      testBit_two_pow, Bool.and_comm]
    simp [hw, hb, eq_comm (a := i % 2 ^ sh)]
  · simp [hw]

theorem Words.btSet (h : Words sh m) (i : ℕ) : Words sh (btSet sh m i) := by
  intro k
  rw [Bitmap.btSet, update_apply]
  split
  · exact or_lt_two_pow (h _) btBiw_lt
  · exact h k

theorem Words.btClear (h : Words sh m) (i : ℕ) : Words sh (btClear sh m i) := by
  intro k
  rw [Bitmap.btClear, update_apply]
  split
  · exact (and_le_left).trans_lt (h _)
  · exact h k

theorem and_mask_eq_zero {k : ℕ} (hi : i < 2 ^ 2 ^ (k + 1)) :
    i &&& ((2 ^ 2 ^ k - 1) <<< 2 ^ k) = 0 ↔ i < 2 ^ 2 ^ k := by
  have hk : 2 ^ (k + 1) = 2 ^ k + 2 ^ k := by omega
  rw [hk] at hi
  have hb (j : ℕ) : (i &&& ((2 ^ 2 ^ k - 1) <<< 2 ^ k)).testBit j = (decide (2 ^ k ≤ j) && i.testBit j) := by
    rw [testBit_and, testBit_shiftLeft]
    by_cases hj : j < 2 ^ k + 2 ^ k
    · by_cases hkj : 2 ^ k ≤ j <;> simp [hkj]
      intro _
      omega
    · rw [Nat.testBit_lt_two_pow (hi.trans_le (Nat.pow_le_pow_right (by decide) (Nat.not_lt.mp hj)))]
      simp
  constructor
  · intro h
    refine lt_pow_two_of_testBit i fun j hj => ?_
    have := hb j
    rw [h] at this
    simpa [hj] using this.symm
  · intro h
    refine eq_of_testBit_eq fun j => ?_
    rw [hb, zero_testBit]
    by_cases hj : 2 ^ k ≤ j
    · rw [Nat.testBit_lt_two_pow (h.trans_le (Nat.pow_le_pow_right (by decide) hj)), Bool.and_false]
    · simp [hj]

theorem highbitSteps_eq {k h : ℕ} (hi : i < 2 ^ 2 ^ k) (h0 : i ≠ 0) : highbitSteps k h i = h + Nat.log 2 i := by
  induction k generalizing h i with
  | zero =>
    obtain rfl : i = 1 := by omega
    rfl
  | succ k ih =>
    have hk : 2 ^ (k + 1) = 2 ^ k + 2 ^ k := by omega
    by_cases hlt : i < 2 ^ 2 ^ k
    · rw [highbitSteps, if_neg (not_not.mpr ((and_mask_eq_zero hi).mpr hlt)), ih hlt h0]
    · rw [highbitSteps, if_pos (mt (and_mask_eq_zero hi).mp hlt), shiftRight_eq_div_pow, ih, log_div_base_pow]
      · have : 2 ^ k ≤ Nat.log 2 i := le_log_of_pow_le (by decide) (not_lt.mp hlt)
        omega
      · rw [Nat.div_lt_iff_lt_mul (Nat.two_pow_pos _), ← pow_add, ← hk]
        exact hi
      · exact Nat.ne_of_gt (Nat.div_pos (Nat.not_lt.mp hlt) (Nat.two_pow_pos _))

theorem highbit_sub_one (hi : i < 2 ^ 2 ^ sh) (h0 : i ≠ 0) : highbit sh i - 1 = Nat.log 2 i := by
  rw [highbit, if_neg h0, highbitSteps_eq hi h0]
  omega

/-- The highest bit of word `wx`, as a bit of the whole map, when no later word counts. -/
theorem highest_in_word {p : ℕ → Prop} {n : ℕ} (h0 : w ≠ 0) (hn : wx * 2 ^ sh + Nat.log 2 w < n) (hw : w < 2 ^ 2 ^ sh)
    (hb : ∀ j < n, wx ≤ j / 2 ^ sh → (p j ↔ j / 2 ^ sh = wx ∧ w.testBit (j % 2 ^ sh))) :
    Highest p n (wx * 2 ^ sh + Nat.log 2 w : ℕ) := by
  have hpos : 0 < 2 ^ sh := Nat.two_pow_pos _
  have hl : Nat.log 2 w < 2 ^ sh := log_lt_of_lt_pow h0 hw
  have hd : (wx * 2 ^ sh + Nat.log 2 w) / 2 ^ sh = wx := by
    rw [mul_comm, mul_add_div hpos, div_eq_of_lt hl, add_zero]
  have hmod : (wx * 2 ^ sh + Nat.log 2 w) % 2 ^ sh = Nat.log 2 w := by
    rw [mul_comm, mul_add_mod, mod_eq_of_lt hl]
  refine .some hn ((hb _ hn hd.ge).mpr ⟨hd, ?_⟩) fun j hj hlt hp => ?_
  · rw [hmod, ← log2_eq_log_two]
    exact testBit_log2 h0
  · have hle : wx ≤ j / 2 ^ sh := (le_div_iff_mul_le hpos).mpr (by omega)
    obtain ⟨hjw, ht⟩ := (hb j hj hle).mp hp
    have hj := div_add_mod j (2 ^ sh)
    rw [hjw, mul_comm] at hj
    have ha : w < 2 ^ (j % 2 ^ sh) :=
      (Nat.lt_pow_succ_log_self (by decide) w).trans_le (Nat.pow_le_pow_right (by decide) (by omega))
    rw [testBit_lt_two_pow ha] at ht
    cases ht

theorem shiftLeft_or_highbit (hw : w < 2 ^ 2 ^ sh) (h0 : w ≠ 0) :
    wx <<< sh ||| (highbit sh w - 1) = wx * 2 ^ sh + Nat.log 2 w := by
  rw [highbit_sub_one hw h0, ← shiftLeft_add_eq_or_of_lt (log_lt_of_lt_pow h0 hw), shiftLeft_eq]

theorem highest_word (hm : Words sh m) (h0 : m wx ≠ 0) :
    Highest (fun i => btTest sh m i) ((wx + 1) * 2 ^ sh) (wx <<< sh ||| (highbit sh (m wx) - 1) : ℕ) := by
  rw [shiftLeft_or_highbit (hm wx) h0]
  refine highest_in_word h0 ?_ (hm wx) fun j hj hle => ?_
  · have := log_lt_of_lt_pow h0 (hm wx)
    rw [succ_mul]
    omega
  · have hw : j / 2 ^ sh = wx := by
      have := (Nat.div_lt_iff_lt_mul (Nat.two_pow_pos sh)).mpr hj
      omega
    rw [btTest_eq, hw]
    simp

theorem btGethighbit_highest (hm : Words sh m) (wx : ℕ) :
    Highest (fun i => btTest sh m i) ((wx + 1) * 2 ^ sh) (btGethighbit sh m wx) := by
  have hz {wx j : ℕ} (h0 : m wx = 0) (hj : j / 2 ^ sh = wx) : ¬ btTest sh m j := by
    rw [btTest_eq, hj, h0]
    simp
  induction wx with
  | zero =>
    rw [btGethighbit]
    split
    next h0 =>
      refine .none fun i hi => hz h0 (div_eq_of_lt ?_)
      omega
    next h0 => simpa using highest_word hm h0
  | succ wx ih =>
    rw [btGethighbit]
    split
    next h0 =>
      refine ih.of_bound (fun i hi _ => hi.trans_le (mul_le_mul_right _ (by omega))) fun i hi hp => ?_
      by_contra hle
      exact hz h0 (Nat.div_eq_of_lt_le (Nat.not_lt.mp hle) hi) hp
    next h0 => exact highest_word hm h0

end Sol8.Os.Bitmap
