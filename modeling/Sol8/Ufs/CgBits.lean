import Sol8.Lib.BitRuns
import Sol8.Ufs.Cg

/-! What the operations on the maps do to their bits, for blocks of 1, 2, 4 and 8 fragments, and that the
bit patterns and tables for fragments find the maximal runs. -/

namespace Sol8.Ufs

open Function Sol8.Lib.BitRuns BitVec Nat List

variable {fs : Fs} {a : Map} {i j h b n loc : ℕ} {k : ℕ} {es : List ℕ} {b : ℕ}

theorem and_shift_ne_zero (x : BitVec 8) (hk : k < 8) : decide (x &&& 1#8 <<< k ≠ 0) = x.getLsbD k := by
  interval_cases k <;> revert x <;> decide

theorem isset_eq : isset a i = (a (i / 8)).getLsbD (i % 8) := and_shift_ne_zero _ (mod_lt _ (by decide))

theorem isset_update {x : BitVec 8} : isset (update a b x) j = if j / 8 = b then x.getLsbD (j % 8) else isset a j := by
  rw [isset_eq, isset_eq]
  by_cases hj : j / 8 = b
  · rw [hj, update_self, if_pos rfl]
  · rw [update_of_ne hj, if_neg hj]

theorem getLsbD_one_shift {t : ℕ} (hk : k < 8) (ht : t < 8) : (1#8 <<< k).getLsbD t = decide (t = k) := by
  interval_cases k <;> interval_cases t <;> rfl

@[simp] theorem isset_setbit : isset (setbit a i) j = (decide (j = i) || isset a j) := by
  rw [setbit, nbby, isset_update]
  split
  case isTrue hb =>
    have hj : j % 8 = i % 8 ↔ j = i := by omega
    rw [getLsbD_or, getLsbD_one_shift (mod_lt _ (by decide)) (mod_lt _ (by decide)), Bool.or_comm, ← hb,
      ← isset_eq, decide_eq_decide.mpr hj]
  case isFalse hb =>
    have hj : j ≠ i := by
      rintro rfl
      exact hb rfl
    simp [hj]

@[simp] theorem isset_clrbit : isset (clrbit a i) j = (decide (j ≠ i) && isset a j) := by
  rw [clrbit, nbby, isset_update]
  split
  case isTrue hb =>
    have hj : j % 8 = i % 8 ↔ j = i := by omega
    have hlt : j % 8 < 8 := mod_lt _ (by decide)
    rw [getLsbD_and, getLsbD_not, getLsbD_one_shift (mod_lt _ (by decide)) hlt, ← hb, ← isset_eq]
    simp [hlt, hj, Bool.and_comm]
  case isFalse hb =>
    have hj : j ≠ i := by
      rintro rfl
      exact hb rfl
    simp [hj]

theorem isset_clrbits : isset (clrbits a b n) j = clear (isset a) b n j := by
  induction n with
  | zero => rw [clrbits, clear_of_not_mem (by omega)]
  | succ n ih =>
    rw [clrbits, isset_clrbit, ih]
    by_cases hj : j = b + n
    · have hc : clear (isset a) b (n + 1) j = false := clear_of_mem (by omega) (by omega)
      rw [hc, decide_eq_false (not_not.mpr hj), Bool.false_and]
    · by_cases hc : b ≤ j ∧ j < b + n
      · rw [clear_of_mem hc.1 hc.2, clear_of_mem hc.1 (by omega), Bool.and_false]
      · rw [clear_of_not_mem hc, clear_of_not_mem (by omega)]
        simp [hj]

theorem isset_setbits : isset (setbits a b n) j = (isset a j || (decide (b ≤ j) && decide (j < b + n))) := by
  induction n with
  | zero =>
    have : ¬ (b ≤ j ∧ j < b) := by omega
    simp [setbits, ← Bool.decide_and, this]
  | succ n ih =>
    rw [setbits, isset_setbit, ih]
    by_cases hj : j = b + n
    · simp [hj]
    · have : j < b + (n + 1) ↔ j < b + n := by omega
      simp [hj, this]

/-! Blocks. -/

/-- The byte of a block, and the bits of the block in it. -/
def blkbyte (fs : Fs) (h : ℕ) : ℕ := h / (8 / fs.frag)

def blkmask (fs : Fs) (h : ℕ) : BitVec 8 := BitVec.ofNat 8 (2 ^ fs.frag - 1) <<< (h % (8 / fs.frag) * fs.frag)

theorem getLsbD_blkmask (hj : j < 8) : (blkmask fs h).getLsbD j = decide (j / fs.frag = h % (8 / fs.frag)) := by
  unfold blkmask
  rcases fs.frag_eq with hf | hf | hf | hf <;> rw [hf]
  · have := mod_lt h (show 0 < 8 / 1 by decide)
    generalize h % (8 / 1) = r at this
    interval_cases r <;> interval_cases j <;> rfl
  · have := mod_lt h (show 0 < 8 / 2 by decide)
    generalize h % (8 / 2) = r at this
    interval_cases r <;> interval_cases j <;> rfl
  · have := mod_lt h (show 0 < 8 / 4 by decide)
    generalize h % (8 / 4) = r at this
    interval_cases r <;> interval_cases j <;> rfl
  · rw [show h % (8 / 8) = 0 from mod_one h]
    interval_cases j <;> rfl

/-- A bit is in the block if it is in its byte and under its mask. -/
theorem div_frag_eq_iff : j / fs.frag = h ↔ j / 8 = blkbyte fs h ∧ j % 8 / fs.frag = h % (8 / fs.frag) := by
  unfold blkbyte
  rcases fs.frag_eq with hf | hf | hf | hf <;> (rw [hf]; omega)

theorem frag_pos : 0 < fs.frag := by
  rcases fs.frag_eq with hf | hf | hf | hf <;> omega

/-- The byte and the mask, as the switches over the number of fragments have them. -/
theorem blk_cases (fs : Fs) (h : ℕ) : fs.frag = 1 ∧ blkbyte fs h = h >>> 3 ∧ blkmask fs h = 0x01#8 <<< (h &&& 0x7) ∨
    fs.frag = 2 ∧ blkbyte fs h = h >>> 2 ∧ blkmask fs h = 0x03#8 <<< ((h &&& 0x3) <<< 1) ∨
    fs.frag = 4 ∧ blkbyte fs h = h >>> 1 ∧ blkmask fs h = 0x0f#8 <<< ((h &&& 0x1) <<< 2) ∨
    fs.frag = 8 ∧ blkbyte fs h = h ∧ blkmask fs h = 0xff#8 := by
  have h3 : h &&& 7 = h % 8 := and_two_pow_sub_one_eq_mod h 3
  have h2 : h &&& 3 = h % 4 := and_two_pow_sub_one_eq_mod h 2
  rw [blkbyte, blkmask]
  rcases fs.frag_eq with hf | hf | hf | hf <;> rw [hf]
  · simp [shiftRight_eq_div_pow, h3]
  · simp [Nat.shiftRight_eq_div_pow, Nat.shiftLeft_eq, h2]
  · simp [Nat.shiftRight_eq_div_pow, Nat.shiftLeft_eq]
  · simp [mod_one]

theorem setblock_eq : setblock fs a h = update a (blkbyte fs h) (a (blkbyte fs h) ||| blkmask fs h) := by
  unfold setblock
  rcases blk_cases fs h with hc | hc | hc | hc <;> simp only [hc]
  rw [show a h ||| 0xff#8 = 0xff#8 from or_allOnes]
  rfl

theorem clrblock_eq : clrblock fs a h = update a (blkbyte fs h) (a (blkbyte fs h) &&& ~~~blkmask fs h) := by
  unfold clrblock
  rcases blk_cases fs h with hc | hc | hc | hc <;> simp only [hc]
  rw [show a h &&& ~~~0xff#8 = 0#8 from and_zero]
  rfl

theorem isblock_eq : isblock fs a h = decide (a (blkbyte fs h) &&& blkmask fs h = blkmask fs h) := by
  unfold isblock
  rcases blk_cases fs h with hc | hc | hc | hc <;> simp only [hc]
  rw [show a h &&& 0xff#8 = a h from and_allOnes]
  rfl

theorem isclrblock_eq : isclrblock fs a h = decide (a (blkbyte fs h) = a (blkbyte fs h) &&& ~~~blkmask fs h) := by
  unfold isclrblock
  rcases blk_cases fs h with hc | hc | hc | hc <;> simp only [hc]
  rw [show a h &&& ~~~0xff#8 = 0#8 from and_zero]
  rfl

@[simp] theorem isset_setblock : isset (setblock fs a h) j = (decide (j / fs.frag = h) || isset a j) := by
  rw [setblock_eq, isset_update]
  split
  case isTrue hb =>
    have hf : j / fs.frag = h ↔ j % 8 / fs.frag = h % (8 / fs.frag) := div_frag_eq_iff.trans (and_iff_right hb)
    rw [getLsbD_or, getLsbD_blkmask (mod_lt _ (by decide)), ← hb, ← isset_eq, Bool.or_comm, decide_eq_decide.mpr hf]
  case isFalse hb =>
    have hne : j / fs.frag ≠ h := fun he => hb (div_frag_eq_iff.mp he).1
    rw [decide_eq_false hne, Bool.false_or]

@[simp] theorem isset_clrblock : isset (clrblock fs a h) j = (decide (j / fs.frag ≠ h) && isset a j) := by
  rw [clrblock_eq, isset_update]
  split
  case isTrue hb =>
    have hlt : j % 8 < 8 := mod_lt _ (by decide)
    have hf : j / fs.frag = h ↔ j % 8 / fs.frag = h % (8 / fs.frag) := div_frag_eq_iff.trans (and_iff_right hb)
    rw [getLsbD_and, getLsbD_not, getLsbD_blkmask hlt, ← hb, ← isset_eq, Bool.and_comm, decide_not,
      ← decide_eq_decide.mpr hf, decide_eq_true hlt, Bool.true_and]
  case isFalse hb =>
    have hne : j / fs.frag ≠ h := fun he => hb (div_frag_eq_iff.mp he).1
    rw [decide_eq_true hne, Bool.true_and]

theorem forall_blk {P : Bool → Prop} : (∀ j, j / fs.frag = h → P (isset a j)) ↔
    ∀ t < 8, (blkmask fs h).getLsbD t = true → P ((a (blkbyte fs h)).getLsbD t) := by
  constructor
  · intro ha t ht hs
    rw [getLsbD_blkmask ht, decide_eq_true_iff] at hs
    have hby : (blkbyte fs h * 8 + t) / 8 = blkbyte fs h := by omega
    have hbt : (blkbyte fs h * 8 + t) % 8 = t := by omega
    have hj := ha (blkbyte fs h * 8 + t) (div_frag_eq_iff.mpr ⟨hby, by rw [hbt, hs]⟩)
    rwa [isset_eq, hby, hbt] at hj
  · intro ha j hj
    obtain ⟨hb, hm⟩ := div_frag_eq_iff.mp hj
    have hlt : j % 8 < 8 := mod_lt _ (by decide)
    rw [isset_eq, hb]
    exact ha _ hlt (by rw [getLsbD_blkmask hlt, hm, decide_eq_true rfl])

theorem eq_iff_of_mask {x y m : BitVec 8} (ho : ∀ t < 8, m.getLsbD t = false → x.getLsbD t = y.getLsbD t) :
    x = y ↔ ∀ t < 8, m.getLsbD t = true → x.getLsbD t = y.getLsbD t := by
  refine ⟨fun he t _ _ => by rw [he], fun hin => eq_of_getLsbD_eq fun t ht => ?_⟩
  cases hm : m.getLsbD t with
  | true => exact hin t ht hm
  | false => exact ho t ht hm

theorem isblock_iff : isblock fs a h = true ↔ ∀ j, j / fs.frag = h → isset a j = true := by
  rw [forall_blk (P := (· = true)), isblock_eq, decide_eq_true_iff, eq_iff_of_mask (m := blkmask fs h)]
  · exact forall₃_congr fun t _ hm => by simp [hm]
  · exact fun t _ hm => by simp [hm]

theorem isclrblock_iff : isclrblock fs a h = true ↔ ∀ j, j / fs.frag = h → isset a j = false := by
  rw [forall_blk (P := (· = false)), isclrblock_eq, decide_eq_true_iff, eq_iff_of_mask (m := blkmask fs h)]
  · exact forall₃_congr fun t _ hm => by simp [hm]
  · exact fun t ht hm => by rw [getLsbD_and, getLsbD_not, hm, decide_eq_true ht, Bool.not_false, Bool.and_true, Bool.and_true]

/-- The bits of a block as a function: bit `j` is that of fragment `j` of the block. -/
def blk (fs : Fs) (a : Map) (b : ℕ) : ℕ → Bool := fun j => decide (j < fs.frag) && isset a (b * fs.frag + j)

theorem blkmap_mask : 0xff >>> (nbby - fs.frag) = 2 ^ fs.frag - 1 := by
  rcases fs.frag_eq with hf | hf | hf | hf <;> rw [hf] <;> rfl

theorem testBit_blkmap (b : ℕ) : (fs.blkmap a (b * fs.frag)).testBit j = blk fs a b j := by
  rw [Layout.blkmap, blkmap_mask, testBit_and, testBit_shiftRight, testBit_two_pow_sub_one, blk, Bool.and_comm]
  by_cases hj : j < fs.frag
  · have hs : (b * fs.frag + j) / 8 = b * fs.frag / 8 ∧ (b * fs.frag + j) % 8 = b * fs.frag % 8 + j := by
      rcases fs.frag_eq with hf | hf | hf | hf <;> (rw [hf] at hj ⊢; omega)
    rw [isset_eq, hs.1, hs.2]
    rfl
  · rw [decide_eq_false hj, Bool.false_and, Bool.false_and]

theorem blkmap_lt (b : ℕ) : fs.blkmap a (b * fs.frag) < 2 ^ fs.frag := by
  rw [Layout.blkmap, blkmap_mask]
  exact Nat.lt_of_le_of_lt Nat.and_le_right (Nat.sub_lt (Nat.two_pow_pos _) (by decide))

theorem isblock_iff_full : isblock fs a b = true ↔ Full (blk fs a b) fs.frag := by
  rw [isblock_iff]
  constructor
  · intro ha j hj
    rw [blk, decide_eq_true hj]
    exact ha _ (by rw [mul_comm, mul_add_div frag_pos, div_eq_of_lt hj, add_zero])
  · rintro ha j rfl
    have := ha (j % fs.frag) (mod_lt _ frag_pos)
    rw [blk, mul_comm, div_add_mod] at this
    exact (Bool.and_eq_true_iff.mp this).2

/-! Patterns. -/

def hasPattern (p k pos : ℕ) : Bool :=
  Nat.beq (Nat.land (Nat.shiftLeft p 1) (Nat.shiftLeft (2 ^ (k + 2) - 1) pos)) (Nat.shiftLeft (2 ^ (k + 1) - 2) pos)

theorem around_eq (hk : k ≤ 8) : around.getD k 0 = 2 ^ (k + 2) - 1 := by interval_cases k <;> rfl

theorem inside_eq (hk : k ≤ 8) : inside.getD k 0 = 2 ^ (k + 1) - 2 := by interval_cases k <;> rfl

theorem hasPattern_iff {p pos : ℕ} (hk : k ≤ 8) :
    hasPattern p k pos = true ↔ (p <<< 1) &&& ((around.getD k 0) <<< pos) = (inside.getD k 0) <<< pos := by
  rw [hasPattern, beq_eq, around_eq hk, inside_eq hk]
  rfl

theorem hasPattern_iff_isRun {p pos n : ℕ} {f : ℕ → Bool} (hk : 0 < k) (hpos : pos + k ≤ n)
    (hp : ∀ j, p.testBit j = f j) (hn : ∀ j, n ≤ j → f j = false) : hasPattern p k pos = true ↔ IsRun f n pos k := by
  have hin : 2 ^ (k + 1) - 2 = (2 ^ k - 1) <<< 1 := by
    rw [Nat.shiftLeft_eq, Nat.sub_mul, ← Nat.pow_add]
  rw [hasPattern, beq_eq, hin]
  change (p <<< 1) &&& ((2 ^ (k + 2) - 1) <<< pos) = ((2 ^ k - 1) <<< 1) <<< pos ↔ _
  have hb (t : ℕ) : ((p <<< 1) &&& ((2 ^ (k + 2) - 1) <<< pos)).testBit t =
      ((decide (1 ≤ t) && f (t - 1)) && (decide (pos ≤ t) && decide (t - pos < k + 2))) := by
    rw [testBit_and, testBit_shiftLeft, testBit_shiftLeft, testBit_two_pow_sub_one, hp]
  have hb' (t : ℕ) : (((2 ^ k - 1) <<< 1) <<< pos).testBit t =
      (decide (pos ≤ t) && (decide (1 ≤ t - pos) && decide (t - pos - 1 < k))) := by
    rw [testBit_shiftLeft, testBit_shiftLeft, testBit_two_pow_sub_one]
  constructor
  · intro he
    have ha (t : ℕ) := (hb t).symm.trans ((congrArg (Nat.testBit · t) he).trans (hb' t))
    refine ⟨hk, hpos, fun j hj => ?_, fun h0 => ?_, fun hlt => ?_⟩
    · have := ha (pos + j + 1)
      simpa [show pos ≤ pos + j + 1 by omega, show pos + j + 1 - pos = j + 1 by omega, hj, show j + 1 < k + 2 by omega] using this
    · have := ha pos
      simpa [show 1 ≤ pos by omega] using this
    · have := ha (pos + k + 1)
      simpa [show pos ≤ pos + k + 1 by omega, show pos + k + 1 - pos = k + 1 by omega] using this
  · rintro ⟨-, -, hs, hl, hr⟩
    apply eq_of_testBit_eq
    intro t
    rw [hb]
    rcases lt_or_ge t pos with h1 | h1
    · simp [show ¬ pos ≤ t by omega]
    rcases eq_or_lt_of_le h1 with rfl | h1
    · cases pos with
      | zero => simp
      | succ pos => simpa using hl (by omega)
    rcases lt_or_ge t (pos + k + 1) with h2 | h2
    · have := hs (t - 1 - pos) (by omega)
      rw [show pos + (t - 1 - pos) = t - 1 by omega] at this
      simp [this, show 1 ≤ t by omega, show pos ≤ t by omega, show t - pos < k + 2 by omega, show 1 ≤ t - pos by omega,
        show t - pos - 1 < k by omega]
    rcases eq_or_lt_of_le h2 with rfl | h2
    · have : f (pos + k) = false := by
        rcases lt_or_ge (pos + k) n with hlt | hge
        · exact hr hlt
        · exact hn _ hge
      simp [this, show pos + k + 1 - pos - 1 = k by omega]
    · simp [show ¬ t - pos < k + 2 by omega, show ¬ t - pos - 1 < k by omega]

/-- Each entry of a table for bytes from `v` on has the bits of the sizes that the blocks of the byte have. -/
def tblCheck (frag : ℕ) : List ℕ → ℕ → Bool
  | [], _ => true
  | e :: es, v =>
    ((range frag).all fun k =>
      Nat.testBit e (k + frag % 8) ==
        (range (8 / frag)).any fun r =>
          (range (frag - k)).any (hasPattern (Nat.land (Nat.shiftRight v (r * frag)) (2 ^ frag - 1)) (k + 1))) &&
      tblCheck frag es (v + 1)

theorem tblCheck_spec {frag v : ℕ} (hc : tblCheck frag es v = true) (hi : i < es.length) (hk : k < frag) :
    (es.getD i 0).testBit (k + frag % 8) = true ↔ ∃ r < 8 / frag, ∃ pos < frag - k,
      hasPattern ((v + i) >>> (r * frag) &&& (2 ^ frag - 1)) (k + 1) pos = true := by
  induction es generalizing v i with
  | nil => simp at hi
  | cons e es ih =>
    rw [tblCheck, Bool.and_eq_true] at hc
    cases i with
    | zero =>
      have he := beq_iff_eq.mp (all_eq_true.mp hc.1 k (mem_range.mpr hk))
      rw [getD_cons_zero, he]
      simp only [any_eq_true, mem_range]
      rfl
    | succ i =>
      rw [getD_cons_succ, ih hc.2 (by simpa using hi), show v + 1 + i = v + (i + 1) by omega]

theorem and_one_shiftLeft_ne_zero {x : ℕ} : x &&& (1 <<< k) ≠ 0 ↔ x.testBit k = true := by
  rw [Nat.shiftLeft_eq, Nat.one_mul, Nat.and_two_pow]
  cases x.testBit k <;> simp

theorem blk_of_frag_le (hj : fs.frag ≤ j) : blk fs a b j = false := by
  rw [blk, decide_eq_false (by omega), Bool.false_and]

/-- What `fragacct` counts for the bits of a block. -/
def acctCheck (frag : ℕ) : List ℕ → ℕ → Bool
  | [], _ => true
  | e :: es, p =>
    ((range (frag - 1)).all fun k =>
      Nat.beq (if Nat.testBit (e <<< 1) (k + 1 + frag % 8) then
          acct frag (p <<< 1) (k + 1) frag (k + 1) (around.getD (k + 1) 0) (inside.getD (k + 1) 0) else 0)
        ((range (frag - k)).countP (hasPattern p (k + 1)))) &&
      acctCheck frag es (p + 1)

theorem acctCheck_spec {frag p : ℕ} (hc : acctCheck frag es p = true) (hi : i < es.length) (hk : k < frag - 1) :
    (if Nat.testBit (es.getD i 0 <<< 1) (k + 1 + frag % 8) then
      acct frag ((p + i) <<< 1) (k + 1) frag (k + 1) (around.getD (k + 1) 0) (inside.getD (k + 1) 0) else 0) =
    (range (frag - k)).countP (hasPattern (p + i) (k + 1)) := by
  induction es generalizing p i with
  | nil => simp at hi
  | cons e es ih =>
    rw [acctCheck, Bool.and_eq_true] at hc
    cases i with
    | zero => exact eq_of_beq_eq_true (all_eq_true.mp hc.1 k (mem_range.mpr hk))
    | succ i =>
      rw [show p + (i + 1) = p + 1 + i by omega]
      exact ih hc.2 (by simpa using hi)

/-- The tables are those of the runs. -/
theorem fragtbl_checked : ∀ frag ∈ [1, 2, 4, 8], tblCheck frag (fragtbl frag) 0 = true ∧ (fragtbl frag).length = 256 ∧
    acctCheck frag ((fragtbl frag).take (2 ^ frag)) 0 = true ∧ ((fragtbl frag).take (2 ^ frag)).length = 2 ^ frag := by
  decide +kernel

theorem frag_mem : fs.frag ∈ [1, 2, 4, 8] := by simpa using fs.frag_eq

/-- The table finds the bytes that have a maximal run of a size in one of their blocks. -/
theorem fragtbl_iff {B : ℕ} (hk : 0 < k) (hkf : k ≤ fs.frag) :
    (fragtbl fs.frag).getD (a B).toNat 0 &&& (1 <<< (k - 1 + fs.frag % nbby)) ≠ 0 ↔
      ∃ b, b / (8 / fs.frag) = B ∧ ∃ pos, IsRun (blk fs a b) fs.frag pos k := by
  obtain ⟨hc, hlen, -, -⟩ := fragtbl_checked fs.frag frag_mem
  have hb (r : ℕ) (hr : r < 8 / fs.frag) :
      (a B).toNat >>> (r * fs.frag) &&& (2 ^ fs.frag - 1) = fs.blkmap a ((B * (8 / fs.frag) + r) * fs.frag) := by
    have hl : (B * (8 / fs.frag) + r) * fs.frag / 8 = B ∧ (B * (8 / fs.frag) + r) * fs.frag % 8 = r * fs.frag := by
      rcases fs.frag_eq with hf | hf | hf | hf <;> (rw [hf] at hr ⊢; omega)
    rw [Layout.blkmap, nbby, hl.1, hl.2]
    rcases fs.frag_eq with hf | hf | hf | hf <;> rw [hf] <;> rfl
  have hn (b pos : ℕ) (hpos : pos + k ≤ fs.frag) :
      hasPattern (fs.blkmap a (b * fs.frag)) k pos = true ↔ IsRun (blk fs a b) fs.frag pos k :=
    hasPattern_iff_isRun hk hpos (fun _ => testBit_blkmap b) fun _ => blk_of_frag_le
  rw [and_one_shiftLeft_ne_zero, nbby, tblCheck_spec hc (by rw [hlen]; exact (a B).isLt) (by omega), zero_add,
    Nat.sub_add_cancel hk]
  constructor
  · rintro ⟨r, hr, pos, hpos, hp⟩
    refine ⟨B * (8 / fs.frag) + r, ?_, pos, ?_⟩
    · rw [mul_comm, mul_add_div (by omega), div_eq_of_lt hr, add_zero]
    · rwa [hb r hr, hn _ _ (by omega)] at hp
  · rintro ⟨b, rfl, pos, hp⟩
    have h8 : 0 < 8 / fs.frag := by
      rcases fs.frag_eq with hf | hf | hf | hf <;> rw [hf] <;> decide
    have hlt := mod_lt b h8
    have hpos := hp.2.1
    refine ⟨b % (8 / fs.frag), hlt, pos, by omega, ?_⟩
    rw [hb _ hlt, div_add_mod', hn _ _ hpos]
    exact hp

theorem countP_hasPattern (hk : 0 < k) (hf : k < fs.frag) :
    (range (fs.frag + 1 - k)).countP (hasPattern (fs.blkmap a (b * fs.frag)) k) = runs (blk fs a b) fs.frag k := by
  have hs : ((Finset.range fs.frag).filter fun i => IsRun (blk fs a b) fs.frag i k) =
      (Finset.range (fs.frag + 1 - k)).filter fun i => hasPattern (fs.blkmap a (b * fs.frag)) k i = true := by
    ext pos
    simp only [Finset.mem_filter, Finset.mem_range]
    constructor
    · rintro ⟨-, hr⟩
      have hpos := hr.2.1
      exact ⟨by omega, (hasPattern_iff_isRun hk hpos (fun _ => testBit_blkmap b) fun _ => blk_of_frag_le).mpr hr⟩
    · rintro ⟨hpos, hp⟩
      refine ⟨by omega, ?_⟩
      exact (hasPattern_iff_isRun hk (by omega) (fun _ => testBit_blkmap b) fun _ => blk_of_frag_le).mp hp
  rw [runs, hs, countP_eq_length_filter]
  simp only [Finset.card, Finset.filter, Finset.range, Multiset.range, Multiset.filter_coe, Multiset.coe_card,
    Bool.decide_eq_true]

/-- `fragacct` adds the maximal runs of the block, for each size below that of the block. -/
theorem fragacct_apply {l : ℕ → ℤ} {cnt : ℤ} (hk : 0 < k) (hf : k < fs.frag) :
    fragacct fs (fs.blkmap a (b * fs.frag)) l cnt k = l k + cnt * runs (blk fs a b) fs.frag k := by
  obtain ⟨-, -, hc, hlen⟩ := fragtbl_checked fs.frag frag_mem
  have hlt : fs.blkmap a (b * fs.frag) < 2 ^ fs.frag := blkmap_lt b
  have hs := acctCheck_spec hc (i := fs.blkmap a (b * fs.frag)) (k := k - 1) (by rwa [hlen]) (by omega)
  rw [Nat.zero_add, Nat.sub_add_cancel hk, show fs.frag - (k - 1) = fs.frag + 1 - k by omega, countP_hasPattern hk hf,
    getD_eq_getElem?_getD, getElem?_take_of_lt hlt, ← getD_eq_getElem?_getD] at hs
  rw [← hs, fragacct, nbby]
  by_cases hb : (fragtbl fs.frag).getD (fs.blkmap a (b * fs.frag)) 0 <<< 1 &&& (1 <<< (k + fs.frag % 8)) = 0
  · have hb' := mt and_one_shiftLeft_ne_zero.mpr (not_not.mpr hb)
    rw [if_pos (.inr (.inr hb)), if_neg hb']
    simp
  · rw [if_neg (by omega), if_pos (and_one_shiftLeft_ne_zero.mp hb)]

end Sol8.Ufs
