import Sol8.Pcfs.Fat

/-! Reading and writing the entries of the table. Two neighbouring 12-bit entries share a byte. -/

namespace Sol8.Pcfs

open Function Nat

/-! ### Masks -/

theorem and_low (x : ℕ) : x &&& 0x0f = x % 16 := and_two_pow_sub_one_eq_mod x 4

theorem and_byte (x : ℕ) : x &&& 0xff = x % 256 := and_two_pow_sub_one_eq_mod x 8

theorem and_high (x : ℕ) : (x <<< 4) &&& 0xf0 = 16 * (x % 16) := by
  have hs : (0xf0 : ℕ) = 0xf <<< 4 := rfl
  rw [hs, ← shiftLeft_and_distrib, and_low]
  omega

theorem byte_and_high (b : UInt8) : b.toNat &&& 0xf0 = 16 * (b.toNat / 16) := by
  have ha : ∀ x < 256, x &&& 0xf0 = 16 * (x / 16) := by decide +kernel
  exact ha b.toNat b.toNat_lt

theorem low_or_high {a : ℕ} (ha : a < 16) (b : ℕ) : a ||| 16 * b = a + 16 * b := by
  have hor : 16 * b + a = 16 * b ||| a := two_pow_add_eq_or_of_lt (i := 4) ha b
  rw [lor_comm, ← hor, add_comm]

theorem high_or_low (a : ℕ) {b : ℕ} (hb : b < 16) : 16 * a ||| b = 16 * a + b :=
  (two_pow_add_eq_or_of_lt (i := 4) hb a).symm

/-! ### The entries as numbers -/

/-- A 12-bit value as `pc_getcluster` returns it. -/
def widen12 (e : ℕ) : ℕ := if pcf12bcluster ≤ e then e ||| pcfRescluster else e

/-- A 12-bit entry before it is widened. -/
def raw12 (fatp : ℕ → UInt8) (cn : ℕ) : ℕ :=
  if cn % 2 = 1 then (fatp (cn + cn / 2)).toNat / 16 + 16 * (fatp (cn + cn / 2 + 1)).toNat
  else (fatp (cn + cn / 2)).toNat + 256 * ((fatp (cn + cn / 2 + 1)).toNat % 16)

namespace Volume

variable {v : Volume} {fatp : ℕ → UInt8} {cn cn' : ℕ}

theorem entry_fat12 (h : v.kind = .fat12) : v.entry fatp cn = widen12 (raw12 fatp cn) := by
  have hr : (if cn % 2 = 1 then (((fatp (cn + (cn >>> 1))).toNat &&& 0xf0) >>> 4) + ((fatp (cn + (cn >>> 1) + 1)).toNat <<< 4)
      else (fatp (cn + (cn >>> 1))).toNat + (((fatp (cn + (cn >>> 1) + 1)).toNat &&& 0x0f) <<< 8)) = raw12 fatp cn := by
    simp only [raw12, byte_and_high, and_low, shiftRight_eq_div_pow, shiftLeft_eq, pow_one]
    split <;> omega
  simp only [entry, h, hr, widen12]

theorem entry_fat16 (h : v.kind = .fat16) : v.entry fatp cn = (fatp (2 * cn)).toNat + 256 * (fatp (2 * cn + 1)).toNat := by
  have hf : cn <<< 1 = 2 * cn := by omega
  simp only [entry, h, hf, shiftLeft_eq]
  omega

theorem entry_fat32 (h : v.kind = .fat32) : v.entry fatp cn =
    (fatp (4 * cn)).toNat + 256 * (fatp (4 * cn + 1)).toNat + 65536 * (fatp (4 * cn + 2)).toNat +
      16777216 * (fatp (4 * cn + 3)).toNat := by
  have hf : cn <<< 2 = 4 * cn := by omega
  simp only [entry, h, hf, shiftLeft_eq]
  omega

theorem store_fat12 (h : v.kind = .fat12) (ncn : ℕ) : v.store fatp cn ncn = if cn % 2 = 1 then
      update (update fatp (cn + cn / 2) (.ofNat ((fatp (cn + cn / 2)).toNat % 16 + 16 * (ncn % 16)))) (cn + cn / 2 + 1)
        (.ofNat (ncn / 16))
    else
      update (update fatp (cn + cn / 2) (.ofNat ncn)) (cn + cn / 2 + 1)
        (.ofNat (16 * ((fatp (cn + cn / 2 + 1)).toNat / 16) + ncn / 256 % 16)) := by
  have hb (x : ℕ) : UInt8.ofNat (x % 256) = .ofNat x := by
    apply UInt8.toNat_inj.mp
    simp
  simp only [store, h, byte_and_high, and_high, and_low, and_byte, shiftRight_eq_div_pow, pow_one, hb]
  rw [low_or_high (mod_lt _ (by decide)), high_or_low _ (mod_lt _ (by decide))]

theorem store_fat16 (h : v.kind = .fat16) (ncn : ℕ) : v.store fatp cn ncn =
    update (update fatp (2 * cn) (.ofNat ncn)) (2 * cn + 1) (.ofNat (ncn / 256)) := by
  have hf : cn <<< 1 = 2 * cn := by omega
  simp only [store, h, hf, shiftRight_eq_div_pow]

theorem store_fat32 (h : v.kind = .fat32) (ncn : ℕ) : v.store fatp cn ncn =
    update (update (update (update fatp (4 * cn) (.ofNat ncn)) (4 * cn + 1) (.ofNat (ncn / 256))) (4 * cn + 2)
      (.ofNat (ncn / 65536))) (4 * cn + 3) (.ofNat (ncn / 16777216)) := by
  have hf : cn <<< 2 = 4 * cn := by omega
  simp only [store, h, hf, shiftRight_eq_div_pow]

def stored (v : Volume) (ncn : ℕ) : ℕ :=
  match v.kind with
  | .fat32 => ncn % 2 ^ 32
  | .fat16 => ncn % 2 ^ 16
  | .fat12 => widen12 (ncn % 2 ^ 12)

theorem entry_store_self (ncn : ℕ) : v.entry (v.store fatp cn ncn) cn = v.stored ncn := by
  cases h : v.kind with
  | fat12 =>
    have hr : raw12 (v.store fatp cn ncn) cn = ncn % 2 ^ 12 := by
      rw [store_fat12 h, raw12]
      by_cases hodd : cn % 2 = 1
      all_goals
        simp [hodd]
        omega
    rw [entry_fat12 h, hr]
    simp only [stored, h]
  | fat16 =>
    rw [entry_fat16 h, store_fat16 h]
    simp [stored, h]
    omega
  | fat32 =>
    rw [entry_fat32 h, store_fat32 h]
    simp [stored, h]
    omega

/-- The neighbour's half of a shared byte stays. -/
theorem raw12_store_of_ne (h : v.kind = .fat12) (hne : cn' ≠ cn) (ncn : ℕ) :
    raw12 (v.store fatp cn ncn) cn' = raw12 fatp cn' := by
  rw [store_fat12 h, raw12, raw12]
  by_cases hodd : cn % 2 = 1 <;> by_cases ho' : cn' % 2 = 1 <;> simp only [hodd, ho', if_true, if_false]
  · repeat rw [update_of_ne (by omega)]
  · repeat rw [update_of_ne (by omega)]
    by_cases hs : cn' + cn' / 2 + 1 = cn + cn / 2
    · rw [hs]
      simp
    · rw [update_of_ne hs]
  · by_cases hs : cn' + cn' / 2 = cn + cn / 2 + 1
    · have hb := (fatp (cn + cn / 2 + 1)).toNat_lt
      rw [hs, update_self]
      repeat rw [update_of_ne (by omega)]
      simp only [UInt8.toNat_ofNat', Nat.reducePow] at hb ⊢
      omega
    · repeat rw [update_of_ne (by omega)]
  · repeat rw [update_of_ne (by omega)]

theorem entry_store_of_ne (hne : cn' ≠ cn) (ncn : ℕ) : v.entry (v.store fatp cn ncn) cn' = v.entry fatp cn' := by
  cases h : v.kind with
  | fat12 => rw [entry_fat12 h, entry_fat12 h, raw12_store_of_ne h hne]
  | fat16 =>
    rw [entry_fat16 h, entry_fat16 h, store_fat16 h]
    repeat rw [update_of_ne (by omega)]
  | fat32 =>
    have hb (p : ℕ) (hp : p / 4 ≠ cn) : v.store fatp cn ncn p = fatp p := by
      rw [store_fat32 h]
      repeat rw [update_of_ne (by omega)]
    rw [entry_fat32 h, entry_fat32 h, hb _ (by omega), hb _ (by omega), hb _ (by omega), hb _ (by omega)]

theorem entry_store (fatp : ℕ → UInt8) (cn ncn : ℕ) :
    v.entry (v.store fatp cn ncn) = update (v.entry fatp) cn (v.stored ncn) := by
  funext x
  by_cases hx : x = cn
  · subst hx
    rw [entry_store_self, update_self]
  · rw [entry_store_of_ne hx, update_of_ne hx]

/-- Every cluster number reads back as itself. On FAT12 the numbers from `0xFF0` on read back as reserved, although
`pc_validcl` accepts those below `pcfs_ncluster + 2`. -/
def Readable (v : Volume) : Prop :=
  match v.kind with
  | .fat12 => v.ncluster + pcfFirstcluster ≤ pcf12bcluster
  | .fat16 => v.ncluster + pcfFirstcluster ≤ pcfLastcluster
  | .fat32 => v.ncluster + pcfFirstcluster ≤ pcfLastcluster32

instance : Decidable v.Readable := by
  unfold Readable
  cases v.kind <;> infer_instance

theorem stored_free : v.stored pcfFreecluster = pcfFreecluster := by
  cases h : v.kind <;> simp only [stored, h] <;> decide

theorem isLast_lastMark : v.isLast v.lastMark = true := by
  cases h : v.kind <;> simp only [lastMark, isLast, h] <;> decide

theorem stored_lastMark : v.isLast (v.stored v.lastMark) = true ∧ v.stored v.lastMark ≠ pcfFreecluster := by
  cases h : v.kind <;> simp only [stored, lastMark, isLast, h] <;> decide

theorem lastMark_ne_free : v.lastMark ≠ pcfFreecluster := by
  cases h : v.kind <;> simp only [lastMark, h] <;> decide

theorem pcValidcl_iff : v.pcValidcl cn = true ↔ pcfFirstcluster ≤ cn ∧ cn < v.ncluster + pcfFirstcluster := by
  simp [pcValidcl]

theorem ne_of_valid (h : v.pcValidcl cn = true) : cn ≠ pcfFreecluster ∧ cn ≠ pcfErrorcluster := by
  constructor <;> (rintro rfl; cases h)

theorem stored_valid (hr : v.Readable) (hc : v.pcValidcl cn = true) : v.stored cn = cn := by
  rw [pcValidcl_iff] at hc
  cases h : v.kind <;> simp only [Readable, h] at hr <;> simp only [stored, h, widen12] <;>
    simp only [pcfFirstcluster, pcf12bcluster, pcfLastcluster, pcfLastcluster32] at hr hc
  case fat12 =>
    rw [mod_eq_of_lt (by omega), if_neg (by simp only [pcf12bcluster]; omega)]
  case fat16 => rw [mod_eq_of_lt (by omega)]
  case fat32 => rw [mod_eq_of_lt (by omega)]

theorem not_valid_of_isLast (hr : v.Readable) (hc : v.isLast cn = true) : v.pcValidcl cn = false := by
  rw [Bool.eq_false_iff]
  intro hv
  rw [pcValidcl_iff] at hv
  cases h : v.kind <;> simp only [Readable, h] at hr <;> simp only [isLast, h, decide_eq_true_eq] at hc <;>
    simp only [pcfFirstcluster, pcf12bcluster, pcfLastcluster, pcfLastcluster32] at hr hc hv <;> omega

end Volume

end Sol8.Pcfs
