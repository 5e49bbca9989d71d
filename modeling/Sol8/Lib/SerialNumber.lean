import Mathlib

/-! Serial-number arithmetic on machine words: two words are compared by the sign of their
wrapped difference. Inside a window of half the word range the comparison agrees with the order
of the distances from the window's base, which is how every use of it is justified. -/

namespace Sol8.Lib

open BitVec

variable {w : ℕ}

/-- Distance of `x` from the start of a window. -/
def offset (base x : BitVec w) : ℕ := (x - base).toNat

/-- The window of half the word range that starts at `base`. -/
def InWindow (base x : BitVec w) : Prop := 2 * offset base x < 2 ^ w

instance (base x : BitVec w) : Decidable (InWindow base x) :=
  inferInstanceAs (Decidable (_ < _))

theorem offset_inj {base x y : BitVec w} (h : offset base x = offset base y) : x = y := by
  have h' : x - base = y - base := eq_of_toNat_eq h
  simpa using congrArg (· + base) h'

theorem sub_eq_sub_sub (base x y : BitVec w) : x - y = (x - base) - (y - base) := by
  rw [sub_sub, add_comm, sub_add_cancel]

/-- The signed difference of two words of one window is the difference of their offsets. -/
theorem toInt_sub_of_inWindow {base x y : BitVec w} (hx : InWindow base x) (hy : InWindow base y) :
    (x - y).toInt = (offset base x : ℤ) - offset base y := by
  unfold InWindow offset at *
  rw [sub_eq_sub_sub base, toInt_sub, toInt_eq_toNat_of_lt hx, toInt_eq_toNat_of_lt hy]
  rw [Int.bmod_eq_of_le] <;> omega

theorem offset_lt (base x : BitVec w) : offset base x < 2 ^ w := (x - base).isLt

/-- The distance from one word up to another, read off the offsets. -/
theorem toNat_sub_eq (base x z : BitVec w) :
    (z - x).toNat = if offset base x ≤ offset base z then offset base z - offset base x
      else 2 ^ w + offset base z - offset base x := by
  rw [sub_eq_sub_sub base, toNat_sub]
  unfold offset at *
  split_ifs with h
  · rw [show 2 ^ w - (x - base).toNat + (z - base).toNat =
      ((z - base).toNat - (x - base).toNat) + 2 ^ w by omega, Nat.add_mod_right,
      Nat.mod_eq_of_lt (by omega)]
  · rw [Nat.mod_eq_of_lt (by omega)]
    omega

/-- A word at distance less than `y - x` above `x` lies between them in the window. -/
theorem sub_lt_sub_iff {base x y : BitVec w} (z : BitVec w) (hxy : offset base x ≤ offset base y) :
    z - x < y - x ↔ offset base x ≤ offset base z ∧ offset base z < offset base y := by
  have hy := offset_lt base y
  rw [lt_def, toNat_sub_eq base x z, toNat_sub_eq base x y]
  split_ifs <;> omega

/-- A word that compares above `x` and below `y` lies between them, and so in their window. -/
theorem offset_between {base x y z : BitVec w} (hxy : offset base x ≤ offset base y)
    (hzx : 0 < (z - x).toInt) (hzy : (z - y).toInt < 0) :
    offset base x < offset base z ∧ offset base z < offset base y := by
  have hz := offset_lt base z
  rw [toInt_eq_toNat_cond, toNat_sub_eq base] at hzx hzy
  split_ifs at hzx hzy <;> omega

/-! ### Words of a clock that counts on -/

/-- Two readings less than a full turn apart are equal only at the same time. -/
theorem ofNat_inj_of_lt {a b : ℕ} (hab : a ≤ b) (hlt : b < a + 2 ^ w)
    (h : BitVec.ofNat w a = BitVec.ofNat w b) : a = b := by
  have hmod : a % 2 ^ w = b % 2 ^ w := by simpa using congrArg BitVec.toNat h
  have hdvd : 2 ^ w ∣ b - a := (Nat.modEq_iff_dvd' hab).mp hmod
  have hz := Nat.eq_zero_of_dvd_of_lt hdvd (by omega)
  omega

/-- The signed difference of two readings less than half a turn apart. -/
theorem toInt_ofNat_sub_ofNat {a b : ℕ} (h1 : 2 * a < 2 * b + 2 ^ w) (h2 : 2 * b ≤ 2 * a + 2 ^ w) :
    (BitVec.ofNat w a - BitVec.ofNat w b).toInt = (a : ℤ) - b := by
  rw [toInt_sub, toInt_ofNat', toInt_ofNat', ← Int.sub_bmod]
  rw [Int.bmod_eq_of_le] <;> omega

end Sol8.Lib
