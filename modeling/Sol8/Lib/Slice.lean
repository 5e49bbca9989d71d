import Mathlib

/-! The part of a list between two positions. -/

namespace Sol8.Lib

variable {β : Type*} {l : List β} {a b c : ℕ}

/-- The elements from position `a` up to position `b`. -/
def slice (l : List β) (a b : ℕ) : List β := (l.take b).drop a

theorem length_slice (h : b ≤ l.length) : (slice l a b).length = b - a := by
  simp [slice, Nat.min_eq_left h]

theorem drop_slice (k : ℕ) : (slice l a b).drop k = slice l (a + k) b := by
  rw [slice, slice, List.drop_drop]

theorem take_slice (hab : a ≤ b) (hb : b ≤ c) : (slice l a c).take (b - a) = slice l a b := by
  rw [slice, slice, List.take_drop, List.take_take, Nat.add_sub_cancel' hab, Nat.min_eq_left hb]

theorem slice_append (hab : a ≤ b) (hb : b ≤ c) : slice l a b ++ slice l b c = slice l a c := by
  have hd : (slice l a c).drop (b - a) = slice l b c := by
    rw [drop_slice, Nat.add_sub_cancel' hab]
  rw [← take_slice hab hb, ← hd, List.take_append_drop]

theorem slice_length : slice l 0 l.length = l := by
  simp [slice]

end Sol8.Lib
