import Mathlib

/-! Circular singly linked lists. The list they spell starts behind the node that was put in last. -/

namespace Sol8.Lib

open Function List

variable {α : Type*} {next next' : α → α} {l : List α} {a b : α} {i : ℕ}

/-- Following `next` from the first node of `l` visits the nodes of `l` in turn and comes back. -/
structure Circle (next : α → α) (l : List α) : Prop where
  nodup : l.Nodup
  step : ∀ i a, l[i]? = some a → l[(i + 1) % l.length]? = some (next a)

namespace Circle

section

variable (h : Circle next l)
include h

theorem congr (hl : ∀ a ∈ l, next' a = next a) : Circle next' l where
  nodup := h.nodup
  step i a ha := by rw [hl a (mem_of_getElem? ha), h.step i a ha]

theorem rotate (k : ℕ) : Circle next (l.rotate k) where
  nodup := nodup_rotate.mpr h.nodup
  step i a ha := by
    have hi : i < l.length := by
      have := (List.getElem?_eq_some_iff.mp ha).1
      rwa [length_rotate] at this
    rw [getElem?_rotate hi] at ha
    have hn := h.step _ a ha
    rw [length_rotate, getElem?_rotate (Nat.mod_lt _ (by omega)), ← hn]
    rw [Nat.mod_add_mod, Nat.mod_add_mod, Nat.add_right_comm]

theorem next_of_lt (ha : l[i]? = some a) (hi : i + 1 < l.length) : l[i + 1]? = some (next a) := by
  have := h.step i a ha
  rwa [Nat.mod_eq_of_lt hi] at this

theorem next_last (hb : l.getLast? = some b) : l[0]? = some (next b) := by
  rw [List.getLast?_eq_getElem?] at hb
  have hlen := (List.getElem?_eq_some_iff.mp hb).1
  have := h.step _ b hb
  rwa [Nat.sub_add_cancel (by omega), Nat.mod_self] at this

end

/-- A turn of the circle brings the node of any index to the end. -/
theorem getLast?_rotate (hi : i < l.length) : (l.rotate (i + 1)).getLast? = l[i]? := by
  rw [getLast?_eq_getElem?, length_rotate, getElem?_rotate (by omega)]
  have hsum : l.length - 1 + (i + 1) = i + l.length := by omega
  rw [hsum, Nat.add_mod_right, Nat.mod_eq_of_lt hi]

variable [DecidableEq α]

theorem singleton (next : α → α) (a : α) : Circle (update next a a) [a] where
  nodup := nodup_singleton a
  step i b hb := by
    obtain ⟨rfl, rfl⟩ : i = 0 ∧ a = b := by
      cases i with
      | zero => exact ⟨rfl, by simpa using hb⟩
      | succ i => simp at hb
    simp

theorem snoc (h : Circle next l) (hb : l.getLast? = some b) (ha : a ∉ l) :
    Circle (update (update next a (next b)) b a) (l ++ [a]) where
  nodup := by
    rw [nodup_append]
    refine ⟨h.nodup, nodup_singleton a, fun c hc d hd => ?_⟩
    rintro rfl
    exact ha (mem_singleton.mp hd ▸ hc)
  step i c hc := by
    have hf := h.next_last hb
    have hab : a ≠ b := fun e => ha (e ▸ mem_of_getLast? hb)
    have hlen : (l ++ [a]).length = l.length + 1 := by simp
    have hpos : 0 < l.length := (List.getElem?_eq_some_iff.mp hf).1
    rw [hlen]
    rcases Nat.lt_trichotomy (i + 1) l.length with hi | hi | hi
    · -- inside of the old list
      rw [getElem?_append_left (by omega)] at hc
      have hcb : c ≠ b := by
        rintro rfl
        rw [getLast?_eq_getElem?] at hb
        have := (getElem?_inj (by omega) h.nodup).mp (hc.trans hb.symm)
        omega
      have hca : c ≠ a := fun e => ha (e ▸ mem_of_getElem? hc)
      rw [Nat.mod_eq_of_lt (by omega), getElem?_append_left hi, update_of_ne hcb, update_of_ne hca]
      exact h.next_of_lt hc hi
    · -- the old last node points to the new one
      obtain rfl : i = l.length - 1 := by omega
      rw [getElem?_append_left (by omega), ← getLast?_eq_getElem?, hb, Option.some.injEq] at hc
      rw [Nat.sub_add_cancel (by omega), ← hc]
      simp
    · -- the new one points to the first
      obtain ⟨hl, hci⟩ := List.getElem?_eq_some_iff.mp hc
      obtain rfl : i = l.length := by omega
      have hca : c = a := by simpa using hci.symm
      rw [Nat.mod_self, getElem?_append_left hpos, hca, update_of_ne hab, update_self]
      exact hf

end Circle

end Sol8.Lib
