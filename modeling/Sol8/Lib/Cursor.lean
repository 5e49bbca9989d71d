import Mathlib

/-! A cursor on a list that others edit.

A walker stands on an element of a list. Elements are added at the head and removed anywhere while
it stands there; what is before it only gains the added elements. -/

namespace Sol8.Lib.Cursor

variable {α : Type} [DecidableEq α] {p q x : α} {l m : List α}

def before (p : α) (l : List α) : List α := l.takeWhile (· ≠ p)

def after (p : α) (l : List α) : List α := (l.dropWhile (· ≠ p)).tail

attribute [local simp] before

theorem before_cons_of_ne (h : x ≠ p) : before p (x :: l) = x :: before p l := by
  simp [h]

theorem ne_of_mem_before (h : q ∈ before p l) : q ≠ p := by
  simpa using List.mem_takeWhile_imp h

theorem mem_of_mem_before (h : q ∈ before p l) : q ∈ l := List.takeWhile_subset _ h

theorem mem_of_mem_before_append (h : q ∈ before p (l ++ p :: m)) : q ∈ l := by
  induction l with
  | nil => simp at h
  | cons x l ih =>
    by_cases hx : x = p
    · simp [hx] at h
    · rw [List.cons_append, before_cons_of_ne hx, List.mem_cons] at h
      exact List.mem_cons.mpr (h.imp_right ih)

theorem before_append (h : p ∉ l) : before p (l ++ p :: m) = l := by
  induction l with
  | nil => simp
  | cons x l ih =>
    rw [List.mem_cons, not_or] at h
    rw [List.cons_append, before_cons_of_ne (Ne.symm h.1), ih h.2]

theorem after_append (h : p ∉ l) : after p (l ++ p :: m) = m := by
  induction l with
  | nil => simp [after]
  | cons x l ih =>
    rw [List.mem_cons, not_or] at h
    have := ih h.2
    simpa [after, Ne.symm h.1] using this

theorem mem_before_of_erase (hx : x ≠ p) (h : q ∈ before p (l.erase x)) : q ∈ before p l := by
  induction l with
  | nil => exact h
  | cons y l ih =>
    by_cases hy : y = x
    · subst hy
      rw [List.erase_cons_head] at h
      rw [before_cons_of_ne hx]
      exact List.mem_cons_of_mem _ h
    · rw [List.erase_cons_tail (by simpa using hy)] at h
      by_cases hp : y = p
      · simp [hp] at h
      · rw [before_cons_of_ne hp, List.mem_cons] at h ⊢
        exact h.imp_right ih

theorem erase_eq_before_append_after (p : α) (l : List α) : l.erase p = before p l ++ after p l := by
  induction l with
  | nil => rfl
  | cons x l ih =>
    by_cases hx : x = p
    · simp [after, hx]
    · rw [List.erase_cons_tail (by simpa using hx), before_cons_of_ne hx, ih]
      simp [after, hx]

end Sol8.Lib.Cursor
