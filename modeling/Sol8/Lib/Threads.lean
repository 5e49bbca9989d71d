import Mathlib

/-! Counting threads by their program counters. A counter that a program keeps about its threads
is compared with a tally: the sum over the threads of a weight of where each one stands. Also the sets
of threads that stand at certain places, and logs of what the threads did, with one thread's part of a
log. -/

namespace Sol8.Lib

open Function Finset

variable {T P : Type*} [Fintype T] {w : P → ℤ} {pc : T → P}

def tally (w : P → ℤ) (pc : T → P) : ℤ := ∑ t, w (pc t)

theorem tally_congr {w' : P → ℤ} (h : ∀ t, w (pc t) = w' (pc t)) : tally w pc = tally w' pc :=
  sum_congr rfl fun t _ => h t

theorem tally_eq_zero (h : ∀ t, w (pc t) = 0) : tally w pc = 0 := sum_eq_zero fun t _ => h t

theorem tally_update [DecidableEq T] (w : P → ℤ) (pc : T → P) (t : T) (p : P) :
    tally w (update pc t p) = tally w pc + w p - w (pc t) := by
  have h1 : tally w pc = w (pc t) + ∑ i ∈ Finset.univ.erase t, w (pc i) := (add_sum_erase _ _ (mem_univ t)).symm
  have h2 : tally w (update pc t p) = w p + ∑ i ∈ Finset.univ.erase t, w (pc i) := by
    rw [tally, ← add_sum_erase _ _ (mem_univ t), update_self]
    congr 1
    refine sum_congr rfl fun i hi => ?_
    rw [update_of_ne (ne_of_mem_erase hi)]
  omega

theorem tally_nonneg (hw : ∀ p, 0 ≤ w p) (pc : T → P) : 0 ≤ tally w pc := sum_nonneg fun t _ => hw (pc t)

theorem le_tally (hw : ∀ p, 0 ≤ w p) (pc : T → P) (t : T) : w (pc t) ≤ tally w pc :=
  single_le_sum (f := fun t => w (pc t)) (fun t _ => hw (pc t)) (mem_univ t)

theorem eq_zero_of_tally (hw : ∀ p, 0 ≤ w p) (h : tally w pc = 0) (t : T) : w (pc t) = 0 :=
  le_antisymm (h ▸ le_tally hw pc t) (hw _)

/-! ### Sets of threads -/

section Having

variable {f : P → Bool} {pc : T → P} {t : T} {p : P}

/-- The threads whose program counters have a property. -/
def having (f : P → Bool) (pc : T → P) : Finset T := Finset.univ.filter fun t => f (pc t)

@[simp]
theorem mem_having : t ∈ having f pc ↔ f (pc t) = true := by simp [having]

variable [DecidableEq T]

theorem having_update_same (h : f p = f (pc t)) : having f (update pc t p) = having f pc := by
  ext u
  by_cases hu : u = t
  · simp [hu, h]
  · simp [hu]

theorem having_update_true (h : f p = true) : having f (update pc t p) = insert t (having f pc) := by
  ext u
  by_cases hu : u = t
  · simp [hu, h]
  · simp [hu]

theorem having_update_false (h : f p = false) : having f (update pc t p) = (having f pc).erase t := by
  ext u
  by_cases hu : u = t
  · simp [hu, h]
  · simp [hu]

end Having

/-! ### Logs -/

section Log

variable {T A : Type*} [DecidableEq T]

def ofThread (t : T) (log : List (T × A)) : List A := (log.filter (·.1 = t)).map (·.2)

theorem ofThread_snoc (t : T) (log : List (T × A)) (e : T × A) :
    ofThread t (log ++ [e]) = ofThread t log ++ if e.1 = t then [e.2] else [] := by
  unfold ofThread
  by_cases h : e.1 = t <;> simp [h]

theorem mem_ofThread {t : T} {log : List (T × A)} {a : A} : a ∈ ofThread t log ↔ (t, a) ∈ log := by
  simp [ofThread]

end Log

end Sol8.Lib
