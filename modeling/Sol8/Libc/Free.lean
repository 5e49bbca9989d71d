import Mathlib

/-! The ring of pending frees of `malloc` (`lib/libc/port/gen/malloc.c`). The blocks themselves are a parameter: whether
`BIT0` of a block is set, and what `realfree` does. -/

namespace Sol8.Libc.Malloc

open Function

def freesize : ℕ := 32
def freemask : ℕ := freesize - 1

structure State (P H : Type) where
  flist : ℕ → Option P
  freeidx : ℕ
  lfree : Option P
  heap : H

variable {P H : Type} [DecidableEq P] (busy : H → P → Bool) (realfree : P → H → H)

/-- The three tests of `_free_unlocked`: last freed, not in use, or in the free list. -/
def Seen (s : State P H) (old : P) : Prop :=
  s.lfree = some old ∨ busy s.heap old = false ∨ ∃ i < s.freeidx, s.flist i = some old

instance (s : State P H) (old : P) : Decidable (Seen busy s old) := inferInstanceAs (Decidable (_ ∨ _ ∨ _))

def push (s : State P H) (old : P) : State P H where
  flist := update s.flist s.freeidx (some old)
  freeidx := (s.freeidx + 1) &&& freemask
  lfree := some old
  heap := ((s.flist s.freeidx).map (realfree · s.heap)).getD s.heap

def freeUnlocked (s : State P H) : Option P → State P H
  | none => s
  | some old => if Seen busy s old then s else push realfree s old

def frees (s : State P H) (l : List P) : State P H := l.foldl (fun s old => freeUnlocked busy realfree s (some old)) s

/-- There is nothing from `freeidx` on, and the last block that was freed is before it. -/
structure Unwrapped (s : State P H) : Prop where
  rest : ∀ i, s.freeidx ≤ i → s.flist i = none
  last : ∀ p, s.lfree = some p → ∃ i < s.freeidx, s.flist i = some p

variable {busy realfree} {s s' : State P H} {p : P} {l : List P}

omit [DecidableEq P] in
theorem Unwrapped.seen_iff (h : Unwrapped s) : Seen busy s p ↔ busy s.heap p = false ∨ ∃ i < s.freeidx, s.flist i = some p :=
  or_iff_right_of_imp fun hl => .inr (h.last p hl)

/-- A call before the ring wraps: the block is seen from now on, and so are those that were. -/
theorem Unwrapped.free (h : Unwrapped s) (hi : s.freeidx + 1 < freesize) (he : s' = freeUnlocked busy realfree s (some p)) :
    Unwrapped s' ∧ s'.freeidx ≤ s.freeidx + 1 ∧ Seen busy s' p ∧ ∀ q, Seen busy s q → Seen busy s' q := by
  rw [freeUnlocked] at he
  split_ifs at he with hs
  · rw [he]
    exact ⟨h, Nat.le_succ _, hs, fun _ => id⟩
  · have hx : (s.freeidx + 1) &&& freemask = s.freeidx + 1 :=
      (Nat.and_two_pow_sub_one_eq_mod _ 5).trans (Nat.mod_eq_of_lt hi)
    obtain ⟨ef, ei, el, eh⟩ : s'.flist = update s.flist s.freeidx (some p) ∧ s'.freeidx = s.freeidx + 1 ∧
        s'.lfree = some p ∧ s'.heap = s.heap := by
      rw [he, push, h.rest _ (Nat.le_refl _), hx]
      exact ⟨rfl, rfl, rfl, rfl⟩
    have hw : Unwrapped s' := by
      refine ⟨fun i hi' => ?_, fun q hq => ⟨s.freeidx, ei ▸ Nat.lt_succ_self _, ?_⟩⟩
      · rw [ei] at hi'
        rw [ef, update_of_ne (Nat.ne_of_gt hi')]
        exact h.rest i (Nat.le_of_succ_le hi')
      · rw [ef, update_self, ← el, hq]
    refine ⟨hw, Nat.le_of_eq ei, .inl el, fun q hq => hw.seen_iff.mpr ?_⟩
    rw [eh, ei, ef]
    refine (h.seen_iff.mp hq).imp_right fun ⟨i, hi', hq⟩ => ⟨i, Nat.lt_succ_of_lt hi', ?_⟩
    rw [update_of_ne (Nat.ne_of_lt hi'), hq]

theorem Unwrapped.frees (h : Unwrapped s) (hi : s.freeidx + l.length < freesize) (hp : p ∈ l ∨ Seen busy s p) :
    Seen busy (frees busy realfree s l) p := by
  induction l generalizing s with
  | nil => exact hp.resolve_left nofun
  | cons a l ih =>
    rw [List.length_cons] at hi
    obtain ⟨hw, hle, ha, hs⟩ := h.free (by omega) (Eq.refl (freeUnlocked busy realfree s (some a)))
    refine ih hw (Nat.lt_of_le_of_lt (Nat.add_le_add_right hle _) (by omega)) ?_
    rcases hp with hp | hp
    · rcases List.mem_cons.mp hp with rfl | hp
      · exact .inr ha
      · exact .inl hp
    · exact .inr (hs p hp)

end Sol8.Libc.Malloc
