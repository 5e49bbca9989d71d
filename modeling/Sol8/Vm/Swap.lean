import Mathlib

/-! Slots of the swap devices (`vm/vm_swap.c`). The map of a device is the set of its bits, in words of 32. -/

namespace Sol8.Vm.Swap

open Function Finset

variable {V : Type}

def nbbw : ℕ := 32

structure Swapinfo (V : Type) where
  vp : V
  soff : ℕ
  eoff : ℕ
  /-- the length of `si_swapslots` -/
  words : ℕ
  swapslots : Finset ℕ
  nfpgs : ℕ
  hint : ℕ
  allocs : ℕ
  indel : Bool

namespace Swapinfo

variable (sip : Swapinfo V)

def free : Finset ℕ := range (sip.words * nbbw) \ sip.swapslots

end Swapinfo

open Swapinfo

/-- `PAGESIZE`, `swap_maxcontig` and `swapalloc_maxcontig`. -/
structure Params where
  pagesize : ℕ
  pos : 0 < pagesize
  maxcontig : ℕ
  allocMaxcontig : ℕ

variable (prm : Params)

/-- The devices in the order of `si_next`. -/
structure Swaps (V : Type) where
  num : ℕ
  info : ℕ → Swapinfo V
  silast : ℕ

variable [DecidableEq V]

def order (s : Swaps V) : List ℕ := (List.range s.num).rotate s.silast

def freeLoop : ℕ → ℕ → Swapinfo V → Option (Swapinfo V)
  | 0, _, sip => some sip
  | n + 1, page, sip =>
    if page ∈ sip.swapslots then
      freeLoop n (page + 1) { sip with swapslots := sip.swapslots.erase page, nfpgs := sip.nfpgs + 1 }
    else none

def swapPhysFree (vp : V) (off len : ℕ) (s : Swaps V) : Option (Swaps V) := do
  let i ← (List.range s.num).find? fun i => (s.info i).vp = vp ∧ (s.info i).soff ≤ off ∧ off < (s.info i).eoff
  let sip ← freeLoop (len / prm.pagesize) ((off - (s.info i).soff) / prm.pagesize) (s.info i)
  some { s with info := update s.info i sip }

/-! ### One device -/

/-- The count is that of the clear bits, and the bits past the last slot are set. -/
structure Wf (sip : Swapinfo V) : Prop where
  nfpgs : sip.nfpgs = sip.free.card
  past : ∀ i < sip.words * nbbw, sip.eoff ≤ sip.soff + i * prm.pagesize → i ∈ sip.swapslots
  hint : sip.hint ≤ sip.words * nbbw

variable {prm} {sip sip' sip1 sip2 : Swapinfo V} {s s' : Swaps V} {avoid : Option (V × ℕ)} {a i k m n slot len w : ℕ}

section

omit [DecidableEq V]

theorem Swapinfo.mem_free : slot ∈ sip.free ↔ slot < sip.words * nbbw ∧ slot ∉ sip.swapslots := by
  simp [Swapinfo.free]

/-- `n` slots from `a` on, which were free, are set in the map. -/
structure Takes (sip sip' : Swapinfo V) (a n : ℕ) : Prop where
  free : Ico a (a + n) ⊆ sip.free
  eq : ∃ h x, h ≤ sip.words * nbbw ∧ sip' = { sip with
    swapslots := sip.swapslots ∪ Ico a (a + n), nfpgs := sip.nfpgs - n, hint := h, allocs := x }

namespace Takes

theorem free_eq (ht : Takes sip sip' a n) : sip'.free = sip.free \ Ico a (a + n) := by
  obtain ⟨_, _, _, rfl⟩ := ht.eq
  exact (sdiff_sdiff_left ..).symm

theorem wf (ht : Takes sip sip' a n) (h : Wf prm sip) : Wf prm sip' := by
  have hc := card_sdiff_of_subset ht.free
  rw [← ht.free_eq, Nat.card_Ico, Nat.add_sub_cancel_left, ← h.nfpgs] at hc
  obtain ⟨_, _, hle, rfl⟩ := ht.eq
  exact ⟨hc.symm, fun i hi he => mem_union_left _ (h.past i hi he), hle⟩

theorem trans (h1 : Takes sip sip1 a m) (h2 : Takes sip1 sip2 (a + m) n) : Takes sip sip2 a (m + n) := by
  have hu : Ico a (a + m) ∪ Ico (a + m) (a + m + n) = Ico a (a + (m + n)) := by
    rw [Ico_union_Ico_eq_Ico (by omega) (by omega), Nat.add_assoc]
  have hf : Ico (a + m) (a + m + n) ⊆ sip.free := h2.free.trans (h1.free_eq ▸ sdiff_subset)
  obtain ⟨_, _, -, rfl⟩ := h1.eq
  obtain ⟨h, x, hle, rfl⟩ := h2.eq
  refine ⟨hu ▸ union_subset h1.free hf, h, x, hle, ?_⟩
  simp only [union_assoc, hu, Nat.sub_sub]

theorem none (hk : k ≤ sip.words * nbbw) : Takes sip { sip with hint := k } a 0 :=
  ⟨by simp, k, sip.allocs, hk, by simp⟩

theorem one (hs : slot ∈ sip.free) : Takes sip { sip with
    swapslots := insert slot sip.swapslots, hint := slot + 1, nfpgs := sip.nfpgs - 1 } slot 1 := by
  have hi : Ico slot (slot + 1) = {slot} := Nat.Ico_succ_singleton ..
  refine ⟨?_, slot + 1, sip.allocs, (mem_free.mp hs).1, ?_⟩
  · rwa [hi, singleton_subset_iff]
  · rw [hi, union_comm, ← insert_eq]

end Takes

theorem freeLoop_spec (sip : Swapinfo V) {u : Finset ℕ} (hu : Disjoint u (Ico a (a + n))) :
    freeLoop n a { sip with swapslots := u ∪ Ico a (a + n) } =
      some { sip with swapslots := u, nfpgs := sip.nfpgs + n } := by
  induction n generalizing a sip with
  | zero => simp [freeLoop]
  | succ n ih =>
    have ha : a ∈ Ico a (a + (n + 1)) := by simp
    have he : (u ∪ Ico a (a + (n + 1))).erase a = u ∪ Ico (a + 1) (a + 1 + n) := by
      have := disjoint_right.mp hu ha
      ext i
      simp only [mem_erase, mem_union, mem_Ico]
      grind
    have hu' : Disjoint u (Ico (a + 1) (a + 1 + n)) :=
      disjoint_of_subset_right (Ico_subset_Ico (by omega) (by omega)) hu
    rw [freeLoop, if_pos (mem_union_right u ha), he, ih { sip with nfpgs := sip.nfpgs + 1 } hu',
      Nat.add_assoc, Nat.add_comm 1]

/-! ### All devices -/

/-- The devices are well formed and have different offsets. -/
structure Devices (prm : Params) (s : Swaps V) : Prop where
  wf : ∀ i < s.num, Wf prm (s.info i)
  disjoint : ∀ i < s.num, ∀ j < s.num, (s.info i).vp = (s.info j).vp → (s.info i).soff < (s.info j).eoff →
    (s.info j).soff < (s.info i).eoff → i = j

/-- A device is as it was, but for `si_allocs`. -/
def Same (sip sip' : Swapinfo V) : Prop := ∃ x, sip' = { sip with allocs := x }

structure Allocates (prm : Params) (len : ℕ) (s s' : Swaps V) (i slot n : ℕ) : Prop where
  mem : i < s.num
  open_ : (s.info i).indel = false
  pos : 0 < n
  le : n = 1 ∨ (n - 1) * prm.pagesize < len
  takes : Takes (s.info i) (s'.info i) slot n
  wf : Wf prm (s'.info i)
  others : ∀ j ≠ i, Same (s.info j) (s'.info j)
  num : s'.num = s.num

theorem Allocates.lt_eoff (h : Devices prm s) (ha : Allocates prm len s s' i slot n) :
    (s.info i).soff + slot * prm.pagesize < (s.info i).eoff := by
  obtain ⟨hl, hf⟩ := mem_free.mp (ha.takes.free (left_mem_Ico.mpr (Nat.lt_add_of_pos_right ha.pos)))
  by_contra hge
  exact hf ((h.wf i ha.mem).past slot hl (Nat.not_lt.mp hge))

end

/-- `swap_phys_free` takes back what `swap_phys_alloc` has done. -/
def TakenBack (prm : Params) (vp : V) (off len : ℕ) (s s' : Swaps V) : Prop :=
  ∃ s'', swapPhysFree prm vp off len s' = some s'' ∧
    ∀ j, (s''.info j).swapslots = (s.info j).swapslots ∧ (s''.info j).nfpgs = (s.info j).nfpgs

theorem Allocates.free (h : Devices prm s) (ha : Allocates prm len s s' i slot n) :
    TakenBack prm (s.info i).vp ((s.info i).soff + slot * prm.pagesize) (n * prm.pagesize) s s' := by
  obtain ⟨_, _, -, he⟩ := ha.takes.eq
  have hr (j : ℕ) : (s'.info j).vp = (s.info j).vp ∧ (s'.info j).soff = (s.info j).soff ∧ (s'.info j).eoff = (s.info j).eoff := by
    by_cases hj : j = i
    · simp [hj, he]
    · obtain ⟨x, hx⟩ := ha.others j hj
      simp [hx]
  have hf : ((List.range s'.num).find? fun j => (s'.info j).vp = (s.info i).vp ∧
      (s'.info j).soff ≤ (s.info i).soff + slot * prm.pagesize ∧
      (s.info i).soff + slot * prm.pagesize < (s'.info j).eoff) = some i := by
    simp only [hr, ha.num]
    cases hj : (List.range s.num).find? _ with
    | none => exact absurd (List.find?_eq_none.mp hj i (List.mem_range.mpr ha.mem)) (by simp [ha.lt_eoff h])
    | some j =>
      have hd := List.find?_some hj
      simp only [decide_eq_true_eq] at hd
      have hm := List.mem_range.mp (List.mem_of_find?_eq_some hj)
      have := ha.lt_eoff h
      rw [h.disjoint j hm i ha.mem hd.1 (by omega) (by omega)]
  have hl := freeLoop_spec (s'.info i) (disjoint_of_subset_right ha.takes.free disjoint_sdiff)
  simp only [he] at hl
  have hc := card_le_card ha.takes.free
  rw [Nat.card_Ico, Nat.add_sub_cancel_left, ← (h.wf i ha.mem).nfpgs] at hc
  refine ⟨{ s' with info := update s'.info i { s'.info i with
    swapslots := (s.info i).swapslots, nfpgs := (s'.info i).nfpgs + n } }, ?_, fun j => ?_⟩
  · rw [swapPhysFree, hf]
    simp [he, Nat.mul_div_cancel _ prm.pos, hl]
  · by_cases hj : j = i
    · subst hj
      simp [he, Nat.sub_add_cancel hc]
    · obtain ⟨x, hx⟩ := ha.others j hj
      simp [hj, hx]

end Sol8.Vm.Swap
