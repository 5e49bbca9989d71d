import Mathlib

/-! Binary heaps in arrays, by the keys at their positions. A hole is the one position whose key
may be out of order with its neighbours. Sifting up and down move the hole by swapping two
positions; the lemmas say that a swap moves the hole and that a hole whose key fits closes. -/

namespace Sol8.Lib.BinaryHeap

variable {K : Type*} [LinearOrder K] {key : ℕ → K} {n j c : ℕ} {α : Type*} {n i : ℕ}

def parent (i : ℕ) : ℕ := (i - 1) / 2
def left (i : ℕ) : ℕ := 2 * i + 1
def right (i : ℕ) : ℕ := 2 * i + 2

theorem parent_lt (h : i ≠ 0) : parent i < i := by
  unfold parent
  omega

theorem eq_left_or_right (h : 0 < i) (hp : parent i = j) : i = left j ∨ i = right j := by
  unfold parent left right at *
  omega

theorem forall_children {P : ℕ → Prop} (hl : left j < n → P (left j)) (hr : right j < n → P (right j)) (i : ℕ) (hi : 0 < i)
    (hin : i < n) (hp : parent i = j) : P i := by
  rcases eq_left_or_right hi hp with rfl | rfl
  · exact hl hin
  · exact hr hin

theorem parent_left (i : ℕ) : parent (left i) = i := by
  unfold parent left
  omega

theorem parent_right (i : ℕ) : parent (right i) = i := by
  unfold parent right
  omega

def Ordered (key : ℕ → K) (n : ℕ) : Prop := ∀ i, 0 < i → i < n → key (parent i) ≤ key i

/-- The heap is ordered away from position `j`, across which grandchildren are in order. -/
structure Hole (key : ℕ → K) (n j : ℕ) : Prop where
  away : ∀ i, 0 < i → i < n → i ≠ j → parent i ≠ j → key (parent i) ≤ key i
  across : ∀ i, 0 < i → i < n → parent i = j → 0 < j → key (parent j) ≤ key i

/-- The key at the hole is in order with those below it. -/
def FitsBelow (key : ℕ → K) (n j : ℕ) : Prop := ∀ i, 0 < i → i < n → parent i = j → key j ≤ key i

def FitsAbove (key : ℕ → K) (j : ℕ) : Prop := 0 < j → key (parent j) ≤ key j

def swapAt {α : Type*} (h : ℕ → α) (i j : ℕ) : ℕ → α := h ∘ Equiv.swap i j

@[simp] theorem swapAt_left (h : ℕ → α) (i j : ℕ) : swapAt h i j i = h j := by
  simp [swapAt]

@[simp] theorem swapAt_right (h : ℕ → α) (i j : ℕ) : swapAt h i j j = h i := by
  simp [swapAt]

theorem swapAt_of_ne (h : ℕ → α) {j k : ℕ} (hi : k ≠ i) (hj : k ≠ j) : swapAt h i j k = h k := by
  simp [swapAt, Equiv.swap_apply_of_ne_of_ne hi hj]

theorem swapAt_self (h : ℕ → α) (i : ℕ) : swapAt h i i = h := by
  rw [swapAt, Equiv.swap_self]
  rfl

theorem swapAt_comm (h : ℕ → α) (i j : ℕ) : swapAt h i j = swapAt h j i := by
  rw [swapAt, Equiv.swap_comm, swapAt]

/-- The same elements in the first `n` positions, in another order, and nothing else moved. -/
def Rearranged {α : Type*} (n : ℕ) (h h' : ℕ → α) : Prop :=
  ∃ σ : Equiv.Perm ℕ, (∀ i, n ≤ i → σ i = i) ∧ h' = h ∘ σ

theorem Rearranged.refl (n : ℕ) (h : ℕ → α) : Rearranged n h h := ⟨1, fun _ _ => rfl, rfl⟩

theorem Rearranged.trans {h h' h'' : ℕ → α} (h1 : Rearranged n h h')
    (h2 : Rearranged n h' h'') : Rearranged n h h'' := by
  obtain ⟨σ, hσ, rfl⟩ := h1
  obtain ⟨τ, hτ, rfl⟩ := h2
  refine ⟨σ * τ, fun i hi => ?_, rfl⟩
  rw [Equiv.Perm.mul_apply, hτ i hi, hσ i hi]

theorem rearranged_swapAt {j : ℕ} (h : ℕ → α) (hi : i < n) (hj : j < n) : Rearranged n h (swapAt h i j) :=
  ⟨Equiv.swap i j, fun k hk => Equiv.swap_apply_of_ne_of_ne (by omega) (by omega), rfl⟩

theorem Rearranged.apply_of_le {h h' : ℕ → α} (hr : Rearranged n h h') (hi : n ≤ i) : h' i = h i := by
  obtain ⟨σ, hσ, rfl⟩ := hr
  exact congrArg h (hσ i hi)

theorem bijOn_Iio_of_fixes {σ : Equiv.Perm ℕ} {m : ℕ} (hσ : ∀ i, n ≤ i → σ i = i)
    (hn : n ≤ m) : Set.BijOn σ (Set.Iio m) (Set.Iio m) := by
  refine σ.bijOn fun i => ⟨fun hi => ?_, fun hi => ?_⟩
  · by_contra hge
    have hge : m ≤ i := not_lt.mp hge
    rw [Set.mem_Iio, hσ i (by omega)] at hi
    omega
  · by_contra hge
    have hge : m ≤ σ i := not_lt.mp hge
    have hf := σ.injective (hσ (σ i) (by omega))
    rw [Set.mem_Iio] at hi
    omega

theorem Rearranged.sum_range {h h' : ℕ → α} (hr : Rearranged n h h')
    (f : α → ℕ) : ∑ i ∈ Finset.range n, f (h' i) = ∑ i ∈ Finset.range n, f (h i) := by
  obtain ⟨σ, hσ, rfl⟩ := hr
  refine Finset.sum_equiv σ (fun i => ?_) fun i _ => rfl
  have hb := bijOn_Iio_of_fixes hσ le_rfl
  rw [Finset.mem_range, Finset.mem_range]
  refine ⟨fun hi => hb.mapsTo hi, fun hi => ?_⟩
  obtain ⟨k, hk, hki⟩ := hb.surjOn hi
  exact σ.injective hki ▸ hk

theorem Rearranged.image_Iio {h h' : ℕ → α} (hr : Rearranged n h h') : h' '' Set.Iio n = h '' Set.Iio n := by
  obtain ⟨σ, hσ, rfl⟩ := hr
  rw [Set.image_comp, (bijOn_Iio_of_fixes hσ le_rfl).image_eq]

theorem Rearranged.bijOn {m : ℕ} {h h' : ℕ → α} {S : Set α} (hr : Rearranged n h h')
    (hn : n ≤ m) (hb : Set.BijOn h (Set.Iio m) S) : Set.BijOn h' (Set.Iio m) S := by
  obtain ⟨σ, hσ, rfl⟩ := hr
  exact hb.comp (bijOn_Iio_of_fixes hσ hn)

section

variable (h : Hole key n j)
include h

theorem Hole.close (hb : FitsBelow key n j) (ha : FitsAbove key j) : Ordered key n := by
  intro i hi hn
  by_cases hij : i = j
  · subst hij
    exact ha hi
  · by_cases hp : parent i = j
    · rw [hp]
      exact hb i hi hn hp
    · exact h.away i hi hn hij hp

theorem Hole.fitsBelow_of_lt (hj : 0 < j) (hlt : key j < key (parent j)) : FitsBelow key n j :=
  fun i hi hn hp => hlt.le.trans (h.across i hi hn hp hj)

theorem Hole.up (hj : 0 < j) (hn : j < n) (hlt : key j < key (parent j)) :
    Hole (swapAt key j (parent j)) n (parent j) ∧ FitsBelow (swapAt key j (parent j)) n (parent j) := by
  have hpj : parent j < j := parent_lt (by omega)
  have hs : ∀ i, 0 < i → i < n → i ≠ j → parent i = parent j → key (parent j) ≤ key i :=
    fun i hi hin hij hp => hp ▸ h.away i hi hin hij (by omega)
  have hne : ∀ i, 0 < i → i ≠ parent i := fun i hi => (parent_lt (by omega)).ne'
  refine ⟨⟨fun i hi hin hip hpp => ?_, fun i hi hin hp hpos => ?_⟩, fun i hi hin hp => ?_⟩
  · have hij : i ≠ j := by
      rintro rfl
      exact hpp rfl
    rw [swapAt_of_ne key hij hip]
    by_cases hp : parent i = j
    · rw [hp, swapAt_left]
      exact h.across i hi hin hp hj
    · rw [swapAt_of_ne key hp hpp]
      exact h.away i hi hin hij hp
  · have hpp : parent (parent j) < parent j := parent_lt (by omega)
    have hu : key (parent (parent j)) ≤ key (parent j) := h.away (parent j) hpos (by omega) (by omega) (by omega)
    rw [swapAt_of_ne key (by omega) (by omega)]
    by_cases hij : i = j
    · rw [hij, swapAt_left]
      exact hu
    · rw [swapAt_of_ne key hij (hp ▸ hne i hi)]
      exact hu.trans (hs i hi hin hij hp)
  · rw [swapAt_right]
    by_cases hij : i = j
    · rw [hij, swapAt_left]
      exact hlt.le
    · rw [swapAt_of_ne key hij (hp ▸ hne i hi)]
      exact hlt.le.trans (hs i hi hin hij hp)

theorem Hole.down (hc : 0 < c) (hn : c < n) (hp : parent c = j)
    (hmin : ∀ i, 0 < i → i < n → parent i = j → key c ≤ key i) (hlt : key c < key j) :
    Hole (swapAt key j c) n c ∧ FitsAbove (swapAt key j c) c := by
  have hjc : j < c := hp ▸ parent_lt (by omega)
  refine ⟨⟨fun i hi hin hic hpc => ?_, fun i hi hin hpi hpos => ?_⟩, fun _ => ?_⟩
  · by_cases hij : i = j
    · subst hij
      have hpi : parent i < i := parent_lt (by omega)
      rw [swapAt_left, swapAt_of_ne key (by omega) (by omega)]
      exact h.across c hc hn hp hi
    · rw [swapAt_of_ne key hij hic]
      by_cases hj : parent i = j
      · rw [hj, swapAt_left]
        exact hmin i hi hin hj
      · rw [swapAt_of_ne key hj hpc]
        exact h.away i hi hin hij hj
  · have hic : c < i := hpi ▸ parent_lt (by omega)
    rw [hp, swapAt_left, swapAt_of_ne key (by omega) (by omega), ← hpi]
    exact h.away i hi hin (by omega) (by omega)
  · rw [hp, swapAt_left, swapAt_right]
    exact hlt.le

end

theorem Ordered.root_le (h : Ordered key n) (hi : i < n) : key 0 ≤ key i := by
  induction i using Nat.strong_induction_on with
  | _ i ih =>
    rcases Nat.eq_zero_or_pos i with rfl | hpos
    · exact le_rfl
    · have hp := parent_lt hpos.ne'
      exact (ih _ hp (hp.trans hi)).trans (h i hpos hi)

theorem Ordered.hole (h : Ordered key n) {key' : ℕ → K} (hk : ∀ i < n, i ≠ j → key' i = key i) : Hole key' n j := by
  refine ⟨fun i hi hin hij hpj => ?_, fun i hi hin hp hj => ?_⟩
  · have hpi := parent_lt (show i ≠ 0 by omega)
    rw [hk _ (by omega) hpj, hk _ hin hij]
    exact h i hi hin
  · have hpj : parent j < j := parent_lt (by omega)
    have hji : j < i := hp ▸ parent_lt (by omega)
    rw [hk _ (by omega) (by omega), hk _ hin (by omega)]
    calc key (parent j) ≤ key j := h j hj (by omega)
      _ ≤ key i := hp ▸ h i hi hin

end Sol8.Lib.BinaryHeap
