import Mathlib

/-! Maximal runs of set bits among the first `n` bits, how many of each length there are, and how they
change when the beginning of a run is cleared. -/

namespace Sol8.Lib.BitRuns

open Finset Nat

variable {f f' : ℕ → Bool} {n i j k l m : ℕ}

/-- The bits from `i` on, `k` of them, are set, and no bit next to them is. -/
def IsRun (f : ℕ → Bool) (n i k : ℕ) : Prop :=
  0 < k ∧ i + k ≤ n ∧ (∀ j < k, f (i + j) = true) ∧ (0 < i → f (i - 1) = false) ∧ (i + k < n → f (i + k) = false)

instance : Decidable (IsRun f n i k) := by
  unfold IsRun
  infer_instance

/-- The number of maximal runs of length `k`. -/
def runs (f : ℕ → Bool) (n k : ℕ) : ℕ := ((range n).filter fun i => IsRun f n i k).card

def weight (f : ℕ → Bool) (n : ℕ) : ℕ := ((range n).filter fun i => f i = true).card

def Full (f : ℕ → Bool) (n : ℕ) : Prop := ∀ j < n, f j = true

instance : Decidable (Full f n) := by
  unfold Full
  infer_instance

/-- The bits without `m` of them from `i` on. -/
def clear (f : ℕ → Bool) (i m : ℕ) : ℕ → Bool := fun j => f j && !(decide (i ≤ j) && decide (j < i + m))

theorem IsRun.get (h : IsRun f n i k) (hij : i ≤ j) (hj : j < i + k) : f j = true := by
  have := h.2.2.1 (j - i) (by omega)
  rwa [Nat.add_sub_cancel' hij] at this

theorem IsRun.apart (h : IsRun f n i k) (h' : IsRun f n j l) : j + l < i ∨ i + k < j ∨ (j = i ∧ l = k) := by
  by_contra hne
  rcases lt_trichotomy i j with hij | hij | hij
  · -- the bit in front of the second run is in the first one
    have h1 := h.get (j := j - 1) (by omega) (by omega)
    rw [h'.2.2.2.1 (by omega)] at h1
    exact absurd h1 (by decide)
  · subst hij
    rcases lt_trichotomy k l with hk | hk | hk
    · have h1 := h'.get (j := i + k) (by omega) (by omega)
      have := h'.2.1
      rw [h.2.2.2.2 (by omega)] at h1
      exact absurd h1 (by decide)
    · omega
    · have h1 := h.get (j := i + l) (by omega) (by omega)
      have := h.2.1
      rw [h'.2.2.2.2 (by omega)] at h1
      exact absurd h1 (by decide)
  · have h1 := h'.get (j := i - 1) (by omega) (by omega)
    rw [h.2.2.2.1 (by omega)] at h1
    exact absurd h1 (by decide)

theorem clear_of_mem (h1 : i ≤ j) (h2 : j < i + m) : clear f i m j = false := by simp [clear, h1, h2]

theorem clear_of_not_mem (h : ¬ (i ≤ j ∧ j < i + m)) : clear f i m j = f j := by
  rw [clear, ← Bool.decide_and, decide_eq_false h]
  simp

theorem clear_eq_true : clear f i m j = true ↔ f j = true ∧ ¬ (i ≤ j ∧ j < i + m) := by
  rw [clear, Bool.and_eq_true, Bool.not_eq_true', ← Bool.decide_and, decide_eq_false_iff_not]

theorem clear_eq_false : clear f i m j = false ↔ f j = false ∨ (i ≤ j ∧ j < i + m) := by
  rw [← Bool.not_eq_true, clear_eq_true]
  cases f j <;> simp

theorem isRun_clear (h : IsRun f n i k) (hm : 0 < m) (hmk : m ≤ k) :
    IsRun (clear f i m) n j l ↔ (IsRun f n j l ∧ ¬ (j = i ∧ l = k)) ∨ (m < k ∧ j = i + m ∧ l = k - m) := by
  obtain ⟨hk, hkn, hb, hf, hg⟩ := id h
  constructor
  · intro hr
    obtain ⟨hl, hln, hb', hl', hr'⟩ := id hr
    have hs {t : ℕ} (h1 : j ≤ t) (h2 : t < j + l) : f t = true ∧ ¬ (i ≤ t ∧ t < i + m) :=
      clear_eq_true.mp (hr.get h1 h2)
    have hj := hs (le_refl j) (by omega)
    by_cases hjm : j = i + m
    · right
      subst hjm
      have hlt : m < k := by
        by_contra hge
        obtain rfl : m = k := by omega
        rw [hg (by omega)] at hj
        exact absurd hj.1 (by decide)
      refine ⟨hlt, rfl, ?_⟩
      rcases lt_trichotomy l (k - m) with hlk | hlk | hlk
      · rcases clear_eq_false.mp (hr' (by omega)) with hc | hc
        · rw [h.get (by omega) (by omega)] at hc
          exact absurd hc (by decide)
        · omega
      · exact hlk
      · have hc := (hs (t := i + k) (by omega) (by omega)).1
        rw [hg (by omega)] at hc
        exact absurd hc (by decide)
    · left
      refine ⟨⟨hl, hln, fun t ht => (hs (by omega) (by omega)).1, fun h0 => ?_, fun hn => ?_⟩, fun he => ?_⟩
      · rcases clear_eq_false.mp (hl' h0) with hc | hc
        · exact hc
        · omega
      · rcases clear_eq_false.mp (hr' hn) with hc | hc
        · exact hc
        · -- the run would end right before the one that is cleared
          have hls := (hs (t := i - 1) (by omega) (by omega)).1
          rw [hf (by omega)] at hls
          exact absurd hls (by decide)
      · omega
  · rintro (⟨hr, hne⟩ | ⟨hlt, rfl, rfl⟩)
    · obtain ⟨hl, hln, hb', hl', hr'⟩ := id hr
      have ha := h.apart hr
      refine ⟨hl, hln, fun t ht => ?_, fun h0 => ?_, fun hn => ?_⟩
      · rw [clear_of_not_mem (by omega)]
        exact hb' t ht
      · rw [clear_of_not_mem (by omega)]
        exact hl' h0
      · rw [clear_of_not_mem (by omega)]
        exact hr' hn
    · refine ⟨by omega, by omega, fun t ht => ?_, fun _ => clear_of_mem (by omega) (by omega), fun hn => ?_⟩
      · rw [clear_of_not_mem (by omega)]
        exact h.get (by omega) (by omega)
      · rw [clear_of_not_mem (by omega), show i + m + (k - m) = i + k by omega]
        exact hg (by omega)

/-- Clearing the beginning of a run takes a run of its length away and adds one of what is left. -/
theorem runs_clear (h : IsRun f n i k) (hm : 0 < m) (hk : m ≤ k) :
    runs (clear f i m) n l + (if l = k then 1 else 0) = runs f n l + if m < k ∧ l = k - m then 1 else 0 := by
  have hn := h.2.1
  unfold runs
  by_cases hl : l = k
  · subst hl
    have hs : ((range n).filter fun j => IsRun (clear f i m) n j l) =
        ((range n).filter fun j => IsRun f n j l).erase i := by
      ext j
      simp only [mem_filter, mem_range, mem_erase, isRun_clear h hm hk]
      constructor
      · rintro ⟨hj, ⟨hr, hne⟩ | hr⟩
        · exact ⟨fun he => hne ⟨he, trivial⟩, hj, hr⟩
        · omega
      · rintro ⟨hne, hj, hr⟩
        exact ⟨hj, .inl ⟨hr, fun he => hne he.1⟩⟩
    have hmem : i ∈ (range n).filter fun j => IsRun f n j l := mem_filter.mpr ⟨mem_range.mpr (by omega), h⟩
    rw [hs, if_pos rfl, if_neg (by omega), card_erase_add_one hmem, add_zero]
  · rw [if_neg hl, add_zero]
    by_cases hr : m < k ∧ l = k - m
    · have hs : ((range n).filter fun j => IsRun (clear f i m) n j l) =
          insert (i + m) ((range n).filter fun j => IsRun f n j l) := by
        ext j
        simp only [mem_filter, mem_range, mem_insert, isRun_clear h hm hk]
        constructor
        · rintro ⟨hj, ⟨hr, -⟩ | hr⟩
          · exact .inr ⟨hj, hr⟩
          · exact .inl hr.2.1
        · rintro (rfl | ⟨hj, hr'⟩)
          · exact ⟨by omega, .inr ⟨hr.1, rfl, hr.2⟩⟩
          · exact ⟨hj, .inl ⟨hr', fun he => hl he.2⟩⟩
      have hnm : i + m ∉ (range n).filter fun j => IsRun f n j l := by
        intro hmem
        have := h.apart (mem_filter.mp hmem).2
        omega
      rw [hs, card_insert_of_notMem hnm, if_pos hr]
    · rw [if_neg hr, add_zero]
      congr 1
      ext j
      simp only [mem_filter, mem_range, isRun_clear h hm hk]
      constructor
      · rintro ⟨hj, ⟨hr, -⟩ | hr'⟩
        · exact ⟨hj, hr⟩
        · exact absurd ⟨hr'.1, hr'.2.2⟩ hr
      · rintro ⟨hj, hr⟩
        exact ⟨hj, .inl ⟨hr, fun he => hl he.2⟩⟩

theorem weight_clear (hs : ∀ j, i ≤ j → j < i + m → f j = true) (hn : i + m ≤ n) :
    weight (clear f i m) n + m = weight f n := by
  have hu : ((range n).filter fun j => f j = true) =
      ((range n).filter fun j => clear f i m j = true) ∪ Finset.Ico i (i + m) := by
    ext j
    simp only [mem_filter, mem_range, mem_union, mem_Ico, clear_eq_true]
    constructor
    · rintro ⟨hj, hf⟩
      by_cases hm : i ≤ j ∧ j < i + m
      · exact .inr hm
      · exact .inl ⟨hj, hf, hm⟩
    · rintro (⟨hj, hf, -⟩ | ⟨h1, h2⟩)
      · exact ⟨hj, hf⟩
      · exact ⟨by omega, hs j h1 h2⟩
  have hd : Disjoint ((range n).filter fun j => clear f i m j = true) (Finset.Ico i (i + m)) := by
    rw [disjoint_left]
    intro j hj hm
    exact (clear_eq_true.mp (mem_filter.mp hj).2).2 (mem_Ico.mp hm)
  rw [weight, weight, hu, card_union_of_disjoint hd, Nat.card_Ico, Nat.add_sub_cancel_left]

theorem full_iff_isRun (hn : 0 < n) : Full f n ↔ IsRun f n 0 n := by
  simp [Full, IsRun, hn]

theorem IsRun.full_iff (h : IsRun f n i k) : Full f n ↔ k = n := by
  have hk := h.1
  have hn := h.2.1
  constructor
  · intro hf
    have := h.apart ((full_iff_isRun (by omega)).mp hf)
    omega
  · rintro rfl j hj
    exact h.get (by omega) (by omega)

theorem Full.runs_eq_zero (h : Full f n) (hk : k < n) : runs f n k = 0 := by
  rw [runs, Finset.card_eq_zero, filter_eq_empty_iff]
  intro i _ hr
  have := hr.full_iff.mp h
  omega

theorem Full.weight_eq (h : Full f n) : weight f n = n := by
  rw [weight, filter_true_of_mem fun j hj => h j (mem_range.mp hj), card_range]

theorem runs_eq_zero_of_empty (h : ∀ j < n, f j = false) : runs f n k = 0 := by
  rw [runs, Finset.card_eq_zero, filter_eq_empty_iff]
  intro i hi hr
  have h1 := hr.get (le_refl i) (by have := hr.1; omega)
  rw [h i (mem_range.mp hi)] at h1
  exact absurd h1 (by decide)

theorem weight_eq_zero_of_empty (h : ∀ j < n, f j = false) : weight f n = 0 := by
  rw [weight, Finset.card_eq_zero, filter_eq_empty_iff]
  intro i hi hf
  rw [h i (mem_range.mp hi)] at hf
  exact absurd hf (by decide)

theorem runs_pos : 0 < runs f n k ↔ ∃ i, IsRun f n i k := by
  rw [runs, card_pos]
  constructor
  · rintro ⟨i, hi⟩
    exact ⟨i, (mem_filter.mp hi).2⟩
  · rintro ⟨i, hr⟩
    exact ⟨i, mem_filter.mpr ⟨mem_range.mpr (by have := hr.1; have := hr.2.1; omega), hr⟩⟩

theorem exists_left (hf : f j = true) : ∃ i ≤ j, (∀ t, i ≤ t → t ≤ j → f t = true) ∧ (0 < i → f (i - 1) = false) := by
  induction j with
  | zero => exact ⟨0, le_refl _, fun t _ ht => by rwa [le_zero.mp ht], by omega⟩
  | succ j ih =>
    cases hj : f j with
    | false =>
      refine ⟨j + 1, le_refl _, fun t h1 h2 => ?_, fun _ => hj⟩
      rwa [le_antisymm h2 h1]
    | true =>
      obtain ⟨i, hi, hs, hl⟩ := ih hj
      refine ⟨i, by omega, fun t h1 h2 => ?_, hl⟩
      rcases lt_or_ge j t with hlt | hge
      · rwa [show t = j + 1 by omega]
      · exact hs t h1 hge

theorem exists_right (hj : j < n) (hf : f j = true) :
    ∃ e ≤ n, j < e ∧ (∀ t, j ≤ t → t < e → f t = true) ∧ (e < n → f e = false) := by
  induction n with
  | zero => omega
  | succ n ih =>
    rcases lt_or_ge j n with hlt | hge
    · obtain ⟨e, he, hje, hs, hr⟩ := ih hlt
      rcases lt_or_ge e n with hn | hn
      · exact ⟨e, by omega, hje, hs, fun _ => hr hn⟩
      · obtain rfl : e = n := by omega
        cases hfe : f e with
        | false => exact ⟨e, by omega, hje, hs, fun _ => hfe⟩
        | true =>
          refine ⟨e + 1, le_refl _, by omega, fun t h1 h2 => ?_, by omega⟩
          rcases lt_or_ge t e with ht | ht
          · exact hs t h1 ht
          · rwa [show t = e by omega]
    · obtain rfl : j = n := by omega
      refine ⟨j + 1, le_refl _, by omega, fun t h1 h2 => ?_, by omega⟩
      rwa [show t = j by omega]

theorem exists_isRun (hm : 0 < m) (hn : i + m ≤ n) (hs : ∀ j < m, f (i + j) = true) : ∃ a k, IsRun f n a k ∧ m ≤ k := by
  have hi : f i = true := hs 0 hm
  obtain ⟨a, ha, hat, hl⟩ := exists_left hi
  obtain ⟨e, he, hie, hes, hr⟩ := exists_right (n := n) (by omega) hi
  have hme : i + m ≤ e := by
    by_contra hlt
    have := hs (e - i) (by omega)
    rw [Nat.add_sub_cancel' (Nat.le_of_lt hie), hr (by omega)] at this
    exact absurd this (by decide)
  refine ⟨a, e - a, ⟨by omega, by omega, fun t ht => ?_, hl, fun hlt => ?_⟩, by omega⟩
  · rcases lt_or_ge i (a + t) with h1 | h1
    · exact hes _ (by omega) (by omega)
    · exact hat _ (by omega) h1
  · rw [Nat.add_sub_cancel' (by omega)] at hlt ⊢
    exact hr hlt

end Sol8.Lib.BitRuns
