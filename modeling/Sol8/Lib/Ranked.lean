import Mathlib

/-! Lists kept in ranks. A family of lists, one for each rank, is read from the highest rank down; a
change of one of them changes the whole list in one place. -/

namespace Sol8.Lib.Ranked

open Function List

variable {α : Type*} {d : ℕ → List α} {l : List α} {a : α} {r n : ℕ} {f : α → ℕ} {d' : ℕ → List α}

/-- The lists of the ranks under `n`, the highest first. -/
def below (d : ℕ → List α) : ℕ → List α
  | 0 => []
  | n + 1 => d n ++ below d n

def between (d : ℕ → List α) (r n : ℕ) : List α := below (fun i => d (i + r + 1)) (n - r - 1)

theorem mem_below : a ∈ below d n ↔ ∃ r < n, a ∈ d r := by
  induction n with
  | zero => simp [below]
  | succ n ih =>
    rw [below, mem_append, ih]
    constructor
    · rintro (h | ⟨r, hr, h⟩)
      · exact ⟨n, n.lt_succ_self, h⟩
      · exact ⟨r, Nat.lt_succ_of_lt hr, h⟩
    · rintro ⟨r, hr, h⟩
      rcases Nat.lt_succ_iff_lt_or_eq.mp hr with hr | rfl
      · exact .inr ⟨r, hr, h⟩
      · exact .inl h

theorem mem_between : a ∈ between d r n ↔ ∃ i, r < i ∧ i < n ∧ a ∈ d i := by
  rw [between, mem_below]
  constructor
  · rintro ⟨i, hi, h⟩
    exact ⟨i + r + 1, by omega, by omega, h⟩
  · rintro ⟨i, hr, hn, h⟩
    refine ⟨i - r - 1, by omega, ?_⟩
    rwa [show i - r - 1 + r + 1 = i by omega]

theorem below_congr (h : ∀ i < n, d' i = d i) : below d' n = below d n := by
  induction n with
  | zero => rfl
  | succ n ih => rw [below, below, h n n.lt_succ_self, ih fun i hi => h i (Nat.lt_succ_of_lt hi)]

theorem between_congr (h : ∀ i, r < i → i < n → d' i = d i) : between d' r n = between d r n :=
  below_congr fun i hi => h _ (by omega) (by omega)

theorem between_succ (hr : r < n) : between d r (n + 1) = d n ++ between d r n := by
  obtain ⟨k, rfl⟩ : ∃ k, n = r + 1 + k := ⟨n - r - 1, by omega⟩
  rw [between, between, show r + 1 + k + 1 - r - 1 = k + 1 by omega, show r + 1 + k - r - 1 = k by omega, below,
    show k + r + 1 = r + 1 + k by omega]

theorem between_self : between d r (r + 1) = [] := by
  rw [between, show r + 1 - r - 1 = 0 by omega, below]

theorem below_split (hr : r < n) : below d n = between d r n ++ d r ++ below d r := by
  induction n with
  | zero => omega
  | succ n ih =>
    rcases Nat.lt_succ_iff_lt_or_eq.mp hr with hr | rfl
    · rw [below, ih hr, between_succ hr]
      simp
    · rw [below, between_self]
      simp

theorem below_update (hr : r < n) : below (update d r l) n = between d r n ++ l ++ below d r := by
  have hl : below (update d r l) r = below d r := below_congr fun i hi => update_of_ne (Nat.ne_of_lt hi) _ _
  have hh : between (update d r l) r n = between d r n :=
    between_congr fun i hi _ => update_of_ne (Nat.ne_of_gt hi) _ _
  rw [below_split hr, update_self, hl, hh]

section

variable (h : ∀ i, ∀ a ∈ d i, f a = i)
include h

/-- Reading the ranks off a list that is kept in them. -/
theorem filter_below (hr : r < n) : (below d n).filter (fun a => f a = r) = d r := by
  have hn {l : List α} (hl : ∀ a ∈ l, f a ≠ r) : l.filter (fun a => f a = r) = [] :=
    filter_eq_nil_iff.mpr fun a ha => by simpa using hl a ha
  have hal : (d r).filter (fun a => f a = r) = d r := filter_eq_self.mpr fun a ha => by simpa using h r a ha
  rw [below_split hr, filter_append, filter_append, hal, hn, hn, nil_append, append_nil]
  · intro a ha
    obtain ⟨i, hi, ha⟩ := mem_below.mp ha
    rw [h i a ha]
    omega
  · intro a ha
    obtain ⟨i, hi, -, ha⟩ := mem_between.mp ha
    rw [h i a ha]
    omega

theorem pairwise_below : (below d n).Pairwise fun a b => f b ≤ f a := by
  induction n with
  | zero => exact List.Pairwise.nil
  | succ n ih =>
    refine pairwise_append.mpr ⟨?_, ih, fun a ha b hb => ?_⟩
    · refine pairwise_of_forall_mem_list fun a ha b hb => ?_
      have := h n a ha
      have := h n b hb
      omega
    · obtain ⟨i, hi, hb⟩ := mem_below.mp hb
      rw [h n a ha, h i b hb]
      omega

/-- A place in the whole list with no lower ranks before it and no higher ones after it is a place in the
list of rank `r`. -/
theorem split_at_rank (hr : r < n) {l1 l2 : List α}
    (ho : below d n = l1 ++ l2) (h1 : ∀ a ∈ l1, r ≤ f a) (h2 : ∀ a ∈ l2, f a ≤ r) :
    ∃ x y, d r = x ++ y ∧ l1 = between d r n ++ x ∧ l2 = y ++ below d r := by
  have hh {a : α} (ha : a ∈ between d r n) : r < f a := by
    obtain ⟨i, hi, -, ha⟩ := mem_between.mp ha
    rwa [h i a ha]
  have hl {a : α} (ha : a ∈ below d r) : f a < r := by
    obtain ⟨i, hi, ha⟩ := mem_below.mp ha
    rwa [h i a ha]
  rw [below_split hr, append_assoc, append_eq_append_iff] at ho
  rcases ho with ⟨c, hl1, hc⟩ | ⟨c, hc, hl2⟩
  · rw [append_eq_append_iff] at hc
    rcases hc with ⟨e, rfl, he⟩ | ⟨e, he, hl2⟩
    · -- what is left of the lower ranks after `l2` is before it
      have hnil : e = [] := eq_nil_iff_forall_not_mem.mpr fun a ha => by
        have := hl (show a ∈ below d r by rw [he]; exact mem_append_left _ ha)
        have := h1 a (by rw [hl1]; simp [ha])
        omega
      subst hnil
      exact ⟨d r, [], by simp, by simpa using hl1, by simpa using he.symm⟩
    · exact ⟨c, e, he, hl1, hl2⟩
  · have hnil : c = [] := eq_nil_iff_forall_not_mem.mpr fun a ha => by
      have := hh (show a ∈ between d r n by rw [hc]; exact mem_append_right _ ha)
      have := h2 a (by rw [hl2]; exact mem_append_left _ ha)
      omega
    subst hnil
    exact ⟨[], d r, rfl, by simpa using hc.symm, by simpa using hl2⟩

end

section Highest

variable {p q : ℕ → Prop} {r r' : ℤ} {m i : ℕ}

/-- The highest rank under `n` with a property, or -1. -/
structure Highest (p : ℕ → Prop) (n : ℕ) (r : ℤ) : Prop where
  bottom : -1 ≤ r
  holds : ∀ i : ℕ, r = i → p i ∧ i < n
  le : ∀ i < n, p i → (i : ℤ) ≤ r

theorem Highest.none (h : ∀ i < n, ¬ p i) : Highest p n (-1) where
  bottom := le_rfl
  holds i hi := by omega
  le i hi hp := absurd hp (h i hi)

theorem Highest.some (hi : i < n) (hp : p i) (h : ∀ j < n, i < j → ¬ p j) : Highest p n i where
  bottom := by omega
  holds j hj := by
    obtain rfl : i = j := by omega
    exact ⟨hp, hi⟩
  le j hj hpj := by
    by_contra hlt
    exact h j hj (by omega) hpj

theorem Highest.congr (h : Highest p n r) (hp : ∀ i < n, p i ↔ q i) : Highest q n r where
  bottom := h.bottom
  holds i hi := ⟨(hp i (h.holds i hi).2).mp (h.holds i hi).1, (h.holds i hi).2⟩
  le i hi hq := h.le i hi ((hp i hi).mpr hq)

theorem Highest.of_bound (h : Highest p m r) (hn : ∀ i < m, p i → i < n) (hm : ∀ i < n, p i → i < m) :
    Highest p n r where
  bottom := h.bottom
  holds i hi := ⟨(h.holds i hi).1, hn i (h.holds i hi).2 (h.holds i hi).1⟩
  le i hi hp := h.le i (hm i hi hp) hp

theorem Highest.lt (h : Highest p n r) : r < n := by
  by_contra hge
  have hlt := (h.holds r.toNat (Int.toNat_of_nonneg (by omega)).symm).2
  omega

theorem Highest.insert (h : Highest p n r) (hi : i < n) : Highest (fun j => j = i ∨ p j) n (max r i) where
  bottom := by omega
  holds j hj := by
    by_cases hr : r ≤ i
    · obtain rfl : i = j := by omega
      exact ⟨.inl rfl, hi⟩
    · have := h.holds j (by omega)
      exact ⟨.inr this.1, this.2⟩
  le j hj := by
    rintro (rfl | hp)
    · omega
    · have := h.le j hj hp
      omega

end Highest

end Sol8.Lib.Ranked
