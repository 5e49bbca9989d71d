import Mathlib

/-! Sorted lists of ranges as representations of sets of numbers, with gaps between the ranges or
without, and the number of gaps that such a list leaves. The ranges are elements of any type with a
lower end `lo` and an upper end `hi` that is not part of the range. -/

namespace Sol8.Lib.Ranges

open List

variable {α : Type*} {lo hi : α → ℕ} {r s : α} {l p q ms : List α} {a b e : ℕ} {os : List α}

/-- No range is empty, and there is a gap after each one. -/
def Separated (lo hi : α → ℕ) (l : List α) : Prop :=
  (∀ r ∈ l, lo r < hi r) ∧ l.Pairwise fun r s => hi r < lo s

def Covers (lo hi : α → ℕ) (l : List α) (a : ℕ) : Prop := ∃ r ∈ l, lo r ≤ a ∧ a < hi r

theorem separated_nil : Separated lo hi [] := ⟨by simp, .nil⟩

theorem separated_cons : Separated lo hi (r :: l) ↔ lo r < hi r ∧ (∀ s ∈ l, hi r < lo s) ∧ Separated lo hi l := by
  simp only [Separated, forall_mem_cons, pairwise_cons]
  tauto

theorem separated_append : Separated lo hi (p ++ q) ↔
    Separated lo hi p ∧ Separated lo hi q ∧ ∀ r ∈ p, ∀ s ∈ q, hi r < lo s := by
  simp only [Separated, forall_mem_append, pairwise_append]
  tauto

@[simp] theorem covers_nil : Covers lo hi [] a ↔ False := by simp [Covers]

@[simp] theorem covers_cons : Covers lo hi (r :: l) a ↔ (lo r ≤ a ∧ a < hi r) ∨ Covers lo hi l a := by
  simp [Covers]

@[simp] theorem covers_append : Covers lo hi (p ++ q) a ↔ Covers lo hi p a ∨ Covers lo hi q a := by
  simp only [Covers, mem_append, or_and_right, exists_or]

theorem Separated.not_covers_of_le (h : Separated lo hi (r :: l)) (ha : a ≤ hi r) : ¬ Covers lo hi l a := by
  rintro ⟨s, hs, hle, -⟩
  have := (separated_cons.mp h).2.1 s hs
  omega

theorem Separated.eq_of_mem (h : Separated lo hi l) (hr : r ∈ l) (hs : s ∈ l) (ha : lo r ≤ a ∧ a < hi r)
    (has : lo s ≤ a ∧ a < hi s) : r = s := by
  induction l with
  | nil => cases hr
  | cons t l ih =>
    obtain ⟨-, hg, hl⟩ := separated_cons.mp h
    rcases mem_cons.mp hr with rfl | hr' <;> rcases mem_cons.mp hs with rfl | hs'
    · rfl
    · have := hg s hs'
      omega
    · have := hg r hr'
      omega
    · exact ih hl hr' hs'

theorem Separated.replace (h : Separated lo hi (p ++ r :: q)) (hs : Separated lo hi ms)
    (hsub : ∀ m ∈ ms, lo r ≤ lo m ∧ hi m ≤ hi r) : Separated lo hi (p ++ ms ++ q) := by
  obtain ⟨hp, hrq, hpr⟩ := separated_append.mp h
  obtain ⟨hr, hq, hq'⟩ := separated_cons.mp hrq
  refine separated_append.mpr ⟨separated_append.mpr ⟨hp, hs, fun t ht m hm => ?_⟩, hq', fun t ht m hm => ?_⟩
  · exact Nat.lt_of_lt_of_le (hpr t ht r mem_cons_self) (hsub m hm).1
  · rcases mem_append.mp ht with ht | ht
    · exact hpr t ht m (mem_cons_of_mem _ hm)
    · exact Nat.lt_of_le_of_lt (hsub t ht).2 (hq m hm)

theorem Separated.covers_replace (h : Separated lo hi (p ++ r :: q)) (hb : lo r ≤ b) (he : e ≤ hi r)
    (hm : ∀ a, Covers lo hi ms a ↔ (lo r ≤ a ∧ a < hi r) ∧ ¬ (b ≤ a ∧ a < e)) (a : ℕ) :
    Covers lo hi (p ++ ms ++ q) a ↔ Covers lo hi (p ++ r :: q) a ∧ ¬ (b ≤ a ∧ a < e) := by
  obtain ⟨-, hr, hpr⟩ := separated_append.mp h
  have hq := (separated_cons.mp hr).2.1
  have hpt (hp : Covers lo hi p a) : ¬ (b ≤ a ∧ a < e) := by
    obtain ⟨t, ht, -, hlt⟩ := hp
    have := hpr t ht r mem_cons_self
    omega
  have hqt (hc : Covers lo hi q a) : ¬ (b ≤ a ∧ a < e) := by
    obtain ⟨t, ht, hle, -⟩ := hc
    have := hq t ht
    omega
  simp only [covers_append, covers_cons, hm]
  tauto

theorem Separated.put (h : Separated lo hi (p ++ os ++ q)) (hm : Separated lo hi ms)
    (hl : ∀ r ∈ p, ∀ m ∈ ms, hi r < lo m) (hh : ∀ m ∈ ms, ∀ r ∈ q, hi m < lo r) : Separated lo hi (p ++ ms ++ q) := by
  obtain ⟨ho, hq, ha⟩ := separated_append.mp h
  obtain ⟨hp, -, -⟩ := separated_append.mp ho
  refine separated_append.mpr ⟨separated_append.mpr ⟨hp, hm, hl⟩, hq, fun r hr s hs => ?_⟩
  rcases mem_append.mp hr with hr | hr
  · exact ha r (mem_append_left _ hr) s hs
  · exact hh r hr s hs

theorem covers_put (h : ∀ a, Covers lo hi ms a ↔ Covers lo hi os a ∨ (b ≤ a ∧ a < e)) (a : ℕ) :
    Covers lo hi (p ++ ms ++ q) a ↔ Covers lo hi (p ++ os ++ q) a ∨ (b ≤ a ∧ a < e) := by
  simp only [covers_append, h]
  tauto

theorem Separated.length_le (h : Separated lo hi l) (hb : ∀ r ∈ l, hi r ≤ b) : l.length ≤ b := by
  have hf : ∀ c, (∀ r ∈ l, c ≤ lo r) → l = [] ∨ c + l.length ≤ b := by
    induction l with
    | nil => exact fun _ _ => .inl rfl
    | cons r l ih =>
      intro c hc
      obtain ⟨hr, hg, hl⟩ := separated_cons.mp h
      have hcr := hc r mem_cons_self
      have hrb := hb r mem_cons_self
      rw [length_cons]
      rcases ih hl (fun s hs => hb s (mem_cons_of_mem r hs)) (c + 1) fun s hs => by have := hg s hs; omega with rfl | hle
      · rw [length_nil]
        omega
      · omega
  rcases hf 0 fun _ _ => Nat.zero_le _ with rfl | hle
  · exact Nat.zero_le _
  · omega

/-- The ranges of a set are determined by the set. -/
theorem Separated.unique {l l' : List (ℕ × ℕ)} (h : Separated Prod.fst Prod.snd l) (h' : Separated Prod.fst Prod.snd l')
    (heq : ∀ a, Covers Prod.fst Prod.snd l a ↔ Covers Prod.fst Prod.snd l' a) : l = l' := by
  induction l generalizing l' with
  | nil =>
    cases l' with
    | nil => rfl
    | cons r l' =>
      have hr := (separated_cons.mp h').1
      exact absurd ((heq r.1).mpr (by simp [hr])) (by simp)
  | cons r l ih =>
    obtain ⟨hr, hg, hl⟩ := separated_cons.mp h
    cases l' with
    | nil => exact absurd ((heq r.1).mp (by simp [hr])) (by simp)
    | cons s l' =>
      obtain ⟨hs, hg', hl'⟩ := separated_cons.mp h'
      -- the first number of one list is not below that of the other
      have hst : s.1 ≤ r.1 ∧ r.1 ≤ s.1 := by
        constructor
        · obtain ⟨t, ht, hle, -⟩ := (heq r.1).mp (by simp [hr])
          rcases mem_cons.mp ht with rfl | ht
          · exact hle
          · have := hg' t ht
            omega
        · obtain ⟨t, ht, hle, -⟩ := (heq s.1).mpr (by simp [hs])
          rcases mem_cons.mp ht with rfl | ht
          · exact hle
          · have := hg t ht
            omega
      -- nor is the first gap
      have hn : s.2 = r.2 := by
        rcases Nat.lt_trichotomy s.2 r.2 with hlt | he | hlt
        · exact absurd ((heq s.2).mp (by simp [hlt]; omega)) (by simp [h'.not_covers_of_le])
        · exact he
        · exact absurd ((heq r.2).mpr (by simp [hlt]; omega)) (by simp [h.not_covers_of_le])
      obtain rfl : r = s := Prod.ext (by omega) hn.symm
      rw [ih hl hl' fun a => ?_]
      have ha := heq a
      rcases Nat.lt_or_ge r.2 a with hlt | hge
      · have ho : ¬ (r.1 ≤ a ∧ a < r.2) := by omega
        simpa [ho] using ha
      · simp [h.not_covers_of_le hge, h'.not_covers_of_le hge]

/-- No range is empty, and each one ends where the next one starts or before. -/
def Ordered (lo hi : α → ℕ) (l : List α) : Prop :=
  (∀ r ∈ l, lo r < hi r) ∧ l.Pairwise fun r s => hi r ≤ lo s

theorem ordered_nil : Ordered lo hi [] := ⟨by simp, .nil⟩

theorem ordered_cons : Ordered lo hi (r :: l) ↔ lo r < hi r ∧ (∀ s ∈ l, hi r ≤ lo s) ∧ Ordered lo hi l := by
  simp only [Ordered, forall_mem_cons, pairwise_cons]
  tauto

/-- The gaps that the ranges leave from `c` on up to `n`. -/
def holes (lo hi : α → ℕ) (n : ℕ) : ℕ → List α → ℕ
  | c, [] => if c < n then 1 else 0
  | c, r :: l => (if c < lo r then 1 else 0) + holes lo hi n (hi r) l

open Classical in
/-- The number of maximal runs of numbers below `n` outside a set: a run is counted where it starts. -/
noncomputable def gaps (C : ℕ → Prop) (n : ℕ) : ℕ :=
  ((Finset.range n).filter fun i => ¬ C i ∧ ∀ j, i = j + 1 → C j).card

variable {C D : ℕ → Prop} {n c : ℕ}

theorem gaps_congr (h : ∀ a, C a ↔ D a) : gaps C n = gaps D n := by
  rw [show C = D from funext fun a => propext (h a)]

/-- There is no gap if and only if the set is complete. -/
theorem gaps_eq_zero : gaps C n = 0 ↔ ∀ a < n, C a := by
  classical
  rw [gaps, Finset.card_eq_zero, Finset.filter_eq_empty_iff]
  constructor
  · intro h a ha
    induction a with
    | zero =>
      by_contra hC
      exact h (Finset.mem_range.mpr ha) ⟨hC, by simp⟩
    | succ a ih =>
      have hC := ih (by omega)
      by_contra hC'
      refine h (Finset.mem_range.mpr ha) ⟨hC', fun j hj => ?_⟩
      obtain rfl : a = j := by omega
      exact hC
  · intro h i hi hC
    exact hC.1 (h i (Finset.mem_range.mp hi))

open Classical in
/-- A gap from `c` on starts at `c` or behind a range. -/
theorem holes_eq_card (hl : Ordered lo hi l) (hc : ∀ r ∈ l, c ≤ lo r) (hn : ∀ r ∈ l, hi r ≤ n) : holes lo hi n c l =
      ((Finset.range n).filter fun i => c ≤ i ∧ ¬ Covers lo hi l i ∧ (i = c ∨ Covers lo hi l (i - 1))).card := by
  induction l generalizing c with
  | nil =>
    have heq : ((Finset.range n).filter fun i => c ≤ i ∧ ¬ Covers lo hi [] i ∧ (i = c ∨ Covers lo hi [] (i - 1))) =
        if c < n then {c} else ∅ := by
      ext i
      split <;> simp <;> omega
    rw [heq, holes]
    split <;> rfl
  | cons r l ih =>
    obtain ⟨hr, hrl, hl⟩ := ordered_cons.mp hl
    have hcr := hc r mem_cons_self
    have hrn := hn r mem_cons_self
    have hrs {i : ℕ} (hlt : i < hi r) : ¬ Covers lo hi l i := by
      rintro ⟨s, hs, hle, -⟩
      have := hrl s hs
      omega
    have heq : ((Finset.range n).filter fun i =>
        c ≤ i ∧ ¬ Covers lo hi (r :: l) i ∧ (i = c ∨ Covers lo hi (r :: l) (i - 1))) =
        (if c < lo r then {c} else ∅) ∪ (Finset.range n).filter fun i =>
          hi r ≤ i ∧ ¬ Covers lo hi l i ∧ (i = hi r ∨ Covers lo hi l (i - 1)) := by
      ext i
      simp only [Finset.mem_filter, Finset.mem_range, Finset.mem_union, covers_cons]
      rcases Nat.lt_or_ge i (hi r) with hlt | hge
      · -- below the end of the range only `c` can be the start of a gap
        have h1 := hrs hlt
        have h2 : ¬ Covers lo hi l (i - 1) := hrs (by omega)
        split <;> simp [h1, h2] <;> omega
      · have hne : i ∉ (if c < lo r then {c} else ∅ : Finset ℕ) := by
          split <;> simp
          omega
        have hf : (i = c ∨ (lo r ≤ i - 1 ∧ i - 1 < hi r) ∨ Covers lo hi l (i - 1)) ↔
            (i = hi r ∨ Covers lo hi l (i - 1)) := by
          by_cases hv : Covers lo hi l (i - 1)
          · simp [hv]
          · simp only [hv, or_false]
            omega
        rw [hf]
        simp only [hne, false_or]
        constructor
        · rintro ⟨h1, -, h2, h3⟩
          exact ⟨h1, hge, fun h => h2 (.inr h), h3⟩
        · rintro ⟨h1, -, h2, h3⟩
          exact ⟨h1, by omega, fun h => h.elim (by omega) h2, h3⟩
    rw [heq, Finset.card_union_of_disjoint, holes, ih hl hrl fun s hs => hn s (mem_cons_of_mem _ hs)]
    · split <;> rfl
    · rw [Finset.disjoint_left]
      intro i hi1 hi2
      have := (Finset.mem_filter.mp hi2).2.1
      split at hi1 <;> simp at hi1
      omega

theorem holes_eq_gaps (hl : Ordered lo hi l) (hn : ∀ r ∈ l, hi r ≤ n) :
    holes lo hi n 0 l = gaps (Covers lo hi l) n := by
  classical
  rw [holes_eq_card hl (fun _ _ => Nat.zero_le _) hn]
  congr 1
  ext i
  simp only [Finset.mem_filter, Finset.mem_range, Nat.zero_le, true_and, and_congr_right_iff]
  intro _ _
  cases i with
  | zero => simp
  | succ i => simp

end Sol8.Lib.Ranges
