import Mathlib

/-! Lists in which elements with equal keys stand next to each other. -/

namespace Sol8.Lib

open List

variable {α κ : Type*} {f : α → κ} {l l' l1 l2 l3 : List α} {x : α}

/-- What stands between two elements with equal keys has that key too. -/
def Grouped (f : α → κ) (l : List α) : Prop := ∀ a b c, [a, b, c].Sublist l → f a = f c → f b = f a

theorem Grouped.sublist (h : Grouped f l) (hl : l'.Sublist l) : Grouped f l' :=
  fun a b c ha => h a b c (ha.trans hl)

theorem Grouped.congr {g : α → κ} (h : Grouped f l) (hg : ∀ a ∈ l, g a = f a) : Grouped g l := by
  intro a b c ha hc
  have hsub := ha.subset
  rw [hg a (hsub (by simp)), hg b (hsub (by simp))]
  rw [hg a (hsub (by simp)), hg c (hsub (by simp))] at hc
  exact h a b c ha hc

theorem grouped_nil : Grouped f [] := by
  intro a b c h
  cases h

/-- A list up to the first element without a property. -/
theorem exists_span (p : α → Bool) (l : List α) :
    ∃ l1 l2, l = l1 ++ l2 ∧ (∀ a ∈ l1, p a = true) ∧ ∀ a ∈ l2.head?, p a = false := by
  induction l with
  | nil => exact ⟨[], [], rfl, nofun, nofun⟩
  | cons a l ih =>
    cases hp : p a with
    | false => exact ⟨[], a :: l, rfl, nofun, fun b hb => Option.some.inj hb ▸ hp⟩
    | true =>
      obtain ⟨l1, l2, rfl, h1, h2⟩ := ih
      exact ⟨a :: l1, l2, rfl, forall_mem_cons.mpr ⟨hp, h1⟩, h2⟩

theorem Grouped.split [DecidableEq κ] (h : Grouped f l) (k : κ) :
    ∃ l1 l2 l3, l = l1 ++ l2 ++ l3 ∧ (∀ a ∈ l1, f a ≠ k) ∧ (∀ a ∈ l2, f a = k) ∧ (∀ a ∈ l3, f a ≠ k) ∧
      (l2 = [] → l3 = []) := by
  obtain ⟨l1, rest, rfl, h1, hr⟩ := exists_span (fun a => f a != k) l
  obtain ⟨l2, l3, rfl, h2, h3⟩ := exists_span (fun a => f a == k) rest
  have hn : l2 = [] → l3 = [] := by
    rintro rfl
    cases l3 with
    | nil => rfl
    | cons a l3 =>
      have ha := hr a rfl
      have ha' := h3 a rfl
      simp only [bne_eq_false_iff_eq] at ha
      simp [ha] at ha'
  refine ⟨l1, l2, l3, (append_assoc ..).symm, fun a ha => by simpa using h1 a ha, fun a ha => by simpa using h2 a ha,
    fun c hc heq => ?_, hn⟩
  -- an element of the group, the first one behind it, and one of the group again
  cases l3 with
  | nil => cases hc
  | cons b l3 =>
    have hb : f b ≠ k := by simpa using h3 b rfl
    cases l2 with
    | nil => cases hn rfl
    | cons a l2 =>
      have ha : f a = k := by simpa using h2 a mem_cons_self
      rcases mem_cons.mp hc with rfl | hc
      · exact hb heq
      · have hab : [a, b, c].Sublist (l1 ++ (a :: l2 ++ b :: l3)) :=
          sublist_append_of_sublist_right (((nil_sublist l2).cons_cons a).append
            ((singleton_sublist.mpr hc).cons_cons b))
        exact hb ((h a b c hab (ha.trans heq.symm)).trans ha)

/-- An element behind the last one of its group, or at the end of the list if its group is empty. -/
theorem Grouped.insert (h : Grouped f (l1 ++ l2 ++ l3)) (h1 : ∀ a ∈ l1, f a ≠ f x) (h2 : ∀ a ∈ l2, f a = f x)
    (h3 : ∀ a ∈ l3, f a ≠ f x) (hn : l2 = [] → l3 = []) : Grouped f (l1 ++ l2 ++ x :: l3) := by
  intro a b c hab hac
  obtain ⟨p, q, hpq, hp, hq⟩ := sublist_append_iff.mp hab
  have ho : ∀ {p q : List α}, [a, b, c] = p ++ q → p.Sublist (l1 ++ l2) → q.Sublist l3 → f b = f a :=
    fun heq hp hq => h a b c (heq ▸ hp.append hq) hac
  rcases sublist_cons_iff.mp hq with hq | ⟨r, rfl, hr⟩
  · exact ho hpq hp hq
  -- one of the three is `x`
  rcases p with _ | ⟨a', _ | ⟨b', _ | ⟨c', p⟩⟩⟩
  · obtain ⟨rfl, rfl⟩ : a = x ∧ [b, c] = r := by simpa using hpq
    exact absurd hac.symm (h3 c (hr.subset (by simp)))
  · obtain ⟨rfl, rfl, rfl⟩ : a = a' ∧ b = x ∧ [c] = r := by simpa using hpq
    have hc : c ∈ l3 := hr.subset (by simp)
    rcases mem_append.mp (hp.subset (mem_singleton_self a)) with ha | ha
    · cases l2 with
      | nil =>
        rw [hn rfl] at hc
        cases hc
      | cons y l =>
        have hay : [a, y, c].Sublist (l1 ++ y :: l ++ l3) :=
          ((singleton_sublist.mpr ha).append (singleton_sublist.mpr mem_cons_self)).append (singleton_sublist.mpr hc)
        rw [← h2 y mem_cons_self]
        exact h a y c hay hac
    · exact (h2 a ha).symm
  · obtain ⟨rfl, rfl, rfl, rfl⟩ : a = a' ∧ b = b' ∧ c = x ∧ [] = r := by simpa using hpq
    obtain ⟨p, q, hpq, hp, hq⟩ := sublist_append_iff.mp hp
    cases p with
    | nil =>
      obtain rfl : [a, b] = q := hpq
      rw [hac]
      exact h2 b (hq.subset (by simp))
    | cons a' p =>
      obtain ⟨rfl, -⟩ : a = a' ∧ [b] = p ++ q := by simpa using hpq
      exact absurd hac (h1 a (hp.subset mem_cons_self))
  · simp at hpq

end Sol8.Lib
