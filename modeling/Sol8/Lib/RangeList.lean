import Sol8.Lib.Links
import Sol8.Lib.Ranges

/-! Doubly linked lists of ranges: the nodes are sorted, and there is a gap after each. A change at one place of the
list is described by the nodes that go, the nodes that come, and what their ranges cover. -/

namespace Sol8.Lib

open Ranges Links List Prod

variable {α : Type*} {first first' : Option α} {next next' prev prev' : α → Option α} {range range' : α → ℕ × ℕ}
  {top b c d e : ℕ} {l l1 l2 os ms : List α} {x : α}

/-- The pointers spell `l`, and its ranges are separated and end at `top` or before. -/
structure RangeList (first : Option α) (next prev : α → Option α) (range : α → ℕ × ℕ) (top : ℕ) (l : List α) : Prop where
  links : Headed first next prev l
  separated : Separated fst snd (l.map range)
  bound : ∀ r ∈ l.map range, r.2 ≤ top

theorem forall_map_concat {P : ℕ × ℕ → Prop} (h : ∀ r ∈ l.map range, P r) (hx : P (range x)) :
    ∀ r ∈ (l ++ [x]).map range, P r := by
  rw [map_append]
  exact forall_mem_append.mpr ⟨h, by simpa using hx⟩

namespace RangeList

theorem length_le (h : RangeList first next prev range top l) : l.length ≤ top := by
  have hlen := h.separated.length_le h.bound
  rwa [length_map] at hlen

section

variable (h : RangeList first next prev range top (l1 ++ [x] ++ l2))
include h

theorem node : (range x).1 < (range x).2 ∧ (range x).2 ≤ top ∧ (∀ r ∈ l1.map range, r.2 < (range x).1) ∧
      ∀ r ∈ l2.map range, (range x).2 < r.1 := by
  have hs := h.separated
  have hb := h.bound (range x) (by simp)
  rw [map_append, map_append] at hs
  obtain ⟨hl, -, hg⟩ := separated_append.mp hs
  obtain ⟨-, hm, hw⟩ := separated_append.mp hl
  exact ⟨hm.1 _ (by simp), hb, fun r hr => hw r hr _ (by simp), fun r hr => hg _ (by simp) r hr⟩

theorem not_mem : x ∉ l1 ++ l2 := by
  have hn : (l1 ++ [x] ++ l2).Nodup := h.links.nodup
  rw [append_assoc, singleton_append, nodup_middle] at hn
  exact (nodup_cons.mp hn).1

end

section

variable (h : RangeList first next prev range top (l1 ++ os ++ l2))
include h

theorem put (hl : Headed first' next' prev' (l1 ++ ms ++ l2))
    (hs : ∀ p ∈ l1 ++ l2, range' p = range p) (hms : Separated fst snd (ms.map range'))
    (hn : ∀ r ∈ ms.map range', r.2 ≤ top) (hw : ∀ r ∈ l1.map range, ∀ m ∈ ms.map range', r.2 < m.1)
    (hh : ∀ m ∈ ms.map range', ∀ r ∈ l2.map range, m.2 < r.1) :
    RangeList first' next' prev' range' top (l1 ++ ms ++ l2) ∧
      (l1 ++ ms ++ l2).map range' = l1.map range ++ ms.map range' ++ l2.map range := by
  have hm : (l1 ++ ms ++ l2).map range' = l1.map range ++ ms.map range' ++ l2.map range := by
    rw [map_append, map_append, map_congr_left fun p hp => hs p (mem_append_left _ hp),
      map_congr_left fun p hp => hs p (mem_append_right _ hp)]
  have hsp := h.separated
  have hb := h.bound
  rw [map_append, map_append] at hsp hb
  refine ⟨⟨hl, ?_, ?_⟩, hm⟩
  · rw [hm]
    exact hsp.put hms hw hh
  · rw [hm]
    intro r hr
    rw [mem_append, mem_append] at hr
    rcases hr with (hr | hr) | hr
    · exact hb r (by simp [hr])
    · exact hn r hr
    · exact hb r (by simp [hr])

/-- The nodes `os` and the numbers from `b` up to `e` have become the range of the node `x`. -/
theorem merge (hl : Headed first' next' prev' (l1 ++ [x] ++ l2))
    (hs : ∀ p ≠ x, range' p = range p) (hr : range' x = (c, d))
    (hc : ∀ a, c ≤ a ∧ a < d ↔ Covers fst snd (os.map range) a ∨ (b ≤ a ∧ a < e))
    (hpos : c < d) (hb : d ≤ top) (hw : ∀ r ∈ l1.map range, r.2 < c) (hh : ∀ r ∈ l2.map range, d < r.1) :
    RangeList first' next' prev' range' top (l1 ++ [x] ++ l2) ∧
      ∀ a, Covers fst snd ((l1 ++ [x] ++ l2).map range') a ↔
        Covers fst snd ((l1 ++ os ++ l2).map range) a ∨ (b ≤ a ∧ a < e) := by
  have hn : (l1 ++ [x] ++ l2).Nodup := hl.nodup
  rw [append_assoc, singleton_append, nodup_middle] at hn
  have hne {p : α} (hp : p ∈ l1 ++ l2) : p ≠ x := ne_of_mem_of_not_mem hp (nodup_cons.mp hn).1
  have hm : [x].map range' = [(c, d)] := by simp [hr]
  obtain ⟨h', heq⟩ := h.put hl (fun p hp => hs p (hne hp)) (by simpa [hm, Separated] using hpos)
    (by simpa [hm] using hb) (by simpa [hm] using hw) (by simpa [hm] using hh)
  refine ⟨h', fun a => ?_⟩
  rw [heq, covers_put fun a => ?_, map_append, map_append]
  rw [hm, ← hc]
  simp

end

/-- The node `x` has given way to nodes without the numbers from `b` up to `e`. -/
theorem loss (h : RangeList first next prev range top (l1 ++ [x] ++ l2)) (hl : Headed first' next' prev' (l1 ++ ms ++ l2))
    (hs : ∀ p ∈ l1 ++ l2, range' p = range p) (hms : Separated fst snd (ms.map range'))
    (hsub : ∀ m ∈ ms.map range', (range x).1 ≤ m.1 ∧ m.2 ≤ (range x).2) (hb : (range x).1 ≤ b) (he : e ≤ (range x).2)
    (hc : ∀ a, Covers fst snd (ms.map range') a ↔ ((range x).1 ≤ a ∧ a < (range x).2) ∧ ¬ (b ≤ a ∧ a < e)) :
    RangeList first' next' prev' range' top (l1 ++ ms ++ l2) ∧
      ∀ a, Covers fst snd ((l1 ++ ms ++ l2).map range') a ↔
        Covers fst snd ((l1 ++ [x] ++ l2).map range) a ∧ ¬ (b ≤ a ∧ a < e) := by
  obtain ⟨-, hn, hw, hh⟩ := h.node
  obtain ⟨h', heq⟩ := h.put hl hs hms (fun m hm => (hsub m hm).2.trans hn)
    (fun r hr m hm => (hw r hr).trans_le (hsub m hm).1) fun m hm r hr => (hsub m hm).2.trans_lt (hh r hr)
  have ho : (l1 ++ [x] ++ l2).map range = l1.map range ++ range x :: l2.map range := by simp
  refine ⟨h', fun a => ?_⟩
  rw [heq, ho]
  exact Separated.covers_replace (ho ▸ h.separated) hb he hc a

theorem not_covers {n : ℕ} (h : ∀ r ∈ l.map range, r.2 ≤ n ∨ n < r.1) : ¬ Covers fst snd (l.map range) n := by
  rintro ⟨r, hr, hle, hlt⟩
  have := h r hr
  omega

end RangeList

end Sol8.Lib
