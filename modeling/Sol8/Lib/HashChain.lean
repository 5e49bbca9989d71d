import Mathlib

/-! Hash chains: every element that holds a value is on the chain of the value's hash, and on no
other. -/

namespace Sol8.Lib

open Function

variable {α β : Type} {chain : ℕ → List α} {held : α → Option β} {key key' : β → ℕ} {p : α} {x : β} {l : List α}

structure Chained (chain : ℕ → List α) (held : α → Option β) (key : β → ℕ) : Prop where
  mem_iff : ∀ b q, q ∈ chain b ↔ ∃ y, held q = some y ∧ key y = b
  nodup : ∀ b, (chain b).Nodup

theorem nodup_update {k : ℕ} (h : ∀ b, (chain b).Nodup) (hl : l.Nodup) (b : ℕ) : (update chain k l b).Nodup := by
  rw [update_apply]
  split_ifs
  · exact hl
  · exact h b

namespace Chained

theorem empty (key : β → ℕ) : Chained (fun _ => ([] : List α)) (fun _ => none) key where
  mem_iff b q := by simp
  nodup _ := List.nodup_nil

section

variable (h : Chained chain held key)
include h

theorem mem (hp : held p = some x) : p ∈ chain (key x) := (h.mem_iff _ _).mpr ⟨x, hp, rfl⟩

theorem notMem (hp : held p = none) (b : ℕ) : p ∉ chain b := by
  rw [h.mem_iff]
  simp [hp]

theorem congr (hk : ∀ q y, held q = some y → key' y = key y) : Chained chain held key' where
  mem_iff b q := by
    rw [h.mem_iff]
    exact exists_congr fun y => and_congr_right fun hy => by rw [hk q y hy]
  nodup := h.nodup

end

variable [DecidableEq α]

theorem push (h : Chained chain held key) (hp : held p = none) (x : β) :
    Chained (update chain (key x) (p :: chain (key x))) (update held p (some x)) key where
  mem_iff b q := by
    by_cases hq : q = p
    · subst hq
      by_cases hb : b = key x
      · simp [hb]
      · simp [hb, h.notMem hp, Ne.symm hb]
    · rw [update_of_ne hq, ← h.mem_iff, update_apply]
      split_ifs with hb
      · simp [hb, hq]
      · rfl
  nodup := nodup_update h.nodup (List.nodup_cons.mpr ⟨h.notMem hp _, h.nodup _⟩)

theorem remove (h : Chained chain held key) (hp : held p = some x) :
    Chained (update chain (key x) ((chain (key x)).erase p)) (update held p none) key where
  mem_iff b q := by
    by_cases hq : q = p
    · subst hq
      by_cases hb : b = key x
      · simp [hb, (h.nodup _).not_mem_erase]
      · simp [hb, h.mem_iff, hp, Ne.symm hb]
    · rw [update_of_ne hq, ← h.mem_iff, update_apply]
      split_ifs with hb
      · rw [List.mem_erase_of_ne hq, hb]
      · rfl
  nodup := nodup_update h.nodup ((h.nodup _).erase _)

omit [DecidableEq α] in
theorem nodup_flatMap (h : Chained chain held key) (n : ℕ) : ((List.range n).flatMap chain).Nodup := by
  rw [List.nodup_flatMap]
  refine ⟨fun b _ => h.nodup b, List.nodup_range.imp fun {a b} hab p ha hb => hab ?_⟩
  obtain ⟨y, hy, rfl⟩ := (h.mem_iff _ _).mp ha
  obtain ⟨z, hz, rfl⟩ := (h.mem_iff _ _).mp hb
  rw [hy, Option.some.injEq] at hz
  rw [hz]

theorem rebuild (hl : l.Nodup) (val : α → β) (key : β → ℕ) :
    Chained (l.foldl (fun t p => update t (key (val p)) (p :: t (key (val p)))) fun _ => [])
      (fun p => if p ∈ l then some (val p) else none) key := by
  induction l using List.reverseRecOn with
  | nil => exact empty key
  | append_singleton l p ih =>
    have hp : p ∉ l := fun hp => by
      rw [List.nodup_append] at hl
      exact hl.2.2 p hp p (List.mem_singleton_self p) rfl
    have hs := (ih hl.of_append_left).push (p := p) (if_neg hp) (val p)
    have heq : update (fun q => if q ∈ l then some (val q) else none) p (some (val p)) =
        fun q => if q ∈ l ++ [p] then some (val q) else none := by
      funext q
      by_cases hq : q = p
      all_goals simp [hq]
    rw [List.foldl_append, ← heq]
    exact hs

end Chained

end Sol8.Lib
