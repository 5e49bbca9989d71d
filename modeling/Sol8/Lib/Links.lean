import Mathlib

/-! Doubly linked lists in memory: the nodes point to their neighbours, and a header points to both
ends. `IsList` relates such pointers to the list they spell. -/

namespace Sol8.Lib

open Function List

/-- Pointers of the header and of the nodes. -/
structure Links (α : Type*) where
  first : Option α
  last : Option α
  next : α → Option α
  prev : α → Option α

namespace Links

variable {α : Type*}

/-- Going along the list while `p` holds, at most `n` times. -/
def walk (s : Links α) (p : α → Bool) : ℕ → Option α → Option α
  | 0, t => t
  | _ + 1, none => none
  | n + 1, some a => if p a then s.walk p n (s.next a) else some a

variable [DecidableEq α]

/-- Sets the link out of `p` to the right; without a node that is the header's link to the first. -/
def setNext (s : Links α) : Option α → Option α → Links α
  | none, v => { s with first := v }
  | some p, v => { s with next := update s.next p v }

/-- Sets the link out of `n` to the left; without a node that is the header's link to the last. -/
def setPrev (s : Links α) : Option α → Option α → Links α
  | none, v => { s with last := v }
  | some n, v => { s with prev := update s.prev n v }

/-- Puts `b` between the neighbours `p` and `n`. -/
def link (s : Links α) (p n : Option α) (b : α) : Links α :=
  (({ s with next := update s.next b n, prev := update s.prev b p }).setNext p (some b)).setPrev n (some b)

def unlink (s : Links α) (m : α) : Links α :=
  let s' := (s.setNext (s.prev m) (s.next m)).setPrev (s.next m) (s.prev m)
  { s' with next := update s'.next m none, prev := update s'.prev m none }

/-! ### Segments -/

/-- The nodes of `l` are linked to each other, and at the ends to `p` and `n`. -/
def Seg (s : Links α) : Option α → List α → Option α → Prop
  | _, [], _ => True
  | p, a :: l, n => s.prev a = p ∧ s.next a = l.head?.or n ∧ s.Seg (some a) l n

structure IsList (s : Links α) (l : List α) : Prop where
  nodup : l.Nodup
  first : s.first = l.head?
  last : s.last = l.getLast?
  seg : s.Seg none l none

variable {s s' : Links α} {l l1 l2 : List α} {p n : Option α} {a b m : α}

section

omit [DecidableEq α]

theorem seg_append : s.Seg p (l1 ++ l2) n ↔ s.Seg p l1 (l2.head?.or n) ∧ s.Seg (l1.getLast?.or p) l2 n := by
  induction l1 generalizing p with
  | nil => simp [Seg]
  | cons a l ih =>
    have hh : (l ++ l2).head?.or n = l.head?.or (l2.head?.or n) := by
      cases l <;> simp
    have hl : (a :: l).getLast?.or p = l.getLast?.or (some a) := by
      cases l <;> simp [List.getLast?_cons]
    simp only [cons_append, Seg, ih, hh, hl, and_assoc]

theorem Seg.congr (h : s.Seg p l n) (hl : ∀ a ∈ l, s'.prev a = s.prev a ∧ s'.next a = s.next a) : s'.Seg p l n := by
  induction l generalizing p with
  | nil => trivial
  | cons a l ih =>
    obtain ⟨hp, hn, hs⟩ := h
    have ha := hl a mem_cons_self
    exact ⟨ha.1.trans hp, ha.2.trans hn, ih hs fun b hb => hl b (mem_cons_of_mem a hb)⟩

end

theorem Seg.setLast (h : s.Seg p l n) (hnd : l.Nodup) {n' : Option α} (hr : ∀ a ∈ l, s'.prev a = s.prev a)
    (hn : ∀ a ∈ l, s'.next a = if some a = l.getLast? then n' else s.next a) : s'.Seg p l n' := by
  rcases eq_nil_or_concat' l with rfl | ⟨l, c, rfl⟩
  · trivial
  have hc : c ∉ l := (nodup_concat l c).mp (by simpa using hnd) |>.1
  rw [seg_append] at h ⊢
  refine ⟨h.1.congr fun a ha => ⟨hr a (by simp [ha]), ?_⟩, ?_⟩
  · have hac : a ≠ c := fun e => hc (e ▸ ha)
    simpa [hac] using hn a (by simp [ha])
  · obtain ⟨hp, -, -⟩ := h.2
    refine ⟨(hr c (by simp)).trans hp, ?_, trivial⟩
    simpa using hn c (by simp)

theorem Seg.setFirst (h : s.Seg p l n) (hnd : l.Nodup) {p' : Option α} (hnx : ∀ a ∈ l, s'.next a = s.next a)
    (hp : ∀ a ∈ l, s'.prev a = if some a = l.head? then p' else s.prev a) : s'.Seg p' l n := by
  cases l with
  | nil => trivial
  | cons c l =>
    obtain ⟨-, hn, hs⟩ := h
    have hc := (nodup_cons.mp hnd).1
    refine ⟨by simpa using hp c (by simp), (hnx c (by simp)).trans hn, hs.congr fun a ha => ?_⟩
    have hac : a ≠ c := fun e => hc (e ▸ ha)
    have := hp a (by simp [ha])
    exact ⟨by simpa [hac] using this, hnx a (by simp [ha])⟩

/-! ### Reads -/

section

omit [DecidableEq α]

theorem IsList.next_of_split (h : s.IsList (l1 ++ a :: l2)) : s.next a = l2.head? := by
  obtain ⟨-, -, hn, -⟩ := seg_append.mp h.seg
  simpa using hn

theorem IsList.prev_of_split (h : s.IsList (l1 ++ a :: l2)) : s.prev a = l1.getLast? := by
  obtain ⟨-, hp, -⟩ := seg_append.mp h.seg
  simpa using hp

theorem IsList.walk (h : s.IsList (l1 ++ l2)) {f : α → Bool} {k : ℕ} (hk : l2.length ≤ k) :
    s.walk f k l2.head? = (l2.dropWhile f).head? := by
  induction l2 generalizing l1 k with
  | nil => cases k <;> rfl
  | cons a l ih =>
    obtain _ | k := k
    · simp at hk
    rw [List.head?_cons, Links.walk, dropWhile_cons]
    cases hf : f a with
    | false => simp
    | true =>
      have h' : s.IsList ((l1 ++ [a]) ++ l) := by simpa using h
      rw [if_pos rfl, if_pos rfl, h.next_of_split]
      exact ih h' (by simp at hk; omega)

theorem IsList.length_le [Fintype α] (h : s.IsList (l1 ++ l2)) : l2.length ≤ Fintype.card α :=
  (h.nodup.of_append_right).length_le_card

end

/-! ### Writes -/

attribute [local simp] setPrev setNext unlink link

private theorem link_field {f : α → Option α} (hb : p ≠ some b) :
    (p.elim (update f b n) fun c => update (update f b n) c (some b)) a =
      if a = b then n else if some a = p then some b else f a := by
  cases p with
  | none => by_cases h : a = b <;> simp [h]
  | some c =>
    have hc : c ≠ b := fun e => hb (e ▸ rfl)
    by_cases h : a = b
    · subst h
      simp [Ne.symm hc]
    · by_cases h' : a = c <;> simp [h, h', hc]

theorem link_next (hb : p ≠ some b) :
    (s.link p n b).next a = if a = b then n else if some a = p then some b else s.next a := by
  rw [← link_field hb]
  cases p <;> cases n <;> rfl

private theorem link_prev (hb : n ≠ some b) :
    (s.link p n b).prev a = if a = b then p else if some a = n then some b else s.prev a := by
  rw [← link_field hb]
  cases p <;> cases n <;> rfl

private theorem link_first : (s.link p n b).first = if p = none then some b else s.first := by
  cases p <;> cases n <;> simp

private theorem link_last : (s.link p n b).last = if n = none then some b else s.last := by
  cases p <;> cases n <;> simp

theorem IsList.inserted (h : s.IsList (l1 ++ l2)) (hb : b ∉ l1 ++ l2)
    (hf : s'.first = if l1.getLast? = none then some b else s.first)
    (hl : s'.last = if l2.head? = none then some b else s.last)
    (hn : ∀ a, s'.next a = if a = b then l2.head? else if some a = l1.getLast? then some b else s.next a)
    (hp : ∀ a, s'.prev a = if a = b then l1.getLast? else if some a = l2.head? then some b else s.prev a) :
    s'.IsList (l1 ++ b :: l2) := by
  have hd := (nodup_append.mp h.nodup).2.2
  have hl1 {a : α} (ha : a ∈ l1) : a ≠ b ∧ some a ≠ l2.head? :=
    ⟨fun e => hb (mem_append_left _ (e ▸ ha)), fun e => hd a ha a (mem_of_head? e.symm) rfl⟩
  have hl2 {a : α} (ha : a ∈ l2) : a ≠ b ∧ some a ≠ l1.getLast? :=
    ⟨fun e => hb (mem_append_right _ (e ▸ ha)), fun e => hd a (mem_of_getLast? e.symm) a ha rfl⟩
  obtain ⟨hs1, hs2⟩ := seg_append.mp h.seg
  refine ⟨?_, ?_, ?_, seg_append.mpr ⟨?_, ?_, ?_, ?_⟩⟩
  · exact (perm_middle.nodup_iff).mpr (nodup_cons.mpr ⟨hb, h.nodup⟩)
  · rw [hf, h.first]
    cases l1 <;> simp
  · rw [hl, h.last]
    cases l2 <;> simp [List.getLast?_append, List.getLast?_cons]
  · refine hs1.setLast (nodup_append.mp h.nodup).1 (fun a ha => ?_) fun a ha => ?_
    · rw [hp, if_neg (hl1 ha).1, if_neg (hl1 ha).2]
    · rw [hn, if_neg (hl1 ha).1]
      rfl
  · rw [hp, if_pos rfl, Option.or_none]
  · rw [hn, if_pos rfl, Option.or_none]
  · refine hs2.setFirst (nodup_append.mp h.nodup).2.1 (fun a ha => ?_) fun a ha => ?_
    · rw [hn, if_neg (hl2 ha).1, if_neg (hl2 ha).2]
    · rw [hp, if_neg (hl2 ha).1]

theorem IsList.link (h : s.IsList (l1 ++ l2)) (hb : b ∉ l1 ++ l2) (hp : p = l1.getLast?) (hn : n = l2.head?) :
    (s.link p n b).IsList (l1 ++ b :: l2) := by
  subst hp hn
  have hpb : l1.getLast? ≠ some b := fun e => hb (mem_append_left _ (mem_of_getLast? e))
  have hnb : l2.head? ≠ some b := fun e => hb (mem_append_right _ (mem_of_head? e))
  exact h.inserted hb link_first link_last (fun _ => link_next hpb) fun _ => link_prev hnb

private theorem unlink_next (hm : a ≠ m) : (s.unlink m).next a = if some a = s.prev m then s.next m else s.next a := by
  cases hp : s.prev m with
  | none => cases hn : s.next m <;> simp [hp, hn, hm]
  | some c =>
    by_cases h : a = c
    · subst h
      cases hn : s.next m <;> simp [hp, hn, hm]
    · cases hn : s.next m <;> simp [hp, hn, hm, h]

private theorem unlink_prev (hm : a ≠ m) : (s.unlink m).prev a = if some a = s.next m then s.prev m else s.prev a := by
  cases hn : s.next m with
  | none => cases hp : s.prev m <;> simp [hp, hn, hm]
  | some c =>
    by_cases h : a = c
    · subst h
      cases hp : s.prev m <;> simp [hp, hn, hm]
    · cases hp : s.prev m <;> simp [hp, hn, hm, h]

private theorem unlink_first : (s.unlink m).first = if s.prev m = none then s.next m else s.first := by
  cases hp : s.prev m <;> cases hn : s.next m <;> simp [hp, hn]

private theorem unlink_last : (s.unlink m).last = if s.next m = none then s.prev m else s.last := by
  cases hp : s.prev m <;> cases hn : s.next m <;> simp [hp, hn]

theorem IsList.removed (h : s.IsList (l1 ++ m :: l2)) (hf : s'.first = if s.prev m = none then s.next m else s.first)
    (hl : s'.last = if s.next m = none then s.prev m else s.last)
    (hnx : ∀ a, a ≠ m → s'.next a = if some a = s.prev m then s.next m else s.next a)
    (hr : ∀ a, a ≠ m → s'.prev a = if some a = s.next m then s.prev m else s.prev a) : s'.IsList (l1 ++ l2) := by
  have hp := h.prev_of_split
  have hn := h.next_of_split
  have hnd := (perm_middle.nodup_iff).mp h.nodup
  obtain ⟨hm, hnd⟩ := nodup_cons.mp hnd
  have hm1 {a : α} (ha : a ∈ l1) : a ≠ m := fun e => hm (mem_append_left _ (e ▸ ha))
  have hm2 {a : α} (ha : a ∈ l2) : a ≠ m := fun e => hm (mem_append_right _ (e ▸ ha))
  have hd := (nodup_append.mp hnd).2.2
  have hl1 {a : α} (ha : a ∈ l1) : some a ≠ s.next m := fun e => hd a ha a (mem_of_head? (hn.symm.trans e.symm)) rfl
  have hl2 {a : α} (ha : a ∈ l2) : some a ≠ s.prev m :=
    fun e => hd a (mem_of_getLast? (hp.symm.trans e.symm)) a ha rfl
  obtain ⟨hs1, -, -, hs2⟩ := seg_append.mp h.seg
  refine ⟨hnd, ?_, ?_, seg_append.mpr ⟨?_, ?_⟩⟩
  · rw [hf, hp, hn, h.first]
    cases l1 <;> simp
  · rw [hl, hp, hn, h.last]
    cases l2 <;> simp [List.getLast?_append, List.getLast?_cons]
  · refine hs1.setLast (nodup_append.mp hnd).1 (fun a ha => ?_) fun a ha => ?_
    · rw [hr a (hm1 ha), if_neg (hl1 ha)]
    · rw [hnx a (hm1 ha), hp, hn, Option.or_none]
  · refine hs2.setFirst (nodup_append.mp hnd).2.1 (fun a ha => ?_) fun a ha => ?_
    · rw [hnx a (hm2 ha), if_neg (hl2 ha)]
    · rw [hr a (hm2 ha), hp, hn, Option.or_none]

theorem IsList.unlink (h : s.IsList (l1 ++ m :: l2)) : (s.unlink m).IsList (l1 ++ l2) :=
  h.removed unlink_first unlink_last (fun _ => unlink_next) fun _ => unlink_prev

/-! ### Headers without a last pointer -/

/-- The pointers spell `l`, and the header points to its first node only. -/
def Headed (first : Option α) (next prev : α → Option α) (l : List α) : Prop :=
  IsList ⟨first, l.getLast?, next, prev⟩ l

namespace Headed

variable {first first' : Option α} {next next' prev prev' : α → Option α}

omit [DecidableEq α] in
theorem congr (h : Headed first next prev l) (hl : ∀ a ∈ l, prev' a = prev a ∧ next' a = next a) :
    Headed first next' prev' l :=
  ⟨h.nodup, h.first, rfl, h.seg.congr hl⟩

theorem insert (h : Headed first next prev (l1 ++ l2)) (hb : b ∉ l1 ++ l2)
    (hf : first' = if l1.getLast? = none then some b else first)
    (hn : ∀ a, next' a = if a = b then l2.head? else if some a = l1.getLast? then some b else next a)
    (hp : ∀ a, prev' a = if a = b then l1.getLast? else if some a = l2.head? then some b else prev a) :
    Headed first' next' prev' (l1 ++ b :: l2) := by
  refine IsList.inserted h hb hf ?_ hn hp
  cases l2 <;> simp [List.getLast?_append, List.getLast?_cons]

theorem remove (h : Headed first next prev (l1 ++ m :: l2)) (hf : first' = if prev m = none then next m else first)
    (hnx : ∀ a, a ≠ m → next' a = if some a = prev m then next m else next a)
    (hr : ∀ a, a ≠ m → prev' a = if some a = next m then prev m else prev a) :
    Headed first' next' prev' (l1 ++ l2) := by
  have hp : prev m = l1.getLast? := IsList.prev_of_split h
  have hn : next m = l2.head? := IsList.next_of_split h
  refine IsList.removed h hf ?_ hnx hr
  cases l2 <;> simp [hp, hn, List.getLast?_append, List.getLast?_cons]

end Headed

omit [DecidableEq α] in
theorem IsList.nil : s.IsList [] ↔ s.first = none ∧ s.last = none :=
  ⟨fun h => ⟨h.first, h.last⟩, fun h => ⟨nodup_nil, h.1, h.2, trivial⟩⟩

end Links

end Sol8.Lib
