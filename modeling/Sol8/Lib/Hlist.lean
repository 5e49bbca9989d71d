import Sol8.Lib.Chain

/-! Linked lists whose nodes point back to the cell that points to them, which is the header of the list or the link of
the node before. A node is linked out without a search and without a case for the front of the list. -/

namespace Sol8.Lib

open Function List

/-- A place in memory that holds a pointer to a node. -/
inductive Cell (β α : Type*)
  | head (b : β)
  | next (a : α)
deriving DecidableEq

/-- The pointers of lists with headers in `β` and nodes in `α`. -/
structure Hlists (β α : Type*) where
  head : β → Option α
  next : α → Option α
  back : α → Option (Cell β α)

namespace Hlists

variable {α β : Type*} {m m' : Hlists β α} {c c' c'' : Cell β α} {l l1 l2 : List α} {a x : α} {b b' : β} {n : ℕ}
  {l' : List α} {p : α → Bool}

def read (m : Hlists β α) : Cell β α → Option α
  | .head b => m.head b
  | .next a => m.next a

/-- The cell at which a walk along nodes with `p` stops, within a number of steps. -/
def walk (m : Hlists β α) (p : α → Bool) : ℕ → Cell β α → Cell β α
  | 0, c => c
  | n + 1, c =>
    match m.read c with
    | some a => if p a then walk m p n (.next a) else c
    | none => c

/-- The first node with `p` from a cell on, within a number of steps. -/
def find (m : Hlists β α) (p : α → Bool) : ℕ → Option α → Option α
  | 0, _ => none
  | _ + 1, none => none
  | n + 1, some a => if p a then some a else find m p n (m.next a)

section Writes

variable [DecidableEq α] [DecidableEq β]

def write (m : Hlists β α) (v : Option α) : Cell β α → Hlists β α
  | .head b => { m with head := update m.head b v }
  | .next a => { m with next := update m.next a v }

/-- The node, if there is one, is told which cell points to it. -/
def setBack (m : Hlists β α) (c : Cell β α) : Option α → Hlists β α
  | some a => { m with back := update m.back a (some c) }
  | none => m

/-- The links of a node that is going to be put into a cell. -/
def prepare (m : Hlists β α) (c : Cell β α) (a : α) : Hlists β α :=
  let m' := m.setBack (.next a) (m.read c)
  { m' with next := update m'.next a (m.read c), back := update m'.back a (some c) }

def insert (m : Hlists β α) (c : Cell β α) (a : α) : Hlists β α := (m.prepare c a).write (some a) c

/-- The cell that points to a node is made to point to the next one. -/
def detach (m : Hlists β α) (a : α) : Hlists β α :=
  match m.back a with
  | some c => (m.setBack c (m.next a)).write (m.next a) c
  | none => m

def clear (m : Hlists β α) (a : α) : Hlists β α :=
  { m with next := update m.next a none, back := update m.back a none }

end Writes

/-! ### Segments -/

/-- From the cell `c` on the nodes of `l` follow each other, and the last link is the cell `c'`. -/
def Seg (m : Hlists β α) : Cell β α → List α → Cell β α → Prop
  | c, [], c' => c = c'
  | c, a :: l, c' => m.read c = some a ∧ m.back a = some c ∧ m.Seg (.next a) l c'

theorem seg_append : m.Seg c (l1 ++ l2) c' ↔ ∃ d, m.Seg c l1 d ∧ m.Seg d l2 c' := by
  induction l1 generalizing c with
  | nil => simp [Seg]
  | cons a l ih => simp only [cons_append, Seg, ih, exists_and_left, and_assoc]

theorem Seg.read (h : m.Seg c (a :: l) c') : m.read c = some a := h.1

theorem Seg.last (h : m.Seg c l c') (hl : l ≠ []) : ∃ a ∈ l, c' = .next a := by
  induction l generalizing c with
  | nil => exact absurd rfl hl
  | cons a l ih =>
    cases l with
    | nil => exact ⟨a, mem_singleton_self a, h.2.2.symm⟩
    | cons b l =>
      obtain ⟨z, hz, rfl⟩ := ih h.2.2 (cons_ne_nil b l)
      exact ⟨z, mem_cons_of_mem a hz, rfl⟩

theorem Seg.cell (h : m.Seg (.head b) l c) : c = .head b ∨ ∃ a ∈ l, c = .next a := by
  cases l with
  | nil => exact .inl (Eq.symm h)
  | cons a l => exact .inr (h.last (cons_ne_nil a l))

/-- The cell behind a part of a list is the link of none of the other nodes. -/
theorem Seg.cell_ne (h : m.Seg (.head b) l1 c) (ha : a ∉ l1) : .next a ≠ c := by
  rintro rfl
  rcases h.cell with heq | ⟨z, hz, heq⟩
  · cases heq
  · injection heq with heq
    exact ha (heq ▸ hz)

theorem Seg.congr (h : m.Seg c l c') (hc : l ≠ [] → m'.read c = m.read c)
    (hn : ∀ a ∈ l, .next a ≠ c' → m'.next a = m.next a) (hbc : ∀ a ∈ l, m'.back a = m.back a) (hnd : l.Nodup) :
    m'.Seg c l c' := by
  induction l generalizing c with
  | nil => exact h
  | cons a l ih =>
    obtain ⟨hr, hb, hl⟩ := h
    obtain ⟨ha, hnd⟩ := nodup_cons.mp hnd
    refine ⟨(hc (cons_ne_nil a l)).trans hr, (hbc a mem_cons_self).trans hb, ih hl (fun hne => ?_)
      (fun b hbl => hn b (mem_cons_of_mem a hbl)) (fun b hbl => hbc b (mem_cons_of_mem a hbl)) hnd⟩
    refine hn a mem_cons_self fun heq => ?_
    obtain ⟨z, hz, hs⟩ := hl.last hne
    injection heq.trans hs with hza
    exact ha (hza ▸ hz)

theorem Seg.end_unique (h : m.Seg c l c') (h' : m.Seg c l c'') : c' = c'' := by
  induction l generalizing c with
  | nil => exact h.symm.trans h'
  | cons a l ih => exact ih h.2.2 h'.2.2

theorem Seg.unique {d d' : Cell β α} (h : m.Seg c l d) (hd : m.read d = none) (h' : m.Seg c l' d')
    (hd' : m.read d' = none) : l = l' := by
  induction l generalizing c l' with
  | nil =>
    obtain rfl : c = d := h
    cases l' with
    | nil => rfl
    | cons a l' => cases hd.symm.trans h'.read
  | cons a l ih =>
    cases l' with
    | nil =>
      obtain rfl : c = d' := h'
      cases hd'.symm.trans h.read
    | cons a' l' =>
      obtain rfl := Option.some.inj (h.read.symm.trans h'.read)
      rw [ih h.2.2 h'.2.2]

theorem Seg.walk (h : m.Seg c l c') (hl : ∀ a ∈ l, p a = true)
    (hc : ∀ a, m.read c' = some a → p a = false) (hn : l.length ≤ n) : m.walk p n c = c' := by
  induction l generalizing c n with
  | nil =>
    obtain rfl : c = c' := h
    cases n with
    | zero => rfl
    | succ n =>
      rw [Hlists.walk]
      cases hr : m.read c with
      | none => rfl
      | some a =>
        dsimp only
        rw [hc a hr]
        rfl
  | cons a l ih =>
    obtain _ | n := n
    · simp at hn
    rw [Hlists.walk, h.read]
    dsimp only
    rw [if_pos (hl a mem_cons_self)]
    exact ih h.2.2 (fun b hb => hl b (mem_cons_of_mem a hb)) (by simpa using hn)

theorem Seg.find (h : m.Seg c l c') (hc : m.read c' = none) (hn : l.length ≤ n) :
    m.find p n (m.read c) = l.find? p := by
  induction l generalizing c n with
  | nil =>
    obtain rfl : c = c' := h
    rw [hc]
    cases n <;> rfl
  | cons a l ih =>
    obtain _ | n := n
    · simp at hn
    rw [h.read, Hlists.find, List.find?_cons]
    cases p a with
    | true => rfl
    | false => exact ih h.2.2 (by simpa using hn)

theorem Seg.walk_mem (p : α → Bool) (n : ℕ) (h : m.Seg c l c') (hc : m.read c' = none) :
    ∃ l1 l2, l = l1 ++ l2 ∧ m.Seg c l1 (m.walk p n c) := by
  induction n generalizing c l with
  | zero => exact ⟨[], l, rfl, rfl⟩
  | succ n ih =>
    rw [Hlists.walk]
    cases l with
    | nil =>
      obtain rfl : c = c' := h
      rw [hc]
      exact ⟨[], [], rfl, rfl⟩
    | cons a l =>
      rw [h.read]
      dsimp only
      split
      · obtain ⟨l1, l2, rfl, hs⟩ := ih h.2.2
        exact ⟨a :: l1, l2, rfl, h.1, h.2.1, hs⟩
      · exact ⟨[], a :: l, rfl, rfl⟩

theorem Seg.chain (h : m.Seg c l c') (hc : m.read c' = none) : Chain.Spells m.next (m.read c) l := by
  induction l generalizing c with
  | nil =>
    obtain rfl : c = c' := h
    exact hc
  | cons a l ih => exact ⟨h.1, ih h.2.2⟩

theorem mem_of_find {o : Option α} (h : Chain.Spells m.next o l) (ha : m.find p n o = some a) : a ∈ l := by
  induction n generalizing o l with
  | zero => cases ha
  | succ n ih =>
    cases l with
    | nil =>
      obtain rfl : o = none := h
      cases ha
    | cons x l =>
      obtain ⟨rfl, hl⟩ := h
      rw [Hlists.find] at ha
      split at ha
      · exact Option.some.inj ha ▸ mem_cons_self
      · exact mem_cons_of_mem x (ih hl ha)

/-! ### Lists -/

structure Spells (m : Hlists β α) (b : β) (l : List α) : Prop where
  nodup : l.Nodup
  seg : ∃ c, m.Seg (.head b) l c ∧ m.read c = none

namespace Spells

section

variable (h : m.Spells b l)
include h

theorem unique (h' : m.Spells b l') : l = l' := by
  obtain ⟨c, hc, hn⟩ := h.seg
  obtain ⟨c', hc', hn'⟩ := h'.seg
  exact hc.unique hn hc' hn'

theorem find (hn : l.length ≤ n) : m.find p n (m.head b) = l.find? p := by
  obtain ⟨c, hc, hnn⟩ := h.seg
  exact hc.find hnn hn

theorem chain : Chain.Spells m.next (m.head b) l := by
  obtain ⟨c, hc, hn⟩ := h.seg
  exact hc.chain hn

theorem congr (hh : m'.head b = m.head b) (hn : ∀ a ∈ l, m'.next a = m.next a)
    (hb : ∀ a ∈ l, m'.back a = m.back a) : m'.Spells b l := by
  obtain ⟨c, hc, hnn⟩ := h.seg
  refine ⟨h.nodup, c, hc.congr (fun _ => hh) (fun a ha _ => hn a ha) hb h.nodup, ?_⟩
  cases l with
  | nil =>
    obtain rfl : .head b = c := hc
    exact hh.trans hnn
  | cons a l =>
    obtain ⟨z, hz, rfl⟩ := hc.last (cons_ne_nil a l)
    exact (hn z hz).trans hnn

end

section

variable (h : m.Spells b (l1 ++ l2))
include h

theorem walk (hc : m.Seg (.head b) l1 c) (p : α → Bool) (n : ℕ) :
    ∃ l1' l2', l1 ++ l2 = l1' ++ l2' ∧ m.Seg (.head b) l1' (m.walk p n c) := by
  obtain ⟨c', hc', hn⟩ := h.seg
  obtain ⟨d, hd, h2⟩ := seg_append.mp hc'
  obtain rfl := hc.end_unique hd
  obtain ⟨k1, k2, rfl, hk⟩ := h2.walk_mem p n hn
  exact ⟨l1 ++ k1, k2, (append_assoc ..).symm, seg_append.mpr ⟨c, hc, hk⟩⟩

theorem split : ∃ c, m.Seg (.head b) l1 c ∧ m.read c = l2.head? := by
  obtain ⟨c', hc', hn⟩ := h.seg
  obtain ⟨c, h1, h2⟩ := seg_append.mp hc'
  refine ⟨c, h1, ?_⟩
  cases l2 with
  | nil =>
    obtain rfl : c = c' := h2
    exact hn
  | cons a l => exact h2.read

theorem mem_of_read (hc : m.Seg (.head b) l1 c) (ha : some a = m.read c) : a ∈ l2 := by
  obtain ⟨d, hd, hr⟩ := h.split
  obtain rfl := hc.end_unique hd
  exact mem_of_head? (hr.symm.trans ha.symm)

end

theorem head (h : m.Spells b l) : m.head b = l.head? := h.chain.head

section

variable (h : m.Spells b (l1 ++ a :: l2))
include h

theorem back : ∃ c, m.Seg (.head b) l1 c ∧ m.back a = some c := by
  obtain ⟨c', hc', -⟩ := h.seg
  obtain ⟨c, h1, -, hb, -⟩ := seg_append.mp hc'
  exact ⟨c, h1, hb⟩

theorem next_eq : m.next a = l2.head? := by
  have h' : m.Spells b ((l1 ++ [a]) ++ l2) := by simpa using h
  obtain ⟨c, hc, hr⟩ := h'.split
  obtain ⟨d, -, -, -, hd⟩ := seg_append.mp hc
  obtain rfl : .next a = c := hd
  exact hr

theorem mem_of_next {x : α} (hx : some x = m.next a) : x ∈ l2 := mem_of_head? (h.next_eq.symm.trans hx.symm)

end

end Spells

/-! ### Writes -/

section Writes

variable [DecidableEq α] [DecidableEq β]

theorem read_write (v : Option α) : (m.write v c).read c' = if c' = c then v else m.read c' := by
  cases c <;> cases c' <;> simp [write, Hlists.read, update_apply]

@[simp] theorem back_write (v : Option α) : (m.write v c).back = m.back := by
  cases c <;> rfl

omit [DecidableEq β] in
@[simp] theorem read_setBack (o : Option α) : (m.setBack c o).read = m.read := by
  cases o <;> rfl

omit [DecidableEq β] in
theorem back_setBack (o : Option α) : (m.setBack c o).back a = if some a = o then some c else m.back a := by
  cases o <;> simp [setBack, update_apply]

theorem read_prepare : (m.prepare c a).read c' = if c' = .next a then m.read c else m.read c' := by
  have hn : (m.setBack (.next a) (m.read c)).next = m.next := by
    cases m.read c <;> rfl
  have hh : (m.setBack (.next a) (m.read c)).head = m.head := by
    cases m.read c <;> rfl
  cases c' with
  | head b =>
    exact congrFun hh b
  | next x =>
    change update (m.setBack (.next a) (m.read c)).next a (m.read c) x = _
    simp only [hn, update_apply, Cell.next.injEq]
    rfl

omit [DecidableEq β] in
theorem back_prepare :
    (m.prepare c a).back x = if x = a then some c else if some x = m.read c then some (.next a) else m.back x := by
  simp [prepare, update_apply, back_setBack]

theorem read_insert :
    (m.insert c a).read c' = if c' = c then some a else if c' = .next a then m.read c else m.read c' := by
  rw [insert, read_write, read_prepare]

theorem back_insert :
    (m.insert c a).back x = if x = a then some c else if some x = m.read c then some (.next a) else m.back x := by
  rw [insert, back_write, back_prepare]

theorem next_insert : (m.insert c a).next x = if .next x = c then some a else if x = a then m.read c else m.next x := by
  change (m.insert c a).read (.next x) = _
  simp only [read_insert, Cell.next.injEq]
  rfl

theorem read_detach (h : m.back a = some c) : (m.detach a).read c' = if c' = c then m.next a else m.read c' := by
  rw [detach, h]
  rw [read_write, read_setBack]

theorem next_detach (h : m.back a = some c) : (m.detach a).next x = if .next x = c then m.next a else m.next x := by
  change (m.detach a).read (.next x) = _
  rw [read_detach h]
  rfl

theorem back_detach (h : m.back a = some c) : (m.detach a).back x = if some x = m.next a then some c else m.back x := by
  rw [detach, h]
  rw [back_write, back_setBack]

theorem Spells.insert (h : m.Spells b (l1 ++ l2)) (hc : m.Seg (.head b) l1 c) (ha : a ∉ l1 ++ l2) :
    (m.insert c a).Spells b (l1 ++ a :: l2) := by
  obtain ⟨c'', hs, hnn⟩ := h.seg
  obtain ⟨d, hd, h2⟩ := seg_append.mp hs
  obtain rfl := hc.end_unique hd
  obtain ⟨hnd1, hnd2, hds⟩ := nodup_append.mp h.nodup
  have hnd : (l1 ++ a :: l2).Nodup := perm_middle.nodup_iff.mpr (nodup_cons.mpr ⟨ha, h.nodup⟩)
  rw [mem_append, not_or] at ha
  have hn1 : ∀ x ∈ l1, x ≠ a := fun x hx e => ha.1 (e ▸ hx)
  have hn2 : ∀ x ∈ l2, x ≠ a := fun x hx e => ha.2 (e ▸ hx)
  have hb : ∀ x, x ≠ a → some x ≠ m.read c → (m.insert c a).back x = m.back x := fun x hxa hx => by
    rw [back_insert, if_neg hxa, if_neg hx]
  have hn : ∀ x, x ≠ a → .next x ≠ c → (m.insert c a).next x = m.next x := fun x hxa hx => by
    rw [next_insert, if_neg hx, if_neg hxa]
  have hl1 : (m.insert c a).Seg (.head b) l1 c := by
    refine hc.congr (fun hne => ?_) (fun x hx => hn x (hn1 x hx))
      (fun x hx => hb x (hn1 x hx) fun e => hds x hx x (h.mem_of_read hc e) rfl) hnd1
    obtain ⟨z, -, rfl⟩ := hc.last hne
    rw [read_insert, if_neg nofun, if_neg nofun]
  have hat : (m.insert c a).read c = some a := by rw [read_insert, if_pos rfl]
  have hab : (m.insert c a).back a = some c := by rw [back_insert, if_pos rfl]
  have han : (m.insert c a).read (.next a) = m.read c := by rw [read_insert, if_neg (hc.cell_ne ha.1), if_pos rfl]
  refine ⟨hnd, ?_⟩
  cases l2 with
  | nil =>
    obtain rfl : c = c'' := h2
    exact ⟨.next a, seg_append.mpr ⟨c, hl1, hat, hab, rfl⟩, han.trans hnn⟩
  | cons y l =>
    obtain ⟨z, hz, rfl⟩ := h2.last (cons_ne_nil y l)
    obtain ⟨hy, -, hl⟩ := h2
    have hyl : y ∉ l := (nodup_cons.mp hnd2).1
    have hc2 : ∀ x ∈ y :: l, .next x ≠ c := fun x hx => hc.cell_ne fun hx1 => hds x hx1 x hx rfl
    have hl' : (m.insert c a).Seg (.next y) l (.next z) := by
      refine hl.congr (fun _ => hn y (hn2 y mem_cons_self) (hc2 y mem_cons_self))
        (fun x hx _ => hn x (hn2 x (mem_cons_of_mem y hx)) (hc2 x (mem_cons_of_mem y hx)))
        (fun x hx => hb x (hn2 x (mem_cons_of_mem y hx)) fun e => ?_) (nodup_cons.mp hnd2).2
      obtain rfl := Option.some.inj (e.trans hy)
      exact hyl hx
    have hyb : (m.insert c a).back y = some (.next a) := by
      rw [back_insert, if_neg (hn2 y mem_cons_self), if_pos hy.symm]
    exact ⟨.next z, seg_append.mpr ⟨c, hl1, hat, hab, han.trans hy, hyb, hl'⟩,
      (hn z (hn2 z hz) (hc2 z hz)).trans hnn⟩

theorem Spells.detach (h : m.Spells b (l1 ++ a :: l2)) : (m.detach a).Spells b (l1 ++ l2) := by
  obtain ⟨c'', hs, hnn⟩ := h.seg
  obtain ⟨c, hc, hr, hb, h2⟩ := seg_append.mp hs
  obtain ⟨hn1, hn2, hd⟩ := nodup_append.mp h.nodup
  obtain ⟨ha2, hn2⟩ := nodup_cons.mp hn2
  have hnd : (l1 ++ l2).Nodup := (nodup_cons.mp (perm_middle.nodup_iff.mp h.nodup)).2
  have hn : ∀ x, .next x ≠ c → (m.detach a).next x = m.next x := fun x hx => by
    rw [next_detach hb, if_neg hx]
  have hl1 : (m.detach a).Seg (.head b) l1 c := by
    refine hc.congr (fun hne => ?_) (fun x _ => hn x) (fun x hx => ?_) hn1
    · obtain ⟨z, -, rfl⟩ := hc.last hne
      rw [read_detach hb, if_neg nofun]
    · rw [back_detach hb, if_neg fun e => hd x hx x (mem_cons_of_mem a (h.mem_of_next e)) rfl]
  have hat : (m.detach a).read c = m.next a := by rw [read_detach hb, if_pos rfl]
  refine ⟨hnd, ?_⟩
  cases l2 with
  | nil =>
    obtain rfl : .next a = c'' := h2
    rw [append_nil]
    exact ⟨c, hl1, hat.trans hnn⟩
  | cons y l =>
    obtain ⟨z, hz, rfl⟩ := h2.last (cons_ne_nil y l)
    obtain ⟨hy, -, hl⟩ := h2
    obtain ⟨hyl, hnl⟩ := nodup_cons.mp hn2
    have hc2 : ∀ x ∈ y :: l, .next x ≠ c := fun x hx =>
      hc.cell_ne fun hx1 => hd x hx1 x (mem_cons_of_mem a hx) rfl
    have hl' : (m.detach a).Seg (.next y) l (.next z) := by
      refine hl.congr (fun _ => hn y (hc2 y mem_cons_self))
        (fun x hx _ => hn x (hc2 x (mem_cons_of_mem y hx))) (fun x hx => ?_) hnl
      rw [back_detach hb, if_neg]
      intro e
      obtain rfl := Option.some.inj (e.trans hy)
      exact hyl hx
    have hyb : (m.detach a).back y = some c := by
      rw [back_detach hb]
      exact if_pos hy.symm
    exact ⟨.next z, seg_append.mpr ⟨c, hl1, hat.trans hy, hyb, hl'⟩, (hn z (hc2 z hz)).trans hnn⟩

/-! ### All lists together -/

/-- Every header spells its list, no node is on two of them, and a node on none points back to nothing. -/
structure Lists (m : Hlists β α) (l : β → List α) : Prop where
  spells : ∀ b, m.Spells b (l b)
  disjoint : ∀ b b' a, a ∈ l b → a ∈ l b' → b = b'
  off : ∀ a, (∀ b, a ∉ l b) → m.back a = none

namespace Lists

variable {l : β → List α}

omit [DecidableEq α] [DecidableEq β] in
theorem back_eq_none (h : Lists m l) : m.back a = none ↔ ∀ b, a ∉ l b := by
  refine ⟨fun hn b hb => ?_, h.off a⟩
  obtain ⟨l1, l2, heq⟩ := append_of_mem hb
  have hs := h.spells b
  rw [heq] at hs
  obtain ⟨c, -, hc⟩ := hs.back
  cases hn.symm.trans hc

omit [DecidableEq α] in
theorem disjoint_update (h : Lists m l) (b : β) (hl : ∀ x ∈ l', x ∈ l b ∨ ∀ b', x ∉ l b') :
    ∀ b1 b2 x, x ∈ update l b l' b1 → x ∈ update l b l' b2 → b1 = b2 := by
  have hn {c : β} {x : α} (hc : c ≠ b) (hx : x ∈ l c) : x ∉ l' := fun hx' =>
    (hl x hx').elim (fun hb => hc (h.disjoint c b x hx hb)) fun hb => hb c hx
  intro b1 b2 x h1 h2
  by_cases hb1 : b1 = b
  · by_cases hb2 : b2 = b
    · rw [hb1, hb2]
    · rw [hb1, update_self] at h1
      rw [update_of_ne hb2] at h2
      exact absurd h1 (hn hb2 h2)
  · rw [update_of_ne hb1] at h1
    by_cases hb2 : b2 = b
    · rw [hb2, update_self] at h2
      exact absurd h2 (hn hb1 h1)
    · rw [update_of_ne hb2] at h2
      exact h.disjoint b1 b2 x h1 h2

omit [DecidableEq α] [DecidableEq β] in
theorem cell_ne (h : Lists m l) (hl : l b = l1 ++ l2) (hc : m.Seg (.head b) l1 c) (hb : b' ≠ b) :
    Cell.head b' ≠ c ∧ ∀ x ∈ l b', Cell.next x ≠ c := by
  rcases hc.cell with rfl | ⟨z, hz, rfl⟩
  · exact ⟨fun e => hb (by injection e), fun x _ => nofun⟩
  · refine ⟨nofun, fun x hx => hc.cell_ne fun hx1 => hb (h.disjoint b' b x hx ?_)⟩
    rw [hl]
    exact mem_append_left _ hx1

theorem insert (h : Lists m l) (hl : l b = l1 ++ l2) (hc : m.Seg (.head b) l1 c) (ha : ∀ b, a ∉ l b) :
    Lists (m.insert c a) (update l b (l1 ++ a :: l2)) := by
  have hs := h.spells b
  rw [hl] at hs
  have hmem : ∀ x, some x = m.read c → x ∈ l b := by
    intro x hx
    rw [hl]
    exact mem_append_right _ (hs.mem_of_read hc hx)
  refine ⟨fun b' => ?_, h.disjoint_update b fun x hx => ?_, fun x hx => ?_⟩
  · by_cases hb : b' = b
    · subst hb
      rw [update_self]
      exact hs.insert hc (hl ▸ ha b')
    · rw [update_of_ne hb]
      obtain ⟨hh, hn⟩ := h.cell_ne hl hc hb
      have hne : ∀ x ∈ l b', x ≠ a := fun x hx e => ha b' (e ▸ hx)
      refine (h.spells b').congr ?_ (fun x hx => ?_) fun x hx => ?_
      · change (m.insert c a).read (.head b') = _
        rw [read_insert, if_neg hh]
        rfl
      · rw [next_insert, if_neg (hn x hx), if_neg (hne x hx)]
      · rw [back_insert, if_neg (hne x hx), if_neg fun e => hb (h.disjoint b' b x hx (hmem x e))]
  · rw [mem_append, mem_cons] at hx
    rcases hx with hx | rfl | hx
    · exact .inl (hl ▸ mem_append_left _ hx)
    · exact .inr ha
    · exact .inl (hl ▸ mem_append_right _ hx)
  · have hxb := hx b
    rw [update_self, mem_append, mem_cons] at hxb
    have hxl : ∀ b', x ∉ l b' := by
      intro b' hm'
      by_cases hb : b' = b
      · subst hb
        rw [hl, mem_append] at hm'
        exact hxb (hm'.imp id .inr)
      · exact hx b' (by rwa [update_of_ne hb])
    rw [back_insert, if_neg fun e => hxb (.inr (.inl e)), if_neg fun e => hxl b (hmem x e)]
    exact h.off x hxl

/-- After a node is linked out and before its own links are cleared. -/
theorem spells_detach (h : Lists m l) (hl : l b = l1 ++ a :: l2) (b' : β) :
    (m.detach a).Spells b' (update l b (l1 ++ l2) b') := by
  have hs := h.spells b
  rw [hl] at hs
  by_cases hb : b' = b
  · subst hb
    rw [update_self]
    exact hs.detach
  · obtain ⟨c, hc, hbc⟩ := hs.back
    obtain ⟨hh, hn⟩ := h.cell_ne hl hc hb
    rw [update_of_ne hb]
    refine (h.spells b').congr ?_ (fun x hx => ?_) fun x hx => ?_
    · change (m.detach a).read (.head b') = _
      rw [read_detach hbc, if_neg hh]
      rfl
    · rw [next_detach hbc, if_neg (hn x hx)]
    · rw [back_detach hbc, if_neg]
      intro e
      refine hb (h.disjoint b' b x hx ?_)
      rw [hl]
      exact mem_append_right _ (mem_cons_of_mem a (hs.mem_of_next e))

theorem remove (h : Lists m l) (hl : l b = l1 ++ a :: l2) : Lists ((m.detach a).clear a) (update l b (l1 ++ l2)) := by
  have hs := h.spells b
  rw [hl] at hs
  obtain ⟨c, hc, hbc⟩ := hs.back
  have hg : ∀ b', a ∉ update l b (l1 ++ l2) b' := by
    intro b' hmem
    by_cases hb : b' = b
    · subst hb
      rw [update_self] at hmem
      exact (nodup_cons.mp (perm_middle.nodup_iff.mp hs.nodup)).1 hmem
    · rw [update_of_ne hb] at hmem
      exact hb (h.disjoint b' b a hmem (by rw [hl]; simp))
  refine ⟨fun b' => ?_, h.disjoint_update b fun x hx => .inl ?_, fun x hx => ?_⟩
  · refine (h.spells_detach hl b').congr rfl (fun x hx => ?_) fun x hx => ?_
    all_goals exact update_of_ne (fun e : x = a => hg b' (e ▸ hx)) ..
  · rw [hl]
    exact mem_append.mpr ((mem_append.mp hx).imp id (mem_cons_of_mem a))
  · by_cases hxa : x = a
    · rw [hxa]
      exact update_self ..
    · have hxl : ∀ b', x ∉ l b' := by
        intro b' hmem
        by_cases hb : b' = b
        · subst hb
          refine hx b' ?_
          rw [update_self]
          rw [hl, mem_append, mem_cons] at hmem
          exact mem_append.mpr (hmem.imp id fun h => h.resolve_left hxa)
        · exact hx b' (by rwa [update_of_ne hb])
      have ha : some x ≠ m.next a := by
        intro e
        refine hxl b ?_
        rw [hl]
        exact mem_append_right _ (mem_cons_of_mem a (hs.mem_of_next e))
      change update (m.detach a).back a none x = none
      rw [update_of_ne hxa, back_detach hbc, if_neg ha]
      exact h.off x hxl

end Lists

end Writes

end Hlists

end Sol8.Lib
