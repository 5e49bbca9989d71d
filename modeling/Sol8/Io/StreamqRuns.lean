import Sol8.Io.StreamqRep

/-! The calls on a STREAMS queue, and what holds of it after any sequence of them. -/

namespace Sol8.Io.Streamq

open Function Sol8.Lib Ranked List Queue

variable {α : Type} {q : Queue α} {d : ℕ → List α} {bp : α} {r k : ℕ} {x y : List α} {s : Queue α × (ℕ → List α)}

namespace Rep

variable {n : ℕ} {l : List α} {s : Links α}

/-! ### Messages of a deque and their neighbours -/

/-- The band of a message tells whether it is one of rank `r`, for the ranks that have a `qband_t`. -/
theorem band_ne (h : Rep q d) {a : α} {i : ℕ} (ha : a ∈ d i) (hi : i ≠ r) (hb : bandOf r ≠ 0) (hr : r < 257) :
    (q.msg a).band.val ≠ bandOf r := by
  obtain ⟨hbr, hpos, hr256⟩ := band_cases hr hb
  rw [h.band_eq ha, hbr]
  unfold bandOf
  split <;> omega

attribute [local simp] Option.filter

section

variable (h : Rep q d)
include h

/-- The message behind a part of the deque is of the same band, unless it is the end. -/
theorem next_same (hr : r < 257) (hb : bandOf r ≠ 0) (hy : ∀ a ∈ y, a ∈ d r) :
    (y ++ below d r).head?.filter (fun a => (q.msg a).band.val = bandOf r) = y.head? := by
  cases y with
  | cons c y => simp [h.band_eq (hy c (by simp))]
  | nil =>
    cases hc : below d r with
    | nil => rfl
    | cons c l =>
      obtain ⟨i, hi, hci⟩ := mem_below.mp (show c ∈ below d r by simp [hc])
      simp [h.band_ne hci hi.ne hb hr]

theorem prev_same (hr : r < 257) (hb : bandOf r ≠ 0) (hx : ∀ a ∈ x, a ∈ d r) :
    (between d r 257 ++ x).getLast?.filter (fun a => (q.msg a).band.val = bandOf r) = x.getLast? := by
  rcases eq_nil_or_concat' x with rfl | ⟨x, c, rfl⟩
  · rw [append_nil]
    cases hc : (between d r 257).getLast? with
    | none => rfl
    | some c =>
      obtain ⟨i, hi, -, hci⟩ := mem_between.mp (mem_of_getLast? hc)
      simp [h.band_ne hci hi.ne' hb hr]
  · simp [← append_assoc, h.band_eq (hx c (by simp))]

theorem notMem_of_split (hr : r < 257) (hs : d r = x ++ bp :: y) : bp ∉ x ∧ bp ∉ y := by
  have hnd := h.list.nodup
  rw [order_split hr, hs] at hnd
  have hnd := (nodup_append.mp (nodup_append.mp hnd).1).2.1
  rw [nodup_middle, nodup_cons, mem_append, not_or] at hnd
  exact hnd.1

theorem sorted : (order d).Pairwise fun a b => (q.msg b).rank ≤ (q.msg a).rank := pairwise_below h.rank

theorem filter_band {b : ℕ} (hb : b < 256) :
    (order d).filter (fun a => (q.msg a).band.val = b) = if b = 0 then d 256 ++ d 0 else d b := by
  have hal {l : List α} (hl : ∀ a ∈ l, (q.msg a).band.val = b) : l.filter (fun a => (q.msg a).band.val = b) = l :=
    filter_eq_self.mpr fun a ha => by simpa using hl a ha
  have hn {l : List α} (hl : ∀ a ∈ l, (q.msg a).band.val ≠ b) : l.filter (fun a => (q.msg a).band.val = b) = [] :=
    filter_eq_nil_iff.mpr fun a ha => by simpa using hl a ha
  rw [order_split (show 256 < 257 by decide), between_self, nil_append, filter_append]
  by_cases h0 : b = 0
  · subst h0
    rw [below_split (show 0 < 256 by decide), below, append_nil, filter_append, hal h.forced, hn, hal,
      nil_append, if_pos rfl]
    · exact fun a ha => h.band ha (by decide)
    · intro a ha
      obtain ⟨i, hi, hi', ha⟩ := mem_between.mp ha
      rw [h.band ha hi']
      omega
  · rw [below_split hb, filter_append, filter_append, hn, hn, hal, hn, nil_append,
      nil_append, append_nil, if_neg h0]
    · intro a ha
      obtain ⟨i, hi, ha⟩ := mem_below.mp ha
      rw [h.band ha (by omega)]
      omega
    · exact fun a ha => h.band ha hb
    · intro a ha
      obtain ⟨i, hi, hi', ha⟩ := mem_between.mp ha
      rw [h.band ha hi']
      omega
    · intro a ha
      rw [h.forced a ha]
      omega

end

def kept (d : ℕ → List α) (msg : α → Msg) (flushed : Msg → Bool) (r : ℕ) : List α := (d r).filter fun a => !flushed (msg a)

/-- Flushing a band with a `qband_t` touches one deque. -/
theorem kept_band (h : Rep q d) {f : Msg → Bool} (hr : r < 257) (hb : bandOf r ≠ 0) :
    kept d q.msg (fun m => m.band.val = bandOf r && f m) = update d r ((d r).filter fun a => !f (q.msg a)) := by
  funext i
  by_cases hi : i = r
  · subst hi
    rw [update_self]
    refine filter_congr fun a ha => ?_
    simp [h.band_eq ha]
  · rw [update_of_ne hi]
    refine filter_eq_self.mpr fun a ha => ?_
    simp [h.band_ne ha hi hb hr]

/-! ### Queues without the messages -/

theorem reset (h : Rep q d) : Rep q.reset fun _ => [] := by
  have hnil : order (fun _ : ℕ => ([] : List α)) = [] :=
    eq_nil_iff_forall_not_mem.mpr fun a ha => by simpa using mem_below.mp ha
  refine ⟨?_, by simp, by simp, .reset h.hiwat, h.hiwat, by simpa [Queue.reset] using h.nband, ?_, fun _ _ _ => rfl⟩
  · rw [hnil, Links.IsList.nil]
    exact ⟨rfl, rfl⟩
  · intro i qb hi
    simp only [Queue.reset, List.getElem?_map, Option.map_eq_some_iff] at hi
    obtain ⟨qb0, hi, rfl⟩ := hi
    have hh := (h.bands i qb0 hi).hiwat
    exact ⟨rfl, rfl, .reset hh, hh⟩

theorem congr_links (h : Rep q d) (hf : s.first = q.links.first) (hl : s.last = q.links.last)
    (hs : ∀ a ∈ order d, s.prev a = q.links.prev a ∧ s.next a = q.links.next a) : Rep { q with links := s } d :=
  { h with list := ⟨h.list.nodup, hf.trans h.list.first, hl.trans h.list.last, h.list.seg.congr hs⟩ }

/-- The links to the right along a list that may be off the queue. -/
def Chain (next : α → Option α) : List α → Prop
  | [] => True
  | a :: l => next a = l.head? ∧ Chain next l

theorem Chain.congr {next next' : α → Option α} (h : Chain next l) (hl : ∀ a ∈ l, next' a = next a) :
    Chain next' l := by
  induction l with
  | nil => trivial
  | cons a l ih =>
    exact ⟨(hl a mem_cons_self).trans h.1, ih h.2 fun b hb => hl b (mem_cons_of_mem a hb)⟩

theorem chain_of_seg {p : Option α} (h : s.Seg p l none) : Chain s.next l := by
  induction l generalizing p with
  | nil => trivial
  | cons a l ih => exact ⟨by simpa using h.2.1, ih h.2.2⟩

theorem setBand_comm (q : Queue α) (s : Links α) (b : ℕ) (g : Qband α → Qband α) :
    { q.setBand b g with links := s } = ({ q with links := s }).setBand b g := by
  unfold setBand
  split <;> rfl

variable [DecidableEq α]

/-! ### Putting messages -/

/-- Links of messages that are not on the queue stay, those of the new message apart. -/
structure Framed (q : Queue α) (d : ℕ → List α) (bp : α) (q' : Queue α) : Prop where
  msg : q'.msg = q.msg
  next : ∀ a, a ≠ bp → a ∉ order d → q'.links.next a = q.links.next a
  nband : q.bands.length ≤ q'.bands.length

theorem framed_of_placed (hr : r < 257) (hs : d r = x ++ y) (hb : bp ∉ order d)
    {q' : Queue α} (hq : Placed q d bp r x y q') : Framed q d bp q' := by
  obtain ⟨g, rfl, -⟩ := hq
  have hmem {a : α} (ha : (between d r 257 ++ x).getLast? = some a) : a ∈ order d := by
    have := mem_of_getLast? ha
    rw [order_split hr, hs]
    simp only [mem_append] at this ⊢
    tauto
  refine ⟨by simp, fun a hne ha => ?_, by simp⟩
  rw [setBand_links, Links.link_next fun hp => hb (hmem hp), if_neg hne, if_neg fun hp => ha (hmem hp.symm)]

theorem put (h : Rep q d) (hr : (q.msg bp).rank = r) (hfr : (q.msg bp).band.val = bandOf r) (hb : bp ∉ order d)
    (hs : d r = x ++ y) {link : Queue α → Option (Queue α)}
    (hn : ∀ q1 : Queue α, Rep q1 d → q1.msg = q.msg → q1.links = q.links → bandOf r ≤ q1.bands.length →
      ∃ q', link q1 = some q' ∧ Placed q1 d bp r x y q') :
    ∃ q' ok, q.put link bp k = some (q', ok) ∧ Rep q' (if ok = true then update d r (x ++ bp :: y) else d) ∧
      Framed q d bp q' ∧ (bandOf r ≤ q.bands.length → ok = true) := by
  have hr257 : r < 257 := hr ▸ Msg.rank_lt _
  obtain ⟨q1, h1, hm, hl, hlen, hq1⟩ := h.allocBands (k := k) (bandOf_lt hr257)
  unfold Queue.put
  rw [hfr]
  dsimp only
  rw [hq1]
  by_cases hok : bandOf r ≤ q1.bands.length
  · obtain ⟨q', hq', hp⟩ := hn q1 h1 hm hl hok
    have hf := framed_of_placed hr257 hs hb hp
    have hrp := h1.account_of_placed hp (hm ▸ hr) (hm ▸ hfr) hs hok hb
    refine ⟨q'.account (·.add (q'.msg bp)) (bandOf r), true, by simp [hok, hq'], by simpa using hrp,
      ⟨?_, fun a hne ha => ?_, ?_⟩, fun _ => rfl⟩
    · rw [account_msg, hf.msg, hm]
    · rw [account_links, hf.next a hne ha, hl]
    · rw [length_account]
      exact hlen.trans hf.nband
  · refine ⟨q1, false, by simp [hok], by simpa using h1, ⟨hm, fun a _ _ => by rw [hl], hlen⟩, fun hle => ?_⟩
    exact absurd (hle.trans hlen) hok

theorem rank_congr_band {m : Msg} (hm : m.queclass = qpctl) : ({ m with band := 0 } : Msg).rank = m.rank := by
  unfold Msg.rank
  unfold Msg.queclass at hm
  split at hm
  · next ht => simp only [if_pos ht]
  · simp [qpctl] at hm

section

variable (h : Rep q d)
include h

theorem forceBand (hb : bp ∉ order d) : Rep (q.forceBand bp) d ∧
    ((q.forceBand bp).msg bp).rank = (q.msg bp).rank ∧ ((q.forceBand bp).msg bp).band.val = bandOf (q.msg bp).rank ∧
    (∀ a, a ≠ bp → (q.forceBand bp).msg a = q.msg a) ∧ (q.forceBand bp).links = q.links ∧
    (q.forceBand bp).bands = q.bands := by
  unfold Queue.forceBand
  split_ifs with hc
  · have h256 := Msg.queclass_eq_qpctl.mp hc
    refine ⟨h.congr_msg fun r a ha => update_of_ne ?_ _ _, ?_, ?_, fun a ha => update_of_ne ha _ _, rfl, rfl⟩
    · rintro rfl
      exact hb (h.mem_order.mpr ⟨r, ha⟩)
    · simp only [update_self]
      exact rank_congr_band hc
    · simp [h256, bandOf]
  · have hne : (q.msg bp).rank ≠ 256 := fun h256 => hc (Msg.queclass_eq_qpctl.mpr h256)
    exact ⟨h, rfl, by rw [Msg.rank_eq_band hne, bandOf, if_neg hne], fun _ _ => rfl, rfl, rfl⟩

/-! ### Inserting in the middle -/

theorem insqLink_placed (hr : (q.msg bp).rank = r) (hf : (q.msg bp).band.val = bandOf r)
    (hbp : bp ∉ order d) (hs : d r = x ++ y) : Placed q d bp r x y (q.insqLink (y ++ below d r).head? bp) := by
  have hr257 : r < 257 := hr ▸ Msg.rank_lt _
  have ho := order_of_split hr257 hs
  set l1 := between d r 257 ++ x with hl1
  set l2 := y ++ below d r with hl2
  have hln : q.insertAt bp l2.head? = { q with links := q.links.link l1.getLast? l2.head? bp } := by
    cases hc : l2 with
    | nil =>
      rw [hc, append_nil] at ho
      rw [← ho]
      exact h.insertLast_eq
    | cons z zs =>
      rw [hc] at ho
      exact h.insertBefore_eq ho
  have hl := h.link_isList hr257 hs hbp
  rw [order_update hr257, cons_append] at hl
  unfold insqLink
  rw [hf]
  rw [hln]
  refine ⟨_, rfl, fun qb hb hq => ?_⟩
  have hh := h.holds_of_qband hr257 hb hq
  -- a neighbour of another band is at the end of the deque
  have hd (o : Option α) : (o.map fun a => (q.msg a).band.val) ≠ some (bandOf r) ↔
      o.filter (fun a => (q.msg a).band.val = bandOf r) = none := by
    cases o <;> simp
  have hp := h.prev_same hr257 hb fun a ha => hs ▸ mem_append_left y ha
  have hn := h.next_same hr257 hb fun a ha => hs ▸ mem_append_right x ha
  rw [hl.prev_of_split, hl.next_of_split]
  simp only [decide_eq_true_iff, hd, hp, hn, hh.first, List.getLast?_eq_none_iff,
    List.head?_eq_none_iff]
  by_cases hx : x = [] <;> by_cases hy : y = []
  · simp [hs, hx, hy]
  · obtain ⟨c, y', rfl⟩ := exists_cons_of_ne_nil hy
    simp [hs, hx, hh.last, List.getLast?_cons]
  · obtain ⟨c, x', rfl⟩ := exists_cons_of_ne_nil hx
    simp [hs, hy, List.getLast?_cons]
  · obtain ⟨c, x', rfl⟩ := exists_cons_of_ne_nil hx
    obtain ⟨c', y', rfl⟩ := exists_cons_of_ne_nil hy
    simp [hs, hh.first, hh.last, List.getLast?_append, List.getLast?_cons]

/-- `insq` with a place that keeps the order is a place in the deque of the message's rank. -/
theorem insq (hr : (q.msg bp).rank = r) (hp : bp ∉ order d) {l1 l2 : List α} (ho : order d = l1 ++ l2)
    (h1 : ∀ a ∈ l1.getLast?, r ≤ (q.msg a).rank) (h2 : ∀ a ∈ l2.head?, (q.msg a).rank ≤ r) :
    ∃ x y, d r = x ++ y ∧ l2 = y ++ below d r ∧ ∃ q' ok, q.insq l2.head? bp k = some (q', ok) ∧
      Rep q' (if ok = true then update d r (x ++ bp :: y) else d) := by
  have hs := h.sorted
  rw [ho, pairwise_append] at hs
  have h1' : ∀ a ∈ l1, r ≤ (q.msg a).rank := by
    rcases eq_nil_or_concat' l1 with rfl | ⟨l, c, rfl⟩
    · simp
    · have hc := h1 c (by simp)
      intro a ha
      rcases mem_append.mp ha with ha | ha
      · exact hc.trans ((pairwise_append.mp hs.1).2.2 a ha c (by simp))
      · rw [mem_singleton.mp ha]
        exact hc
  have h2' : ∀ a ∈ l2, (q.msg a).rank ≤ r := by
    cases l2 with
    | nil => simp
    | cons c l =>
      have hc := h2 c (by simp)
      intro a ha
      rcases mem_cons.mp ha with rfl | ha
      · exact hc
      · exact ((pairwise_cons.mp hs.2.1).1 a ha).trans hc
  obtain ⟨x, y, hsp, hl1, hl2⟩ := split_at_rank h.rank (hr ▸ Msg.rank_lt _) ho h1' h2'
  obtain ⟨hf, hn, hb, -, hl, -⟩ := h.forceBand hp
  refine ⟨x, y, hsp, hl2, ?_⟩
  unfold Queue.insq
  by_cases hd : (q.forceBand bp).badord l2.head? bp = true
  · exact ⟨q.forceBand bp, false, by simp [hd], by simpa using hf⟩
  · obtain ⟨q', ok, heq, hrp, -, -⟩ := hf.put (k := k) (hn.trans hr) (hr ▸ hb) hp hsp
      fun q1 hq1 hm _ _ => ⟨_, rfl, hq1.insqLink_placed (by rw [hm, hn, hr]) (by rw [hm, hb, hr]) hp hsp⟩
    exact ⟨q', ok, by simp only [hd]; rw [hl2]; exact heq, hrp⟩

/-! ### Taking messages off -/

theorem unlink_isList (hr : r < 257) (hs : d r = x ++ bp :: y) :
    (q.links.unlink bp).IsList (order (update d r (x ++ y))) ∧
      q.links.prev bp = (between d r 257 ++ x).getLast? ∧ q.links.next bp = (y ++ below d r).head? := by
  have hl := h.list
  rw [order_of_split hr hs] at hl
  rw [order_update hr]
  exact ⟨hl.unlink, hl.prev_of_split, hl.next_of_split⟩

theorem rmvq_split (hs : d r = x ++ bp :: y) : Rep (q.rmvq bp) (update d r (x ++ y)) := by
  have hbp : bp ∈ d r := by simp [hs]
  have hr : r < 257 := h.rank r bp hbp ▸ Msg.rank_lt _
  obtain ⟨hx, hy⟩ := h.notMem_of_split hr hs
  obtain ⟨hl, hp, hn⟩ := h.unlink_isList hr hs
  have hbn := h.band_eq hbp
  unfold rmvq
  dsimp only
  rw [setBand_links, setBand_comm, hbn]
  refine h.remove hs hl fun qb hb hq => ?_
  have hh := h.holds_of_qband hr hb hq
  have hm : (fun a => decide ((q.msg a).band = (q.msg bp).band)) = fun a => decide ((q.msg a).band.val = bandOf r) := by
    simp only [Fin.ext_iff, hbn]
  refine ⟨?_, ?_, rfl⟩
  · rw [hm, hn, h.next_same hr hb fun a ha => by simp [hs, ha], hh.first, hs]
    cases x with
    | nil => simp
    | cons c x => simp [show c ≠ bp from fun e => hx (by simp [e])]
  · change (if qb.last = some bp then (q.links.prev bp).filter _ else qb.last) = _
    rw [hm, hp, h.prev_same hr hb fun a ha => by simp [hs, ha], hh.last, hs]
    rcases eq_nil_or_concat' y with rfl | ⟨y, c, rfl⟩
    · simp
    · have hc : c ≠ bp := fun e => hy (by simp [e])
      rw [show x ++ bp :: (y ++ [c]) = (x ++ bp :: y) ++ [c] by simp, List.getLast?_concat, if_neg (by simpa using hc),
        ← append_assoc, List.getLast?_concat]

theorem rmvq (hb : bp ∈ d r) : Rep (q.rmvq bp) (update d r ((d r).erase bp)) := by
  obtain ⟨x, y, hs⟩ := append_of_mem hb
  have hr : r < 257 := h.rank r bp hb ▸ Msg.rank_lt _
  have hx := (h.notMem_of_split hr hs).1
  rw [hs, erase_append_right _ hx, erase_cons_head]
  exact h.rmvq_split hs

end

def taken (d : ℕ → List α) (msg : α → Msg) : Option α → ℕ → List α
  | none => d
  | some a => update d (msg a).rank ((d (msg a).rank).erase a)

/-! ### Flushing -/

theorem forceBand_eq_self (hf : (q.msg bp).band.val = bandOf (q.msg bp).rank) : q.forceBand bp = q := by
  unfold Queue.forceBand
  split
  · next hc =>
    rw [Msg.queclass_eq_qpctl.mp hc] at hf
    have hb : ({ q.msg bp with band := 0 } : Msg) = q.msg bp := by
      have : (q.msg bp).band = 0 := Fin.ext hf
      rw [← this]
    rw [hb, update_eq_self]
  · rfl

theorem rmvq_msg : (q.rmvq bp).msg = q.msg := by simp [Queue.rmvq]

/-- The loop of `flushband` over the part `todo` of a deque, up to the message that follows it. -/
theorem flushbandLoop (flag : Bool) {old todo stay : List α} (hr : r < 257)
    (h : Rep q (update d r (old ++ todo ++ stay))) (hn : todo.length < n) :
    ∃ q', flushbandLoop (bandOf r) flag (stay ++ below d r).head? n (todo ++ stay ++ below d r).head? q =
        some (q', (stay ++ below d r).head?) ∧ q'.msg = q.msg ∧
      Rep q' (update d r (old ++ todo.filter (fun a => !(flag || (q.msg a).datamsg)) ++ stay)) := by
  obtain ⟨n, rfl⟩ : ∃ m, n = m + 1 := ⟨n - 1, by omega⟩
  induction todo generalizing q old n with
  | nil =>
    refine ⟨q, ?_, rfl, by simpa using h⟩
    rw [flushbandLoop, nil_append, if_pos rfl]
  | cons a todo ih =>
    obtain _ | n := n
    · simp at hn
    have hl := h.list
    rw [append_assoc, order_update hr, cons_append, cons_append] at hl
    have hne : some a ≠ (stay ++ below d r).head? := by
      intro he
      have hmem := mem_of_head? he.symm
      have hnd := (nodup_middle.mp hl.nodup)
      rw [nodup_cons] at hnd
      exact hnd.1 (by simp only [mem_append] at hmem ⊢; tauto)
    have hb : (q.msg a).band.val = bandOf r := h.band_eq (by simp)
    rw [flushbandLoop, cons_append, cons_append, List.head?_cons, if_neg hne]
    simp only [Option.bind_eq_bind, Option.bind_some, hl.next_of_split, hb, true_and]
    cases hf : flag || (q.msg a).datamsg with
    | true =>
      have hs : update d r (old ++ a :: todo ++ stay) r = old ++ a :: (todo ++ stay) := by simp
      have hp := h.rmvq_split hs
      rw [update_idem, ← append_assoc] at hp
      obtain ⟨q', heq, hm, hr'⟩ := ih hp n (by simp at hn ⊢; omega)
      rw [if_pos (by simpa using hf)]
      refine ⟨q', heq, hm.trans rmvq_msg, ?_⟩
      rw [filter_cons_of_neg (by simp [hf])]
      rwa [rmvq_msg] at hr'
    | false =>
      have hp : Rep q (update d r ((old ++ [a]) ++ todo ++ stay)) := by simpa using h
      obtain ⟨q', heq, hm, hr'⟩ := ih hp n (by simp at hn ⊢; omega)
      rw [if_neg (by simpa using hf)]
      refine ⟨q', heq, hm, ?_⟩
      rw [filter_cons_of_pos (by simp [hf])]
      simpa using hr'

variable [Fintype α]

/-! ### Calls that walk along the queue -/

section

variable (h : Rep q d)
include h

theorem putq (hr : (q.msg bp).rank = r) (hp : bp ∉ order d) :
    ∃ q' ok, q.putq bp k = some (q', ok) ∧ Rep q' (if ok = true then update d r (d r ++ [bp]) else d) ∧
      Framed (q.forceBand bp) d bp q' ∧ (bandOf r ≤ q.bands.length → ok = true) := by
  obtain ⟨h1, hn, hb, -, -, hbn⟩ := h.forceBand hp
  have := h1.put (k := k) (hn.trans hr) (hr ▸ hb) hp (append_nil _).symm
    fun q1 hq1 hm _ hlen => hq1.putqLink_placed (by rw [hm, hn, hr]) (by rw [hm, hb, hr]) hlen
  rwa [hbn] at this

theorem putbq (hr : (q.msg bp).rank = r) (hp : bp ∉ order d) :
    ∃ q' ok, q.putbq bp k = some (q', ok) ∧ Rep q' (if ok = true then update d r (bp :: d r) else d) := by
  obtain ⟨h1, hn, hb, -, -, -⟩ := h.forceBand hp
  obtain ⟨q', ok, heq, hrp, -, -⟩ := h1.put (k := k) (hn.trans hr) (hr ▸ hb) hp (nil_append _).symm
    fun q1 hq1 hm _ hlen => hq1.putbqLink_placed (by rw [hm, hn, hr]) (by rw [hm, hb, hr]) hlen
  exact ⟨q', ok, heq, hrp⟩

theorem getq_first (hf : q.links.first = some bp) (hg : (q.msg bp).noget = false) :
    ∃ q', q.getq = (q', some bp) ∧ Rep q' (taken d q.msg (some bp)) := by
  have hmem : bp ∈ order d := mem_of_head? (h.list.first.symm.trans hf)
  obtain ⟨i, hi, hbp⟩ := mem_below.mp hmem
  obtain rfl : (q.msg bp).rank = i := h.rank i bp hbp
  set r := (q.msg bp).rank
  obtain ⟨x, y, hs⟩ := append_of_mem hbp
  -- nothing is before the first message
  have hx : between d r 257 ++ x = [] := by
    have ho := order_of_split hi hs
    have hnd := h.list.nodup
    have hh := h.list.first.symm.trans hf
    rw [ho] at hnd hh
    cases hc : between d r 257 ++ x with
    | nil => rfl
    | cons c l =>
      rw [hc] at hnd hh
      obtain rfl : c = bp := by simpa using hh
      simp at hnd
  obtain rfl := (append_eq_nil_iff.mp hx).2
  obtain ⟨hls, hp, hn⟩ := h.unlink_isList hi hs
  rw [hx] at hp
  have hl : q.links.unlink bp = dropFirst q.links bp := by
    unfold Links.unlink dropFirst
    rw [hp]
    cases q.links.next bp <;> rfl
  have hbn := h.band_eq hbp
  have hr : (d r).erase bp = [] ++ y := by rw [hs, nil_append, erase_cons_head, nil_append]
  refine ⟨_, by rw [getq, hf]; simp only [hg]; rfl, ?_⟩
  rw [taken, hr, ← hl, hbn]
  refine h.remove hs hls fun qb hb hq => ?_
  have hhl := h.holds_of_qband hi hb hq
  have hy := (h.notMem_of_split hi hs).2
  rw [hhl.first, hhl.last, hs, hn]
  rcases eq_nil_or_concat' y with rfl | ⟨y', c, rfl⟩
  · simp
  · have hc : bp ≠ c := fun e => hy (by simp [e])
    have ha : ([] ++ bp :: (y' ++ [c])).getLast? = some c := by simp [List.getLast?_cons]
    rw [ha, if_neg (by simpa using hc)]
    refine ⟨?_, ?_, rfl⟩
    · cases y' <;> simp
    · simp [List.getLast?_cons]

theorem getq : ∃ q', q.getq = (q', (order d).find? fun a => !(q.msg a).noget) ∧
    Rep q' (taken d q.msg ((order d).find? fun a => !(q.msg a).noget)) := by
  cases ho : order d with
  | nil =>
    have hfr : q.links.first = none := by rw [h.list.first, ho]; rfl
    exact ⟨q, by rw [Queue.getq, hfr]; rfl, h⟩
  | cons bp l =>
    have hfr : q.links.first = some bp := by rw [h.list.first, ho]; rfl
    cases hg : (q.msg bp).noget with
    | false =>
      obtain ⟨q', heq, hr⟩ := h.getq_first hfr hg
      have hn : (bp :: l).find? (fun a => !(q.msg a).noget) = some bp := by simp [hg]
      rw [hn]
      exact ⟨q', heq, hr⟩
    | true =>
      have hl : q.links.IsList ([] ++ order d) := h.list
      have hw := hl.walk (f := fun a => (q.msg a).noget) hl.length_le
      rw [← h.list.first, hfr, ← List.find?_not_eq_head?_dropWhile] at hw
      rw [← ho]
      unfold Queue.getq
      rw [hfr]
      dsimp only
      rw [if_pos hg, hw]
      cases hf : (order d).find? fun a => !(q.msg a).noget with
      | none => exact ⟨q, rfl, h⟩
      | some a =>
        obtain ⟨i, -, ha⟩ := mem_below.mp (mem_of_find?_eq_some hf)
        obtain rfl := h.rank i a ha
        exact ⟨_, rfl, h.rmvq ha⟩

/-- The messages that are not flushed go back behind those of their class and band. -/
theorem requeue (flushed : Msg → Bool) {todo : List α} (hc : Chain q.links.next todo)
    (hnd : todo.Nodup) (hd : ∀ a ∈ todo, a ∉ order d)
    (hbn : ∀ a ∈ todo, (q.msg a).band.val = bandOf (q.msg a).rank ∧ (q.msg a).band.val ≤ q.bands.length)
    (hn : todo.length ≤ n) : ∃ q', requeue flushed n todo.head? q = some q' ∧ q'.msg = q.msg ∧
      Rep q' fun r => d r ++ (todo.filter fun a => !flushed (q.msg a)).filter fun a => (q.msg a).rank = r := by
  induction todo generalizing q d n with
  | nil =>
    refine ⟨q, by cases n <;> rfl, rfl, ?_⟩
    simpa using h
  | cons a todo ih =>
    obtain _ | n := n
    · simp at hn
    obtain ⟨hnx, hc⟩ := hc
    obtain ⟨ha, hnd⟩ := nodup_cons.mp hnd
    set q1 : Queue α := { q with links := { q.links with next := update q.links.next a none, prev := update q.links.prev a none } } with hq1
    have han {b : α} (hb : b ∈ order d) : b ≠ a := fun e => hd a mem_cons_self (e ▸ hb)
    have h1 : Rep q1 d := h.congr_links rfl rfl fun b hb => ⟨update_of_ne (han hb) _ _, update_of_ne (han hb) _ _⟩
    have hc1 : Chain q1.links.next todo := hc.congr fun b hb =>
      update_of_ne (show b ≠ a from fun e => ha (e ▸ hb)) _ _
    have hlen : todo.length ≤ n := by simp at hn; omega
    have hd' : ∀ b ∈ todo, b ∉ order d := fun b hb => hd b (mem_cons_of_mem a hb)
    have hn' : ∀ b ∈ todo, (q.msg b).band.val = bandOf (q.msg b).rank ∧ (q.msg b).band.val ≤ q.bands.length :=
      fun b hb => hbn b (mem_cons_of_mem a hb)
    rw [List.head?_cons, requeue, hnx, ← hq1]
    cases hf : flushed (q.msg a) with
    | true =>
      obtain ⟨q', heq, hm, hr⟩ := ih h1 hc1 hnd hd' hn' hlen
      refine ⟨q', ?_, hm, ?_⟩
      · simpa [hq1, hf] using heq
      · simpa [hf] using hr
    | false =>
      obtain ⟨hfc, hbd⟩ := hbn a mem_cons_self
      obtain ⟨q2, ok, he2, hr2, hfr, hok⟩ := h1.putq (k := 0) rfl (hd a mem_cons_self)
      rw [show q1.forceBand a = q1 from forceBand_eq_self hfc] at hfr
      obtain rfl := hok (hfc ▸ hbd)
      rw [if_pos rfl] at hr2
      have hmem {b : α} (hb : b ∈ todo) : b ≠ a := fun e => ha (e ▸ hb)
      have hd2 : ∀ b ∈ todo, b ∉ order (update d (q1.msg a).rank (d (q1.msg a).rank ++ [a])) := by
        intro b hb ho
        obtain ⟨i, hi⟩ := hr2.mem_order.mp ho
        have hb' := hd' b hb
        rw [h.mem_order] at hb'
        by_cases hir : i = (q1.msg a).rank
        · rw [hir, update_self, mem_append, mem_singleton] at hi
          exact hi.elim (fun hi => hb' ⟨_, hi⟩) (hmem hb)
        · rw [update_of_ne hir] at hi
          exact hb' ⟨i, hi⟩
      have hb2 : ∀ b ∈ todo, (q2.msg b).band.val = bandOf (q2.msg b).rank ∧ (q2.msg b).band.val ≤ q2.bands.length := by
        intro b hb
        rw [hfr.msg]
        exact ⟨(hn' b hb).1, (hn' b hb).2.trans hfr.nband⟩
      have hc2 := hc1.congr fun b hb => hfr.next b (hmem hb) (hd' b hb)
      obtain ⟨q', heq, hm, hr⟩ := ih hr2 hc2 hnd hd2 hb2 hlen
      refine ⟨q', ?_, hm.trans hfr.msg, ?_⟩
      · rw [if_neg (by simp), he2]
        exact heq
      · rw [hfr.msg] at hr
        convert hr using 2 with i
        by_cases hi : i = (q.msg a).rank
        · subst hi
          simp [hq1, hf]
        · simp [hq1, hf, hi, Ne.symm hi]

theorem requeue_all (flushed : Msg → Bool) :
    ∃ q', Queue.requeue flushed (Fintype.card α) q.links.first q.reset = some q' ∧ Rep q' (kept d q.msg flushed) := by
  have hb (a : α) (ha : a ∈ order d) :
      (q.msg a).band.val = bandOf (q.msg a).rank ∧ (q.msg a).band.val ≤ q.reset.bands.length := by
    obtain ⟨i, hi, hai⟩ := mem_below.mp ha
    rw [h.rank i a hai, h.band_eq hai]
    simpa [Queue.reset] using h.bandOf_le hai
  have hd (a : α) (_ : a ∈ order d) : a ∉ order (fun _ : ℕ => ([] : List α)) := by
    intro ho
    obtain ⟨i, -, hi⟩ := mem_below.mp ho
    simp at hi
  have hl : q.links.IsList ([] ++ order d) := h.list
  have hc : Chain q.links.next (order d) := chain_of_seg h.list.seg
  obtain ⟨q', heq, -, hp⟩ := h.reset.requeue flushed hc h.list.nodup hd hb hl.length_le
  refine ⟨q', by rw [h.list.first]; exact heq, ?_⟩
  convert hp using 2 with r
  -- the messages of rank `r` in the whole queue are those of their deque
  have hn : (order d).filter (fun a => (q.msg a).rank = r) = d r := by
    by_cases hr : r < 257
    · exact filter_below h.rank hr
    · have hnil : d r = [] := eq_nil_iff_forall_not_mem.mpr fun a ha => hr (h.rank r a ha ▸ Msg.rank_lt _)
      rw [hnil, filter_eq_nil_iff]
      intro a _
      have := (q.msg a).rank_lt
      simp
      omega
  rw [filter_filter, kept, ← hn, filter_filter]
  congr 1
  funext a
  exact Bool.and_comm _ _

theorem flushqCommon (flag pcprotoFlag : Bool) : ∃ q', q.flushqCommon flag pcprotoFlag = some q' ∧
    Rep q' (kept d q.msg fun m => !(pcprotoFlag && m.type.val = 0x83) && (flag || m.datamsg)) := by
  unfold Queue.flushqCommon
  by_cases hf : q.links.first = none
  · have hnil (r : ℕ) : d r = [] := by
      by_cases hr : r < 257
      · exact (h.parts_of_empty hf hr).2.1
      · exact eq_nil_iff_forall_not_mem.mpr fun a ha => hr (h.rank r a ha ▸ Msg.rank_lt _)
    refine ⟨q, if_pos hf, ?_⟩
    convert h using 1
    funext r
    simp [kept, hnil]
  · rw [if_neg hf]
    exact h.requeue_all _

theorem flushband (pri : Fin 256) (flag : Bool) : ∃ q', q.flushband pri flag = some q' ∧
    Rep q' (kept d q.msg fun m => m.band.val = pri.val && (flag || m.datamsg)) := by
  unfold Queue.flushband
  obtain ⟨r, hr⟩ := pri
  by_cases h0 : r = 0
  · subst h0
    exact h.requeue_all _
  have hbr : bandOf r = r := if_neg (by omega)
  have hb : bandOf r ≠ 0 := by omega
  have hr257 : r < 257 := by omega
  have hk := h.kept_band (f := fun m => flag || m.datamsg) hr257 hb
  rw [hbr] at hk
  rw [hk]
  by_cases hlt : q.bands.length < r
  · refine ⟨q, if_pos hlt, ?_⟩
    rw [h.absent r hlt hr, filter_nil, ← h.absent r hlt hr, update_eq_self]
    exact h
  rw [if_neg hlt, if_neg h0]
  obtain ⟨qb, hq, hh⟩ := h.qband hr257 (by omega) hb
  rw [hbr] at hq
  rw [hq]
  simp only [Option.bind_eq_bind, Option.bind_some, hh.first, hh.last]
  have hs : Rep q (update d r ([] ++ d r ++ [])) := by
    rw [nil_append, append_nil, update_eq_self]
    exact h
  have hl := h.list
  rw [order_split hr257] at hl
  rcases eq_nil_or_concat' (d r) with hdr | ⟨l, z, hdr⟩
  · refine ⟨q, by rw [hdr]; rfl, ?_⟩
    rw [hdr] at hs ⊢
    exact hs
  have hlen (t : List α) (ht : t.Sublist (d r)) : t.length < Fintype.card α + 1 := by
    have hl' : q.links.IsList (between d r 257 ++ (d r ++ below d r)) := by simpa using hl
    have := hl'.length_le
    have := ht.length_le
    simp only [length_append] at *
    omega
  cases l with
  | nil =>
    -- the only message of the band: the loop ends at the next one, which is of another band
    have hn : q.links.next z = (below d r).head? := by
      rw [hdr, append_assoc] at hl
      exact hl.next_of_split
    obtain ⟨q', heq, hms, hp⟩ := flushbandLoop flag hr257 hs (hlen _ (List.Sublist.refl _))
    rw [hbr, hdr] at heq
    rw [hdr] at hp ⊢
    simp only [nil_append, append_nil, List.head?_cons, List.getLast?_singleton, singleton_append] at heq hp ⊢
    rw [if_pos trivial, hn, heq]
    cases hw : below d r with
    | nil => exact ⟨q', rfl, hp⟩
    | cons a l =>
      obtain ⟨i, hi, ha⟩ := mem_below.mp (show a ∈ below d r by rw [hw]; exact mem_cons_self)
      have hbn : (q'.msg a).band.val ≠ r := by
        rw [hms, ← hbr]
        exact h.band_ne ha hi.ne hb hr257
      exact ⟨q', by simp [hbn], hp⟩
  | cons c l =>
    have hs' : Rep q (update d r ([] ++ (c :: l) ++ [z])) := by
      rw [nil_append, ← hdr, update_eq_self]
      exact h
    have hcz : c ≠ z := by
      have hc := (h.notMem_of_split hr257 hdr).1
      exact fun e => hc (by simp [e])
    obtain ⟨q', heq, hms, hp⟩ := flushbandLoop flag hr257 hs' (hlen _ (by simp [hdr]))
    have hls : (c :: l ++ [z]).getLast? = some z := List.getLast?_concat
    rw [hbr] at heq
    rw [hdr, hls]
    simp only [cons_append, List.head?_cons, nil_append, Option.some.injEq, hcz, if_false] at heq hp ⊢
    rw [heq, Option.bind_some]
    have hbn : (q'.msg z).band.val = r := by
      rw [hms, ← hbr]
      exact h.band_eq (by simp [hdr])
    set f := fun a => !(flag || (q.msg a).datamsg)
    have hfl : (c :: (l ++ [z])).filter f = (c :: l).filter f ++ [z].filter f := by
      rw [← filter_append, cons_append]
    rw [hfl]
    -- the last message of the band
    have hm : (q'.msg z).datamsg = (q.msg z).datamsg := by rw [hms]
    dsimp only
    cases hf : flag || (q.msg z).datamsg with
    | true =>
      have hrm := hp.rmvq_split (update_self ..)
      have hz : [z].filter f = [] := by simp only [filter_cons, f, hf]; rfl
      rw [update_idem] at hrm
      rw [hz, if_pos ⟨hbn, by rw [hm]; simpa using hf⟩]
      exact ⟨_, rfl, hrm⟩
    | false =>
      have hz : [z].filter f = [z] := by simp only [filter_cons, f, hf]; rfl
      have ho : ¬(flag = true ∨ (q.msg z).datamsg = true) := by simpa using hf
      rw [hz, if_neg fun hc => ho (hm ▸ hc.2)]
      exact ⟨q', rfl, hp⟩

end

end Rep

/-! ### Runs -/

inductive Event (α : Type)
  | putq (bp : α) (m : Msg) (k : ℕ)
  | putbq (bp : α) (m : Msg) (k : ℕ)
  | insq (emp : Option α) (mp : α) (m : Msg) (k : ℕ)
  | getq
  | rmvq (mp : α)
  | flushq (flag pcprotoFlag : Bool)
  | flushband (pri : Fin 256) (flag : Bool)

inductive Reply (α : Type)
  | accepted (ok : Bool)
  | got (mp : Option α)
  | done

/-- Calls that a module may make: messages that are put are not queued, those that are removed are, and
`insq` is given a place that keeps the order. -/
def Allowed (d : ℕ → List α) (msg : α → Msg) : Event α → Prop
  | .putq bp _ _ | .putbq bp _ _ => bp ∉ order d
  | .insq emp mp m _ => mp ∉ order d ∧ ∃ l₁ l₂, order d = l₁ ++ l₂ ∧ emp = l₂.head? ∧
      (∀ a ∈ l₁.getLast?, m.rank ≤ (msg a).rank) ∧ ∀ a ∈ l₂.head?, (msg a).rank ≤ m.rank
  | .rmvq mp => mp ∈ order d
  | _ => True

def Start (s : Queue α × (ℕ → List α)) : Prop :=
  s.1.links.first = none ∧ s.1.links.last = none ∧ s.1.bands = [] ∧ 0 < s.1.flow.hiwat ∧ s.1.flow = s.1.flow.reset ∧
    s.2 = fun _ => []

theorem rep_of_start (h : Start s) : Rep s.1 s.2 := by
  obtain ⟨q, d⟩ := s
  obtain ⟨hf, hl, hb, hh, hfl, hd⟩ := h
  dsimp only at *
  subst hd
  have hnil : order (fun _ : ℕ => ([] : List α)) = [] :=
    eq_nil_iff_forall_not_mem.mpr fun a ha => by simpa using mem_below.mp ha
  refine ⟨?_, by simp, by simp, ?_, hh, by simp [hb], by simp [hb], fun _ _ _ => rfl⟩
  · rw [hnil, Links.IsList.nil]
    exact ⟨hf, hl⟩
  · rw [hfl]
    exact .reset hh

variable [DecidableEq α]

/-- The deque with `mp` before `emp`, or behind all if `emp` is not in it. -/
def insertIn (l : List α) (emp : Option α) (mp : α) : List α :=
  l.takeWhile (fun a => some a ≠ emp) ++ mp :: l.dropWhile (fun a => some a ≠ emp)

/-- What a call means for the deques. -/
def spec (d : ℕ → List α) (msg : α → Msg) : Event α → Reply α → ℕ → List α
  | .putq bp m _, .accepted true => update d m.rank (d m.rank ++ [bp])
  | .putbq bp m _, .accepted true => update d m.rank (bp :: d m.rank)
  | .insq emp mp m _, .accepted true => update d m.rank (insertIn (d m.rank) emp mp)
  | .getq, .got o => Rep.taken d msg o
  | .rmvq mp, _ => Rep.taken d msg (some mp)
  | .flushq flag pcprotoFlag, _ =>
    Rep.kept d msg fun m => !(pcprotoFlag && m.type.val = 0x83) && (flag || m.datamsg)
  | .flushband pri flag, _ => Rep.kept d msg fun m => m.band.val = pri.val && (flag || m.datamsg)
  | _, _ => d

theorem Rep.insertIn_eq (h : Rep q d) (bp : α) (hr : r < 257) (hs : d r = x ++ y) :
    insertIn (d r) (y ++ below d r).head? bp = x ++ bp :: y := by
  have hnd := h.list.nodup
  rw [order_split hr, hs, append_assoc, append_assoc] at hnd
  have hnd := (nodup_append.mp hnd).2.1
  have hx : ∀ a ∈ x, decide (some a ≠ (y ++ below d r).head?) = true := by
    intro a ha
    refine decide_eq_true fun he => ?_
    exact (nodup_append.mp hnd).2.2 a ha a (mem_of_head? he.symm) rfl
  unfold insertIn
  rw [hs, takeWhile_append_of_pos hx, dropWhile_append_of_pos hx]
  cases y with
  | cons c y => simp
  | nil => simp

variable [Fintype α]

/-- A call. A message that is put has the contents `m`; they stay while it is queued. -/
def exec (q : Queue α) : Event α → Option (Queue α × Reply α)
  | .putq bp m k => (({ q with msg := update q.msg bp m }).putq bp k).map fun (q, ok) => (q, .accepted ok)
  | .putbq bp m k => (({ q with msg := update q.msg bp m }).putbq bp k).map fun (q, ok) => (q, .accepted ok)
  | .insq emp mp m k => (({ q with msg := update q.msg mp m }).insq emp mp k).map fun (q, ok) => (q, .accepted ok)
  | .getq => some (q.getq.1, .got q.getq.2)
  | .rmvq mp => some (q.rmvq mp, .done)
  | .flushq flag pcprotoFlag => (q.flushqCommon flag pcprotoFlag).map fun q => (q, .done)
  | .flushband pri flag => (q.flushband pri flag).map fun q => (q, .done)

def Step (s s' : Queue α × (ℕ → List α)) : Prop :=
  ∃ e reply, Allowed s.2 s.1.msg e ∧ exec s.1 e = some (s'.1, reply) ∧ s'.2 = spec s.2 s.1.msg e reply

/-- A call that is allowed returns, and does to the deques what it is for. -/
theorem Rep.exec (h : Rep q d) {e : Event α} (he : Allowed d q.msg e) :
    ∃ q' reply, Streamq.exec q e = some (q', reply) ∧ Rep q' (spec d q.msg e reply) := by
  have hm {bp : α} (m : Msg) (hb : bp ∉ order d) : Rep { q with msg := update q.msg bp m } d := by
    refine h.congr_msg fun r a ha => update_of_ne ?_ _ _
    rintro rfl
    exact hb (h.mem_order.mpr ⟨r, ha⟩)
  cases e with
  | putq bp m k =>
    obtain ⟨q', ok, heq, hp, -, -⟩ := (hm m he).putq (k := k) (show _ = m.rank by simp) he
    refine ⟨q', .accepted ok, by simp [Streamq.exec, heq], ?_⟩
    cases ok <;> simpa [spec] using hp
  | putbq bp m k =>
    obtain ⟨q', ok, heq, hp⟩ := (hm m he).putbq (k := k) (show _ = m.rank by simp) he
    refine ⟨q', .accepted ok, by simp [Streamq.exec, heq], ?_⟩
    cases ok <;> simpa [spec] using hp
  | insq emp mp m k =>
    obtain ⟨hmp, l1, l2, ho, rfl, h1, h2⟩ := he
    have hs {a : α} (ha : a ∈ order d) : update q.msg mp m a = q.msg a :=
      update_of_ne (show a ≠ mp from fun e => hmp (e ▸ ha)) _ _
    have hl1 : ∀ a ∈ l1.getLast?, m.rank ≤ (update q.msg mp m a).rank := fun a ha => by
      rw [hs (ho ▸ mem_append_left _ (mem_of_getLast? ha))]
      exact h1 a ha
    have hl2 : ∀ a ∈ l2.head?, (update q.msg mp m a).rank ≤ m.rank := fun a ha => by
      rw [hs (ho ▸ mem_append_right _ (mem_of_head? ha))]
      exact h2 a ha
    obtain ⟨x, y, hsp, hy, q', ok, heq, hp⟩ := (hm m hmp).insq (k := k) (show _ = m.rank by simp) hmp ho hl1 hl2
    have hin := h.insertIn_eq mp m.rank_lt hsp
    refine ⟨q', .accepted ok, by simp [Streamq.exec, heq], ?_⟩
    cases ok with
    | true =>
      rw [spec, hy, hin]
      simpa using hp
    | false => simpa [spec] using hp
  | getq =>
    obtain ⟨q', heq, hp⟩ := h.getq
    exact ⟨q', .got _, by rw [Streamq.exec, heq], hp⟩
  | rmvq mp =>
    obtain ⟨r, hr⟩ := h.mem_order.mp he
    obtain rfl := h.rank r mp hr
    exact ⟨_, _, rfl, h.rmvq hr⟩
  | flushq flag pcprotoFlag =>
    obtain ⟨q', heq, hp⟩ := h.flushqCommon flag pcprotoFlag
    exact ⟨q', .done, by simp [Streamq.exec, heq], hp⟩
  | flushband pri flag =>
    obtain ⟨q', heq, hp⟩ := h.flushband pri flag
    exact ⟨q', .done, by simp [Streamq.exec, heq], hp⟩

theorem rep_of_reachable (h : Reachable Start Step s) : Rep s.1 s.2 := by
  refine h.invariant (P := fun s => Rep s.1 s.2) (fun _ => rep_of_start) fun s s' hs ht => ?_
  obtain ⟨e, reply, ha, hex, hp⟩ := ht
  obtain ⟨q', reply', heq, hr⟩ := hs.exec ha
  obtain ⟨rfl, rfl⟩ : q' = s'.1 ∧ reply' = reply := by simpa [heq] using hex
  rwa [hp]

/-- A queue that holds the messages of the deques as it should. -/
structure Correct (q : Queue α) (d : ℕ → List α) : Prop where
  list : q.links.IsList (order d)
  /-- the deques are those of the classes and bands, the highest first -/
  rank : ∀ r, ∀ a ∈ d r, (q.msg a).rank = r
  sorted : (order d).Pairwise fun a b => (q.msg b).rank ≤ (q.msg a).rank
  /-- a band has the first and last of its messages, their totals, and its mark of being full -/
  bands : ∀ b qb, b ≠ 0 → q.qband b = some qb → qb.Holds q.msg ((order d).filter fun a => (q.msg a).band.val = b)
  flow : q.flow.Counts (((order d).filter fun a => (q.msg a).band.val = 0).map q.msg)
  nband : ∀ a ∈ order d, (q.msg a).band.val ≤ q.bands.length
  /-- calls follow no null pointer -/
  returns : ∀ e, Allowed d q.msg e → (exec q e).isSome = true
  getq : q.getq.2 = (order d).find? fun a => !(q.msg a).noget

/-- After any sequence of calls the queue holds the messages of the deques. -/
theorem streamq_correct (h : Reachable Start Step s) : Correct s.1 s.2 := by
  obtain ⟨q, d⟩ := s
  have hp : Rep q d := rep_of_reachable h
  refine ⟨hp.list, hp.rank, hp.sorted, fun b qb hb hq => ?_, ?_, fun a ha => ?_, fun e he => ?_, ?_⟩
  · have hlt : b - 1 < q.bands.length := (List.getElem?_eq_some_iff.mp hq).1
    have hb256 : b < 256 := by
      have := hp.nband
      omega
    have hh := hp.bands (b - 1) qb hq
    rw [show b - 1 + 1 = b by omega] at hh
    rwa [hp.filter_band hb256, if_neg hb]
  · have hf := hp.filter_band (show 0 < 256 by decide)
    rw [hf]
    exact hp.flow
  · obtain ⟨r, hr⟩ := hp.mem_order.mp ha
    rw [hp.band_eq hr]
    exact hp.bandOf_le hr
  · obtain ⟨q', reply, heq, -⟩ := hp.exec he
    rw [heq]
    rfl
  · obtain ⟨q', heq, -⟩ := hp.getq
    rw [heq]

/-! A queue with a normal message, then one in band 2 in front of it, then one of high priority. -/

def emptyQueue : Queue (Fin 3) where
  links := { first := none, last := none, next := fun _ => none, prev := fun _ => none }
  msg := fun _ => { type := 0, band := 0, size := 0, cont := [], noget := false }
  flow := { count := 0, mblkcnt := 0, hiwat := 4, full := false }
  bands := []

def callStep (s : Queue α × (ℕ → List α)) (e : Event α) : Option (Queue α × (ℕ → List α)) :=
  (exec s.1 e).map fun (q, reply) => (q, spec s.2 s.1.msg e reply)

def threePuts : List (Event (Fin 3)) :=
  [.putq 0 { type := 0, band := 0, size := 5, cont := [], noget := false } 0,
    .putq 1 { type := 1, band := 2, size := 1, cont := [1], noget := false } 2,
    .putbq 2 { type := 0x83, band := 7, size := 1, cont := [], noget := false } 0]

set_option maxRecDepth 4000 in
theorem streamq_correct_threePuts : ∃ s, runList callStep (emptyQueue, fun _ => []) threePuts = some s ∧
    (s.1.links.first = some 2 ∧ s.1.links.next 2 = some 1 ∧ s.1.links.next 1 = some 0 ∧ s.1.flow.full = true) ∧
    Correct s.1 s.2 := by
  have hp {s s' : Queue (Fin 3) × (ℕ → List (Fin 3))} {e : Event (Fin 3)} (hs : Reachable Start Step s)
      (he : Allowed s.2 s.1.msg e) (hc : callStep s e = some s') : Reachable Start Step s' := by
    obtain ⟨⟨q, reply⟩, hq, rfl⟩ := Option.map_eq_some_iff.mp hc
    exact hs.next ⟨e, reply, he, hq, rfl⟩
  have h₀ : Reachable Start Step (emptyQueue, fun _ => []) := .start ⟨rfl, rfl, rfl, by decide, rfl, rfl⟩
  have h1 := hp (e := threePuts[0]) h₀ (show 0 ∉ order _ by decide) rfl
  have h2 := hp (e := threePuts[1]) h1 (show 1 ∉ order _ by decide) rfl
  have h3 := hp (e := threePuts[2]) h2 (show 2 ∉ order _ by decide) rfl
  exact ⟨_, rfl, by decide, streamq_correct h3⟩

end Sol8.Io.Streamq
