import Sol8.Io.Streamq
import Sol8.Lib.Ranked

/-! What a queue is for: a deque for every class and band of messages. `Rep` relates the pointers and
counts of a queue to such deques; here are the operations that change one deque. -/

namespace Sol8.Io.Streamq

open Function Sol8.Lib Ranked List Option Queue Msg

variable {α : Type} {m : Msg}

/-- The place of a message among all classes and bands. -/
def Msg.rank (m : Msg) : ℕ := if qpctl ≤ m.type.val then 256 else m.band.val

theorem Msg.rank_lt (m : Msg) : m.rank < 257 := by
  unfold rank
  split <;> omega

theorem Msg.queclass_eq_qpctl : m.queclass = qpctl ↔ m.rank = 256 := by
  unfold queclass rank
  split
  · simp
  · omega

theorem Msg.qpctl_le_type : qpctl ≤ m.type.val ↔ m.rank = 256 := by
  unfold rank
  split <;> simp [*]
  omega

theorem Msg.rank_eq_band (h : m.rank ≠ 256) : m.band.val = m.rank := by
  rw [Ne, ← qpctl_le_type] at h
  exact (if_neg h).symm

theorem Msg.queclass_lt {m' : Msg} : m.queclass < m'.queclass ↔ m.rank ≠ 256 ∧ m'.rank = 256 := by
  rw [Ne, ← qpctl_le_type, ← qpctl_le_type]
  unfold queclass
  split <;> split <;> simp_all [qpctl]

theorem Msg.class_or_band {m' : Msg} {b : ℕ} (hm : m.rank ≠ 256) (hb : b ≤ 256) :
    m.queclass < m'.queclass ∨ b ≤ m'.band.val ↔ b ≤ m'.rank := by
  rw [queclass_lt]
  by_cases h256 : m'.rank = 256
  · omega
  · rw [rank_eq_band h256]
    omega

/-- The whole queue, from the deques of its messages. -/
def order (d : ℕ → List α) : List α := below d 257

/-- The counts are those of the messages, and the band is full when one of them is at its mark. -/
structure Flow.Counts (f : Flow) (ms : List Msg) : Prop where
  count : f.count = (ms.map bytecnt).sum
  mblkcnt : f.mblkcnt = (ms.map Msg.mblkcnt).sum
  full : f.full = true ↔ f.hiwat ≤ f.count ∨ f.hiwat ≤ f.mblkcnt

namespace Flow.Counts

variable {f : Flow} {ms ms' : List Msg} {m : Msg}

theorem perm (h : f.Counts ms) (hp : ms'.Perm ms) : f.Counts ms' :=
  ⟨h.count.trans (hp.map _).sum_eq.symm, h.mblkcnt.trans (hp.map _).sum_eq.symm, h.full⟩

theorem add (h : f.Counts ms) (m : Msg) : (f.add m).Counts (m :: ms) := by
  have hc := h.count
  have hm := h.mblkcnt
  refine ⟨?_, ?_, ?_⟩
  · simp only [Flow.add, map_cons, sum_cons]
    omega
  · simp only [Flow.add, map_cons, sum_cons]
    omega
  · simp only [Flow.add, Bool.or_eq_true, h.full, decide_eq_true_iff]
    omega

theorem sub (h : f.Counts (m :: ms)) : (f.sub m).Counts ms := by
  have hc := h.count
  have hm := h.mblkcnt
  simp only [map_cons, sum_cons] at hc hm
  refine ⟨?_, ?_, ?_⟩
  · simp only [Flow.sub]
    omega
  · simp only [Flow.sub]
    omega
  · simp only [Flow.sub, Bool.and_eq_true, h.full, Bool.not_eq_true', decide_eq_false_iff_not]
    omega

theorem reset (h : 0 < f.hiwat) : f.reset.Counts [] := by
  refine ⟨rfl, rfl, ?_⟩
  simp only [Flow.reset, Bool.false_eq_true, false_iff]
  omega

end Flow.Counts

structure Qband.Holds (qb : Qband α) (msg : α → Msg) (l : List α) : Prop where
  first : qb.first = l.head?
  last : qb.last = l.getLast?
  flow : qb.flow.Counts (l.map msg)
  hiwat : 0 < qb.flow.hiwat

/-- The queue holds the messages of the deques. -/
structure Rep (q : Queue α) (d : ℕ → List α) : Prop where
  list : q.links.IsList (order d)
  rank : ∀ r, ∀ a ∈ d r, (q.msg a).rank = r
  forced : ∀ a ∈ d 256, (q.msg a).band.val = 0
  flow : q.flow.Counts ((d 256 ++ d 0).map q.msg)
  hiwat : 0 < q.flow.hiwat
  nband : q.bands.length < 256
  bands : ∀ i (qb : Qband α), q.bands[i]? = some qb → qb.Holds q.msg (d (i + 1))
  absent : ∀ b, q.bands.length < b → b < 256 → d b = []

variable {q : Queue α} {d : ℕ → List α} {bp : α} {r : ℕ} {x y : List α}

namespace Rep

variable {a z : α} {l : List α}

theorem mem_order (h : Rep q d) : a ∈ order d ↔ ∃ r, a ∈ d r := by
  rw [order, mem_below]
  constructor
  · rintro ⟨r, -, ha⟩
    exact ⟨r, ha⟩
  · rintro ⟨r, ha⟩
    exact ⟨r, h.rank r a ha ▸ rank_lt _, ha⟩

theorem band (h : Rep q d) (ha : a ∈ d r) (hr : r < 256) : (q.msg a).band.val = r := by
  have := h.rank r a ha
  unfold Msg.rank at this
  split at this <;> omega

/-- The band in which a message of rank `r` is accounted for. -/
def bandOf (r : ℕ) : ℕ := if r = 256 then 0 else r

theorem bandOf_lt (hr : r < 257) : bandOf r < 256 := by
  unfold bandOf
  split <;> omega

theorem bandOf_eq_zero : bandOf r = 0 ↔ r = 0 ∨ r = 256 := by
  unfold bandOf
  split <;> omega

theorem band_cases (hr : r < 257) (hb : bandOf r ≠ 0) : bandOf r = r ∧ 0 < r ∧ r < 256 := by
  rw [Ne, bandOf_eq_zero] at hb
  exact ⟨if_neg (by omega), by omega, by omega⟩

section

variable (h : Rep q d) {s : Links α} {g : Qband α → Qband α}
include h

theorem band_eq (ha : a ∈ d r) : (q.msg a).band.val = bandOf r := by
  unfold bandOf
  by_cases hr : r = 256
  · subst hr
    exact h.forced a ha
  · have hlt : r < 257 := h.rank r a ha ▸ rank_lt _
    rw [if_neg hr]
    exact h.band ha (by omega)

theorem congr_msg {msg : α → Msg} (hm : ∀ r, ∀ a ∈ d r, msg a = q.msg a) : Rep { q with msg := msg } d := by
  have hp (l : List α) (hl : ∀ a ∈ l, ∃ r, a ∈ d r) : l.map msg = l.map q.msg :=
    map_congr_left fun a ha => by
      obtain ⟨r, hr⟩ := hl a ha
      exact hm r a hr
  refine { h with rank := ?_, forced := ?_, flow := ?_, bands := ?_ }
  · intro r a ha
    rw [← h.rank r a ha]
    exact congrArg Msg.rank (hm r a ha)
  · intro a ha
    rw [← h.forced a ha]
    exact congrArg (fun m => m.band.val) (hm 256 a ha)
  · have hf := h.flow
    rwa [← hp] at hf
    intro a ha
    rcases mem_append.mp ha with ha | ha
    · exact ⟨256, ha⟩
    · exact ⟨0, ha⟩
  · intro i qb hi
    have hb := h.bands i qb hi
    exact { hb with flow := by rw [hp _ fun a ha => ⟨i + 1, ha⟩]; exact hb.flow }

theorem addBand (hlen : q.bands.length < 255) : Rep { q with
      bands := q.bands ++ [⟨none, none, { count := 0, mblkcnt := 0, hiwat := q.flow.hiwat, full := false }⟩] } d := by
  have hm : d (q.bands.length + 1) = [] := h.absent _ (by omega) (by omega)
  have hh := h.hiwat
  refine { h with nband := ?_, bands := ?_, absent := ?_ }
  · simp only [length_append, length_singleton]
    omega
  · intro i qb hi
    rcases Nat.lt_trichotomy i q.bands.length with hlt | rfl | hgt
    · rw [List.getElem?_append_left hlt] at hi
      exact h.bands i qb hi
    · rw [List.getElem?_append_right le_rfl] at hi
      simp only [Nat.sub_self, List.getElem?_cons_zero, Option.some.injEq] at hi
      subst hi
      rw [hm]
      refine ⟨rfl, rfl, ⟨rfl, rfl, ?_⟩, hh⟩
      simp only [Bool.false_eq_true, false_iff]
      omega
    · rw [List.getElem?_eq_none (by simp; omega)] at hi
      cases hi
  · intro b hb hb'
    simp only [length_append, length_singleton] at hb
    exact h.absent b (by omega) hb'

theorem allocBands {band k : ℕ} (hb : band < 256) : ∃ q', Rep q' d ∧ q'.msg = q.msg ∧
    q'.links = q.links ∧ q.bands.length ≤ q'.bands.length ∧
      allocBands band k q = (q', decide (band ≤ q'.bands.length)) := by
  induction k generalizing q with
  | zero => exact ⟨q, h, rfl, rfl, le_rfl, rfl⟩
  | succ k ih =>
    rw [allocBands]
    by_cases hc : band ≤ q.bands.length
    · exact ⟨q, h, rfl, rfl, le_rfl, by rw [if_pos hc, decide_eq_true hc]⟩
    · obtain ⟨q', hp, hm, hl, hlen, heq⟩ := ih (h.addBand (by omega))
      refine ⟨q', hp, hm, hl, ?_, by rw [if_neg hc, heq]⟩
      simp only [length_append, length_singleton] at hlen
      omega

/-! ### Changing one deque -/

/-- The deque of rank `r` becomes `l`: the links spell the new order, the pointers of the band (if the
rank has one) are the ends of `l`, and its counts change by `f`. -/
theorem change {f : Flow → Flow}
    (hr : r < 257) (hs : s.IsList (order (update d r l))) (hn : ∀ a ∈ l, (q.msg a).rank = r)
    (hbn : ∀ a ∈ l, (q.msg a).band.val = bandOf r) (hlen : bandOf r ≤ q.bands.length)
    (hg : ∀ qb : Qband α, bandOf r ≠ 0 → q.qband (bandOf r) = some qb →
      (g qb).first = l.head? ∧ (g qb).last = l.getLast? ∧ (g qb).flow = qb.flow)
    (hf : ∀ fl : Flow, (f fl).hiwat = fl.hiwat ∧ ∀ ms, fl.Counts ((d r).map q.msg ++ ms) →
      (f fl).Counts (l.map q.msg ++ ms)) :
    Rep ((({ q with links := s }).setBand (bandOf r) g).account f (bandOf r)) (update d r l) := by
  have hr' : ∀ i, ∀ a ∈ update d r l i, (q.msg a).rank = i := by
    intro i a ha
    by_cases hi : i = r
    · subst hi
      exact hn a (by simpa using ha)
    · exact h.rank i a (by simpa [hi] using ha)
  have hforced : ∀ a ∈ update d r l 256, (q.msg a).band.val = 0 := by
    intro a ha
    by_cases hi : 256 = r
    · subst hi
      exact hbn a (by simpa using ha)
    · exact h.forced a (by simpa [hi] using ha)
  by_cases hb : bandOf r = 0
  · -- band 0 has no `qband_t`
    have hq : (({ q with links := s }).setBand (bandOf r) g).account f (bandOf r) =
        { q with links := s, flow := f q.flow } := by
      simp [setBand, account, hb]
    rw [bandOf_eq_zero] at hb
    have ho {i : ℕ} (hi : 1 ≤ i) (hi' : i < 256) : update d r l i = d i := update_of_ne (by omega) _ _
    rw [hq]
    refine ⟨hs, hr', hforced, ?_, by rw [(hf _).1]; exact h.hiwat, h.nband, ?_, ?_⟩
    · rcases hb with rfl | rfl
      · have hp : ((d 0).map q.msg ++ (d 256).map q.msg).Perm ((d 256 ++ d 0).map q.msg) := by
          rw [map_append]
          exact perm_append_comm
        have := (hf q.flow).2 ((d 256).map q.msg) (h.flow.perm hp)
        refine this.perm ?_
        simp only [update_self, update_of_ne (show (256 : ℕ) ≠ 0 by decide), map_append]
        exact perm_append_comm
      · have := (hf q.flow).2 ((d 0).map q.msg) (by simpa using h.flow)
        simpa using this
    · intro i qb hi
      have hlt : i < q.bands.length := (List.getElem?_eq_some_iff.mp hi).1
      have := h.nband
      rw [ho (by omega) (by omega)]
      exact h.bands i qb hi
    · intro b hlt hb'
      rw [ho (by omega) hb']
      exact h.absent b hlt hb'
  · obtain ⟨hbr, -, hr256⟩ := band_cases hr hb
    rw [hbr] at hlen hb hg ⊢
    set q' := (({ q with links := s }).setBand r g).account f r with hq'
    have hq : q' = { q with
        links := s
        bands := (q.bands.modify (r - 1) g).modify (r - 1) fun qb => { qb with flow := f qb.flow } } := by
      simp [hq', setBand, account, hb]
    rw [hq]
    refine ⟨hs, hr', hforced, ?_, h.hiwat, by simpa using h.nband, ?_, ?_⟩
    · simp only [update_of_ne (show (256 : ℕ) ≠ r by omega), update_of_ne (show (0 : ℕ) ≠ r by omega)]
      exact h.flow
    · intro i qb hi
      simp only [List.getElem?_modify, Option.map_eq_map, Option.map_map, Option.map_eq_some_iff] at hi
      obtain ⟨qb0, hi, rfl⟩ := hi
      by_cases hir : r - 1 = i
      · have hi1 : i + 1 = r := by omega
        have hl := h.bands i qb0 hi
        rw [hi1] at hl
        obtain ⟨h1, h2, h3⟩ := hg qb0 hb (by rw [qband, hir, hi])
        obtain ⟨hh, hc⟩ := hf qb0.flow
        have := hc [] (by simpa using hl.flow)
        rw [hi1, update_self]
        simp only [hir, if_true, comp_apply]
        exact ⟨h1, h2, by rw [h3]; simpa using this, by rw [h3, hh]; exact hl.hiwat⟩
      · rw [update_of_ne (by omega)]
        simpa [hir] using h.bands i qb0 hi
    · intro b hlt hb'
      simp only [length_modify] at hlt
      rw [update_of_ne (by omega)]
      exact h.absent b hlt hb'

theorem insert (hr : (q.msg bp).rank = r) (hforced : (q.msg bp).band.val = bandOf r) (hp : d r = x ++ y)
    (hs : s.IsList (order (update d r (x ++ bp :: y)))) (hlen : bandOf r ≤ q.bands.length)
    (hg : ∀ qb : Qband α, bandOf r ≠ 0 → q.qband (bandOf r) = some qb →
      (g qb).first = (x ++ bp :: y).head? ∧ (g qb).last = (x ++ bp :: y).getLast? ∧ (g qb).flow = qb.flow) :
    Rep ((({ q with links := s }).setBand (bandOf r) g).account (·.add (q.msg bp)) (bandOf r))
      (update d r (x ++ bp :: y)) := by
  have hmem {a : α} (ha : a ∈ x ++ bp :: y) : a = bp ∨ a ∈ d r := by
    rw [hp]
    simp only [mem_append, mem_cons] at ha ⊢
    tauto
  refine h.change (hr ▸ rank_lt _) hs (fun a ha => ?_) (fun a ha => ?_) hlen hg fun fl => ⟨rfl, fun ms hc => ?_⟩
  · rcases hmem ha with rfl | ha
    · exact hr
    · exact h.rank r a ha
  · rcases hmem ha with rfl | ha
    · exact hforced
    · exact h.band_eq ha
  · refine (hc.add (q.msg bp)).perm ?_
    rw [hp]
    simp only [map_append, map_cons, append_assoc, cons_append]
    exact perm_middle

theorem bandOf_le (ha : a ∈ d r) : bandOf r ≤ q.bands.length := by
  by_contra hlt
  obtain ⟨hb, -, hr256⟩ := band_cases (h.rank r a ha ▸ rank_lt _) (by omega)
  simp [h.absent r (by omega) hr256] at ha

theorem remove (hp : d r = x ++ bp :: y)
    (hs : s.IsList (order (update d r (x ++ y)))) (hg : ∀ qb : Qband α, bandOf r ≠ 0 → q.qband (bandOf r) = some qb →
      (g qb).first = (x ++ y).head? ∧ (g qb).last = (x ++ y).getLast? ∧ (g qb).flow = qb.flow) :
    Rep ((({ q with links := s }).setBand (bandOf r) g).account (·.sub (q.msg bp)) (bandOf r))
      (update d r (x ++ y)) := by
  have hb : bp ∈ d r := by simp [hp]
  have hr : r < 257 := h.rank r bp hb ▸ rank_lt _
  have hmem {a : α} (ha : a ∈ x ++ y) : a ∈ d r := by
    rw [hp]
    simp only [mem_append, mem_cons] at ha ⊢
    tauto
  refine h.change hr hs (fun a ha => h.rank r a (hmem ha)) (fun a ha => h.band_eq (hmem ha)) (h.bandOf_le hb) hg
    fun fl => ⟨rfl, fun ms hc => (hc.perm ?_).sub⟩
  rw [hp]
  simp only [map_append, map_cons, append_assoc, cons_append]
  exact perm_middle.symm

end

/-! ### Finding the place of a message -/

theorem order_split (hr : r < 257) : order d = between d r 257 ++ d r ++ below d r := below_split hr

theorem order_update (hr : r < 257) (x y : List α) :
    order (update d r (x ++ y)) = (between d r 257 ++ x) ++ (y ++ below d r) := by
  rw [order, below_update hr]
  simp

theorem order_of_split (hr : r < 257) (hs : d r = x ++ y) : order d = (between d r 257 ++ x) ++ (y ++ below d r) := by
  rw [← order_update hr, ← hs, update_eq_self]

section

variable (h : Rep q d)
include h

theorem rank_of_below (ha : a ∈ below d r) : (q.msg a).rank < r := by
  obtain ⟨i, hi, ha⟩ := mem_below.mp ha
  rwa [h.rank i a ha]

/-- The last message tells whether there are messages under a rank. -/
theorem below_eq_nil_iff {tmp : α} (hl : (order d).getLast? = some tmp) (hr : r < 257) :
    below d r = [] ↔ r ≤ (q.msg tmp).rank := by
  constructor
  · intro hnil
    obtain ⟨i, hi, hmem⟩ := mem_below.mp (mem_of_getLast? hl)
    rw [h.rank i tmp hmem]
    by_contra hlt
    have : tmp ∈ below d r := mem_below.mpr ⟨i, by omega, hmem⟩
    simp [hnil] at this
  · intro hle
    by_contra hne
    rw [order_split hr, List.getLast?_append, List.getLast?_eq_getLast_of_ne_nil hne] at hl
    obtain rfl : (below d r).getLast hne = tmp := by simpa using hl
    exact absurd hle (Nat.not_le.mpr (h.rank_of_below (getLast_mem hne)))

theorem holds_of_qband (hr : r < 257) (hb : bandOf r ≠ 0) {qb : Qband α}
    (hq : q.qband (bandOf r) = some qb) : qb.Holds q.msg (d r) := by
  obtain ⟨hbr, hpos, -⟩ := band_cases hr hb
  rw [hbr] at hq
  have := h.bands (r - 1) qb hq
  rwa [show r - 1 + 1 = r by omega] at this

theorem qband (hr : r < 257) (hlen : bandOf r ≤ q.bands.length) (hb : bandOf r ≠ 0) :
    ∃ qb, q.qband (bandOf r) = some qb ∧ qb.Holds q.msg (d r) := by
  have hq := List.getElem?_eq_getElem (show bandOf r - 1 < q.bands.length by omega)
  exact ⟨_, hq, h.holds_of_qband hr hb hq⟩

theorem exists_last (hf : q.links.first ≠ none) : ∃ tmp, (order d).getLast? = some tmp := by
  rw [h.list.first] at hf
  cases ho : order d with
  | nil => simp [ho] at hf
  | cons a l => exact ⟨_, List.getLast?_cons⟩

theorem parts_of_empty (hf : q.links.first = none) (hr : r < 257) :
    order d = [] ∧ d r = [] ∧ between d r 257 = [] ∧ below d r = [] := by
  have hnil : order d = [] := by
    have := h.list.first
    rw [hf] at this
    exact List.head?_eq_none_iff.mp this.symm
  have hp := hnil
  rw [order_split hr, append_eq_nil_iff, append_eq_nil_iff] at hp
  exact ⟨hnil, hp.1.2, hp.1.1, hp.2⟩

end

variable [DecidableEq α]

theorem link_isList (h : Rep q d) (hr : r < 257) (hs : d r = x ++ y) (hb : bp ∉ order d) :
    (q.links.link (between d r 257 ++ x).getLast? (y ++ below d r).head? bp).IsList
      (order (update d r (x ++ bp :: y))) := by
  have ho := order_of_split hr hs
  rw [order_update hr, cons_append]
  refine Links.IsList.link ?_ ?_ rfl rfl
  · rw [← ho]
    exact h.list
  · rwa [← ho]

theorem insertBefore_eq (h : Rep q d) {l1 l2 : List α} (ho : order d = l1 ++ z :: l2) :
    q.insertBefore bp z = { q with links := q.links.link l1.getLast? (z :: l2).head? bp } := by
  have hl := h.list
  rw [ho] at hl
  rw [insertBefore, hl.prev_of_split]
  rfl

theorem insertAfter_eq (h : Rep q d) {l1 l2 : List α} (ho : order d = l1 ++ z :: l2) :
    q.insertAfter bp z = { q with links := q.links.link (l1 ++ [z]).getLast? l2.head? bp } := by
  have hl := h.list
  rw [ho] at hl
  rw [insertAfter, hl.next_of_split]
  simp

theorem insertLast_eq (h : Rep q d) :
    q.insertLast bp = { q with links := q.links.link (order d).getLast? ([] : List α).head? bp } := by
  rw [insertLast, h.list.last]
  rfl

/-- The message has been linked into the deque `x ++ y` of its rank, between the two parts, and the
pointers of its band are right. -/
def Placed (q : Queue α) (d : ℕ → List α) (bp : α) (r : ℕ) (x y : List α) (q' : Queue α) : Prop :=
  ∃ g : Qband α → Qband α,
    q' = ({ q with links := q.links.link (between d r 257 ++ x).getLast? (y ++ below d r).head? bp }).setBand (bandOf r) g ∧
    ∀ qb : Qband α, bandOf r ≠ 0 → q.qband (bandOf r) = some qb →
      (g qb).first = (x ++ bp :: y).head? ∧ (g qb).last = (x ++ bp :: y).getLast? ∧ (g qb).flow = qb.flow

theorem placed_of_band_zero (hb : bandOf r = 0) :
    Placed q d bp r x y { q with links := q.links.link (between d r 257 ++ x).getLast? (y ++ below d r).head? bp } :=
  ⟨id, by simp [setBand, hb], fun _ hne => absurd hb hne⟩

theorem account_of_placed (h : Rep q d) {q' : Queue α} (hq : Placed q d bp r x y q')
    (hr : (q.msg bp).rank = r) (hforced : (q.msg bp).band.val = bandOf r) (hs : d r = x ++ y)
    (hlen : bandOf r ≤ q.bands.length) (hb : bp ∉ order d) :
    Rep (q'.account (·.add (q'.msg bp)) (bandOf r)) (update d r (x ++ bp :: y)) := by
  obtain ⟨g, rfl, hg⟩ := hq
  rw [setBand_msg]
  exact h.insert hr hforced hs (h.link_isList (hr ▸ rank_lt _) hs hb) hlen hg

variable [Fintype α]

/-- A walk over messages with `f` and then over messages with `g`. -/
theorem insertWalk_eq (h : Rep q d) {f g : Msg → Bool} {l1 l2 l3 : List α} (ho : order d = l1 ++ (l2 ++ z :: l3))
    (hf : ∀ a ∈ l1, f (q.msg a) = true) (hg : ∀ a ∈ l2, f (q.msg a) = false ∧ g (q.msg a) = true)
    (hz : f (q.msg z) = false ∧ g (q.msg z) = false) :
    q.insertWalk f g bp = some { q with links := q.links.link (l1 ++ l2).getLast? (z :: l3).head? bp } := by
  have hl := h.list
  rw [ho] at hl
  have hd1 : (l1 ++ (l2 ++ z :: l3)).dropWhile (fun a => f (q.msg a)) = l2 ++ z :: l3 := by
    rw [dropWhile_append_of_pos (by simpa using hf)]
    cases l2 with
    | nil => simp [hz.1]
    | cons a l => simp [(hg a (by simp)).1]
  have hd2 : (l2 ++ z :: l3).dropWhile (fun a => g (q.msg a)) = z :: l3 := by
    rw [dropWhile_append_of_pos (fun a ha => (hg a ha).2)]
    simp [hz.2]
  have hl' : q.links.IsList ([] ++ (l1 ++ (l2 ++ z :: l3))) := hl
  have hw1 := hl'.walk (f := fun a => f (q.msg a)) hl'.length_le
  have hw2 := hl.walk (f := fun a => g (q.msg a)) hl.length_le
  rw [hd1] at hw1
  rw [hd2] at hw2
  have hfr : q.links.first = (l1 ++ (l2 ++ z :: l3)).head? := hl.first
  obtain ⟨t, ht⟩ : ∃ t, (l2 ++ z :: l3).head? = some t := by cases l2 <;> simp
  rw [ht] at hw1 hw2
  have ho' : order d = (l1 ++ l2) ++ z :: l3 := by rw [ho, append_assoc]
  simp only [insertWalk, hfr, hw1, hw2, bind_eq_bind, bind_some, List.head?_cons, h.insertBefore_eq ho']

/-- The place in front of the messages in `l`: at the end if there are none, or else where the walk over the messages of
higher ranks stops. -/
theorem insert_in_front (h : Rep q d) (bp : α) {g : Msg → Bool} {c : Prop} [Decidable c] (hr : r < 256)
    (ho : order d = between d r 257 ++ l) (hc : c ↔ l = []) (hl : ∀ a ∈ l, (q.msg a).rank ≤ r)
    (hg : ∀ a ∈ order d, (q.msg a).rank ≠ 256 → (g (q.msg a) = true ↔ r < (q.msg a).rank))
    (k : Queue α → Option (Queue α)) :
    (if c then k (q.insertLast bp) else (q.insertWalk (fun m => qpctl ≤ m.type.val) g bp).bind k) =
      k { q with links := q.links.link (between d r 257 ++ []).getLast? l.head? bp } := by
  rw [append_nil]
  cases l with
  | nil => rw [if_pos (hc.mpr rfl), h.insertLast_eq, ho, append_nil]
  | cons z zs =>
    rw [if_neg fun hc' => cons_ne_nil z zs (hc.mp hc')]
    have hh {a : α} (ha : a ∈ between d r 256) : r < (q.msg a).rank ∧ (q.msg a).rank ≠ 256 := by
      obtain ⟨i, hi, hi', ha⟩ := mem_between.mp ha
      rw [h.rank i a ha]
      exact ⟨hi, by omega⟩
    have hz := hl z (by simp)
    rw [between_succ hr] at ho ⊢
    rw [append_assoc] at ho
    have hmem {a : α} (ha : a ∈ between d r 256 ++ z :: zs) : a ∈ order d := by
      rw [ho]
      exact mem_append_right _ ha
    refine congrArg (Option.bind · k) (h.insertWalk_eq ho (fun a ha => ?_) (fun a ha => ⟨?_, ?_⟩) ⟨?_, ?_⟩)
    · exact decide_eq_true (qpctl_le_type.mpr (h.rank 256 a ha))
    · exact decide_eq_false fun hle => (hh ha).2 (qpctl_le_type.mp hle)
    · exact (hg a (hmem (mem_append_left _ ha)) (hh ha).2).mpr (hh ha).1
    · exact decide_eq_false fun hle => by have := qpctl_le_type.mp hle; omega
    · rw [Bool.eq_false_iff, Ne, hg z (hmem (by simp)) (by omega)]
      omega

section

variable (h : Rep q d) (hr : (q.msg bp).rank = r) (hforced : (q.msg bp).band.val = bandOf r)
  (hlen : bandOf r ≤ q.bands.length)
include h hr hforced hlen

theorem putqLink_placed : ∃ q', q.putqLink bp = some q' ∧ Placed q d bp r (d r) [] q' := by
  have hr257 : r < 257 := hr ▸ rank_lt _
  unfold putqLink
  rw [hforced]
  by_cases hf : q.links.first = none
  · obtain ⟨hnil, hdr, hhi, hlo⟩ := h.parts_of_empty hf hr257
    rw [if_pos hf]
    refine ⟨_, rfl, _, by rw [h.insertLast_eq, hnil, hdr, hhi, hlo]; rfl, fun qb _ _ => ?_⟩
    simp [hdr]
  rw [if_neg hf]
  obtain ⟨tmp, hl⟩ := h.exists_last hf
  have hbl := h.below_eq_nil_iff hl hr257
  by_cases hb : bandOf r = 0
  · rw [if_pos hb, h.list.last, hl]
    suffices hn : (if (q.msg bp).queclass ≤ (q.msg tmp).queclass then some (q.insertLast bp)
        else q.insertWalk (fun m => (q.msg bp).queclass ≤ m.queclass) (fun _ => false) bp) =
        some { q with links := q.links.link (between d r 257 ++ d r).getLast? ([] ++ below d r).head? bp } from
      ⟨_, hn, placed_of_band_zero hb⟩
    rw [bandOf_eq_zero] at hb
    have hm := (q.msg tmp).rank_lt
    by_cases hc : (q.msg bp).queclass ≤ (q.msg tmp).queclass
    · rw [if_pos hc, h.insertLast_eq, order_split hr257, hbl.mpr, append_nil]
      · rfl
      · rw [← Nat.not_lt, queclass_lt] at hc
        omega
    · rw [if_neg hc]
      rw [Nat.not_le, queclass_lt, hr] at hc
      obtain ⟨hw, rfl⟩ := hc
      obtain ⟨z, zs, hz⟩ := exists_cons_of_ne_nil (show below d 256 ≠ [] by rw [Ne, hbl]; omega)
      have ho : order d = d 256 ++ ([] ++ z :: zs) := by rw [order_split hr257, hz]; rfl
      have hzr := h.rank_of_below (show z ∈ below d 256 by rw [hz]; simp)
      rw [h.insertWalk_eq ho, hz, append_nil]
      · rfl
      · intro a ha
        refine decide_eq_true (Nat.not_lt.mp fun hlt => ?_)
        exact (queclass_lt.mp hlt).1 (h.rank 256 a ha)
      · simp
      · refine ⟨decide_eq_false fun hle => ?_, rfl⟩
        exact Nat.not_lt.mpr hle (queclass_lt.mpr ⟨by omega, hr⟩)
  · obtain ⟨hbr, hpos, hr256⟩ := band_cases hr257 hb
    obtain ⟨qb, hq, hh⟩ := h.qband hr257 hlen hb
    rw [if_neg hb, hq]
    simp only [bind_eq_bind, bind_some, hh.first, hh.last]
    rcases eq_nil_or_concat' (d r) with hdr | ⟨l, t, hdr⟩
    · rw [hdr, h.list.last, hl]
      refine ⟨_, h.insert_in_front bp hr256 (l := below d r) ?_ ?_ ?_ ?_ fun q =>
        some (q.setBand (bandOf r) fun qb => { qb with first := some bp, last := some bp }), _, rfl, fun qb _ _ => by simp⟩
      · rw [order_split hr257, hdr, append_nil]
      · rw [hbl, hbr, class_or_band (by omega) hr256.le]
      · exact fun a ha => (h.rank_of_below ha).le
      · intro a ha hne
        have hnr : (q.msg a).rank ≠ r := by
          obtain ⟨i, -, hi⟩ := mem_below.mp ha
          rw [h.rank i a hi]
          rintro rfl
          simp [hdr] at hi
        rw [decide_eq_true_iff, rank_eq_band hne]
        omega
    · have ho : order d = (between d r 257 ++ l) ++ t :: below d r := order_of_split hr257 hdr
      obtain ⟨z, hz⟩ : ∃ z, (d r).head? = some z := by cases l <;> simp [hdr]
      have ht : (d r).getLast? = some t := by simp [hdr]
      rw [hz, ht]
      refine ⟨_, rfl, fun qb => { qb with last := some bp }, ?_, fun qb' _ hq' => ?_⟩
      · rw [h.insertAfter_eq ho, hdr, append_assoc]
        rfl
      · obtain rfl : qb = qb' := Option.some.inj (hq.symm.trans hq')
        refine ⟨hh.first.trans ?_, by simp, rfl⟩
        cases l <;> simp [hdr]

theorem putbqLink_placed : ∃ q', q.putbqLink bp = some q' ∧ Placed q d bp r [] (d r) q' := by
  have hr257 : r < 257 := hr ▸ rank_lt _
  unfold putbqLink
  rw [hforced]
  by_cases hf : q.links.first = none ∨ (q.msg bp).queclass = qpctl
  · rw [if_pos hf]
    have hfr : q.links.first = (d r ++ below d r).head? ∧ between d r 257 = [] ∧ (bandOf r ≠ 0 → d r = []) := by
      rcases hf with hfr | hc
      · obtain ⟨hnil, hdr, hhi, hlo⟩ := h.parts_of_empty hfr hr257
        simp [hfr, hdr, hhi, hlo]
      · obtain rfl : r = 256 := hr.symm.trans (queclass_eq_qpctl.mp hc)
        refine ⟨?_, between_self, fun hb => absurd rfl hb⟩
        rw [h.list.first, order_split hr257, between_self, nil_append]
    refine ⟨_, rfl, fun qb => { qb with first := some bp, last := some bp }, ?_, fun qb hb _ => ?_⟩
    · rw [insertFirst, hfr.1, hfr.2.1]
      rfl
    · simp [hfr.2.2 hb]
  rw [if_neg hf]
  rw [not_or] at hf
  obtain ⟨tmp, hl⟩ := h.exists_last hf.1
  have hr256 : r < 256 := by
    have : r ≠ 256 := fun h256 => hf.2 (queclass_eq_qpctl.mpr (hr.trans h256))
    omega
  have hbr : bandOf r = r := if_neg (by omega)
  have ho : order d = between d r 257 ++ (d r ++ below d r) := by rw [order_split hr257, append_assoc]
  have hw := h.insert_in_front bp (l := d r ++ below d r) (g := fun m => bandOf r < m.band.val)
    (c := (q.msg bp).queclass < (q.msg tmp).queclass ∨ bandOf r < (q.msg tmp).band.val) hr256 ho ?_ ?_ ?_
  · by_cases hb : bandOf r = 0
    · rw [if_neg (not_not.mpr hb), h.list.last, hl]
      exact ⟨_, by simpa using hw some, placed_of_band_zero hb⟩
    · obtain ⟨qb, hq, hh⟩ := h.qband hr257 hlen hb
      rw [if_pos hb, hq]
      simp only [bind_eq_bind, bind_some, hh.first]
      cases hdr : d r with
      | nil =>
        rw [h.list.last, hl]
        rw [hdr] at hw
        exact ⟨_, hw _, _, rfl, fun qb _ _ => by simp⟩
      | cons z zs =>
        have ho' : order d = between d r 257 ++ z :: (zs ++ below d r) := by rw [ho, hdr]; rfl
        refine ⟨_, rfl, fun qb => { qb with first := some bp }, ?_, fun qb' _ hq' => ?_⟩
        · rw [h.insertBefore_eq ho', append_nil]
          rfl
        · obtain rfl : qb = qb' := Option.some.inj (hq.symm.trans hq')
          refine ⟨rfl, hh.last.trans ?_, rfl⟩
          simp [hdr, List.getLast?_cons]
  · have := h.below_eq_nil_iff hl (show r + 1 < 257 by omega)
    rw [below] at this
    rw [this, hbr]
    exact class_or_band (by omega) (by omega)
  · intro a ha
    rcases mem_append.mp ha with ha | ha
    · exact (h.rank r a ha).le
    · exact (h.rank_of_below ha).le
  · intro a _ hne
    rw [decide_eq_true_iff, rank_eq_band hne, hbr]

end

end Rep

end Sol8.Io.Streamq
