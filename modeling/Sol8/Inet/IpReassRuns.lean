import Sol8.Inet.IpReassPlace
import Sol8.Lib.Run
import Sol8.Lib.Slice

/-! The queue of a datagram holds what was received of it. The count of holes is the number of gaps as
long as no last fragment swallows blocks that touch each other or the last block that was there, and the
bytes are those of the datagram as long as no first fragment goes beyond the stretch that starts with the
first block. -/

namespace Sol8.Inet.IpReass

open Sol8.Lib Sol8.Lib.Ranges List Mblk

variable {α β : Type} {n c : ℕ} {l : List (Mblk α β)} {h : ℤ}

variable {D : List β} {H : ℕ} {fs : List (Frag α β)} {f : Frag α β} {ipf ipf' : Ipf α β} {q : Option (Ipf α β)}
  {s : Option (Ipf α β) × List (Frag α β)}

/-- A fragment of the datagram `D`, whose header has `H` bytes: not the whole of it, and not marked as
having more behind it exactly if it is the end. -/
structure IsFrag (D : List β) (H : ℕ) (f : Frag α β) : Prop where
  data : f.data = slice D f.offset f.stop
  stop : f.stop ≤ D.length
  more : f.more = true ↔ f.stop < D.length
  part : f.offset ≠ 0 ∨ f.more = true
  hdr : f.offset = 0 → f.hdr.length = H

/-- When the queue does what it should with a fragment. A last fragment may only swallow blocks with holes
between them, and no block that ends the datagram; a first fragment that finds a block at offset 0 may only
bring what is there. -/
structure Safe (n : ℕ) (l : List (Mblk α β)) (f : Frag α β) : Prop where
  last : f.more = false →
    (behind f.offset l).Pairwise (fun p q => p.stop < q.start) ∧ ∀ p ∈ behind f.offset l, p.stop < n
  first : f.offset = 0 → (∃ p ∈ l, p.start = 0) → f.stop ≤ reach 0 l

/-- The block has the bytes of the datagram, after a header that was received if it is the first one. -/
def HasBytes (D : List β) (fs : List (Frag α β)) (p : Mblk α β) : Prop :=
  (p.start ≠ 0 ∧ p.bytes = slice D p.start p.stop) ∨
    (p.start = 0 ∧ ∃ f ∈ fs, f.offset = 0 ∧ p.bytes = f.hdr ++ slice D 0 p.stop)

/-- A hard-case queue that holds the fragments. -/
structure Hard (D : List β) (fs : List (Frag α β)) (ipf : Ipf α β) : Prop where
  endOffset : ipf.endOffset = 0
  ne_nil : ipf.cont ≠ []
  ordered : Ordered start stop ipf.cont
  stop : ∀ p ∈ ipf.cont, p.stop ≤ D.length
  covers : ∀ a, Covers Mblk.start Mblk.stop ipf.cont a ↔ Covers Frag.offset Frag.stop fs a
  bytes : ∀ p ∈ ipf.cont, HasBytes D fs p
  tail : ipf.tailMp = ipf.cont.getLast?.map addr
  addrs : (ipf.cont.map addr).Nodup
  count : ipf.holeCnt = holes Mblk.start Mblk.stop D.length 0 ipf.cont

def Frag.piece (f : Frag α β) : Mblk α β := { f.mblk with start := f.offset, stop := f.stop }

theorem IsFrag.apart (hf : IsFrag D H f) (hs : Safe D.length l f) :
    Apart D.length f.more f.piece.stop (behind f.piece.start l) := by
  refine ⟨hf.more.mp, fun hm => ⟨?_, hs.last hm⟩⟩
  have := hf.stop
  have := mt hf.more.mpr (by simp [hm])
  change f.stop = _
  omega

theorem IsFrag.hasBytes (hf : IsFrag D H f) (hs : Safe D.length l f) {e : ℕ} (he : reach f.offset l < e)
    (he' : e ≤ f.stop) : HasBytes D (f :: fs) ((f.piece.trim (reach f.offset l)).cut e) := by
  have hr : f.offset ≤ reach f.offset l := le_reach
  have hst := hf.stop
  by_cases h0 : f.offset = 0
  · -- only a piece that is the first one can have something new
    have hn : ∀ p ∈ l, 0 < p.start := by
      intro p hp
      by_contra hp0
      have := hs.first h0 ⟨p, hp, by omega⟩
      rw [h0] at he
      omega
    rw [h0, reach_of_lt hn] at he ⊢
    have ht : f.piece.trim 0 = f.piece := by
      rw [show 0 = f.piece.start from h0.symm, trim_self]
    have hb : f.piece.bytes = f.hdr ++ f.data := if_pos h0
    have hlen : f.data.length = f.stop := by simp [Frag.stop, h0]
    have hd : f.data.take e = slice D 0 e := by
      rw [hf.data, h0]
      exact take_slice (Nat.zero_le e) he'
    rw [ht]
    refine .inr ⟨h0, f, mem_cons_self, h0, ?_⟩
    change f.piece.bytes.take (f.piece.bytes.length - (f.stop - e)) = f.hdr ++ slice D 0 e
    rw [hb, length_append, show f.hdr.length + f.data.length - (f.stop - e) = f.hdr.length + e by omega,
      take_length_add_append, hd]
  · refine .inl ⟨show reach f.offset l ≠ 0 by omega, ?_⟩
    have hlen : (slice D (reach f.offset l) f.stop).length = f.stop - reach f.offset l := length_slice hst
    have hdp : f.data.drop (reach f.offset l - f.offset) = slice D (reach f.offset l) f.stop := by
      rw [hf.data, drop_slice, Nat.add_sub_cancel' hr]
    have hb : f.piece.bytes = f.data := if_neg h0
    change (f.piece.bytes.drop (reach f.offset l - f.offset)).take
      ((f.piece.bytes.drop (reach f.offset l - f.offset)).length - (f.stop - e)) = slice D (reach f.offset l) e
    rw [hb, hdp, ← take_slice (Nat.le_of_lt he) he']
    congr 1
    omega

theorem Hard.of_placed (hin : Hard D fs ipf) (hf : IsFrag D H f) (hs : Safe D.length ipf.cont f)
    (hn : f.offset < f.stop) (hfr : f.addr ∉ ipf.cont.map Mblk.addr) {r : List (Mblk α β) × Option α × ℤ}
    (hr : Placed D.length 0 f.piece ipf.cont ipf.holeCnt r) : Hard D (f :: fs) (ipf.setQueue r) where
  endOffset := hin.endOffset
  ne_nil := hr.ne_nil hn
  ordered := hr.ordered
  stop p hp := by
    rcases hr.elems p hp with hp | ⟨e, -, he, rfl⟩
    · exact hin.stop p hp
    · exact Nat.le_trans he hf.stop
  covers a := by
    change Covers Mblk.start Mblk.stop r.1 a ↔ _
    rw [hr.covers, covers_cons, hin.covers]
    rfl
  bytes p hp := by
    rcases hr.elems p hp with hp | ⟨e, he, he', rfl⟩
    · refine (hin.bytes p hp).imp_right ?_
      rintro ⟨h0, f', hf', hb⟩
      exact ⟨h0, f', mem_cons_of_mem _ hf', hb⟩
    · exact hf.hasBytes hs he he'
  tail := hr.tail
  addrs := hr.addrs (nodup_cons.mpr ⟨hfr, hin.addrs⟩)
  count := by
    have := hr.count
    rw [hin.count] at this
    change r.2.2 = holes Mblk.start Mblk.stop D.length 0 r.1
    omega

theorem Hard.append_placed (hin : Hard D fs ipf) (hf : IsFrag D H f) (hn : f.offset < f.stop) {t : Mblk α β}
    (ht : ipf.cont.getLast? = some t) (hle : t.stop ≤ f.offset)
    (hh : h = if f.more then if f.offset ≠ t.stop then ipf.holeCnt + 1 else ipf.holeCnt
      else if f.offset = t.stop then ipf.holeCnt - 1 else ipf.holeCnt) :
    Placed D.length c f.piece ipf.cont ipf.holeCnt (ipf.cont ++ [f.piece], some f.addr, h) := by
  refine IpReass.append_placed hn hin.ordered ht hle ?_
  have hst := hf.stop
  have hs : f.piece.start = f.offset := rfl
  have hs' : f.piece.stop = f.stop := rfl
  cases hm : f.more with
  | true =>
    have := hf.more.mp hm
    rw [hh]
    split_ifs <;> omega
  | false =>
    have := mt hf.more.mpr (by simp [hm])
    simp only [hm, Bool.false_eq_true, if_false] at hh
    split_ifs <;> omega

theorem safe_nil : Safe n [] f := ⟨fun _ => ⟨.nil, by simp [behind]⟩, by simp⟩

theorem first_hard (hf : IsFrag D H f) (hw : f.offset < f.stop) (hn : ∀ a, ¬ Covers Frag.offset Frag.stop fs a)
    (hen : ipf.endOffset = 0) :
    Hard D (f :: fs) (ipf.setQueue ([f.piece], some f.addr, if f.offset = 0 || !f.more then 1 else 2)) where
  endOffset := hen
  ne_nil := cons_ne_nil _ _
  ordered := ordered_cons.mpr ⟨hw, by simp, ordered_nil⟩
  stop p hp := by
    obtain rfl := mem_singleton.mp hp
    exact hf.stop
  covers a := by
    rw [covers_cons, iff_false_intro (hn a)]
    exact covers_cons.trans (or_congr_right covers_nil)
  bytes p hp := by
    obtain rfl := mem_singleton.mp hp
    have hb : HasBytes D (f :: fs) ((f.piece.trim f.piece.start).cut f.piece.stop) :=
      hf.hasBytes safe_nil hw (Nat.le_refl _)
    rwa [Mblk.trim_self, Mblk.cut_self] at hb
  tail := rfl
  addrs := by simp [Ipf.setQueue]
  count := by
    have hpr := hf.part
    have hr := hf.more
    have hlen : holes Mblk.start Mblk.stop D.length 0 [f.piece] =
        (if 0 < f.offset then 1 else 0) + if f.stop < D.length then 1 else 0 := rfl
    change (if f.offset = 0 || !f.more then (1 : ℤ) else 2) = holes Mblk.start Mblk.stop D.length 0 [f.piece]
    rw [hlen]
    cases hm : f.more with
    | true =>
      rw [hm, eq_self_iff_true, true_iff] at hr
      by_cases h0 : f.offset = 0
      · simp [h0, hr]
      · simp [h0, hr, Nat.pos_of_ne_zero h0]
    | false =>
      rw [hm] at hr hpr
      simp [show 0 < f.offset by simpa [Nat.pos_iff_ne_zero] using hpr, show ¬ f.stop < D.length by simpa using hr]

/-- `ip_reassemble` puts the piece of a fragment where it belongs. -/
theorem Hard.insert [DecidableEq α] (hv : Hard D fs ipf) (hf : IsFrag D H f) (hs : Safe D.length ipf.cont f)
    (hn : f.offset < f.stop) (hfs : f.addr ∉ ipf.cont.map Mblk.addr) :
    ∃ r, ipf.insert f.piece f.more false = some (ipf.setQueue r) ∧ Hard D (f :: fs) (ipf.setQueue r) := by
  suffices ∃ r, ipf.insert f.piece f.more false = some (ipf.setQueue r) ∧
      Placed D.length 0 f.piece ipf.cont ipf.holeCnt r from
    this.imp fun r h => ⟨h.1, hv.of_placed hf hs hn hfs h.2⟩
  obtain ⟨mp1, rest, hc⟩ := exists_cons_of_ne_nil hv.ne_nil
  obtain ⟨t, ht⟩ : ∃ t, ipf.cont.getLast? = some t := ⟨_, List.getLast?_eq_some_getLast hv.ne_nil⟩
  have hl : ipf.tailMp = some t.addr := by rw [hv.tail, ht]; rfl
  have ha := hf.apart hs
  unfold Ipf.insert
  rw [hl]
  dsimp only
  rw [find_tail hv.addrs ht, Option.bind_some]
  split
  case isTrue hle =>
    rw [linkAfter_tail hv.addrs ht]
    refine ⟨_, rfl, hv.append_placed hf hn ht hle ?_⟩
    simp [show f.piece.start = f.offset from rfl]
  case isFalse hlt =>
    have ho := hv.ordered
    have hst := hv.stop
    have ht' := hv.tail
    rw [hc] at ho hst ht' ha ht ⊢
    rw [List.head?_cons, Option.bind_some]
    split
    case isTrue hfr =>
      refine ⟨_, rfl, front_placed hn ho hfr hst ?_ (hl ▸ ht')⟩
      rwa [show behind f.piece.start (mp1 :: rest) = mp1 :: rest from if_pos hfr] at ha
    case isFalse hm =>
      have hin : ∃ p ∈ mp1 :: rest, f.piece.start < p.stop := ⟨t, mem_of_getLast? ht, by omega⟩
      obtain ⟨r, hr, hp⟩ := middle_placed (h := ipf.holeCnt) hn ho (by omega) hin hst ha (hl ▸ ht')
      exact ⟨r, by rw [hr]; rfl, hp 0⟩

theorem pieces_eq [DecidableEq α] (hn : f.offset < f.stop) (hh : f.offset = 0 → ipf.nfHdrLen = f.hdr.length) :
    ipf.pieces f.more f.offset [f.mblk] = ipf.insert f.piece f.more false := by
  have hs : f.offset + f.mblk.bytes.length - (if f.offset = 0 then ipf.nfHdrLen else 0) = f.stop := by
    by_cases h0 : f.offset = 0
    · simp [Frag.mblk, Frag.stop, h0, hh h0]
    · simp [Frag.mblk, Frag.stop, h0]
  rw [Ipf.pieces, hs, if_neg (Nat.ne_of_lt hn)]
  exact Option.bind_fun_some _

/-- Without holes the blocks have the rest of the datagram. -/
theorem flatMap_bytes (ho : Ordered start stop l) (hn : ∀ p ∈ l, p.stop ≤ D.length)
    (hb : ∀ p ∈ l, HasBytes D fs p) (hc : ∀ p ∈ l, c ≤ p.start) (hc0 : 0 < c)
    (hz : holes start stop D.length c l = 0) : l.flatMap bytes = slice D c D.length := by
  induction l generalizing c with
  | nil =>
    have hle : D.length ≤ c := by simpa [holes] using hz
    simpa [slice] using hle
  | cons p l ih =>
    obtain ⟨hp, hr, ho'⟩ := ordered_cons.mp ho
    have hcp := hc p mem_cons_self
    rw [holes, Nat.add_eq_zero_iff] at hz
    obtain rfl : c = p.start := by
      by_contra hne
      simp [show c < p.start by omega] at hz
    have hby : p.bytes = slice D p.start p.stop := by
      rcases hb p mem_cons_self with ⟨-, hb⟩ | ⟨h0, -⟩
      · exact hb
      · omega
    rw [flatMap_cons, hby, ih ho' (fun q hq => hn q (mem_cons_of_mem _ hq))
      (fun q hq => hb q (mem_cons_of_mem _ hq)) hr (by omega) hz.2]
    exact slice_append (Nat.le_of_lt hp) (hn p mem_cons_self)

theorem Hard.complete (hin : Hard D fs ipf) (hz : ipf.holeCnt = 0) :
    ∃ f ∈ fs, f.offset = 0 ∧ ipf.cont.flatMap Mblk.bytes = f.hdr ++ D := by
  have hc := hin.count
  have ho := hin.ordered
  have hs := hin.stop
  have hby := hin.bytes
  obtain ⟨p, rest, hn⟩ := exists_cons_of_ne_nil hin.ne_nil
  rw [hn] at hc ho hs hby ⊢
  obtain ⟨hp, hr, ho'⟩ := ordered_cons.mp ho
  have hzr : holes Mblk.start Mblk.stop D.length 0 (p :: rest) = 0 := by omega
  rw [holes, Nat.add_eq_zero_iff] at hzr
  have h0 : p.start = 0 := by
    by_contra hne
    simp [Nat.pos_of_ne_zero hne] at hzr
  rcases hby p mem_cons_self with ⟨hne, -⟩ | ⟨-, f, hf, hf0, hb⟩
  · exact absurd h0 hne
  · refine ⟨f, hf, hf0, ?_⟩
    rw [flatMap_cons, hb, flatMap_bytes ho' (fun q hq => hs q (mem_cons_of_mem _ hq))
      (fun q hq => hby q (mem_cons_of_mem _ hq)) hr (by omega) hzr.2, append_assoc,
      slice_append (Nat.zero_le _) (hs p mem_cons_self), slice_length]

theorem Hard.count_eq_gaps (hin : Hard D fs ipf) : ipf.holeCnt = gaps (Covers Frag.offset Frag.stop fs) D.length := by
  rw [hin.count, holes_eq_gaps hin.ordered hin.stop, gaps_congr hin.covers]

theorem Hard.count_eq_zero (hin : Hard D fs ipf) :
    ipf.holeCnt = 0 ↔ ∀ a < D.length, Covers Frag.offset Frag.stop fs a := by
  rw [hin.count_eq_gaps, ← gaps_eq_zero]
  omega

/-- A fragment is delivered by `ip_rput_local`, or to `ip_reassemble` at once. -/
def deliver [DecidableEq α] (direct : Bool) (junk : ℤ) (q : Option (Ipf α β)) (f : Frag α β) :
    Option (Option (Ipf α β) × Option (List β)) :=
  if direct then hard (q.getD (newIpf junk)) f else fragmented junk q f

def blocks (q : Option (Ipf α β)) : List (Mblk α β) := q.elim [] fun ipf => ipf.harden.cont

/-- The queue, if there is one, holds the fragments, and they are not yet the whole datagram. As long as
they have come in order, `ipf_end` is where the last one ends. -/
def Inv (D : List β) (H : ℕ) (fs : List (Frag α β)) : Option (Ipf α β) → Prop
  | none => ∀ a, ¬ Covers Frag.offset Frag.stop fs a
  | some ipf => Hard D fs ipf.harden ∧ ipf.harden.holeCnt ≠ 0 ∧
      (ipf.endOffset ≠ 0 → ipf.nfHdrLen = H ∧ ∀ t ∈ ipf.harden.cont.getLast?, t.stop = ipf.endOffset)

theorem harden_of_hard (h : ipf.endOffset = 0) : ipf.harden = ipf := if_neg (by simp [h])

theorem Hard.inv (h : Hard D fs ipf) (hne : ipf.holeCnt ≠ 0) : Inv D H fs (some ipf) := by
  rw [Inv, harden_of_hard h.endOffset]
  exact ⟨h, hne, fun he => absurd h.endOffset he⟩

/-- What a delivery of `f` comes to: the datagram when it is complete, or else the queue with `f`. -/
def Delivered (D : List β) (H : ℕ) (fs : List (Frag α β)) (q : Option (Ipf α β)) : Option (List β) → Prop
  | none => Inv D H fs q ∧ ¬ ∀ a < D.length, Covers Frag.offset Frag.stop fs a
  | some m => q = none ∧ (∀ a < D.length, Covers Frag.offset Frag.stop fs a) ∧ ∃ f ∈ fs, f.offset = 0 ∧ m = f.hdr ++ D

theorem noteHdr_harden_nfHdrLen : (ipf.noteHdr f).harden.nfHdrLen = if f.offset = 0 then f.hdr.length else ipf.nfHdrLen := by
  unfold Ipf.harden Ipf.noteHdr
  split <;> split <;> rfl

theorem mark_append {H o : ℕ} {x t : Mblk α β} (ht : (mark H o l).getLast? = some t) :
    mark H o (l ++ [x]) = mark H o l ++ mark H t.stop [x] := by
  induction l generalizing o with
  | nil => simp [mark] at ht
  | cons mp l ih =>
    cases l with
    | nil =>
      obtain rfl : _ = t := by simpa [mark] using ht
      rfl
    | cons q l =>
      have ht' : (mark H (o + mp.bytes.length - if o = 0 then H else 0) (q :: l)).getLast? = some t := by
        simpa [mark] using ht
      rw [cons_append, mark, ih ht']
      rfl

theorem map_addr_mark {H o : ℕ} : (mark H o l).map addr = l.map addr := by
  induction l generalizing o with
  | nil => rfl
  | cons mp l ih => simp [mark, ih]

theorem flatMap_bytes_mark {H o : ℕ} : (mark H o l).flatMap bytes = l.flatMap bytes := by
  induction l generalizing o with
  | nil => rfl
  | cons mp l ih => simp [mark, ih]

/-- `ip_reassemble` reports what the count of holes says. -/
theorem hard_delivered [DecidableEq α] (hn : f.offset < f.stop) (his : (ipf.noteHdr f).harden.insert f.piece f.more false = some ipf')
    (hin : Hard D (f :: fs) ipf') : ∃ q reply, hard ipf f = some (q, reply) ∧ Delivered D H (f :: fs) q reply := by
  have hp : (ipf.noteHdr f).harden.pieces f.more f.offset [f.mblk] = some ipf' := by
    rw [pieces_eq hn, his]
    intro h0
    rw [noteHdr_harden_nfHdrLen, if_pos h0]
  unfold hard ipReassemble
  rw [hp]
  by_cases hz : ipf'.holeCnt = 0
  · refine ⟨none, some (ipf'.cont.flatMap Mblk.bytes), by simp [hz, flatMap_map], rfl, ?_, hin.complete hz⟩
    exact hin.count_eq_zero.mp hz
  · exact ⟨some ipf', none, by simp [hz], hin.inv hz, mt hin.count_eq_zero.mpr hz⟩

/-- A fragment that fits at the end of those in order. -/
theorem fast_hard [DecidableEq α] (hin : Hard D fs ipf.harden) (hf : IsFrag D H f) (hs : Safe D.length ipf.harden.cont f)
    (hn : f.offset < f.stop) (hr : f.addr ∉ ipf.harden.cont.map Mblk.addr) (h0 : f.offset ≠ 0)
    (hen : ipf.endOffset = f.offset) (hl : ∀ t ∈ ipf.harden.cont.getLast?, t.stop = ipf.endOffset) :
    ∃ tail, ipf.tailMp = some tail ∧ linkAfter tail f.mblk ipf.cont = ipf.cont ++ [f.mblk] ∧
      mark ipf.nfHdrLen 0 (ipf.cont ++ [f.mblk]) = ipf.harden.cont ++ [f.piece] ∧
      Hard D (f :: fs) (ipf.harden.setQueue (ipf.harden.cont ++ [f.piece], some f.addr, if f.more then 1 else 0)) := by
  have hh : ipf.harden = { ipf with cont := mark ipf.nfHdrLen 0 ipf.cont, holeCnt := 1, endOffset := 0 } :=
    if_pos (by omega)
  have hc : ipf.harden.cont = mark ipf.nfHdrLen 0 ipf.cont := by rw [hh]
  have htl : ipf.harden.tailMp = ipf.tailMp := by rw [hh]
  have hcn : ipf.harden.holeCnt = 1 := by rw [hh]
  obtain ⟨t, ht⟩ : ∃ t, ipf.harden.cont.getLast? = some t := ⟨_, List.getLast?_eq_some_getLast hin.ne_nil⟩
  have hts := hl t ht
  have ha : ipf.cont.map Mblk.addr = ipf.harden.cont.map Mblk.addr := by rw [hc, map_addr_mark]
  obtain ⟨t', ht', hta⟩ : ∃ t', ipf.cont.getLast? = some t' ∧ t'.addr = t.addr := by
    have hm := congrArg List.getLast? ha
    rw [List.getLast?_map, List.getLast?_map, ht] at hm
    simpa using hm
  refine ⟨t.addr, ?_, ?_, ?_, ?_⟩
  · rw [← htl, hin.tail, ht]
    rfl
  · rw [← hta]
    exact linkAfter_tail (ha ▸ hin.addrs) ht'
  · rw [hc] at ht ⊢
    rw [mark_append ht, hts, hen]
    simp [mark, h0, Frag.piece, Frag.mblk, Frag.stop]
  · refine hin.of_placed hf hs hn hr (hin.append_placed hf hn ht (by omega) ?_)
    cases f.more <;> simp <;> omega

/-- A fragment that finds no queue, at `ip_reassemble`. -/
theorem new_delivered [DecidableEq α] (junk : ℤ) (hin : Inv D H fs none) (hf : IsFrag D H f) (hn : f.offset < f.stop) :
    ∃ ipf', ((newIpf junk : Ipf α β).noteHdr f).harden.insert f.piece f.more false = some ipf' ∧
      Hard D (f :: fs) ipf' := by
  have hh : ((newIpf junk : Ipf α β).noteHdr f).endOffset = 0 ∧ ((newIpf junk : Ipf α β).noteHdr f).tailMp = none := by
    unfold Ipf.noteHdr
    split <;> exact ⟨rfl, rfl⟩
  rw [harden_of_hard hh.1]
  refine ⟨_, ?_, first_hard hf hn hin hh.1⟩
  simp only [Ipf.insert, hh.2]
  rfl

/-- A fragment that finds a queue and does not fit at its end. -/
theorem old_delivered [DecidableEq α] (hin : Inv D H fs (some ipf)) (hf : IsFrag D H f) (hs : Safe D.length ipf.harden.cont f)
    (hw : f.offset < f.stop) (hfr : f.addr ∉ ipf.harden.cont.map Mblk.addr) :
    ∃ ipf', (ipf.noteHdr f).harden.insert f.piece f.more false = some ipf' ∧ Hard D (f :: fs) ipf' := by
  obtain ⟨hh, -, hes⟩ := hin
  -- the length of the hd matters to blocks in order only, and there it is known
  have hn : ∃ k, (ipf.noteHdr f).harden = { ipf.harden with nfHdrLen := k } := by
    by_cases h0 : f.offset = 0
    · by_cases he : ipf.endOffset = 0
      · refine ⟨f.hdr.length, ?_⟩
        rw [harden_of_hard he, Ipf.noteHdr, if_pos h0]
        exact harden_of_hard he
      · refine ⟨ipf.harden.nfHdrLen, ?_⟩
        rw [Ipf.noteHdr, if_pos h0, hf.hdr h0, ← (hes he).1]
    · exact ⟨ipf.harden.nfHdrLen, by rw [Ipf.noteHdr, if_neg h0]⟩
  obtain ⟨k, hk⟩ := hn
  have hh' : Hard D fs { ipf.harden with nfHdrLen := k } :=
    ⟨hh.endOffset, hh.ne_nil, hh.ordered, hh.stop, hh.covers, hh.bytes, hh.tail, hh.addrs,
      hh.count⟩
  rw [hk]
  obtain ⟨r, hr, hr'⟩ := hh'.insert hf hs hw hfr
  exact ⟨_, hr, hr'⟩

/-- A fragment without data adds nothing. -/
theorem Inv.cons_empty (hin : Inv D H fs q) (hf : f.stop = f.offset) : Inv D H (f :: fs) q := by
  have hc (a : ℕ) : Covers Frag.offset Frag.stop (f :: fs) a ↔ Covers Frag.offset Frag.stop fs a := by
    rw [covers_cons, or_iff_right]
    omega
  cases q with
  | none => exact fun a => mt (hc a).mp (hin a)
  | some ipf =>
    obtain ⟨hh, hr⟩ := hin
    refine ⟨⟨hh.endOffset, hh.ne_nil, hh.ordered, hh.stop, fun a => (hh.covers a).trans (hc a).symm,
      fun p hp => ?_, hh.tail, hh.addrs, hh.count⟩, hr⟩
    refine (hh.bytes p hp).imp_right ?_
    rintro ⟨h0, f', hf', hb⟩
    exact ⟨h0, f', mem_cons_of_mem _ hf', hb⟩

theorem Inv.not_complete (hin : Inv D H fs q) (hD : 0 < D.length) :
    ¬ ∀ a < D.length, Covers Frag.offset Frag.stop fs a := by
  cases q with
  | none => exact fun h => hin 0 (h 0 hD)
  | some ipf => exact mt hin.1.count_eq_zero.mpr hin.2.1

theorem IsFrag.length_pos (hf : IsFrag D H f) : 0 < D.length := by
  have hs := hf.stop
  have hle : f.offset ≤ f.stop := Nat.le_add_right _ _
  rcases hf.part with h | h
  · omega
  · exact Nat.lt_of_le_of_lt (Nat.zero_le _) (hf.more.mp h)

/-- The first fragment starts a queue in order. -/
theorem easy_delivered (junk : ℤ) (hin : Inv D H fs none) (hf : IsFrag D H f) (hn : f.offset < f.stop)
    (h0 : f.offset = 0) : Inv D H (f :: fs) (some { (newIpf junk : Ipf α β) with
      cont := [f.mblk], tailMp := some f.addr, endOffset := f.stop, nfHdrLen := f.hdr.length }) := by
  have hp : mark f.hdr.length 0 [f.mblk] = [f.piece] := by
    simp [mark, Frag.piece, Frag.mblk, Frag.stop, h0]
  have hr : Hard D (f :: fs) (({ newIpf junk with nfHdrLen := f.hdr.length } : Ipf α β).setQueue
      ([f.piece], some f.addr, if f.offset = 0 || !f.more then 1 else 2)) := first_hard hf hn hin rfl
  have hc : (if f.offset = 0 || !f.more then (1 : ℤ) else 2) = 1 := by simp [h0]
  rw [hc, ← hp] at hr
  rw [Inv, Ipf.harden, if_pos (show f.stop ≠ 0 by omega)]
  refine ⟨hr, by simp, fun _ => ⟨hf.hdr h0, fun t ht => ?_⟩⟩
  rw [hp] at ht
  obtain rfl : f.piece = t := by simpa using ht
  rfl

variable [DecidableEq α]

theorem deliver_spec (direct : Bool) (junk : ℤ) (hin : Inv D H fs q) (hf : IsFrag D H f)
    (hs : Safe D.length (blocks q) f) (hr : f.addr ∉ (blocks q).map Mblk.addr) (hd : direct = true → f.data ≠ []) :
    ∃ q' reply, deliver direct junk q f = some (q', reply) ∧ Delivered D H (f :: fs) q' reply := by
  have hhr (hn : f.offset < f.stop) :
      ∃ q' reply, hard (q.getD (newIpf junk)) f = some (q', reply) ∧ Delivered D H (f :: fs) q' reply := by
    cases q with
    | none =>
      obtain ⟨ipf', his, hi'⟩ := new_delivered junk hin hf hn
      exact hard_delivered hn his hi'
    | some ipf =>
      obtain ⟨ipf', his, hi'⟩ := old_delivered hin hf hs hn hr
      exact hard_delivered hn his hi'
  cases direct with
  | true =>
    refine hhr (Nat.lt_add_of_pos_right (length_pos_iff.mpr (hd rfl)))
  | false =>
    change ∃ q' reply, fragmented junk q f = some (q', reply) ∧ _
    unfold fragmented
    by_cases hem : f.data.length = 0
    · have hi' := hin.cons_empty (f := f) (by simp [Frag.stop, hem])
      exact ⟨q, none, if_pos hem, hi', hi'.not_complete hf.length_pos⟩
    have hn : f.offset < f.stop := Nat.lt_add_of_pos_right (Nat.pos_of_ne_zero hem)
    rw [if_neg hem]
    cases q with
    | none =>
      dsimp only
      split
      case isTrue h0 =>
        have hi' := easy_delivered junk hin hf hn h0
        exact ⟨_, none, rfl, hi', hi'.not_complete hf.length_pos⟩
      case isFalse h0 =>
        obtain ⟨ipf', his, hi'⟩ := new_delivered junk hin hf hn
        rw [Ipf.noteHdr, if_neg h0] at his
        have hne : ¬ ∀ a < D.length, Covers Frag.offset Frag.stop (f :: fs) a := by
          intro h
          rcases covers_cons.mp (h 0 hf.length_pos) with h | h
          · exact h0 (Nat.le_zero.mp h.1)
          · exact hin 0 h
        have hc := mt hi'.count_eq_zero.mp hne
        refine ⟨some ipf', none, ?_, hi'.inv hc, hne⟩
        rw [ipReassemble, pieces_eq hn (fun h => absurd h h0), his]
        simp [hc]
    | some ipf =>
      dsimp only
      split
      case isTrue hft =>
        obtain ⟨hh', -, hes⟩ := hin
        obtain ⟨hhd, hl⟩ := hes (by omega)
        obtain ⟨tail, htl, hln, hmr, hi'⟩ := fast_hard hh' hf hs hn hr hft.1 hft.2 hl
        rw [htl, Option.map_some, hln]
        cases hm : f.more with
        | true =>
          rw [hm] at hi'
          have hh : ({ ipf with
              cont := ipf.cont ++ [f.mblk], tailMp := some f.addr, endOffset := f.stop } : Ipf α β).harden =
              ipf.harden.setQueue (ipf.harden.cont ++ [f.piece], some f.addr, 1) := by
            rw [← hmr, Ipf.harden, if_pos (show f.stop ≠ 0 by omega), Ipf.harden, if_pos (by omega)]
            rfl
          have hi2 : Inv D H (f :: fs) (some { ipf with
              cont := ipf.cont ++ [f.mblk], tailMp := some f.addr, endOffset := f.stop }) := by
            rw [Inv, hh]
            refine ⟨hi', by simp [Ipf.setQueue], fun _ => ⟨hhd, fun t ht => ?_⟩⟩
            obtain rfl : f.piece = t := by simpa [Ipf.setQueue] using ht
            rfl
          exact ⟨_, none, rfl, hi2, hi2.not_complete hf.length_pos⟩
        | false =>
          rw [hm] at hi'
          refine ⟨none, some _, rfl, rfl, hi'.count_eq_zero.mp rfl, ?_⟩
          rw [← flatMap_bytes_mark, hmr]
          exact hi'.complete rfl
      case isFalse hft => exact hhr hn

def Start (s : Option (Ipf α β) × List (Frag α β)) : Prop := s = (none, [])

/-- A fragment that may come: one of the datagram, in a block that is not in the queue, and with data if it
goes to `ip_reassemble` at once (`ip_rput_local` drops others). -/
def Comes (D : List β) (H : ℕ) (q : Option (Ipf α β)) (direct : Bool) (f : Frag α β) : Prop :=
  IsFrag D H f ∧ f.addr ∉ (blocks q).map addr ∧ (direct = true → f.data ≠ [])

/-- A delivery of a safe fragment. The second part of the state has what was received since the queue was
last empty. -/
def Step (D : List β) (H : ℕ) (s s' : Option (Ipf α β) × List (Frag α β)) : Prop :=
  ∃ direct junk f reply, Comes D H s.1 direct f ∧ Safe D.length (blocks s.1) f ∧
    deliver direct junk s.1 f = some (s'.1, reply) ∧ s'.2 = if reply.isSome then [] else f :: s.2

theorem inv_of_reachable (h : Reachable Start (Step D H) s) : Inv D H s.2 s.1 ∧ ∀ f ∈ s.2, IsFrag D H f := by
  refine h.invariant (P := fun s => Inv D H s.2 s.1 ∧ ∀ f ∈ s.2, IsFrag D H f) ?_ ?_
  · rintro s rfl
    exact ⟨by simp [Inv], by simp⟩
  · rintro ⟨q, fs⟩ ⟨q', fs'⟩ ⟨hin, hr⟩ ⟨direct, junk, f, reply, ⟨hf, hh, hd⟩, hs, hl, hfs⟩
    obtain ⟨q1, reply1, hd1, hp⟩ := deliver_spec direct junk hin hf hs hh hd
    obtain ⟨rfl, rfl⟩ : q1 = q' ∧ reply1 = reply := by simpa [hl] using hd1.symm
    subst hfs
    cases reply1 with
    | none => exact ⟨hp.1, forall_mem_cons.mpr ⟨hf, hr⟩⟩
    | some m =>
      obtain ⟨rfl, -⟩ := hp
      exact ⟨by simp [Inv], by simp⟩

/-- What the queue of a datagram should be like. -/
structure Correct (D : List β) (H : ℕ) (q : Option (Ipf α β)) (fs : List (Frag α β)) : Prop where
  ordered : Ordered start stop (blocks q)
  covers : ∀ a, Covers start stop (blocks q) a ↔ Covers Frag.offset Frag.stop fs a
  /-- `ip_reassemble` sets and counts the holes -/
  count : ∀ ipf ∈ q, ipf.endOffset = 0 → ipf.holeCnt = gaps (Covers Frag.offset Frag.stop fs) D.length
  tail : ∀ ipf ∈ q, ipf.tailMp = ipf.cont.getLast?.map addr
  /-- each safe fragment that comes is queued, and completes the datagram if it was the rest of it -/
  deliver : ∀ direct junk f, Comes D H q direct f → Safe D.length (blocks q) f →
    ∃ q' reply, deliver direct junk q f = some (q', reply) ∧
      (reply.isSome = true ↔ ∀ a < D.length, Covers Frag.offset Frag.stop (f :: fs) a) ∧
      ∀ m ∈ reply, ∃ f₀ ∈ f :: fs, f₀.offset = 0 ∧ f₀.hdr.length = H ∧ m = f₀.hdr ++ D

/-- In every run of safe fragments the queue is correct, whatever order, duplicates and overlaps they come
in. -/
theorem reassembly_correct (h : Reachable Start (Step D H) s) : Correct D H s.1 s.2 := by
  obtain ⟨hin, hr⟩ := inv_of_reachable h
  obtain ⟨q, fs⟩ := s
  constructor
  case deliver =>
    rintro direct junk f ⟨hf, hfs, hdt⟩ hs
    obtain ⟨q', reply, hl, hp⟩ := deliver_spec direct junk hin hf hs hfs hdt
    refine ⟨q', reply, hl, ?_⟩
    cases reply with
    | none => exact ⟨by simpa using hp.2, by simp⟩
    | some m =>
      obtain ⟨-, hc, f0, hf₀, h0, hm⟩ := hp
      have hhd := (forall_mem_cons.mpr ⟨hf, hr⟩ f0 hf₀).hdr h0
      refine ⟨by simpa using hc, fun m' hm' => ⟨f0, hf₀, h0, hhd, ?_⟩⟩
      cases hm'
      exact hm
  case ordered =>
    cases q with
    | none => exact ordered_nil
    | some ipf => exact hin.1.ordered
  case covers =>
    cases q with
    | none => exact fun a => iff_of_false (by simp [blocks]) (hin a)
    | some ipf => exact hin.1.covers
  case count =>
    rintro ipf ⟨⟩ hn
    have hh := hin.1
    rw [harden_of_hard hn] at hh
    exact hh.count_eq_gaps
  case tail =>
    rintro ipf ⟨⟩
    have ht := hin.1.tail
    unfold Ipf.harden at ht
    split at ht
    · simpa [← List.getLast?_map, map_addr_mark] using ht
    · exact ht

/-! A datagram of 40 bytes behind a header of 20. -/

def datagram : List ℕ := List.range 40

/-- The bytes from `o` up to `e` of it, as a fragment in block `a`. -/
def part (a o e : ℕ) : Frag ℕ ℕ where
  addr := a
  offset := o
  more := e < 40
  hdr := List.replicate 20 69
  data := slice datagram o e

/-- What the last of some fragments in a row comes to. -/
def deliverList : Option (Ipf ℕ ℕ) → List (Frag ℕ ℕ) → Option (Option (Ipf ℕ ℕ) × Option (List ℕ))
  | q, [] => some (q, none)
  | q, [f] => deliver false 0 q f
  | q, f :: fs => (deliver false 0 q f).bind fun r => deliverList r.1 fs

/-- A last fragment that swallows two blocks without a hole between them completes the datagram before its
first bytes have come. A first fragment that goes beyond the first block leaves bytes of its header in the
datagram. -/
theorem reassembly_fails :
    (∀ f ∈ [part 0 16 24, part 1 24 32, part 2 8 40, part 3 0 8, part 4 0 16, part 5 16 40], IsFrag datagram 20 f) ∧
    (∃ m, deliverList none [part 0 16 24, part 1 24 32, part 2 8 40] = some (none, some m) ∧
      ¬ Covers Frag.offset Frag.stop [part 0 16 24, part 1 24 32, part 2 8 40] 0) ∧
    ∃ m, deliverList none [part 3 0 8, part 4 0 16, part 5 16 40] = some (none, some m) ∧
      m.length = 20 + 40 + 20 := by
  refine ⟨fun f hf => ?_, ⟨_, rfl, by simp [part]⟩, _, rfl, by decide⟩
  simp only [mem_cons, not_mem_nil, or_false] at hf
  rcases hf with rfl | rfl | rfl | rfl | rfl | rfl <;>
    exact ⟨by decide, by decide, by decide, by decide, by decide⟩

theorem reassembly_correct_outOfOrder : ∃ s : Option (Ipf ℕ ℕ) × List (Frag ℕ ℕ),
    s.2 = [part 2 32 40, part 1 0 12, part 0 8 24] ∧ (∀ ipf ∈ s.1, ipf.holeCnt = 1) ∧ Correct datagram 20 s.1 s.2 := by
  have ht {s : Option (Ipf ℕ ℕ) × List (Frag ℕ ℕ)} {q' : Option (Ipf ℕ ℕ)} {f : Frag ℕ ℕ}
      (hs : Reachable Start (Step datagram 20) s) (hf : IsFrag datagram 20 f) (ha : f.addr ∉ (blocks s.1).map addr)
      (hsf : Safe datagram.length (blocks s.1) f) (hd : deliver false 0 s.1 f = some (q', none)) :
      Reachable Start (Step datagram 20) (q', f :: s.2) :=
    hs.next ⟨false, 0, f, none, ⟨hf, ha, by simp⟩, hsf, hd, rfl⟩
  have h₀ : Reachable Start (Step datagram 20) ((none, []) : Option (Ipf ℕ ℕ) × List (Frag ℕ ℕ)) := .start rfl
  have h1 := ht (f := part 0 8 24) h₀ ⟨by decide, by decide, by decide, by decide, by decide⟩ (by decide)
    ⟨by decide, by decide⟩ rfl
  have h2 := ht (f := part 1 0 12) h1 ⟨by decide, by decide, by decide, by decide, by decide⟩ (by decide)
    ⟨by decide, by decide⟩ rfl
  have h3 := ht (f := part 2 32 40) h2 ⟨by decide, by decide, by decide, by decide, by decide⟩ (by decide)
    ⟨by decide, by decide⟩ rfl
  exact ⟨_, rfl, by decide, reassembly_correct h3⟩

end Sol8.Inet.IpReass
