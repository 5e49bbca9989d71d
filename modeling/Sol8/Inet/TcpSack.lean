import Sol8.Lib.Run
import Sol8.Lib.SerialNumber

/-! The receiver's list of SACK blocks (`inet/tcp_sack.c`).

`tcpSackInsert` and `tcpSackRemove` follow the two C functions, with the scratch array `tmp` of
each call a parameter: its initial content is whatever the stack held. The list is kept together
with the set of sequence numbers that the insertions so far covered, and the invariant of whole
runs relates the two. Blocks are half-open ranges of 32-bit sequence numbers, compared by the
sign of their wrapped difference. -/

namespace Sol8.Inet.TcpSack

open Function Sol8.Lib List

abbrev TcpSeq := BitVec 32

def SeqLt (a b : TcpSeq) : Prop := (a - b).toInt < 0
def SeqLeq (a b : TcpSeq) : Prop := (a - b).toInt ≤ 0
def SeqGt (a b : TcpSeq) : Prop := (a - b).toInt > 0
def SeqGeq (a b : TcpSeq) : Prop := (a - b).toInt ≥ 0

instance (a b : TcpSeq) : Decidable (SeqLt a b) := inferInstanceAs (Decidable (_ < _))
instance (a b : TcpSeq) : Decidable (SeqLeq a b) := inferInstanceAs (Decidable (_ ≤ _))
instance (a b : TcpSeq) : Decidable (SeqGt a b) := inferInstanceAs (Decidable (_ > _))
instance (a b : TcpSeq) : Decidable (SeqGeq a b) := inferInstanceAs (Decidable (_ ≥ _))

def maxSackBlk : ℕ := 5

structure SackBlk where
  begin_ : TcpSeq
  end_ : TcpSeq
  deriving DecidableEq

/-- The array `head` and the count of its entries in use. -/
structure SackList where
  head : ℕ → SackBlk
  num : ℕ

def SackList.blocks (l : SackList) : List SackBlk := (List.range l.num).map l.head

/-- The locals of `tcp_sack_insert` during its loop; `begin` and `end` are its `range`. -/
structure InsertState where
  range : SackBlk
  tmp : ℕ → SackBlk
  j : ℕ
  newNum : ℕ

/-- The loop of `tcp_sack_insert` over the old blocks it still has to look at. -/
def insertLoop : List SackBlk → InsertState → InsertState
  | [], s => s
  | blk :: rest, s =>
    if SeqLt s.range.end_ blk.begin_ ∨ SeqGt s.range.begin_ blk.end_ then
      insertLoop rest { s with tmp := update s.tmp s.j blk, j := s.j + 1 }
    else if SeqGeq s.range.begin_ blk.begin_ ∧ SeqLeq s.range.end_ blk.end_ then
      -- case 2 leaves the loop: the blocks of `rest` are never copied to `tmp`
      { s with range := blk, newNum := s.newNum - 1 }
    else if SeqLeq s.range.end_ blk.end_ ∧ SeqGeq s.range.end_ blk.begin_ then
      insertLoop rest { s with range := ⟨s.range.begin_, blk.end_⟩, newNum := s.newNum - 1 }
    else if SeqGeq s.range.begin_ blk.begin_ ∧ SeqLeq s.range.begin_ blk.end_ then
      insertLoop rest { s with range := ⟨blk.begin_, s.range.end_⟩, newNum := s.newNum - 1 }
    else
      insertLoop rest { s with newNum := s.newNum - 1 }

def tcpSackInsert (tmp : ℕ → SackBlk) (l : SackList) (begin_ end_ : TcpSeq) : SackList :=
  if l.num = 0 then
    ⟨update l.head 0 ⟨begin_, end_⟩, 1⟩
  else
    let oldNum := if l.num > maxSackBlk - 1 then maxSackBlk - 1 else l.num
    let s := insertLoop ((List.range oldNum).map l.head) ⟨⟨begin_, end_⟩, tmp, 0, oldNum⟩
    ⟨fun k => if k = 0 then s.range else if k ≤ s.newNum then s.tmp (k - 1) else l.head k, s.newNum + 1⟩

structure RemoveState where
  tmp : ℕ → SackBlk
  j : ℕ
  newNum : ℕ

def removeLoop (end_ : TcpSeq) : List SackBlk → RemoveState → RemoveState
  | [], s => s
  | blk :: rest, s =>
    if SeqGt end_ blk.begin_ then
      if SeqGeq end_ blk.end_ then
        removeLoop end_ rest { s with newNum := s.newNum - 1 }
      else
        removeLoop end_ rest { s with tmp := update s.tmp s.j ⟨end_, blk.end_⟩, j := s.j + 1 }
    else
      removeLoop end_ rest { s with tmp := update s.tmp s.j blk, j := s.j + 1 }

def tcpSackRemove (tmp : ℕ → SackBlk) (l : SackList) (end_ : TcpSeq) : SackList :=
  if l.num = 0 then l
  else
    let s := removeLoop end_ l.blocks ⟨tmp, 0, l.num⟩
    ⟨fun k => if k < s.newNum then s.tmp k else l.head k, s.newNum⟩

/-! ### The history of one list -/

/-- The sequence numbers a block acknowledges. -/
def SackBlk.seqs (b : SackBlk) : Set TcpSeq := {x | x - b.begin_ < b.end_ - b.begin_}

/-- A list together with the sequence numbers of all segments inserted into it. -/
structure Receiver where
  list : SackList
  received : Set TcpSeq

/-- A received segment's range: it starts before it ends, inside the window. -/
def Segment (base : TcpSeq) (r : SackBlk) : Prop :=
  InWindow base r.begin_ ∧ InWindow base r.end_ ∧ SeqLt r.begin_ r.end_

/-- The old block and the range neither overlap nor are adjacent: the loop's first test. -/
def Untouched (r b : SackBlk) : Prop := SeqLt r.end_ b.begin_ ∨ SeqGt r.begin_ b.end_

instance (r b : SackBlk) : Decidable (Untouched r b) := inferInstanceAs (Decidable (_ ∨ _))

def Covers (b r : SackBlk) : Prop := SeqLeq b.begin_ r.begin_ ∧ SeqLeq r.end_ b.end_

/-- The range is covered by an old block that the insertion meets before its last one. -/
def CoveredEarly (l : SackList) (r : SackBlk) : Prop :=
  ∃ i, i + 1 < min l.num (maxSackBlk - 1) ∧ Covers (l.head i) r

inductive Call
  | insert (tmp : ℕ → SackBlk) (r : SackBlk)
  | remove (tmp : ℕ → SackBlk) (rcvNxt : TcpSeq)

def Receiver.call (s : Receiver) : Call → Receiver
  | .insert tmp r => ⟨tcpSackInsert tmp s.list r.begin_ r.end_, s.received ∪ r.seqs⟩
  | .remove tmp rcvNxt => ⟨tcpSackRemove tmp s.list rcvNxt, s.received⟩

/-- What the callers promise: only ranges of received segments are inserted. -/
def Call.Allowed (base : TcpSeq) : Call → Prop
  | .insert _ r => Segment base r
  | .remove _ _ => True

/-- The call is not the insertion of a range that an early block covers. -/
def Call.Uncovered (l : SackList) : Call → Prop
  | .insert _ r => ¬ CoveredEarly l r
  | .remove _ _ => True

def Start (s : Receiver) : Prop := s.list.num = 0 ∧ s.received = ∅

def Step (base : TcpSeq) (s s' : Receiver) : Prop := ∃ c : Call, c.Allowed base ∧ s' = s.call c

def UncoveredStep (base : TcpSeq) (s s' : Receiver) : Prop :=
  ∃ c : Call, c.Allowed base ∧ c.Uncovered s.list ∧ s' = s.call c

/-- Two blocks share no sequence number and cannot be joined into one. -/
def Apart (a b : SackBlk) : Prop :=
  Disjoint a.seqs b.seqs ∧ a.end_ ≠ b.begin_ ∧ b.end_ ≠ a.begin_

/-- The list acknowledges received data only, in at most `maxSackBlk` separate blocks. -/
structure SackOk (s : Receiver) : Prop where
  num_le : s.list.num ≤ maxSackBlk
  nonempty : ∀ b ∈ s.list.blocks, b.seqs.Nonempty
  received : ∀ b ∈ s.list.blocks, b.seqs ⊆ s.received
  apart : s.list.blocks.Pairwise Apart

/-- What inserting `r` owes: the first block has it, and the old blocks that may stay and do not
touch it follow in their old order. -/
structure InsertOk (l : SackList) (r : SackBlk) (l' : SackList) : Prop where
  head_mem : l'.head 0 ∈ l'.blocks
  contains : r.seqs ⊆ (l'.head 0).seqs
  kept : l'.blocks.tail = (l.blocks.take (maxSackBlk - 1)).filter (Untouched r)

theorem Apart.symm {a b : SackBlk} (h : Apart a b) : Apart b a := ⟨h.1.symm, h.2.2, h.2.1⟩

/-! ### Blocks of one window, by their offsets -/

section Window

variable {base : TcpSeq} {a b c r : SackBlk} {x y : TcpSeq} {s : Receiver} {l : SackList} {bs out : List SackBlk}

abbrev lo (base : TcpSeq) (b : SackBlk) : ℕ := offset base b.begin_
abbrev hi (base : TcpSeq) (b : SackBlk) : ℕ := offset base b.end_

section

variable (hx : InWindow base x) (hy : InWindow base y)
include hx hy

theorem seqLt_iff : SeqLt x y ↔ offset base x < offset base y := by
  rw [SeqLt, toInt_sub_of_inWindow hx hy]
  omega

theorem seqLeq_iff : SeqLeq x y ↔ offset base x ≤ offset base y := by
  rw [SeqLeq, toInt_sub_of_inWindow hx hy]
  omega

theorem seqGt_iff : SeqGt x y ↔ offset base y < offset base x := by
  rw [SeqGt, toInt_sub_of_inWindow hx hy]
  omega

theorem seqGeq_iff : SeqGeq x y ↔ offset base y ≤ offset base x := by
  rw [SeqGeq, toInt_sub_of_inWindow hx hy]
  omega

end

theorem Segment.lo_lt_hi (h : Segment base b) : lo base b < hi base b := (seqLt_iff h.1 h.2.1).mp h.2.2

theorem Segment.mem_seqs (h : Segment base b) : x ∈ b.seqs ↔ lo base b ≤ offset base x ∧ offset base x < hi base b :=
  sub_lt_sub_iff x h.lo_lt_hi.le

theorem Segment.begin_mem (h : Segment base b) : b.begin_ ∈ b.seqs := h.mem_seqs.mpr ⟨le_rfl, h.lo_lt_hi⟩

theorem apart_iff (ha : Segment base a) (hb : Segment base b) :
    Apart a b ↔ hi base a < lo base b ∨ hi base b < lo base a := by
  have hl := ha.lo_lt_hi
  have hlb := hb.lo_lt_hi
  constructor
  · rintro ⟨hd, hab, hba⟩
    have hne : hi base a ≠ lo base b := fun h => hab (offset_inj h)
    have hne' : hi base b ≠ lo base a := fun h => hba (offset_inj h)
    -- were they to overlap, the later of the two starts would lie in both
    have h1 : ¬ (lo base b ≤ lo base a ∧ lo base a < hi base b) :=
      fun h => Set.disjoint_left.mp hd ha.begin_mem (hb.mem_seqs.mpr h)
    have h2 : ¬ (lo base a ≤ lo base b ∧ lo base b < hi base a) :=
      fun h => Set.disjoint_right.mp hd hb.begin_mem (ha.mem_seqs.mpr h)
    omega
  · intro h
    refine ⟨Set.disjoint_left.mpr fun x hxa hxb => ?_, ?_, ?_⟩
    · rw [ha.mem_seqs] at hxa
      rw [hb.mem_seqs] at hxb
      omega
    · intro he
      have : hi base a = lo base b := congrArg (offset base) he
      omega
    · intro he
      have : hi base b = lo base a := congrArg (offset base) he
      omega

/-! ### The scratch arrays -/

/-- From entry `j` on, `tmp` holds `out`; the entries before are those of `tmp₀`. -/
def Written (tmp₀ tmp : ℕ → SackBlk) (j : ℕ) (out : List SackBlk) : Prop :=
  (∀ i < j, tmp i = tmp₀ i) ∧ ∀ i, (h : i < out.length) → tmp (j + i) = out[i]

theorem Written.nil (tmp : ℕ → SackBlk) (j : ℕ) : Written tmp tmp j [] := ⟨fun _ _ => rfl, fun i h => by simp at h⟩

theorem Written.cons {tmp0 tmp : ℕ → SackBlk} {j : ℕ}
    (h : Written (update tmp0 j b) tmp (j + 1) out) : Written tmp0 tmp j (b :: out) := by
  refine ⟨fun i hi => ?_, fun i hi => ?_⟩
  · rw [h.1 i (by omega), update_of_ne (by omega)]
  · cases i with
    | zero => simpa using h.1 j (by omega)
    | succ i => simpa [Nat.add_assoc, Nat.add_comm 1] using h.2 i (by simpa using hi)

theorem Written.map_range {tmp0 tmp : ℕ → SackBlk}
    (h : Written tmp0 tmp 0 out) : (List.range out.length).map tmp = out :=
  ext_getElem (by simp) fun i _ h₂ => by simpa using h.2 i h₂

/-! ### The insertion loop -/

theorem untouched_iff (hr : Segment base r) (hb : Segment base b) : Untouched r b ↔ Apart r b := by
  rw [apart_iff hr hb, Untouched, seqLt_iff hr.2.1 hb.1, seqGt_iff hr.1 hb.2.1]

theorem covers_iff (hr : Segment base r) (hb : Segment base b) :
    Covers b r ↔ lo base b ≤ lo base r ∧ hi base r ≤ hi base b := by
  rw [Covers, seqLeq_iff hb.1 hr.1, seqLeq_iff hr.2.1 hb.2.1]

/-- Only the last of the blocks may cover the range. -/
def CoveredOnlyByLast (r : SackBlk) : List SackBlk → Prop
  | [] => True
  | b :: rest => (Covers b r → rest = []) ∧ CoveredOnlyByLast r rest

/-- The smallest block over two blocks that touch. -/
def Joins (base : TcpSeq) (a b c : SackBlk) : Prop :=
  Segment base c ∧ lo base c = min (lo base a) (lo base b) ∧ hi base c = max (hi base a) (hi base b)

/-- What the loop leaves behind when it runs over `bs`: the range has absorbed the blocks it
touches, the others follow in `tmp` in their old order, and `newNum` counts them. -/
structure LoopResult (base : TcpSeq) (bs : List SackBlk) (s s' : InsertState) : Prop where
  segment : Segment base s'.range
  covers : Covers s'.range s.range
  seqs_subset : ∀ S : Set TcpSeq, s.range.seqs ⊆ S → (∀ b ∈ bs, b.seqs ⊆ S) → s'.range.seqs ⊆ S
  apart : ∀ c, Segment base c → Apart s.range c → (∀ b ∈ bs, Apart b c) → Apart s'.range c
  apart_kept : ∀ c ∈ bs.filter (Untouched s.range), Apart s'.range c
  newNum : s'.newNum + bs.length = s.newNum + (bs.filter (Untouched s.range)).length
  tmp : Written s.tmp s'.tmp s.j (bs.filter (Untouched s.range))

section

variable (hr : Segment base r) (hb : Segment base b) (hj : Joins base r b c) (hn : ¬ Apart r b)
include hr hb hj hn

theorem Joins.seqs_subset {S : Set TcpSeq} (hrS : r.seqs ⊆ S) (hbS : b.seqs ⊆ S) : c.seqs ⊆ S := by
  obtain ⟨hc, hl, hh⟩ := hj
  rw [apart_iff hr hb] at hn
  intro x hx
  rw [hc.mem_seqs] at hx
  by_cases hxr : x ∈ r.seqs
  · exact hrS hxr
  · refine hbS (hb.mem_seqs.mpr ?_)
    rw [hr.mem_seqs] at hxr
    omega

theorem Joins.apart_iff (ha : Segment base a) (hba : Apart b a) : Apart c a ↔ Apart r a := by
  obtain ⟨hc, hl, hh⟩ := hj
  have hla := ha.lo_lt_hi
  rw [TcpSack.apart_iff hr hb] at hn
  rw [TcpSack.apart_iff hb ha] at hba
  rw [TcpSack.apart_iff hc ha, TcpSack.apart_iff hr ha]
  omega

end

theorem Covers.trans (ha : Segment base a) (hb : Segment base b) (hc : Segment base c)
    (hab : Covers a b) (hbc : Covers b c) : Covers a c := by
  rw [covers_iff hb ha] at hab
  rw [covers_iff hc hb] at hbc
  rw [covers_iff hc ha]
  omega

theorem Joins.covers (hr : Segment base r) (hj : Joins base r b c) : Covers c r := by
  obtain ⟨hc, hl, hh⟩ := hj
  rw [covers_iff hr hc]
  omega

/-- Once the range has absorbed a block, no block apart from that one covers it. -/
theorem Joins.not_covers (hb : Segment base b) (hj : Joins base r b c) (ha : Segment base a)
    (hba : Apart b a) : ¬ Covers a c := by
  obtain ⟨hc, hl, hh⟩ := hj
  have hlb := hb.lo_lt_hi
  rw [TcpSack.apart_iff hb ha] at hba
  rw [covers_iff hc ha]
  omega

theorem coveredOnlyByLast_of_not_covers (h : ∀ b ∈ bs, ¬ Covers b r) : CoveredOnlyByLast r bs := by
  induction bs with
  | nil => trivial
  | cons b rest ih =>
    exact ⟨fun hc => absurd hc (h b (by simp)), ih fun b' hb' => h b' (by simp [hb'])⟩

theorem LoopResult.nil {s : InsertState} (hr : Segment base s.range) : LoopResult base [] s s where
  segment := hr
  covers := (covers_iff hr hr).mpr ⟨le_rfl, le_rfl⟩
  seqs_subset _ h _ := h
  apart _ _ h _ := h
  apart_kept _ h := by simp at h
  newNum := by simp
  tmp := Written.nil _ _

/-- Case 1: the block is copied to `tmp`. -/
theorem LoopResult.skip {s s' : InsertState} (hr : Segment base s.range)
    (hb : Segment base b) (hs : ∀ a ∈ bs, Apart b a) (hu : Untouched s.range b)
    (h : LoopResult base bs { s with tmp := update s.tmp s.j b, j := s.j + 1 } s') :
    LoopResult base (b :: bs) s s' where
  segment := h.segment
  covers := h.covers
  seqs_subset S hr hs := h.seqs_subset S hr fun b' hb' => hs b' (by simp [hb'])
  apart c hc hr hs := h.apart c hc hr fun b' hb' => hs b' (by simp [hb'])
  apart_kept c hc := by
    simp only [filter_cons, hu, decide_true, if_true, mem_cons] at hc
    obtain rfl | hc := hc
    · exact h.apart c hb ((untouched_iff hr hb).mp hu) fun a ha => (hs a ha).symm
    · exact h.apart_kept c hc
  newNum := by
    have := h.newNum
    simp only [length_cons, filter_cons, hu, decide_true, if_true] at this ⊢
    omega
  tmp := by
    simp only [filter_cons, hu, decide_true, if_true]
    exact h.tmp.cons

/-- Cases 3, 4 and 5: the range absorbs the block. -/
theorem LoopResult.join {s s1 s' : InsertState} (hr : Segment base s.range)
    (hb : Segment base b) (hbs : ∀ a ∈ bs, Segment base a ∧ Apart b a) (hu : ¬ Untouched s.range b)
    (hj : Joins base s.range b s1.range) (ht : s1.tmp = s.tmp) (hsj : s1.j = s.j)
    (hm : s1.newNum + 1 = s.newNum) (h : LoopResult base bs s1 s') : LoopResult base (b :: bs) s s' := by
  have hn : ¬ Apart s.range b := fun ha => hu ((untouched_iff hr hb).mpr ha)
  -- the blocks still to come touch the grown range only if they touched the old one
  have hf : bs.filter (Untouched s1.range) = bs.filter (Untouched s.range) := by
    refine filter_congr fun a ha => ?_
    obtain ⟨hs, hba⟩ := hbs a ha
    rw [decide_eq_decide, untouched_iff hj.1 hs, untouched_iff hr hs]
    exact hj.apart_iff hr hb hn hs hba
  have hcn : (b :: bs).filter (Untouched s.range) = bs.filter (Untouched s.range) := by
    simp [hu]
  refine ⟨h.segment, h.covers.trans h.segment hj.1 hr (hj.covers hr), ?_, ?_, ?_, ?_, ?_⟩
  · intro S hrS hbS
    refine h.seqs_subset S ?_ fun a ha => hbS a (by simp [ha])
    exact hj.seqs_subset hr hb hn hrS (hbS b (by simp))
  · intro c hc hrc hbc
    refine h.apart c hc ?_ fun a ha => hbc a (by simp [ha])
    exact (hj.apart_iff hr hb hn hc (hbc b (by simp))).mpr hrc
  · rw [hcn, ← hf]
    exact h.apart_kept
  · have := h.newNum
    rw [hf] at this
    rw [hcn, length_cons]
    omega
  · rw [hcn, ← hf, ← ht, ← hsj]
    exact h.tmp

theorem LoopResult.last {s : InsertState} (hb : Segment base b)
    (hu : ¬ Untouched s.range b) (hc : Covers b s.range) (hm : 0 < s.newNum) :
    LoopResult base [b] s { s with range := b, newNum := s.newNum - 1 } where
  segment := hb
  covers := hc
  seqs_subset _ _ h := h b (by simp)
  apart c _ _ h := h b (by simp)
  apart_kept c h := by simp [hu] at h
  newNum := by simp [hu]; omega
  tmp := by simpa [hu] using Written.nil _ _

/-- The loop on blocks apart from each other, of which only the last may cover the range. -/
theorem insertLoop_result {s : InsertState} (hr : Segment base s.range)
    (hs : ∀ b ∈ bs, Segment base b) (hp : bs.Pairwise Apart) (hc : CoveredOnlyByLast s.range bs)
    (hm : bs.length ≤ s.newNum) : LoopResult base bs s (insertLoop bs s) := by
  induction bs generalizing s with
  | nil => exact LoopResult.nil hr
  | cons b rest ih =>
    have hb : Segment base b := hs b (by simp)
    have hrs : ∀ a ∈ rest, Segment base a := fun a ha => hs a (by simp [ha])
    obtain ⟨hpb, hp⟩ := pairwise_cons.mp hp
    rw [length_cons] at hm
    have hl := hb.lo_lt_hi
    -- the three absorbing cases share their step; only the new range differs
    have hjn : ∀ s1 : InsertState, ¬ Untouched s.range b → Joins base s.range b s1.range →
        s1.tmp = s.tmp → s1.j = s.j → s1.newNum = s.newNum - 1 →
        LoopResult base (b :: rest) s (insertLoop rest s1) := by
      intro s1 hu hj ht hsj hn
      refine LoopResult.join hr hb (fun a ha => ⟨hrs a ha, hpb a ha⟩) hu hj ht hsj (by omega) ?_
      refine ih hj.1 hrs hp (coveredOnlyByLast_of_not_covers fun a ha => ?_) (by omega)
      exact hj.not_covers hb (hrs a ha) (hpb a ha)
    rw [insertLoop]
    split_ifs with h1 h2 h3 h4
    · exact LoopResult.skip hr hb hpb h1 (ih hr hrs hp hc.2 (Nat.le_of_succ_le hm))
    · have hv : Covers b s.range := by
        rw [covers_iff hr hb]
        rwa [seqGeq_iff hr.1 hb.1, seqLeq_iff hr.2.1 hb.2.1] at h2
      obtain rfl : rest = [] := hc.1 hv
      exact LoopResult.last hb h1 hv (by omega)
    all_goals
      have h1' := h1
      rw [seqLt_iff hr.2.1 hb.1, seqGt_iff hr.1 hb.2.1] at h1'
      rw [seqGeq_iff hr.1 hb.1, seqLeq_iff hr.2.1 hb.2.1] at h2
      rw [seqLeq_iff hr.2.1 hb.2.1, seqGeq_iff hr.2.1 hb.1] at h3
    · refine hjn _ h1 ⟨⟨hr.1, hb.2.1, (seqLt_iff hr.1 hb.2.1).mpr ?_⟩, ?_, ?_⟩ rfl rfl rfl
      all_goals simp only [lo, hi] at *; omega
    · rw [seqGeq_iff hr.1 hb.1] at h4
      refine hjn _ h1 ⟨⟨hb.1, hr.2.1, (seqLt_iff hb.1 hr.2.1).mpr ?_⟩, ?_, ?_⟩ rfl rfl rfl
      all_goals simp only [lo, hi] at *; omega
    · rw [seqGeq_iff hr.1 hb.1, seqLeq_iff hr.1 hb.2.1] at h4
      refine hjn _ h1 ⟨hr, ?_, ?_⟩ rfl rfl rfl
      all_goals simp only [lo, hi] at *; omega

theorem coveredOnlyByLast_of_forall
    (h : ∀ i, (hi : i + 1 < bs.length) → ¬ Covers bs[i] r) : CoveredOnlyByLast r bs := by
  induction bs with
  | nil => trivial
  | cons b rest ih =>
    refine ⟨fun hc => ?_, ih fun i hi => ?_⟩
    · by_contra hne
      exact h 0 (by simpa using length_pos_of_ne_nil hne) hc
    · exact h (i + 1) (by simpa using hi)

structure Inv (base : TcpSeq) (s : Receiver) : Prop where
  num_le : s.list.num ≤ maxSackBlk
  segment : ∀ b ∈ s.list.blocks, Segment base b
  received : ∀ b ∈ s.list.blocks, b.seqs ⊆ s.received
  apart : s.list.blocks.Pairwise Apart

theorem Inv.sackOk (h : Inv base s) : SackOk s :=
  ⟨h.num_le, fun b hb => ⟨_, (h.segment b hb).begin_mem⟩, h.received, h.apart⟩

theorem take_blocks (l : SackList) (n : ℕ) : l.blocks.take n = (List.range (min n l.num)).map l.head := by
  rw [SackList.blocks, ← map_take, take_range]

theorem blocks_copyBack (l : SackList) (s : InsertState) : SackList.blocks ⟨fun k => if k = 0 then s.range else
      if k ≤ s.newNum then s.tmp (k - 1) else l.head k, s.newNum + 1⟩ =
    s.range :: (List.range s.newNum).map s.tmp := by
  rw [SackList.blocks, range_succ_eq_map, map_cons, map_map]
  refine congrArg₂ _ (by simp) (map_congr_left fun k hk => ?_)
  have : k + 1 ≤ s.newNum := mem_range.mp hk
  simp [this]

theorem LoopResult.tmp_eq {s s' : InsertState} (h : LoopResult base bs s s')
    (hj : s.j = 0) (hm : s.newNum = bs.length) :
    (List.range s'.newNum).map s'.tmp = bs.filter (Untouched s.range) := by
  have hlen : s'.newNum = (bs.filter (Untouched s.range)).length := by
    have := h.newNum
    omega
  have ht := h.tmp
  rw [hj] at ht
  rw [hlen, ht.map_range]

/-- The list after an insertion: the grown range, then the old blocks it leaves alone. -/
theorem tcpSackInsert_blocks (tmp : ℕ → SackBlk) (hr : Segment base r)
    (hs : ∀ b ∈ l.blocks, Segment base b) (hp : l.blocks.Pairwise Apart) (hc : ¬ CoveredEarly l r) :
    ∃ s' : InsertState, (tcpSackInsert tmp l r.begin_ r.end_).blocks =
        s'.range :: (l.blocks.take (maxSackBlk - 1)).filter (Untouched r) ∧
      LoopResult base (l.blocks.take (maxSackBlk - 1)) ⟨r, tmp, 0, min (maxSackBlk - 1) l.num⟩ s' := by
  by_cases hm : l.num = 0
  · refine ⟨⟨r, tmp, 0, min (maxSackBlk - 1) l.num⟩, ?_, ?_⟩
    · simp [tcpSackInsert, SackList.blocks, hm]
    · simpa [SackList.blocks, hm] using LoopResult.nil hr
  · have ho : (if l.num > maxSackBlk - 1 then maxSackBlk - 1 else l.num) = min (maxSackBlk - 1) l.num := by
      split_ifs <;> omega
    have hl : CoveredOnlyByLast r (l.blocks.take (maxSackBlk - 1)) := by
      refine coveredOnlyByLast_of_forall fun i hi hv => hc ⟨i, ?_, ?_⟩
      · simp only [take_blocks, length_map, length_range] at hi
        omega
      · simpa [take_blocks] using hv
    have hrs := @insertLoop_result base _ ⟨r, tmp, 0, min (maxSackBlk - 1) l.num⟩ hr
      (fun b hb => hs b (mem_of_mem_take hb)) (hp.sublist (take_sublist _ _)) hl
      (by simp [take_blocks])
    refine ⟨_, ?_, hrs⟩
    simp only [tcpSackInsert, if_neg hm, ho, ← take_blocks]
    exact (blocks_copyBack _ _).trans (congrArg _ (hrs.tmp_eq rfl (by simp [take_blocks])))

theorem length_blocks (l : SackList) : l.blocks.length = l.num := by
  simp [SackList.blocks]

theorem Inv.insert (h : Inv base s) (tmp : ℕ → SackBlk) (hr : Segment base r)
    (hc : ¬ CoveredEarly s.list r) : Inv base (s.call (.insert tmp r)) := by
  obtain ⟨s', hl, hrs⟩ := tcpSackInsert_blocks tmp hr h.segment h.apart hc
  have hmem : ∀ b ∈ (s.list.blocks.take (maxSackBlk - 1)).filter (Untouched r), b ∈ s.list.blocks :=
    fun b hb => mem_of_mem_take (mem_of_mem_filter hb)
  have hlen : (tcpSackInsert tmp s.list r.begin_ r.end_).num ≤ maxSackBlk := by
    rw [← length_blocks, hl, length_cons]
    have := (length_filter_le (Untouched r ·) (s.list.blocks.take (maxSackBlk - 1))).trans (length_take_le _ _)
    simp only [maxSackBlk] at *
    omega
  constructor <;> simp only [Receiver.call, hl, forall_mem_cons, pairwise_cons]
  · exact hlen
  · exact ⟨hrs.segment, fun b hb => h.segment b (hmem b hb)⟩
  · refine ⟨hrs.seqs_subset _ Set.subset_union_right fun b hb => ?_, fun b hb => ?_⟩
    · exact (h.received b (mem_of_mem_take hb)).trans Set.subset_union_left
    · exact (h.received b (hmem b hb)).trans Set.subset_union_left
  · exact ⟨hrs.apart_kept, h.apart.sublist (filter_sublist.trans (take_sublist _ _))⟩

theorem Covers.seqs_subset (hb : Segment base b) (hr : Segment base r) (h : Covers b r) : r.seqs ⊆ b.seqs := by
  intro x hx
  rw [covers_iff hr hb] at h
  rw [hr.mem_seqs] at hx
  rw [hb.mem_seqs]
  omega

theorem head_zero_of_blocks (h : l.blocks = b :: bs) : l.head 0 = b := by
  have h0 : l.blocks[0]? = some b := by simp [h]
  have hpos : 0 < l.num := by simp [← length_blocks, h]
  simpa [SackList.blocks, hpos] using h0

theorem Inv.insertOk (h : Inv base s) (tmp : ℕ → SackBlk) (hr : Segment base r) (hc : ¬ CoveredEarly s.list r) :
    InsertOk s.list r (tcpSackInsert tmp s.list r.begin_ r.end_) := by
  obtain ⟨s', hl, hrs⟩ := tcpSackInsert_blocks tmp hr h.segment h.apart hc
  constructor
  · rw [head_zero_of_blocks hl, hl]
    exact mem_cons_self
  · rw [head_zero_of_blocks hl]
    exact hrs.covers.seqs_subset hrs.segment hr
  · rw [hl, tail_cons]

/-! ### Removal -/

/-- What `tcp_sack_remove` leaves of one block. -/
def trim (end_ : TcpSeq) (b : SackBlk) : Option SackBlk :=
  if SeqGt end_ b.begin_ then
    if SeqGeq end_ b.end_ then none else some ⟨end_, b.end_⟩
  else some b

/-- What remains of a block of the window is in the window, wherever `end_` lies. -/
theorem trim_segment {end_ : TcpSeq} (hb : Segment base b) (h : trim end_ b = some c) :
    Segment base c ∧ Covers b c := by
  unfold trim at h
  split_ifs at h with h1 h2
  · cases h
    have ht := offset_between hb.lo_lt_hi.le h1 (not_le.mp h2)
    have hw : InWindow base end_ := by
      have := hb.2.1
      unfold InWindow at *
      omega
    have hc : Segment base ⟨end_, b.end_⟩ := ⟨hw, hb.2.1, (seqLt_iff hw hb.2.1).mpr ht.2⟩
    exact ⟨hc, (covers_iff hc hb).mpr ⟨ht.1.le, le_rfl⟩⟩
  · cases h
    exact ⟨hb, (covers_iff hb hb).mpr ⟨le_rfl, le_rfl⟩⟩

theorem Apart.of_covers (ha : Segment base a) (hb : Segment base b) {a' b' : SackBlk}
    (ha' : Segment base a') (hb' : Segment base b') (hc : Covers a a') (hcb : Covers b b')
    (h : Apart a b) : Apart a' b' := by
  rw [covers_iff ha' ha] at hc
  rw [covers_iff hb' hb] at hcb
  rw [apart_iff ha hb] at h
  rw [apart_iff ha' hb']
  omega

theorem removeLoop_cons (end_ : TcpSeq) (b : SackBlk) (rest : List SackBlk) (s : RemoveState) :
    removeLoop end_ (b :: rest) s = match trim end_ b with
      | none => removeLoop end_ rest { s with newNum := s.newNum - 1 }
      | some c =>
        removeLoop end_ rest { s with tmp := update s.tmp s.j c, j := s.j + 1 } := by
  rw [removeLoop, trim]
  split_ifs <;> rfl

/-- The removal loop writes what is left of the blocks to `tmp`, in order. -/
theorem removeLoop_result (end_ : TcpSeq) (bs : List SackBlk) (s : RemoveState) (hm : bs.length ≤ s.newNum) :
    (removeLoop end_ bs s).newNum + bs.length = s.newNum + (bs.filterMap (trim end_)).length ∧
    Written s.tmp (removeLoop end_ bs s).tmp s.j (bs.filterMap (trim end_)) := by
  induction bs generalizing s with
  | nil => exact ⟨rfl, Written.nil _ _⟩
  | cons b rest ih =>
    rw [length_cons] at hm ⊢
    rw [removeLoop_cons]
    cases ht : trim end_ b with
    | none =>
      obtain ⟨h1, h2⟩ := ih { s with newNum := s.newNum - 1 } (Nat.le_sub_one_of_lt hm)
      rw [filterMap_cons_none ht]
      exact ⟨by simp only at h1 ⊢; omega, h2⟩
    | some c =>
      obtain ⟨h1, h2⟩ := ih { s with tmp := update s.tmp s.j c, j := s.j + 1 } (Nat.le_of_succ_le hm)
      rw [filterMap_cons_some ht]
      exact ⟨by simp only [length_cons] at h1 ⊢; omega, h2.cons⟩

theorem tcpSackRemove_blocks (tmp : ℕ → SackBlk) (l : SackList) (end_ : TcpSeq) :
    (tcpSackRemove tmp l end_).blocks = l.blocks.filterMap (trim end_) := by
  by_cases hm : l.num = 0
  · simp [tcpSackRemove, SackList.blocks, hm]
  · obtain ⟨h1, h2⟩ := removeLoop_result end_ l.blocks ⟨tmp, 0, l.num⟩ (length_blocks l).le
    rw [← h2.map_range, tcpSackRemove, if_neg hm, SackList.blocks]
    rw [length_blocks] at h1
    simp only at h1 ⊢
    rw [show (removeLoop end_ l.blocks ⟨tmp, 0, l.num⟩).newNum = (l.blocks.filterMap (trim end_)).length by omega]
    refine map_congr_left fun k hk => ?_
    rw [if_pos (mem_range.mp hk)]

theorem Inv.remove (h : Inv base s) (tmp : ℕ → SackBlk) (end_ : TcpSeq) : Inv base (s.call (.remove tmp end_)) := by
  have hl := tcpSackRemove_blocks tmp s.list end_
  have hp : ∀ c ∈ s.list.blocks.filterMap (trim end_),
      ∃ b ∈ s.list.blocks, Segment base c ∧ Covers b c := fun c hc => by
    obtain ⟨b, hb, ht⟩ := mem_filterMap.mp hc
    exact ⟨b, hb, trim_segment (h.segment b hb) ht⟩
  have hlen : (tcpSackRemove tmp s.list end_).num ≤ maxSackBlk := by
    rw [← length_blocks, hl]
    exact (length_filterMap_le _ _).trans ((length_blocks _).le.trans h.num_le)
  constructor <;> simp only [Receiver.call, hl]
  · exact hlen
  · exact fun c hc => let ⟨_, _, hs, _⟩ := hp c hc; hs
  · intro c hc
    obtain ⟨b, hb, hs, hv⟩ := hp c hc
    exact (hv.seqs_subset (h.segment b hb) hs).trans (h.received b hb)
  · have hpr : s.list.blocks.Pairwise fun a b => Segment base a ∧ Segment base b ∧ Apart a b :=
      h.apart.imp_of_mem fun ha hb hab => ⟨h.segment _ ha, h.segment _ hb, hab⟩
    refine hpr.filterMap _ fun a b ⟨ha, hb, hab⟩ a' ha' b' hb' => ?_
    obtain ⟨hsa, hca⟩ := trim_segment ha ha'
    obtain ⟨hsb, hcb⟩ := trim_segment hb hb'
    exact hab.of_covers ha hb hsa hsb hca hcb

theorem Inv.of_start (h : Start s) : Inv base s := by
  obtain ⟨hm, -⟩ := h
  constructor <;> simp [SackList.blocks, hm]

theorem Inv.step {s' : Receiver} (h : Inv base s) (hs : UncoveredStep base s s') : Inv base s' := by
  obtain ⟨c, ha, hu, rfl⟩ := hs
  cases c with
  | insert tmp r => exact h.insert tmp ha hu
  | remove tmp rcvNxt => exact h.remove tmp rcvNxt

end Window

/-- In every run whose insertions are not of ranges that an early block covers, the list
acknowledges received data only, and every such insertion does what it owes. -/
theorem sackOk_of_uncovered (base : TcpSeq) (s : Receiver) (h : Reachable Start (UncoveredStep base) s) :
    SackOk s ∧ ∀ tmp r, Segment base r → ¬ CoveredEarly s.list r →
      InsertOk s.list r (tcpSackInsert tmp s.list r.begin_ r.end_) := by
  have hin : Inv base s := h.invariant (fun _ hs => Inv.of_start hs) fun _ _ hi hs => hi.step hs
  exact ⟨hin.sackOk, fun tmp r hr hc => hin.insertOk tmp hr hc⟩

def staleTmp : ℕ → SackBlk := fun _ => ⟨100, 200⟩

def emptyReceiver : Receiver := ⟨⟨fun _ => ⟨0, 0⟩, 0⟩, ∅⟩

/-- Two segments out of order, then the second once more. -/
def twoSegments : Receiver :=
  (emptyReceiver.call (.insert staleTmp ⟨10, 20⟩)).call (.insert staleTmp ⟨30, 40⟩)

theorem sackOk_of_uncovered_twoSegments : SackOk twoSegments ∧ twoSegments.list.num = 2 := by
  refine ⟨(sackOk_of_uncovered 0 _ ?_).1, by decide⟩
  have hs : Reachable Start (UncoveredStep 0) emptyReceiver := .start ⟨rfl, rfl⟩
  refine (hs.next ⟨_, ?_, ?_, rfl⟩).next ⟨_, ?_, ?_, rfl⟩
  · exact ⟨by decide, by decide, by decide⟩
  · rintro ⟨i, hi, -⟩
    simp [emptyReceiver] at hi
  · exact ⟨by decide, by decide, by decide⟩
  · rintro ⟨i, hi, -⟩
    simp [emptyReceiver, Receiver.call, tcpSackInsert] at hi

/-- Inserting part of the newest block again drops the other block and acknowledges what the
scratch array held. -/
theorem sackOk_fails_duplicate : ∃ s s' : Receiver, Reachable Start (Step 0) s ∧ Step 0 s s' ∧
      s' = s.call (.insert staleTmp ⟨32, 35⟩) ∧
      s'.list.blocks = [⟨30, 40⟩, ⟨100, 200⟩] ∧ ¬ SackOk s' := by
  have hs : Reachable Start (Step 0) emptyReceiver := .start ⟨rfl, rfl⟩
  have hl : (twoSegments.call (.insert staleTmp ⟨32, 35⟩)).list.blocks = [⟨30, 40⟩, ⟨100, 200⟩] := by decide
  refine ⟨twoSegments, _, (hs.next ⟨_, ?_, rfl⟩).next ⟨_, ?_, rfl⟩,
    ⟨.insert staleTmp ⟨32, 35⟩, ?_, rfl⟩, rfl, hl, fun hok => ?_⟩
  · exact ⟨by decide, by decide, by decide⟩
  · exact ⟨by decide, by decide, by decide⟩
  · exact ⟨by decide, by decide, by decide⟩
  · have hmem : (150 : TcpSeq) ∈ SackBlk.seqs ⟨100, 200⟩ := by
      change (150 : TcpSeq) - 100 < 200 - 100
      decide
    have := hok.received ⟨100, 200⟩ (by rw [hl]; simp) hmem
    simp [twoSegments, emptyReceiver, Receiver.call, SackBlk.seqs] at this

end Sol8.Inet.TcpSack
