import Sol8.Lib.HashChain
import Sol8.Os.Callout

/-! Callouts run once and on time (`os/callout.c`).

The links of the table are one invariant, the threads and the history another. A thread that runs a
handler stands on a chain; everything before it that is due on its tick is being executed, since
what is pushed on the chain meanwhile is due later. -/

namespace Sol8.Os.Callout

open Sol8.Lib Function List Slot Cursor State
open BitVec (ofNat)

variable {w : ℕ} {T : Type} {e : Event w T}

/-! ### Links -/

/-- `held` says which id a structure is on the hash chains with, `due` on which tick an id is due. -/
structure Linked (ct : CalloutTable w T) (held : ℕ → Option (BitVec w)) (due : BitVec w → ℕ) :
    Prop where
  lbhash : Chained ct.lbhash held fun id => calloutLbhash (ofNat w (due id))
  idhash : Chained ct.idhash held calloutIdhash
  freelist : ∀ cp ∈ ct.freelist, held cp = none
  nodup_freelist : ct.freelist.Nodup
  held_inj : ∀ id cp cp', held cp = some id → held cp' = some id → cp = cp'

section Links

variable {ct : CalloutTable w T} {held : ℕ → Option (BitVec w)} {due : BitVec w → ℕ} {cp d : ℕ} {id xid : BitVec w}

theorem Linked.insert (h : Linked ct held due) (hc : held cp = none) (hf : cp ∉ ct.freelist)
    (hid : ∀ q, held q ≠ some id) (c : CalloutT w T) :
    Linked ((ct.set cp c).hashInsert cp id (ofNat w d)) (update held cp (some id)) (update due id d) := by
  have hk : ∀ q y, held q = some y → update due id d y = due y := by
    intro q y hy
    apply update_of_ne
    rintro rfl
    exact hid q hy
  have hd : ofNat w d = ofNat w (update due id d id) := by rw [update_self]
  constructor
  · rw [hd]
    have hh : Chained ct.lbhash held fun y => calloutLbhash (ofNat w (update due id d y)) :=
      h.lbhash.congr fun q y hy => by rw [hk q y hy]
    exact hh.push hc id
  · exact h.idhash.push hc id
  · intro q hq
    have hne : q ≠ cp := by
      rintro rfl
      exact hf hq
    rw [update_of_ne hne]
    exact h.freelist q hq
  · exact h.nodup_freelist
  · intro y q q' hq hq'
    rw [update_apply] at hq hq'
    split_ifs at hq hq' with h1 h2 h2
    · rw [h1, h2]
    · exact absurd (hq.symm ▸ hq') (hid q')
    · exact absurd (hq'.symm ▸ hq) (hid q)
    · exact h.held_inj y q q' hq hq'

theorem Linked.release (h : Linked ct held due) (hc : held cp = some id) (hx : calloutIdhash xid = calloutIdhash id) :
    Linked { ct.hashDelete cp xid (ofNat w (due id)) with freelist := cp :: ct.freelist }
      (update held cp none) due := by
  constructor
  · exact h.lbhash.remove hc
  · simp only [CalloutTable.hashDelete, hx]
    exact h.idhash.remove hc
  · intro q hq
    rw [update_apply]
    split_ifs with e
    · rfl
    · exact h.freelist q ((mem_cons.mp hq).resolve_left e)
  · refine nodup_cons.mpr ⟨fun hmem => ?_, h.nodup_freelist⟩
    rw [h.freelist cp hmem] at hc
    cases hc
  · intro y q q' hq hq'
    rw [update_apply] at hq hq'
    split_ifs at hq hq'
    exact h.held_inj y q q' hq hq'

end Links

/-! ### What a state keeps -/

def Slot.held : Slot w T → Option (BitVec w)
  | .free => none
  | .pending id => some id
  | .executing id _ => some id

def State.startedIds (s : State w T) : List (BitVec w) := s.started.map Prod.fst

def State.chain (s : State w T) (d : ℕ) : List ℕ := s.ct.lbhash (calloutLbhash (ofNat w d))

/-- The structure is not a callout that waits for tick `d`. -/
def State.Passed (s : State w T) (d cp : ℕ) : Prop :=
  (s.ct.callout cp).runtime = ofNat w d → IsExecuting (s.ct.callout cp).xid

structure State.Pending (s : State w T) (cp : ℕ) (id : BitVec w) : Prop where
  xid : (s.ct.callout cp).xid = id
  runtime : (s.ct.callout cp).runtime = ofNat w (s.due id)
  rt_le : s.rt ≤ s.due id
  due_lt : s.due id < s.now + 2 ^ 31
  issued : id ∈ s.issued
  notStarted : id ∉ s.startedIds
  notCancelled : id ∉ s.cancelled

/-- A tick that a thread in `callout_execute` works on. -/
def State.Reached (s : State w T) (d : ℕ) : Prop :=
  d ≤ s.rt ∧ d ≤ s.cur ∧ s.now < d + 2 ^ 31

structure State.Executing (s : State w T) (cp : ℕ) (id : BitVec w) (t : T) : Prop where
  xid : (s.ct.callout cp).xid = id ||| calloutExecuting w
  executor : (s.ct.callout cp).executor = some t
  runtime : (s.ct.callout cp).runtime = ofNat w (s.due id)
  pc : s.pc t = .running cp (ofNat w (s.due id))
  reached : s.Reached (s.due id)
  issued : id ∈ s.issued
  started : id ∈ s.startedIds
  passed : ∀ q ∈ before cp (s.chain (s.due id)), s.Passed (s.due id) q

/-- An id that `timeout_common` returns. -/
structure IsId (id : BitVec w) : Prop where
  notExecuting : ¬ IsExecuting id
  high : id.getLsbD (w - 3) = true

structure Inv (s : State w T) : Prop where
  runtime : s.ct.runtime = ofNat w s.rt
  curtime : s.ct.curtime = ofNat w s.cur
  cur_le : s.cur ≤ s.now
  rt_le : s.rt ≤ s.cur + 1
  now_lt : s.now < s.rt + 2 ^ 31
  shortId : IsId s.ct.shortId
  longId : IsId s.ct.longId
  linked : Linked s.ct (held ∘ s.slot) s.due
  isId : ∀ id ∈ s.issued, IsId id
  pending : ∀ cp id, s.slot cp = .pending id → s.Pending cp id
  executing : ∀ cp id t, s.slot cp = .executing id t → s.Executing cp id t
  running : ∀ t cp runtime, s.pc t = .running cp runtime → ∃ id, s.slot cp = .executing id t
  accounted : ∀ id ∈ s.issued, id ∈ s.startedIds ∨ id ∈ s.cancelled ∨ ∃ cp, s.slot cp = .pending id
  started_nodup : s.startedIds.Nodup
  started_due : ∀ p ∈ s.started, p.1 ∈ s.issued ∧ s.due p.1 ≤ p.2
  settled : ∀ id ∈ s.startedIds, id ∈ s.finished ∨ ∃ cp t, s.slot cp = .executing id t
  cancelled : ∀ id ∈ s.cancelled, id ∈ s.issued ∧ id ∉ s.startedIds
  waiter : ∀ u ∈ s.waiters, u.xid = u.id ||| calloutExecuting w ∧
    (u.id ∈ s.finished ∨ ∃ t ≠ u.thread, s.slot u.cp = .executing u.id t)

variable {s : State w T} {t : T} {cp d : ℕ} {id : BitVec w}

section Steps

variable {ct : CalloutTable w T} {freelist : List ℕ} {runtime : BitVec w} {q : ℕ}

attribute [local simp] CalloutTable.hashInsert CalloutTable.set

theorem Slot.held_update (slot : ℕ → Slot w T) (cp : ℕ) (x : Slot w T) :
    held ∘ update slot cp x = update (held ∘ slot) cp x.held :=
  comp_update _ _ _ _

section Update

variable {slot : ℕ → Slot w T} {q : ℕ} {x y : Slot w T}

theorem Slot.keep (hq : slot q = y) (hc : slot cp ≠ y) : update slot cp x q = y := by
  rw [update_of_ne _, hq]
  rintro rfl
  exact hc hq

theorem Slot.of_update (hq : update slot cp x q = y) (hxy : x ≠ y) : q ≠ cp ∧ slot q = y := by
  have hne : q ≠ cp := by
    rintro rfl
    exact hxy ((update_self q x slot).symm.trans hq)
  exact ⟨hne, (update_of_ne hne x slot).symm.trans hq⟩

end Update

theorem tick_eq (hw : 32 ≤ w) {a b : ℕ} (hab : a ≤ b) (hlt : b < a + 2 ^ 32)
    (h : ofNat w a = ofNat w b) : a = b := by
  have : 2 ^ 32 ≤ 2 ^ w := Nat.pow_le_pow_right (by omega) hw
  exact ofNat_inj_of_lt hab (by omega) h

theorem State.passed_iff : s.Passed d q ↔ ¬ s.ct.Due (ofNat w d) q := not_and_not_right.symm

theorem Inv.tick (h : Inv s) {n : ℕ} (hr : s.now + n < s.rt + 2 ^ 31)
    (hex : ∀ cp id t, s.slot cp = .executing id t → s.now + n < s.due id + 2 ^ 31) : Inv { s with now := s.now + n } :=
  { h with
    cur_le := Nat.le_add_right_of_le h.cur_le
    now_lt := hr
    pending := fun cp id hs =>
      { h.pending cp id hs with due_lt := by have := (h.pending cp id hs).due_lt; dsimp only; omega }
    executing := fun cp id t hs =>
      { h.executing cp id t hs with
        reached := ⟨(h.executing cp id t hs).reached.1, (h.executing cp id t hs).reached.2.1, hex cp id t hs⟩ } }

theorem Inv.advance (h : Inv s) (hle : s.rt ≤ s.cur) (hn : ∀ q ∈ s.chain s.rt, s.Passed s.rt q) :
    Inv { s with ct := { s.ct with runtime := s.ct.runtime + 1 }, rt := s.rt + 1 } :=
  { h with
    runtime := by
      rw [h.runtime, BitVec.ofNat_add]
      rfl
    rt_le := Nat.succ_le_succ hle
    now_lt := by have := h.now_lt; dsimp only; omega
    linked := { h.linked with }
    pending := by
      intro cp id hs
      have hp := h.pending cp id hs
      have hne : s.due id ≠ s.rt := by
        intro he
        have hmem : cp ∈ s.chain s.rt := by
          rw [← he]
          exact h.linked.lbhash.mem (congrArg held hs)
        have := hn cp hmem (he ▸ hp.runtime)
        rw [hp.xid] at this
        exact (h.isId id hp.issued).notExecuting this
      have := hp.rt_le
      exact { hp with rt_le := by dsimp only; omega }
    executing := by
      intro cp id t hs
      have he := h.executing cp id t hs
      exact { he with reached := ⟨Nat.le_succ_of_le he.reached.1, he.reached.2⟩ } }

theorem Inv.held_issued (h : Inv s) (hh : (s.slot cp).held = some id) : id ∈ s.issued := by
  cases hs : s.slot cp with rw [hs] at hh
  | free =>
    cases hh
  | pending id' =>
    cases hh
    exact (h.pending cp id hs).issued
  | executing id' t =>
    cases hh
    exact (h.executing cp id t hs).issued

theorem Inv.pending_of_held (hw : 32 ≤ w) (h : Inv s) (hh : (s.slot cp).held = some id)
    (hx : ¬ IsExecuting (s.ct.callout cp).xid) : s.slot cp = .pending id := by
  cases hs : s.slot cp with
  | free =>
    rw [hs] at hh
    cases hh
  | pending id' =>
    rw [hs] at hh
    cases hh
    rfl
  | executing id' t =>
    rw [(h.executing cp id' t hs).xid] at hx
    exact absurd (isExecuting_or hw id') hx

theorem Inv.notPast (hw : 32 ≤ w) (h : Inv s) {b : ℕ} (hmem : cp ∈ s.ct.lbhash b)
    (hx : ¬ IsExecuting (s.ct.callout cp).xid) :
    (s.ct.callout cp).runtime = ofNat w (s.due (s.ct.callout cp).xid) ∧ s.rt ≤ s.due (s.ct.callout cp).xid := by
  obtain ⟨id, hh, -⟩ := (h.linked.lbhash.mem_iff _ _).mp hmem
  have hp := h.pending cp id (h.pending_of_held hw hh hx)
  rw [hp.xid]
  exact ⟨hp.runtime, hp.rt_le⟩

theorem mem_before_hashDelete {p b : ℕ} (xid runtime : BitVec w)
    (hne : cp ≠ p) (hq : q ∈ before p ((ct.hashDelete cp xid runtime).lbhash b)) : q ∈ before p (ct.lbhash b) := by
  simp only [CalloutTable.hashDelete, update_apply] at hq
  split_ifs at hq with hb
  · rw [hb]
    exact mem_before_of_erase hne hq
  · exact hq

theorem mem_before_hashInsert {p b : ℕ} (hne : cp ≠ p) (hq : q ∈ before p ((ct.hashInsert cp id runtime).lbhash b)) :
    q = cp ∨ q ∈ before p (ct.lbhash b) := by
  simp only [CalloutTable.hashInsert, update_apply] at hq
  split_ifs at hq with hb
  · rw [before_cons_of_ne hne, mem_cons] at hq
    rwa [hb]
  · exact .inr hq

theorem callout_complete_of_ne (h : q ≠ cp) : (Callout.complete ct cp runtime).callout q = ct.callout q :=
  update_of_ne h _ _

theorem State.take_spec (h : Inv s) {alloc : Option ℕ} (ht : s.take alloc = some (cp, freelist)) :
    s.slot cp = .free ∧ cp ∉ freelist ∧ freelist.Sublist s.ct.freelist := by
  cases alloc with simp only [take] at ht
  | none =>
    split at ht
    · cases ht
    · rename_i cp' rest hf
      cases ht
      have hnd := h.linked.nodup_freelist
      rw [hf] at hnd ⊢
      refine ⟨?_, (nodup_cons.mp hnd).1, sublist_cons_self _ _⟩
      have := h.linked.freelist cp (by rw [hf]; exact mem_cons_self)
      cases hs : s.slot cp with
      | free => rfl
      | pending id => simp [hs, held] at this
      | executing id t => simp [hs, held] at this
  | some cp' =>
    split at ht
    · split_ifs at ht with hm
      cases ht
      exact ⟨‹_›, hm, List.Sublist.refl _⟩
    · cases ht

theorem toInt_one_word (hw : 32 ≤ w) : (1 : BitVec w).toInt = 1 := BitVec.toInt_one (by omega)

theorem lbolt_add (hw : 32 ≤ w) (delta : BitVec w) (n : ℕ) : 0 < (atLeastOne delta).toInt ∧
    ofNat w n + atLeastOne delta = ofNat w (n + (atLeastOne delta).toInt.toNat) := by
  have hpos : 0 < (atLeastOne delta).toInt := by
    unfold atLeastOne
    split_ifs with h
    · rw [toInt_one_word hw]
      exact Int.one_pos
    · exact not_le.mp h
  refine ⟨hpos, ?_⟩
  rw [BitVec.toInt_eq_toNat_of_lt (BitVec.toInt_pos_iff.mp hpos.le), Int.toNat_natCast,
    BitVec.ofNat_add, BitVec.ofNat_toNat, BitVec.setWidth_eq]

theorem Inv.cancel (h : Inv s) (hs : s.slot cp = .pending id) : Inv { s with
      ct := { s.ct.hashDelete cp id (s.ct.callout cp).runtime with freelist := cp :: s.ct.freelist }
      slot := update s.slot cp .free
      cancelled := id :: s.cancelled } := by
  have hp := h.pending cp id hs
  have hh : (held ∘ s.slot) cp = some id := congrArg held hs
  have hl := h.linked.release hh rfl
  rw [show (none : Option (BitVec w)) = (free : Slot w T).held from rfl, ← held_update, ← hp.runtime] at hl
  have hk {q : ℕ} {id' : BitVec w} {t : T} (hq : s.slot q = .executing id' t) :
      update s.slot cp .free q = .executing id' t := keep hq (by simp [hs])
  exact { h with
    linked := hl
    accounted := by
      intro id' hm
      rcases h.accounted id' hm with ht | hc | ⟨q, hq⟩
      · exact .inl ht
      · exact .inr (.inl (mem_cons_of_mem _ hc))
      · by_cases hne : q = cp
        · subst hne
          rw [hs] at hq
          cases hq
          exact .inr (.inl mem_cons_self)
        · exact .inr (.inr ⟨q, (update_of_ne hne _ _).trans hq⟩)
    pending := by
      intro q id' hq
      obtain ⟨hne, ho⟩ := of_update hq (by simp)
      have hp' := h.pending q id' ho
      have hd : id' ≠ id := by
        rintro rfl
        exact hne (h.linked.held_inj id' q cp (congrArg held ho) hh)
      exact { hp' with
        notCancelled := not_mem_cons_of_ne_of_not_mem hd hp'.notCancelled }
    executing := by
      intro q id' t hq
      obtain ⟨hne, hq⟩ := of_update hq (by simp)
      have he := h.executing q id' t hq
      exact { he with
        passed := fun p hm => he.passed p (mem_before_hashDelete id _ hne.symm hm) }
    running := fun t' q r hr => (h.running t' q r hr).imp fun _ => hk
    settled := fun id' hm => (h.settled id' hm).imp_right fun ⟨q, t', hs⟩ => ⟨q, t', hk hs⟩
    cancelled := forall_mem_cons.mpr ⟨⟨hp.issued, hp.notStarted⟩, h.cancelled⟩
    waiter := fun u hu => (h.waiter u hu).imp_right fun hs => hs.imp_right fun ⟨t', hne, hs⟩ =>
      ⟨t', hne, hk hs⟩ }

/-- A new callout, due later than any tick that a thread works on. -/
theorem Inv.issue (hw : 32 ≤ w) (h : Inv s) (shortId longId : BitVec w)
    (executor : Option T) (hcp : s.slot cp = .free) (hf : cp ∉ freelist)
    (hsub : freelist.Sublist s.ct.freelist) (hsh : IsId shortId) (hln : IsId longId)
    (hid : IsId id) (hn : id ∉ s.issued) (hd : s.now < d) (hd' : d < s.now + 2 ^ 31) : Inv { s with
      ct := (({ s.ct with freelist := freelist, shortId := shortId, longId := longId } :
        CalloutTable w T).set cp ⟨id, ofNat w d, executor⟩).hashInsert cp id (ofNat w d)
      slot := update s.slot cp (.pending id)
      issued := id :: s.issued
      due := update s.due id d } := by
  have hdu : ∀ id' ∈ s.issued, update s.due id d id' = s.due id' := by
    intro id' hi'
    apply update_of_ne
    rintro rfl
    exact hn hi'
  have hh : (held ∘ s.slot) cp = none := congrArg held hcp
  have hk {q : ℕ} {x : Slot w T} (hx : s.slot q = x) (hne : x ≠ .free) : update s.slot cp (.pending id) q = x :=
    keep hx (hcp ▸ hne.symm)
  exact { h with
    linked := by
      rw [held_update]
      have hl : Linked ({ s.ct with freelist := freelist, shortId := shortId, longId := longId } :
          CalloutTable w T) (held ∘ s.slot) s.due :=
        { h.linked with
          freelist := fun q hq => h.linked.freelist q (hsub.subset hq)
          nodup_freelist := h.linked.nodup_freelist.sublist hsub }
      exact hl.insert hh hf (fun q hq => hn (h.held_issued hq)) _
    shortId := hsh
    longId := hln
    isId := forall_mem_cons.mpr ⟨hid, h.isId⟩
    accounted := forall_mem_cons.mpr ⟨.inr (.inr ⟨cp, update_self _ _ _⟩), fun id' hm =>
      (h.accounted id' hm).imp_right fun hp => hp.imp_right fun ⟨q, hs⟩ =>
        ⟨q, hk hs (by simp)⟩⟩
    pending := by
      intro q id' hq
      dsimp only at hq
      by_cases hqc : q = cp
      · subst hqc
        rw [update_self] at hq
        cases hq
        have ht : s.rt ≤ d := by
          have := h.rt_le
          have := h.cur_le
          omega
        exact {
          xid := by simp
          runtime := by simp
          rt_le := by simpa using ht
          due_lt := by simpa using hd'
          issued := mem_cons_self
          notStarted := fun hm => by
            obtain ⟨p, hp, rfl⟩ := mem_map.mp hm
            exact hn (h.started_due p hp).1
          notCancelled := fun hm => hn (h.cancelled _ hm).1 }
      · rw [update_of_ne hqc] at hq
        have hp := h.pending q id' hq
        have he := hdu id' hp.issued
        exact { hp with
          xid := by simpa [hqc] using hp.xid
          runtime := by simpa [hqc, he] using hp.runtime
          rt_le := hp.rt_le.trans_eq he.symm
          due_lt := he.trans_lt hp.due_lt
          issued := mem_cons_of_mem _ hp.issued }
    executing := by
      intro q id' t hq
      obtain ⟨hqc, hq⟩ := of_update hq (by simp)
      have he := h.executing q id' t hq
      have hde := hdu id' he.issued
      exact {
        xid := by simpa [hqc] using he.xid
        executor := by simpa [hqc] using he.executor
        runtime := by simpa [hqc, hde] using he.runtime
        pc := by simpa [hde] using he.pc
        reached := by simpa only [State.Reached, hde] using he.reached
        issued := mem_cons_of_mem _ he.issued
        started := he.started
        passed := by
          intro p hp
          simp only [chain, State.Passed, hde] at hp ⊢
          rcases mem_before_hashInsert hqc.symm hp with rfl | hp
          · -- the new callout is not due on the tick of the thread
            simp only [CalloutTable.hashInsert, CalloutTable.set, update_self]
            intro hr
            have hlt := he.reached.2
            have := h.cur_le
            have := tick_eq hw (by omega) (by omega) hr.symm
            omega
          · have hpc : p ≠ cp := by
              rintro rfl
              exact h.linked.lbhash.notMem hh _ (mem_of_mem_before hp)
            simp only [CalloutTable.hashInsert, CalloutTable.set, update_of_ne hpc]
            exact he.passed p hp }
    running := fun t' q r hr => (h.running t' q r hr).imp fun _ hs => hk hs (by simp)
    started_due := fun p hp =>
      ⟨mem_cons_of_mem _ (h.started_due p hp).1, (hdu _ (h.started_due p hp).1).trans_le (h.started_due p hp).2⟩
    settled := fun id' hm => (h.settled id' hm).imp_right fun ⟨q, t', hs⟩ =>
      ⟨q, t', hk hs (by simp)⟩
    cancelled := fun id' hc => (h.cancelled id' hc).imp_left (mem_cons_of_mem _)
    waiter := fun u hu => (h.waiter u hu).imp_right fun hs => hs.imp_right fun ⟨t', hne, hs⟩ =>
      ⟨t', hne, hk hs (by simp)⟩ }

theorem Inv.runtime_sub_curtime_iff (hw : 32 ≤ w) (h : Inv s) :
    (s.ct.runtime - s.ct.curtime).toInt ≤ 0 ↔ s.rt ≤ s.cur := by
  have : 2 ^ 32 ≤ 2 ^ w := Nat.pow_le_pow_right (by omega) hw
  have := h.rt_le
  have := h.cur_le
  have := h.now_lt
  rw [h.runtime, h.curtime, toInt_ofNat_sub_ofNat (by omega) (by omega)]
  omega

theorem Inv.schedule (h : Inv s) : Inv { s with ct := { s.ct with curtime := s.lbolt }, cur := s.now } :=
  { h with
    curtime := rfl
    cur_le := le_rfl
    rt_le := h.rt_le.trans (Nat.succ_le_succ h.cur_le)
    linked := { h.linked with }
    pending := fun cp id hs => { h.pending cp id hs with }
    executing := by
      intro cp id t hs
      have he := h.executing cp id t hs
      exact { he with reached := ⟨he.reached.1, he.reached.2.1.trans h.cur_le, he.reached.2.2⟩ } }

theorem Inv.scheduleRound (hw : 32 ≤ w) (h : Inv s)
    (hr : scheduleRound s.ct = some ct) : Inv { s with ct := ct, rt := s.rt + 1 } := by
  unfold Callout.scheduleRound at hr
  split_ifs at hr with hle ha
  cases hr
  apply h.advance ((h.runtime_sub_curtime_iff hw).mp hle)
  intro q hq
  rw [passed_iff, ← h.runtime]
  intro hd
  apply ha
  rw [any_eq_true]
  refine ⟨q, ?_, decide_eq_true hd⟩
  rwa [chain, ← h.runtime] at hq

theorem IsId.next (hw : 32 ≤ w) (h : IsId id) : IsId (nextId id) :=
  have hn := nextId_spec hw h.notExecuting h.high
  ⟨hn.1, hn.2⟩

theorem Inv.timeout (hw : 32 ≤ w) (h : Inv s) {delta : BitVec w}
    (hd : delta.toInt < 2 ^ 31) (hn : s.ct.newId delta ∉ s.issued) (hsl : s.slot cp = .free)
    (hc : cp ∉ freelist) (hsub : freelist.Sublist s.ct.freelist) : Inv { s with
      ct := (timeoutCommon { s.ct with freelist := freelist } s.lbolt delta cp).1
      slot := update s.slot cp (.pending (s.ct.newId delta))
      issued := s.ct.newId delta :: s.issued
      due := update s.due (s.ct.newId delta) (s.now + (atLeastOne delta).toInt.toNat) } := by
  obtain ⟨hpos, ha⟩ := lbolt_add hw delta s.now
  have hlt : (atLeastOne delta).toInt < 2 ^ 31 := by
    unfold atLeastOne
    split_ifs
    · rw [toInt_one_word hw]
      decide
    · exact hd
  have hid : IsId (s.ct.newId delta) := by
    unfold CalloutTable.newId
    split_ifs
    · exact h.longId.next hw
    · exact h.shortId.next hw
  have his := fun sid lid hs hl => h.issue hw sid lid (s.ct.callout cp).executor hsl hc hsub
    hs hl hid hn (d := s.now + (atLeastOne delta).toInt.toNat) (by omega) (by omega)
  rw [← ha] at his
  by_cases hln : (atLeastOne delta).toInt > calloutLongtermTicks
  · simp only [timeoutCommon, if_pos hln]
    exact his _ _ h.shortId hid
  · simp only [timeoutCommon, if_neg hln]
    exact his _ _ hid h.longId

variable [DecidableEq T]

theorem Inv.setPc (h : Inv s) {p : Pc w} (ht : ∀ cp r, s.pc t ≠ .running cp r)
    (hp : ∀ cp r, p ≠ .running cp r) : Inv { s with pc := update s.pc t p } :=
  { h with
    pending := fun cp id hs => { h.pending cp id hs with }
    executing := by
      intro cp id t' hs
      have hne : t' ≠ t := by
        rintro rfl
        exact ht _ _ (h.executing cp id t' hs).pc
      exact { h.executing cp id t' hs with
        pc := (update_of_ne hne _ _).trans (h.executing cp id t' hs).pc }
    running := by
      intro t' cp r hr
      by_cases hne : t' = t
      · subst hne
        exact absurd ((update_self t' p s.pc).symm.trans hr) (hp cp r)
      · exact h.running t' cp r ((update_of_ne hne _ _).symm.trans hr) }

section

variable (hw : 32 ≤ w) (h : Inv s)
include hw h

theorem Inv.start (ht : ∀ cp r, s.pc t ≠ .running cp r)
    (hd : s.Reached d) (hl : s.slot cp = .pending id) (hdu : s.due id = d)
    (hps : ∀ q ∈ before cp (s.chain d), s.Passed d q) : Inv { s with
      ct := s.ct.set cp { s.ct.callout cp with
        xid := id ||| calloutExecuting w, executor := some t }
      pc := update s.pc t (.running cp (ofNat w d))
      slot := update s.slot cp (.executing id t)
      started := (id, s.now) :: s.started } := by
  subst hdu
  have hp := h.pending cp id hl
  have hne : ∀ {q id'}, s.slot q = .pending id' → q ≠ cp → id' ≠ id := by
    rintro q id' hs hq rfl
    exact hq (h.linked.held_inj id' q cp (congrArg held hs) (congrArg held hl))
  have hk {q : ℕ} {id' : BitVec w} {t' : T} (hs : s.slot q = .executing id' t') :
      update s.slot cp (.executing id t) q = .executing id' t' := keep hs (by simp [hl])
  set c : CalloutT w T := { s.ct.callout cp with xid := id ||| calloutExecuting w, executor := some t }
  -- the mark only makes more structures passed
  have hmr : ∀ e q, s.Passed e q → (update s.ct.callout cp c q).runtime = ofNat w e →
      IsExecuting (update s.ct.callout cp c q).xid := by
    intro e q hq
    by_cases hqc : q = cp
    · subst hqc
      rw [update_self]
      exact fun _ => isExecuting_or hw id
    · rw [update_of_ne hqc]
      exact hq
  exact { h with
    linked := by
      have heq : held ∘ update s.slot cp (.executing id t) = held ∘ s.slot := by
        rw [held_update, update_eq_self_iff, comp_apply, hl]
        rfl
      rw [heq]
      exact { h.linked with }
    accounted := by
      intro id' hm
      rcases h.accounted id' hm with hst | hc | ⟨q, hq⟩
      · exact .inl (mem_cons_of_mem _ hst)
      · exact .inr (.inl hc)
      · by_cases hne : q = cp
        · subst hne
          rw [hl] at hq
          cases hq
          exact .inl mem_cons_self
        · exact .inr (.inr ⟨q, (update_of_ne hne _ _).trans hq⟩)
    pending := by
      intro q id' hs
      obtain ⟨hq, hs⟩ := of_update hs (by simp)
      have hp' := h.pending q id' hs
      exact { hp' with
        xid := by simpa [hq] using hp'.xid
        runtime := by simpa [hq] using hp'.runtime
        notStarted := not_mem_cons_of_ne_of_not_mem (hne hs hq) hp'.notStarted }
    executing := by
      intro q id' t' hs
      dsimp only at hs
      by_cases hq : q = cp
      · subst hq
        rw [update_self] at hs
        cases hs
        exact { hp with
          xid := by simp [c]
          executor := by simp [c]
          runtime := by simpa using hp.runtime
          pc := update_self _ _ _
          reached := hd
          started := mem_cons_self
          passed := fun p hm => hmr _ p (hps p hm) }
      · rw [update_of_ne hq] at hs
        have he := h.executing q id' t' hs
        have ht' : t' ≠ t := by
          rintro rfl
          exact ht _ _ he.pc
        exact { he with
          xid := by simpa [hq] using he.xid
          executor := by simpa [hq] using he.executor
          runtime := by simpa [hq] using he.runtime
          pc := (update_of_ne ht' _ _).trans he.pc
          started := mem_cons_of_mem _ he.started
          passed := fun p hm => hmr _ p (he.passed p hm) }
    running := by
      intro t' q r hr
      dsimp only at hr ⊢
      by_cases ht' : t' = t
      · subst ht'
        rw [update_self] at hr
        cases hr
        exact ⟨id, update_self _ _ _⟩
      · rw [update_of_ne ht'] at hr
        exact (h.running t' q r hr).imp fun _ => hk
    started_nodup := nodup_cons.mpr ⟨hp.notStarted, h.started_nodup⟩
    started_due := by
      intro p hm
      rcases mem_cons.mp hm with rfl | hm
      · exact ⟨hp.issued, hd.2.1.trans h.cur_le⟩
      · exact h.started_due p hm
    settled := by
      intro id' hm
      rcases mem_cons.mp hm with rfl | hm
      · exact .inr ⟨cp, t, update_self _ _ _⟩
      · exact (h.settled id' hm).imp_right fun ⟨q, t', hs⟩ => ⟨q, t', hk hs⟩
    cancelled := by
      intro id' hc
      refine ⟨(h.cancelled id' hc).1, not_mem_cons_of_ne_of_not_mem ?_ (h.cancelled id' hc).2⟩
      rintro rfl
      exact hp.notCancelled hc
    waiter := fun u hu => (h.waiter u hu).imp_right fun hs =>
      hs.imp_right fun ⟨t', hne, hs⟩ => ⟨t', hne, hk hs⟩ }

/-- Thread `t` walks on from where everything it has passed on the chain is being executed. -/
theorem Inv.walk (ht : s.pc t = .execute) (hd : s.Reached d) {passed rest : List ℕ} (hc : s.chain d = passed ++ rest)
    (hps : ∀ q ∈ passed, s.Passed d q) : Inv (s.walk t (ofNat w d) rest) := by
  have ht' : ∀ cp r, s.pc t ≠ .running cp r := by simp [ht]
  cases hf : rest.find? fun cp => s.ct.Due (ofNat w d) cp with
  | none =>
    have ha : ∀ q ∈ s.chain d, s.Passed d q := by
      intro q hq
      rw [hc, mem_append] at hq
      rcases hq with hq | hq
      · exact hps q hq
      · exact passed_iff.mpr (by simpa using List.find?_eq_none.mp hf q hq)
    simp only [State.walk, Callout.walk, hf]
    by_cases hr : s.ct.runtime = ofNat w d
    · -- the run time is still at this tick
      have hdr : d = s.rt := by
        have := h.rt_le
        have := h.cur_le
        apply tick_eq hw hd.1 _ (hr.symm.trans h.runtime)
        have := hd.2.2
        omega
      subst hdr
      simp only [if_pos hr]
      rw [← hr]
      exact (h.advance hd.2.1 ha).setPc ht' (by simp)
    · simp only [if_neg hr]
      exact h.setPc ht' (by simp)
  | some cp =>
    obtain ⟨hu, as, bs, hrs, has⟩ := List.find?_eq_some_iff_append.mp hf
    obtain ⟨hn, hx⟩ : s.ct.Due (ofNat w d) cp := by simpa using hu
    have hmem : cp ∈ s.chain d := by
      rw [hc, hrs]
      simp
    obtain ⟨id, hh, -⟩ := (h.linked.lbhash.mem_iff _ _).mp hmem
    have hs := h.pending_of_held hw hh hx
    have hp := h.pending cp id hs
    have hdd : d = s.due id := by
      have := hd.2.2
      have := hp.due_lt
      exact tick_eq hw (hd.1.trans hp.rt_le) (by omega) (hn.symm.trans hp.runtime)
    simp only [State.walk, Callout.walk, hf, hp.xid]
    apply h.start hw ht' hd hs hdd.symm
    intro q hq
    rw [hc, hrs, ← append_assoc] at hq
    rcases mem_append.mp (mem_of_mem_before_append hq) with hq | hq
    · exact hps q hq
    · exact passed_iff.mpr (by simpa using has q hq)

theorem Inv.complete (hs : s.slot cp = .executing id t) : Inv (s.complete t cp (ofNat w (s.due id))) := by
  have he := h.executing cp id t hs
  have hh : (held ∘ s.slot) cp = some id := congrArg held hs
  have hl := h.linked.release hh (he.xid ▸ calloutIdhash_or hw id)
  rw [show (none : Option (BitVec w)) = (free : Slot w T).held from rfl, ← held_update] at hl
  unfold State.complete
  simp only [hs]
  exact { h with
    linked := { hl with }
    accounted := by
      intro id' hm
      exact (h.accounted id' hm).imp_right fun hp => hp.imp_right fun ⟨q, hq⟩ => ⟨q, keep hq (by simp [hs])⟩
    pending := by
      intro q id' hq
      obtain ⟨hne, hq⟩ := of_update hq (by simp)
      have hp := h.pending q id' hq
      exact { hp with
        xid := (congrArg CalloutT.xid (callout_complete_of_ne hne)).trans hp.xid
        runtime := (congrArg CalloutT.runtime (callout_complete_of_ne hne)).trans hp.runtime }
    executing := by
      intro q id' t' hq
      obtain ⟨hne, hq⟩ := of_update hq (by simp)
      have he' := h.executing q id' t' hq
      have ht' : t' ≠ t := by
        rintro rfl
        have := he'.pc.symm.trans he.pc
        simp only [Pc.running.injEq] at this
        exact hne this.1
      exact { he' with
        xid := (congrArg CalloutT.xid (callout_complete_of_ne hne)).trans he'.xid
        executor := (congrArg CalloutT.executor (callout_complete_of_ne hne)).trans he'.executor
        runtime := (congrArg CalloutT.runtime (callout_complete_of_ne hne)).trans he'.runtime
        pc := (update_of_ne ht' _ _).trans he'.pc
        passed := by
          intro p hp
          have hpc : p ≠ cp := by
            rintro rfl
            exact hl.lbhash.notMem (by simp [held]) _ (mem_of_mem_before hp)
          unfold State.Passed
          rw [callout_complete_of_ne hpc]
          exact he'.passed p (mem_before_hashDelete (s.ct.callout cp).xid _ hne.symm hp) }
    running := by
      intro t' q r hr
      dsimp only at hr ⊢
      by_cases ht' : t' = t
      · subst ht'
        rw [update_self] at hr
        cases hr
      · rw [update_of_ne ht'] at hr
        exact (h.running t' q r hr).imp fun id' hq => keep hq (by simp [hs, Ne.symm ht'])
    settled := by
      intro id' hm
      rcases h.settled id' hm with hf | ⟨q, t', hq⟩
      · exact .inl (mem_cons_of_mem _ hf)
      · by_cases hne : q = cp
        · subst hne
          rw [hs] at hq
          cases hq
          exact .inl mem_cons_self
        · exact .inr ⟨q, t', (update_of_ne hne _ _).trans hq⟩
    waiter := by
      intro u hu
      obtain ⟨hx, hu⟩ := h.waiter u hu
      refine ⟨hx, ?_⟩
      rcases hu with hf | ⟨t', hne', hq⟩
      · exact .inl (mem_cons_of_mem _ hf)
      · by_cases hne : u.cp = cp
        · rw [hne, hs] at hq
          cases hq
          exact .inl mem_cons_self
        · exact .inr ⟨t', hne', (update_of_ne hne _ _).trans hq⟩ }

theorem Inv.handlerReturn {r : BitVec w} (hpc : s.pc t = .running cp r) :
    Inv ((s.complete t cp r).walk t r (s.ct.lbnext cp r)) := by
  obtain ⟨id, hs⟩ := h.running t cp r hpc
  have he := h.executing cp id t hs
  obtain rfl : r = ofNat w (s.due id) := by
    have := hpc.symm.trans he.pc
    simp only [Pc.running.injEq] at this
    exact this.2
  have hc := h.complete hw hs
  have hh : (s.complete t cp (ofNat w (s.due id))).chain (s.due id) =
      before cp (s.chain (s.due id)) ++ s.ct.lbnext cp (ofNat w (s.due id)) := by
    simp only [State.chain, State.complete, Callout.complete, CalloutTable.set,
      CalloutTable.hashDelete, update_self, CalloutTable.lbnext]
    exact erase_eq_before_append_after _ _
  apply hc.walk hw (update_self _ _ _) he.reached hh
  intro q hq
  unfold State.Passed State.complete
  rw [callout_complete_of_ne (ne_of_mem_before hq)]
  exact he.passed q hq

theorem Inv.untimeout (hd : ¬ IsExecuting id) : match untimeout s.ct s.lbolt id t with
    | .cancelled cp ct timeLeft => s.slot cp = .pending id ∧ 0 ≤ timeLeft ∧
      ct = { s.ct.hashDelete cp id (s.ct.callout cp).runtime with freelist := cp :: s.ct.freelist }
    | .self => ∃ cp, s.slot cp = .executing id t
    | .wait cp xid => xid = id ||| calloutExecuting w ∧ ∃ t' ≠ t, s.slot cp = .executing id t'
    | .notFound => ∀ cp t', s.slot cp ≠ .executing id t'
    | .panic => True := by
  cases hf : (s.ct.idhash (calloutIdhash id)).find? fun cp =>
      (s.ct.callout cp).xid = id ∨ (s.ct.callout cp).xid = id ||| calloutExecuting w with
  | none =>
    have ho : ∀ cp t', s.slot cp ≠ .executing id t' := by
      intro cp t' hs
      have hmem : cp ∈ s.ct.idhash (calloutIdhash id) := h.linked.idhash.mem (congrArg held hs)
      have := List.find?_eq_none.mp hf cp hmem
      simp [(h.executing cp id t' hs).xid] at this
    simp only [Callout.untimeout, hf]
    split_ifs
    · trivial
    · exact ho
  | some cp =>
    have hxd := List.find?_some hf
    simp only [decide_eq_true_eq] at hxd
    obtain ⟨id', hh, -⟩ := (h.linked.idhash.mem_iff _ _).mp (mem_of_find?_eq_some hf)
    have hi' := (h.isId id' (h.held_issued hh)).notExecuting
    cases hs : s.slot cp with rw [comp_apply, hs] at hh
    | free =>
      cases hh
    | pending id'' =>
      cases hh
      have hx := (h.pending cp id' hs).xid
      have hix : (s.ct.callout cp).xid = id := by
        refine hxd.resolve_right fun hx' => hi' ?_
        rw [← hx, hx']
        exact isExecuting_or hw id
      obtain rfl : id' = id := hx.symm.trans hix
      simp only [Callout.untimeout, hf, if_pos hix]
      refine ⟨hs, ?_, rfl⟩
      split_ifs with hn
      · exact le_rfl
      · exact not_lt.mp hn
    | executing id'' t' =>
      cases hh
      have he := h.executing cp id' t' hs
      have hne : (s.ct.callout cp).xid ≠ id := by
        rintro rfl
        rw [he.xid] at hd
        exact hd (isExecuting_or hw id')
      obtain rfl : id' = id := or_executing_inj hw hi' hd (he.xid.symm.trans (hxd.resolve_left hne))
      simp only [Callout.untimeout, hf, if_neg hne, he.executor]
      by_cases ht : t' = t
      · subst ht
        simp only [if_true]
        exact ⟨cp, hs⟩
      · simp only [Option.some.injEq, if_neg ht]
        exact ⟨he.xid, t', ht, hs⟩

end

end Steps

/-! ### Runs -/

/-- What the callers promise: `lbolt` stays within `2 ^ 31` ticks of the run times that are in use,
no id is handed out a second time, and `untimeout` is called with ids, never with a mark. -/
def Allowed (s : State w T) : Event w T → Prop
  | .tick n => s.now + n < s.rt + 2 ^ 31 ∧ ∀ cp id, (s.slot cp).held = some id → s.now + n < s.due id + 2 ^ 31
  | .timeout delta _ => delta.toInt < 2 ^ 31 ∧ s.ct.newId delta ∉ s.issued
  | .untimeout _ id => ¬ IsExecuting id
  | _ => True

variable [DecidableEq T]

def Step (s s' : State w T) : Prop := ∃ e r, Allowed s e ∧ s.exec e = some (s', r)

def Start (s : State w T) : Prop :=
  ∃ (n : ℕ) (tableId : BitVec w) (due : BitVec w → ℕ), tableId.toNat < 16 ∧
    s = ⟨calloutInit tableId (ofNat w n), n, fun _ => .idle, [], n, n, fun _ => .free, [], due, [], [], []⟩

theorem Inv.exec (hw : 32 ≤ w) (h : Inv s) (ha : Allowed s e) {s' : State w T}
    {r : Option ℤ} (he : s.exec e = some (s', r)) : Inv s' := by
  cases e with simp only [exec] at he
  | tick n =>
    cases he
    exact h.tick ha.1 fun cp id t hs => ha.2 cp id (by rw [hs]; rfl)
  | timeout delta alloc =>
    split at he
    · cases he
    · rename_i cp freelist hk
      cases he
      obtain ⟨hl, hc, hsub⟩ := take_spec h hk
      exact h.timeout hw ha.1 ha.2 hl hc hsub
  | untimeout t id =>
    have hu := h.untimeout hw (t := t) ha
    split at he <;> rename_i heq
    · rw [heq] at hu
      obtain ⟨hs, -, rfl⟩ := hu
      cases he
      exact h.cancel hs
    · cases he
      exact h
    · rw [heq] at hu
      obtain ⟨hx, ht⟩ := hu
      cases he
      exact { h with
        pending := fun cp id hs => { h.pending cp id hs with }
        executing := fun cp id t hs => { h.executing cp id t hs with }
        waiter := forall_mem_cons.mpr ⟨⟨hx, .inr ht⟩, h.waiter⟩ }
    · cases he
      exact h
    · cases he
  | untimeoutDone u =>
    split_ifs at he
    cases he
    exact { h with
      pending := fun cp id hs => { h.pending cp id hs with }
      executing := fun cp id t hs => { h.executing cp id t hs with }
      waiter := fun v hv => h.waiter v (mem_of_mem_erase hv) }
  | enterExecute t =>
    split at he <;> rename_i hpc <;> cases he
    exact h.setPc (by simp [hpc]) (by simp)
  | executeRound t =>
    split at he <;> rename_i hpc
    · split_ifs at he with hr <;> cases he
      · have hle := (h.runtime_sub_curtime_iff hw).mp hr
        rw [h.runtime]
        exact h.walk hw hpc ⟨le_rfl, hle, h.now_lt⟩ rfl (fun q hq => absurd hq not_mem_nil)
      · exact h.setPc (by simp [hpc]) (by simp)
    · cases he
  | handlerReturn t =>
    split at he <;> rename_i hpc <;> cases he
    exact h.handlerReturn hw hpc
  | enterSchedule t =>
    split at he <;> rename_i hpc <;> cases he
    exact h.schedule.setPc (by simp [hpc]) (by simp)
  | scheduleRound t =>
    split at he <;> rename_i hpc
    · split at he <;> rename_i hr <;> cases he
      · exact h.setPc (by simp [hpc]) (by simp)
      · exact h.scheduleRound hw hr
    · cases he

omit [DecidableEq T] in
theorem Inv.of_start (hw : 32 ≤ w) (h : Start s) : Inv s := by
  obtain ⟨n, tableId, due, ht, rfl⟩ := h
  have hpow : 16 ≤ 2 ^ (w - 1) := by
    calc 16 = 2 ^ 4 := rfl
      _ ≤ 2 ^ (w - 1) := Nat.pow_le_pow_right (by omega) (by omega)
  have hp : tableId.getLsbD (w - 1) = false := Nat.testBit_lt_two_pow (by omega)
  have hs : IsId (tableId ||| calloutCounterHigh w) := by
    constructor
    · rw [isExecuting_iff hw, BitVec.getLsbD_or, hp, calloutCounterHigh, BitVec.getLsbD_twoPow]
      simp
      omega
    · rw [BitVec.getLsbD_or, calloutCounterHigh, BitVec.getLsbD_twoPow]
      simp [show w - 3 < w by omega]
  have hl : IsId (tableId ||| calloutCounterHigh w ||| calloutLongterm w) := by
    have hx := hs.notExecuting
    rw [isExecuting_iff hw, Bool.not_eq_true] at hx
    constructor
    · rw [isExecuting_iff hw, BitVec.getLsbD_or, hx, calloutLongterm, BitVec.getLsbD_twoPow]
      simp
      omega
    · rw [BitVec.getLsbD_or, hs.high, Bool.true_or]
  exact {
    runtime := rfl
    curtime := rfl
    cur_le := le_rfl
    rt_le := Nat.le_succ n
    now_lt := by dsimp only; omega
    shortId := hs
    longId := hl
    linked := ⟨Chained.empty _, Chained.empty _, by simp [calloutInit], nodup_nil, by simp [held]⟩
    isId := by simp
    pending := by simp
    executing := by simp
    running := by simp
    accounted := by simp
    started_nodup := nodup_nil
    started_due := by simp
    settled := by simp [startedIds]
    cancelled := by simp
    waiter := by simp }

theorem inv_of_reachable (hw : 32 ≤ w) (h : Reachable Start Step s) : Inv s := by
  apply h.invariant (fun s hs => Inv.of_start hw hs)
  rintro s s' hs ⟨e, r, ha, he⟩
  exact hs.exec hw ha he

/-- The call of `untimeout` that a step may end. -/
def Event.call : Event w T → Option (T × BitVec w)
  | .untimeout t id => some (t, id)
  | .untimeoutDone u => some (u.thread, u.id)
  | _ => none

/-- What the callers of `timeout` and `untimeout` rely on. -/
structure State.OnTime (s : State w T) : Prop where
  /-- a callout on the table that no thread runs is not due before `ct_runtime` -/
  notPast : s.ct.runtime = ofNat w s.rt ∧ ∀ b, ∀ cp ∈ s.ct.lbhash b, ¬ IsExecuting (s.ct.callout cp).xid →
      (s.ct.callout cp).runtime = ofNat w (s.due (s.ct.callout cp).xid) ∧
      s.rt ≤ s.due (s.ct.callout cp).xid
  /-- a callout neither started nor cancelled is on its chain -/
  kept : ∀ id ∈ s.issued, id ∉ s.startedIds → id ∉ s.cancelled →
    s.rt ≤ s.due id ∧ ∃ cp ∈ s.chain (s.due id), (s.ct.callout cp).xid = id
  startedOnce : s.startedIds.Nodup
  startedDue : ∀ p ∈ s.started, s.due p.1 ≤ p.2
  cancelled : ∀ id ∈ s.cancelled, id ∉ s.startedIds
  recorded : ∀ e t id s' v, e.call = some (t, id) → s.exec e = some (s', some v) → 0 ≤ v → id ∈ s'.cancelled
  returned : ∀ e t id s', Allowed s e → e.call = some (t, id) → s.exec e = some (s', some (-1)) →
    id ∈ s.startedIds → (∀ cp, s.slot cp ≠ .executing id t) → id ∈ s.finished

theorem State.recorded {s' : State w T} {v : ℤ}
    (hc : e.call = some (t, id)) (he : s.exec e = some (s', some v)) (hv : 0 ≤ v) : id ∈ s'.cancelled := by
  cases e with
  | untimeout t' id' =>
    cases hc
    simp only [exec] at he
    split at he <;> cases he
    · exact mem_cons_self
    all_goals exact absurd hv (by decide)
  | untimeoutDone u =>
    simp only [exec] at he
    split_ifs at he
    cases he
    exact absurd hv (by decide)
  | _ => cases hc

theorem Inv.returned (hw : 32 ≤ w) (h : Inv s) {s' : State w T}
    (ha : Allowed s e) (hc : e.call = some (t, id)) (he : s.exec e = some (s', some (-1)))
    (ht : id ∈ s.startedIds) (ho : ∀ cp, s.slot cp ≠ .executing id t) : id ∈ s.finished := by
  cases e with
  | untimeout t' id' =>
    cases hc
    have hu := h.untimeout hw (t := t) ha
    simp only [State.exec] at he
    split at he <;> rename_i heq <;> rw [heq] at hu
    · -- a cancelled callout gives the time left
      simp only [Option.some.injEq, Prod.mk.injEq] at he
      omega
    · obtain ⟨cp, hs⟩ := hu
      exact absurd hs (ho cp)
    · simp at he
    · exact (h.settled id ht).resolve_right fun ⟨cp, t', hs⟩ => hu cp t' hs
    · cases he
  | untimeoutDone u =>
    cases hc
    simp only [State.exec] at he
    split_ifs at he with hg
    obtain ⟨hx, hf | ⟨t', -, hs⟩⟩ := h.waiter u hg.1
    · exact hf
    · exact absurd ((h.executing _ _ _ hs).xid.trans hx.symm) hg.2
  | _ => cases hc

/-- In every state that the table and its threads reach, with any interleaving of them, callouts
are started once, on their tick or later, unless cancelled; and who asks from outside the handler
whether a callout is gone is told so only when its handler has returned. -/
theorem onTime_of_reachable (hw : 32 ≤ w) (h : Reachable Start Step s) : s.OnTime := by
  have h := inv_of_reachable hw h
  exact {
    notPast := ⟨h.runtime, fun b cp => h.notPast hw⟩
    kept := by
      intro id hd ht hc
      obtain ⟨cp, hs⟩ := ((h.accounted id hd).resolve_left ht).resolve_left hc
      have hp := h.pending cp id hs
      exact ⟨hp.rt_le, cp, h.linked.lbhash.mem (congrArg held hs), hp.xid⟩
    startedOnce := h.started_nodup
    startedDue := fun p hp => (h.started_due p hp).2
    cancelled := fun id hd => (h.cancelled id hd).2
    recorded := fun e t id s' v => s.recorded
    returned := fun e t id s' => h.returned hw }

def freshState : State 32 Unit :=
  ⟨calloutInit 0 0, 0, fun _ => .idle, [], 0, 0, fun _ => .free, [], fun _ => 0, [], [], []⟩

def firstTick : State 32 Unit :=
  { ((freshState.exec (.timeout 1 (some 0))).map Prod.fst).getD freshState with now := 1 }

theorem reachable_firstTick : Reachable Start Step firstTick := by
  have h0 : Reachable Start Step freshState := .start ⟨0, 0, fun _ => 0, by decide, rfl⟩
  have h1 := h0.next ⟨.timeout 1 (some 0), none, ⟨by decide, not_mem_nil⟩, rfl⟩
  exact h1.next ⟨.tick 1, none, ⟨by decide, fun cp id _ => by simp [freshState]⟩, rfl⟩

/-- The clock finds the callout due, and a thread starts it. -/
theorem onTime_of_reachable_firstTick : ∃ s : State 32 Unit, Reachable Start Step s ∧
    s.started.map Prod.snd = [1] ∧ s.OnTime := by
  -- steps of threads, which are allowed in every state
  let events : List { e : Event 32 Unit // ∀ s, Allowed s e } :=
    [⟨.enterSchedule (), fun _ => trivial⟩, ⟨.scheduleRound (), fun _ => trivial⟩,
      ⟨.scheduleRound (), fun _ => trivial⟩, ⟨.enterExecute (), fun _ => trivial⟩,
      ⟨.executeRound (), fun _ => trivial⟩]
  have hr : (runList (fun s e => (s.exec e.1).map Prod.fst) firstTick events).map
      (fun s => s.started.map Prod.snd) = some [1] := by decide
  obtain ⟨s, hs, ht⟩ := Option.map_eq_some_iff.mp hr
  have h : Reachable Start Step s := by
    refine Reachable.runList (fun s e s' he => ?_) reachable_firstTick hs
    obtain ⟨⟨s1, r⟩, hex, rfl⟩ := Option.map_eq_some_iff.mp he
    exact ⟨e.1, r, e.2 s, hex⟩
  exact ⟨s, h, ht, onTime_of_reachable (by decide) h⟩

end Sol8.Os.Callout
