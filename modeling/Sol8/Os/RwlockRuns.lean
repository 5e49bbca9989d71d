import Sol8.Os.RwlockInv

/-! Handing a reader/writer lock to the threads that wait for it, and what holds of the lock in every
run. -/

namespace Sol8.Os.Rwlock

open Function Sol8.Lib List State Pc

variable {T : Type} [Fintype T] [DecidableEq T] {rw : Krw}

/-! ### Handing on the lock -/

section Handing

variable {a : Addresses T} {s : State T} {t : T} {p : Pc} {u : T}

/-- A holder that owns the lock of the turnstile and is about to change the word. -/
structure Handing (s : State T) (t : T) : Prop where
  inTurnstile : (s.pc t).inTurnstile = true
  waking : (s.pc t).waking = none
  queued : (s.pc t).queued = none
  waits : (s.pc t).waits = none
  holds : ∃ rw, (s.pc t).holds = some rw

theorem Inv.mem_waiting (h : Inv a s) (ht : Handing s t) (q : Krw) (u : T) : u ∈ s.waiting q ↔ u ∈ s.queue q := by
  rw [State.mem_waiting]
  by_cases hu : u = t
  · rw [hu, ht.waits, h.queue, ht.queued]
  · exact h.waits_iff ht.inTurnstile ht.waking q hu

variable {q : Krw} {n w : ℕ}

omit [Fintype T] in
theorem State.grant_pc_of_ne (hu : u ≠ t) :
    (s.grant t q n w p).pc u = if u ∈ (s.queue q).take n then .granted q else s.pc u := by
  simp [grant, hu]

section

variable (h : Inv a s) (ht : Handing s t)
include h ht

theorem Inv.mem_waiting_grant (hp : p.waits = none) (q' : Krw) (u : T) :
    u ∈ (s.grant t q n w p).waiting q' ↔ u ∈ (s.queue q').drop (if q' = q then n else 0) := by
  rw [State.mem_waiting]
  by_cases hu : u = t
  · have hn : u ∉ s.queue q' := by simp [hu, h.queue, ht.queued]
    simpa [hu, State.grant, hp] using fun hd => hn (hu ▸ mem_of_mem_drop hd)
  rw [State.grant_pc_of_ne hu]
  by_cases hm : u ∈ (s.queue q).take n
  · have hqu := mem_of_mem_take hm
    rw [if_pos hm]
    by_cases hq : q' = q
    · simpa [hq, waits] using not_mem_drop (h.nodup q) hm
    · have : u ∉ s.queue q' := by
        rw [h.queue] at hqu ⊢
        simpa [hqu] using Ne.symm hq
      simpa [hq, waits] using this
  · rw [if_neg hm, h.waits_iff ht.inTurnstile ht.waking q' hu]
    by_cases hq : q' = q
    · simp [hq, mem_drop_of_not_mem_take hm]
    · simp [hq]

theorem Inv.mem_holders_grant (q' : Krw) (u : T) : u ∈ (s.grant t q n w p).holders q' ↔
      (u = t ∧ p.holds = some q') ∨ (u ≠ t ∧ u ∈ s.holders q') ∨ (q' = q ∧ u ∈ (s.queue q).take n) := by
  rw [mem_holders]
  by_cases hu : u = t
  · have hn : u ∉ (s.queue q).take n := fun hm => by
      have := mem_of_mem_take hm
      simp [hu, h.queue, ht.queued] at this
    simp only [hu] at hn ⊢
    simp [grant, hn]
  rw [grant_pc_of_ne hu]
  by_cases hm : u ∈ (s.queue q).take n
  · have hw := (h.waits_iff ht.inTurnstile ht.waking q hu).mpr (mem_of_mem_take hm)
    have hh : (s.pc u).holds = none := by cases hc : s.pc u <;> simp_all [Pc.waits, Pc.holds]
    have hq : (Pc.granted q).holds = some q' ↔ q' = q := by simp [Pc.holds, eq_comm]
    simp [hu, hm, hh, hq]
  · simp [hu, hm]

theorem Inv.mem_holders_exit (q' : Krw) (u : T) : u ∈ (s.grant t q n w (.exitWake q n)).holders q' ↔
      (u ≠ t ∧ u ∈ s.holders q') ∨ (q' = q ∧ u ∈ (s.queue q).take n) := by
  have hp : (exitWake q n).holds ≠ some q' := by simp [holds]
  rw [h.mem_holders_grant ht]
  simp only [hp, and_false, false_or]

/-- What is left to show of a store that hands on the lock. -/
theorem Inv.grant (hp : p.waking = some (q, n)) (hpl : p.Local a t)
    (hen : (s.grant t q n w p).Encoded a) (hhl : ∃ q', ((s.grant t q n w p).holders q').Nonempty)
    (hb : ((s.grant t q n w p).waiting .reader).Nonempty → (s.grant t q n w p).holders .writer = ∅ →
      ((s.grant t q n w p).waiting .writer).Nonempty) : Inv a (s.grant t q n w p) := by
  have hpt : p.inTurnstile = true := inTurnstile_of_waking hp
  have hq : p.queued = none ∧ p.leaving = none := by cases p <;> simp_all [Pc.waking, Pc.queued, Pc.leaving]
  refine ⟨hen, fun u => ?_, fun q' u => ?_, h.nodup, fun q' u => ?_, fun _ => hhl, fun hr hw => .inl (hb hr hw),
    fun u rw hu => ?_, fun u => ?_⟩
  · by_cases hu : u = t
    · simpa [hu, State.grant, hpt, eq_comm] using (h.lock t).mp ht.inTurnstile
    · have hn : s.tsLock ≠ some u := fun hl => hu (h.alone ht.inTurnstile ((h.lock u).mpr hl))
      have hin : (s.pc u).inTurnstile ≠ true := fun hin => hn ((h.lock u).mp hin)
      rw [grant_pc_of_ne hu]
      by_cases hm : u ∈ (s.queue q).take n
      · simp [hm, State.grant, hn, inTurnstile]
      · simp [hm, State.grant, hn, hin]
  · by_cases hu : u = t
    · simp [hu, State.grant, hq.1, h.queue, ht.queued]
    · rw [grant_pc_of_ne hu]
      by_cases hm : u ∈ (s.queue q).take n
      · have hqu := (h.queue q u).mp (mem_of_mem_take hm)
        rw [if_pos hm, State.grant, h.queue, hqu]
        rfl
      · simp [hm, State.grant, h.queue]
  · have hng : s.pc u ≠ .granted q' := by
      rw [Ne, h.granted_iff ht.inTurnstile]
      simp [ht.waking]
    have htn : t ∉ (s.queue q).take n := fun hm => by
      have := mem_of_mem_take hm
      simp [h.queue, ht.queued] at this
    -- the only thread that wakes anyone is `t`
    have hwk (v : T) (q' : Krw) (m : ℕ) :
        ((s.grant t q n w p).pc v).waking = some (q', m) ↔ v = t ∧ q' = q ∧ m = n := by
      by_cases hv : v = t
      · simp [hv, State.grant, hp, eq_comm]
      · have hvk : (s.pc v).waking ≠ some (q', m) := fun hk =>
          hv (h.alone ht.inTurnstile (inTurnstile_of_waking hk))
        rw [grant_pc_of_ne hv]
        by_cases hm : v ∈ (s.queue q).take n
        · simp [hm, hv, waking]
        · simp [hm, hv, hvk]
    simp only [hwk]
    constructor
    · intro hg
      have hu : u ≠ t := by
        rintro rfl
        have : p = .granted q' := by simpa [grant] using hg
        simp [this, waking] at hp
      rw [grant_pc_of_ne hu] at hg
      split_ifs at hg with hm
      · obtain rfl : q = q' := by simpa using hg
        exact ⟨t, n, ⟨rfl, rfl, rfl⟩, hm⟩
      · exact absurd hg hng
    · rintro ⟨v, m, ⟨rfl, rfl, rfl⟩, hm⟩
      have hu : u ≠ v := fun hu => htn (hu ▸ hm)
      exact (grant_pc_of_ne hu).trans (if_pos hm)
  · by_cases hut : u = t
    · simp [hut, State.grant, hq.2] at hu
    · rw [grant_pc_of_ne hut] at hu
      by_cases hm : u ∈ (s.queue q).take n
      · simp [hm, Pc.leaving] at hu
      · rw [if_neg hm] at hu
        obtain ⟨rw', hh⟩ := ht.holds
        exact absurd (h.leaving_alone hu hh) hut
  · by_cases hu : u = t
    · simpa [hu, State.grant] using hpl
    · rw [grant_pc_of_ne hu]
      by_cases hm : u ∈ (s.queue q).take n
      · simp [hm, Pc.Local]
      · simpa [hm] using h.known u

end

omit [Fintype T] [DecidableEq T] in
private theorem nonempty_iff_ne_nil {f : Finset T} {l : List T} (h : ∀ u, u ∈ f ↔ u ∈ l) : f.Nonempty ↔ l ≠ [] := by
  constructor
  · rintro ⟨u, hu⟩ rfl
    simp [h] at hu
  · intro hl
    obtain ⟨u, hu⟩ := exists_mem_of_ne_nil l hl
    exact ⟨u, (h u).mpr hu⟩

theorem Inv.waited_iff (h : Inv a s) (ht : Handing s t) : s.Waited ↔ 0 < s.waiters := by
  have hq (q : Krw) : (s.waiting q).Nonempty ↔ 0 < (s.queue q).length := by
    rw [nonempty_iff_ne_nil (h.mem_waiting ht q), length_pos_iff]
  unfold State.Waited waiters
  simp only [hq]
  constructor
  · rintro ⟨q, hlt⟩
    cases q <;> omega
  · intro hlt
    by_cases hr : 0 < (s.queue .reader).length
    · exact ⟨.reader, hr⟩
    · exact ⟨.writer, by omega⟩

theorem Inv.waited_grant (h : Inv a s) (ht : Handing s t) (hp : p.waits = none) (hn : n ≤ (s.queue q).length) :
    (s.grant t q n w p).Waited ↔ n < s.waiters := by
  have hq (q' : Krw) : ((s.grant t q n w p).waiting q').Nonempty ↔ (if q' = q then n else 0) < (s.queue q').length := by
    rw [nonempty_iff_ne_nil (h.mem_waiting_grant ht hp q'), Ne, drop_eq_nil_iff]
    omega
  unfold State.Waited waiters
  simp only [hq]
  constructor
  · rintro ⟨q', hq'⟩
    cases q <;> cases q' <;> simp only [reduceCtorEq, if_true, if_false] at hq' <;> omega
  · intro hlt
    by_cases hr : (if Krw.reader = q then n else 0) < (s.queue .reader).length
    · exact ⟨.reader, hr⟩
    · refine ⟨.writer, ?_⟩
      cases q <;> simp only [reduceCtorEq, if_true, if_false] at hr ⊢ <;> omega

section

omit [Fintype T] [DecidableEq T]

theorem State.readersToWake_le : s.readersToWake ≤ (s.queue .reader).length := (takeWhile_sublist _).length_le

theorem State.readersToWake_eq (hw : s.queue .writer = []) : s.readersToWake = (s.queue .reader).length := by
  unfold readersToWake writerPri
  rw [hw, takeWhile_eq_self_iff.mpr]
  intro u _
  have hp : (0 : ℤ) ≤ s.pri u := Int.natCast_nonneg _
  exact decide_eq_true (show (-1 : ℤ) ≤ s.pri u by omega)

end

section

variable (h : Inv a s)
include h

/-- Readers that are passed over wait behind a writer. -/
theorem Inv.barred_grant (ht : Handing s t) (hp : p.waits = none)
    (hr : ((s.grant t .reader s.readersToWake w p).waiting .reader).Nonempty) :
    ((s.grant t .reader s.readersToWake w p).waiting .writer).Nonempty := by
  rw [nonempty_iff_ne_nil (h.mem_waiting_grant ht hp _)] at hr ⊢
  intro hw
  have hw' : s.queue .writer = [] := by simpa using hw
  rw [readersToWake_eq hw'] at hr
  simp at hr

theorem Inv.card_take {q : Krw} {n : ℕ} (hle : n ≤ (s.queue q).length) : ((s.queue q).take n).toFinset.card = n := by
  rw [toFinset_card_of_nodup ((h.nodup q).sublist (take_sublist n _)), length_take_of_le hle]

theorem Inv.exitStore_readers (ht : Handing s t) (hw : s.holders .writer = {t})
    (hr : s.holders .reader = ∅) (hn : 0 < s.readersToWake) : Inv a (s.grant t .reader s.readersToWake
      (s.readersToWake * 8 ||| waitBits (s.readersToWake < s.waiters) (s.queue .writer ≠ []))
      (.exitWake .reader s.readersToWake)) := by
  set n := s.readersToWake with hf
  set w := n * 8 ||| waitBits (n < s.waiters) (s.queue .writer ≠ [])
  have hle : n ≤ (s.queue .reader).length := readersToWake_le
  have hw' : (s.grant t .reader n w (.exitWake .reader n)).holders .writer = ∅ := by
    ext u
    rw [h.mem_holders_exit ht, hw]
    simp
  have hr' : (s.grant t .reader n w (.exitWake .reader n)).holders .reader = ((s.queue .reader).take n).toFinset := by
    ext u
    rw [h.mem_holders_exit ht, hr]
    simp
  have hc := h.card_take hle
  refine h.grant ht rfl trivial ?_ ⟨.reader, ?_⟩ fun hwr _ => h.barred_grant ht rfl hwr
  · refine ⟨s.queue .writer ≠ [], n < s.waiters, ?_, ?_, .inr ⟨hw', ?_⟩⟩
    · rw [nonempty_iff_ne_nil (h.mem_waiting_grant ht rfl .writer)]
      simp
    · rw [h.waited_grant ht rfl hle]
      simp
    · have hen : n * 8 = encode n false false false := Nat.mul_comm n 8
      rw [hr', hc, ← or_waitBits_encode, ← hen]
      rfl
  · rw [← Finset.card_pos, hr', hc]
    exact hn

theorem Inv.exitStore_writer (ht : Handing s t) {rest : List T}
    (hq : s.queue .writer = u :: rest) (ho : ∀ rw v, v ∈ s.holders rw → v = t) :
    Inv a (s.grant t .writer 1 (Krw.value a u .writer ||| waitBits (1 < s.waiters) (rest ≠ []))
      (.exitWake .writer 1)) := by
  set w := Krw.value a u .writer ||| waitBits (1 < s.waiters) (rest ≠ [])
  have hw' : (s.grant t .writer 1 w (.exitWake .writer 1)).holders .writer = {u} := by
    ext v
    rw [h.mem_holders_exit ht, hq, take_one, Finset.mem_singleton]
    simp only [List.head?_cons, Option.toList_some, mem_singleton]
    tauto
  have hr' : (s.grant t .writer 1 w (.exitWake .writer 1)).holders .reader = ∅ := by
    ext v
    rw [h.mem_holders_exit ht]
    tauto
  refine h.grant ht rfl trivial ?_ ⟨.writer, ?_⟩ fun _ hn => ?_
  · refine ⟨rest ≠ [], 1 < s.waiters, ?_, ?_, .inl ⟨u, hw', hr', ?_⟩⟩
    · rw [nonempty_iff_ne_nil (h.mem_waiting_grant ht rfl .writer)]
      simp [hq]
    · rw [h.waited_grant ht rfl (by simp [hq])]
      simp
    · rw [← or_waitBits_encode, ← value_writer_encode]
      rfl
  · simp [hw']
  · simp [hw'] at hn

/-- The final exit of a lock with waiters finds them on the queues. -/
theorem Inv.exitStore {old : ℕ} (hpc : s.pc t = .exitStore rw old) : Inv a (s.exitStore a t old) := by
  have ht : Handing s t := by
    constructor <;> simp [hpc, inTurnstile, waking, queued, waits, holds]
  have hl : (s.pc t).leaving = some rw := by simp [hpc, Pc.leaving]
  have ho : writeLocked old ↔ rw = .writer := by
    have := h.known t
    rwa [hpc] at this
  have hmem : t ∈ s.holders rw := by simp [hpc, holds]
  obtain ⟨⟨q, hq⟩, hd⟩ := h.leaving t rw hl
  unfold State.exitStore
  by_cases hc : writeLocked old ∧ 0 < s.readersToWake
  · rw [if_pos hc]
    obtain rfl := ho.mp hc.1
    obtain ⟨-, -, -, -, ⟨v, hw, hr, -⟩ | ⟨hw, -⟩⟩ := h.encoded
    · obtain rfl : t = v := by simpa [hw] using hmem
      exact h.exitStore_readers ht hw hr hc.2
    · simp [hw] at hmem
  rw [if_neg hc]
  cases hwq : s.queue .writer with
  | cons u rest =>
    refine h.exitStore_writer ht hwq fun rw' v hv => ?_
    rw [mem_holders] at hv
    exact (h.leaving_alone hl hv).symm
  | nil =>
    -- with no writer queued every reader would have been granted the lock
    have hn : ¬(s.waiting .writer).Nonempty := by
      rw [nonempty_iff_ne_nil (h.mem_waiting ht .writer)]
      simp [hwq]
    cases rw with
    | reader => exact absurd (hd rfl).2 hn
    | writer =>
      cases q with
      | writer => exact absurd hq hn
      | reader =>
        rw [nonempty_iff_ne_nil (h.mem_waiting ht .reader), ← length_pos_iff, ← readersToWake_eq hwq] at hq
        exact absurd ⟨ho.mpr rfl, hq⟩ hc

/-- The second atomic add of `rw_downgrade`, which is left out when no reader is woken. -/
theorem Inv.downStore (hpc : s.pc t = .downStore) : Inv a (s.downStore t) := by
  have ht : Handing s t := by
    constructor <;> simp [hpc, inTurnstile, waking, queued, waits, holds]
  have hmem : t ∈ s.holders .reader := by simp [hpc, holds]
  obtain ⟨wanted, waiters, hb, hc, hen⟩ := h.encoded
  obtain ⟨u, -, hr, -⟩ | ⟨hw, hwd⟩ := hen
  · simp [hr] at hmem
  set n := s.readersToWake with hf
  have hle : n ≤ (s.queue .reader).length := State.readersToWake_le
  have hg : s.downStore t =
      s.grant t .reader n (s.word + (n * 8 - if s.waiters = n ∧ 0 < n then 1 else 0)) (.downWake n) := by
    unfold State.downStore
    by_cases hn : 0 < n
    · simp only [← hf, hn, and_true, if_true]
    · have hn0 : n = 0 := by omega
      simp [← hf, hn0, State.grant, State.goto]
  rw [hg]
  set w := s.word + (n * 8 - if s.waiters = n ∧ 0 < n then 1 else 0) with hwf
  have hw' : (s.grant t .reader n w (.downWake n)).holders .writer = ∅ := by
    ext u
    rw [h.mem_holders_grant ht, hw]
    simp [holds]
  have hr' : (s.grant t .reader n w (.downWake n)).holders .reader =
      s.holders .reader ∪ ((s.queue .reader).take n).toFinset := by
    ext u
    have hp : (downWake n).holds = some .reader := rfl
    rw [h.mem_holders_grant ht]
    simp only [hp, Finset.mem_union, mem_toFinset]
    by_cases hu : u = t
    · simp [hu, hmem]
    · simp [hu]
  have hcr := h.card_take hle
  have hd : Disjoint (s.holders .reader) ((s.queue .reader).take n).toFinset := by
    rw [Finset.disjoint_left]
    intro u hu hm
    have hwu := (h.mem_waiting ht .reader u).mpr (mem_of_mem_take (mem_toFinset.mp hm))
    cases hp : s.pc u <;> simp_all [waits, holds]
  refine h.grant ht rfl trivial ?_ ⟨.reader, t, ?_⟩ fun hwr _ => h.barred_grant ht rfl hwr
  · refine ⟨wanted, n < s.waiters, ?_, ?_, .inr ⟨hw', ?_⟩⟩
    · rw [hb, nonempty_iff_ne_nil (h.mem_waiting_grant ht rfl .writer), nonempty_iff_ne_nil (h.mem_waiting ht .writer)]
      simp
    · rw [h.waited_grant ht rfl hle]
      simp
    · have hwt : waiters = decide (0 < s.waiters) := by
        rw [Bool.eq_iff_iff, hc, h.waited_iff ht, decide_eq_true_iff]
      have hsum : n ≤ s.waiters := hle.trans (Nat.le_add_right _ _)
      rw [hr', Finset.card_union_of_disjoint hd]
      change w = _
      rw [hwf, hwd, hwt, encode, encode]
      by_cases hn : 0 < n
      · have hpos : 0 < s.waiters := by omega
        by_cases ha : s.waiters = n
        · simp [ha, hn]
          omega
        · have hlt : n < s.waiters := by omega
          simp [ha, hlt, hpos]
          omega
      · simp [show n = 0 by omega]
  · rw [hr']
    exact Finset.mem_union_left _ hmem

end

end Handing

/-! ### Steps and runs -/

section Runs

variable {a : Addresses T} {s s' : State T} {t : T} {p : Pc} {p' : Pc}

/-- What the invariant reads of a program counter, apart from a final exit and the values of `old`. -/
def Pc.place (p : Pc) : Option Krw × Option Krw × Option Krw × Bool × Option (Krw × ℕ) × Bool :=
  (p.holds, p.waits, p.queued, p.inTurnstile, p.waking, p.inWindow)

section

variable (h : Inv a s)
include h

theorem Inv.goto (hpc : s.pc t = p) (hf : p'.Free) (hpl : p'.place = p.place)
    (hp : p'.Local a t) (hv : ∀ rw, p'.leaving = some rw → s.Waited ∧ (rw = .reader →
      s.holders .reader = {t} ∧ (s.waiting .writer).Nonempty)) : Inv a (s.goto t p') := by
  subst hpc
  simp only [place, Prod.mk.injEq] at hpl
  obtain ⟨hh, hwt, hq, hl, hk, hn⟩ := hpl
  exact h.quiet ⟨hq ▸ hf.1, hk ▸ hf.2⟩ hf hh hwt (fun hw => hn.trans hw) (h.lock_same hl) hp hv

theorem Inv.stay (hpc : s.pc t = p)
    (hpl : (p'.place, p'.queued, p'.waking, p'.leaving) = (p.place, none, none, none)) (hp : p'.Local a t) :
    Inv a (s.goto t p') := by
  simp only [Prod.mk.injEq] at hpl
  exact h.goto hpc ⟨hpl.2.1, hpl.2.2.1⟩ hpl.1 hp (by simp [hpl])

theorem Inv.call {op : Op} (ho : op.start (s.pc t) = some p) : Inv a (s.goto t p) := by
  obtain ⟨q, hpc, ho⟩ : ∃ q, s.pc t = q ∧ op.start q = some p := ⟨_, rfl, ho⟩
  unfold Op.start at ho
  split at ho <;> cases ho
  all_goals exact h.stay hpc rfl trivial

theorem Inv.casip {old new : ℕ} {yes no : Pc} (hpc : s.pc t = p)
    (hpl : (no.place, no.queued, no.waking, no.leaving) = (p.place, none, none, none)) (hp : no.Local a t)
    (hs : s.word = old → Inv a (s.moved t yes new s.tsLock)) : Inv a (s.casip t old new yes no) := by
  unfold State.casip
  split_ifs with hw
  · exact hs hw
  · exact h.stay hpc hpl hp

theorem Inv.turnstileLookup (hs : s.turnstileLookup t p' = some s') (hpc : s.pc t = p) (hf : p.Free) (hf' : p'.Free)
    (hpl : (p'.holds, p'.waits, p'.inWindow, p'.leaving, p'.inTurnstile) =
      (p.holds, p.waits, p.inWindow, p.leaving, true)) (hp : p'.Local a t) : Inv a s' := by
  subst hpc
  simp only [Prod.mk.injEq] at hpl
  obtain ⟨hh, hwt, hn, hv, hl⟩ := hpl
  obtain ⟨hr, ⟨⟩⟩ := Option.ite_none_right_eq_some.mp hs
  refine h.quiet hf hf' hh hwt (fun hw => hn.trans hw) (h.lock_acquire hl hr) hp fun rw hrw => ?_
  exact h.leaving t rw (hv ▸ hrw)

end

omit [DecidableEq T] in
theorem Inv.word_of_holds (h : Inv a s) (hpc : s.pc t = p) (ht : p.holds = some rw) :
    (rw = .writer ∧ writeLocked s.word ∧ locked s.word = 8 * a.num t) ∨
      (rw = .reader ∧ ¬writeLocked s.word ∧ locked s.word ≠ 0) := by
  have hmem := s.mem_holders.mpr (hpc ▸ ht)
  obtain ⟨wanted, waiters, -, -, ⟨v, hw, hr, hwr⟩ | ⟨hw, hwr⟩⟩ := h.encoded
  · cases rw with
    | reader => simp [hr] at hmem
    | writer =>
      obtain rfl : t = v := by simpa [hw] using hmem
      simp [hwr]
  · cases rw with
    | reader =>
      have hpos := Finset.card_pos.mpr ⟨t, hmem⟩
      refine .inr ⟨rfl, by simp [hwr], ?_⟩
      rw [hwr, locked_encode]
      omega
    | writer => simp [hw] at hmem

theorem Pc.holds_of_inWindow (h : p.inWindow = true) : p.holds = some .reader := by
  cases p <;> simp_all [inWindow, holds]

theorem Inv.last_of_finalExit (h : Inv a s) (hpc : s.pc t = .exitRead rw) (hf : finalExit (s.word - rw.value a t)) :
    s.Waited ∧ (rw = .reader → s.holders .reader = {t} ∧ (s.waiting .writer).Nonempty) := by
  obtain ⟨wanted, waiters, hb, hc, hnw, hw, -⟩ := h.exit_word (show (s.pc t).holds = some rw by rw [hpc]; rfl)
  rw [hnw, finalExit, locked_encode, hasWaiters_encode, hc] at hf
  refine ⟨hf.2, ?_⟩
  rintro rfl
  have hu : s.holders .reader = {t} := by
    have hnn : (s.holders .reader).erase t = ∅ := Finset.card_eq_zero.mp (by omega)
    rw [← Finset.insert_erase (show t ∈ s.holders .reader by simp [hpc, holds]), hnn]
    rfl
  rw [Finset.erase_eq_of_notMem (by simp [hpc, holds])] at hw
  -- a downgrading thread would be a second reader
  have hn (v : T) : (s.pc v).inWindow ≠ true := by
    intro hv
    have hm := s.mem_holders.mpr (holds_of_inWindow hv)
    rw [hu, Finset.mem_singleton] at hm
    simp [hm, hpc, inWindow] at hv
  obtain ⟨q, hq⟩ := hf.2
  cases q with
  | writer => exact ⟨hu, hq⟩
  | reader => exact ⟨hu, (h.barred hq hw).resolve_right fun hv => hv.elim hn⟩

theorem Inv.next (h : Inv a s) (hs : s.next a t = some s') : Inv a s' := by
  have hk := h.known t
  unfold State.next at hs
  generalize hpc : s.pc t = p at hs hk
  cases p with dsimp only at hs
  | idle | held | blocked | granted | panicked => cases hs
  | enterRead rw =>
    by_cases hb : rw.busy s.word = 0
    · rw [if_pos hb] at hs
      cases hs
      exact h.stay hpc rfl hb
    rw [if_neg hb] at hs
    split at hs <;> cases hs <;> exact h.stay hpc rfl trivial
  | enterCas rw old =>
    cases hs
    refine h.casip hpc rfl trivial ?_
    rintro rfl
    cases rw with
    | reader => exact h.acquire_reader (.inl hpc) hk
    | writer => exact h.acquire_writer (.inl hpc) hk
  | enterLookup | downLookup => exact h.turnstileLookup hs hpc ⟨rfl, rfl⟩ ⟨rfl, rfl⟩ rfl trivial
  | enterTest rw =>
    by_cases hb : rw.busy s.word = 0
    · rw [if_pos hb] at hs
      cases hs
      exact h.stay hpc rfl trivial
    rw [if_neg hb] at hs
    split at hs <;> rename_i hst <;> cases hs
    · have ha := h.announce (.inl hpc) hb
      rwa [← hst] at ha
    · exact h.stay hpc rfl hb
  | enterSet rw old =>
    cases hs
    refine h.casip hpc rfl trivial ?_
    rintro rfl
    exact h.announce (.inr hpc) hk
  | enterExit rw =>
    cases hs
    exact h.quiet (by rw [hpc]; exact ⟨rfl, rfl⟩) ⟨rfl, rfl⟩ (hpc ▸ rfl) (hpc ▸ rfl)
      (by rw [hpc]; exact id) (h.lock_release rfl (hpc ▸ rfl)) trivial (by simp [Pc.leaving])
  | enterBlock rw =>
    cases hs
    exact h.block hpc
  | exitOwner rw =>
    obtain ⟨rfl, hl, hn⟩ | ⟨rfl, hl, hn⟩ := h.word_of_holds hpc rfl
    · rw [if_pos hl, if_neg (not_not.mpr hn)] at hs
      cases hs
      exact h.stay hpc rfl trivial
    · rw [if_neg hl, if_neg hn] at hs
      cases hs
      exact h.stay hpc rfl trivial
  | exitRead rw =>
    split at hs <;> rename_i hf <;> cases hs
    · have hfe := h.last_of_finalExit hpc hf
      refine h.goto hpc ⟨rfl, rfl⟩ rfl ?_ ?_
      · obtain ⟨rfl, hl, -⟩ | ⟨rfl, hl, -⟩ := h.word_of_holds hpc rfl <;>
          simp [Pc.Local, hl]
      · rintro rw' ⟨⟩
        exact hfe
    · exact h.stay hpc rfl hf
  | exitCas rw old =>
    cases hs
    refine h.casip hpc rfl trivial ?_
    rintro rfl
    exact h.release hpc
  | exitLookup rw old => exact h.turnstileLookup hs hpc ⟨rfl, rfl⟩ ⟨rfl, rfl⟩ rfl hk
  | exitStore rw old =>
    cases hs
    exact h.exitStore hpc
  | exitWake q n =>
    cases hs
    exact h.wakeup (hpc ▸ rfl) (hpc ▸ rfl) (.inl rfl)
  | tryRead | upRead =>
    split at hs <;> rename_i hb <;> cases hs
    · exact h.stay hpc rfl trivial
    · exact h.stay hpc rfl (not_not.mp hb)
  | tryCas old =>
    cases hs
    refine h.casip hpc rfl trivial ?_
    rintro rfl
    exact h.acquire_reader (.inr hpc) hk
  | tryWrite =>
    cases hs
    refine h.casip hpc rfl trivial fun hw => ?_
    have hc := h.acquire_writer (.inr hpc) (by rw [hw]; rfl)
    rwa [hw, Nat.zero_add] at hc
  | downCheck =>
    obtain ⟨-, -, hn⟩ | ⟨hq, -, -⟩ := h.word_of_holds hpc rfl
    · rw [if_neg (not_not.mpr hn)] at hs
      cases hs
      exact h.stay hpc rfl trivial
    · cases hq
  | downAdd =>
    cases hs
    exact h.downAdd hpc rfl rfl
  | downStore =>
    cases hs
    exact h.downStore hpc
  | downWake n =>
    cases hs
    exact h.wakeup (hpc ▸ rfl) (hpc ▸ rfl) (.inr rfl)
  | upCas old =>
    cases hs
    refine h.casip hpc rfl trivial ?_
    rintro rfl
    exact h.upgrade hpc

omit [DecidableEq T] in
/-- New priorities move threads within their queues, while no one owns the lock of the turnstile. -/
theorem Inv.changePri (h : Inv a s) {pri : T → ℕ} {queue : Krw → List T} (hl : s.tsLock = none)
    (hq : ∀ q, (queue q).Perm (s.queue q)) : Inv a { s with pri := pri, queue := queue } := by
  have hn (u : T) : (s.pc u).waking = none := by
    by_contra hne
    obtain ⟨⟨q, n⟩, hk⟩ := Option.ne_none_iff_exists'.mp hne
    have := (h.lock u).mp (inTurnstile_of_waking hk)
    simp [hl] at this
  refine h.requeue rfl (fun _ => rfl) (fun _ => rfl) (fun _ => rfl) (fun _ => rfl) h.known h.lock (fun q u => ?_)
    (fun q => ?_) fun q u => ?_
  · rw [← h.queue]
    exact (hq q).mem_iff
  · exact (hq q).nodup_iff.mpr (h.nodup q)
  · have hg : s.pc u ≠ .granted q := by
      rw [Ne, h.granted]
      simp [hn]
    simp [hn, hg]

theorem Inv.step (h : Inv a s) (hs : Step a s s') : Inv a s' := by
  obtain ⟨e, he⟩ := hs
  cases e with
  | call t op =>
    obtain ⟨p, hp, rfl⟩ := Option.map_eq_some_iff.mp he
    exact h.call hp
  | step t => exact h.next he
  | changePri pri queue =>
    unfold exec at he
    dsimp only at he
    split at he
    · next hc =>
      cases he
      refine h.changePri hc.1 fun q => ?_
      cases q with
      | reader => exact hc.2.1
      | writer => exact hc.2.2
    · cases he

theorem inv_of_reachable (h : Reachable Init (Step a) s) : Inv a s :=
  h.invariant (fun _ => inv_init) fun _ _ => Inv.step

end Runs

/-! ### What the lock guarantees -/

/-- The state of a lock that works: the word encodes its holders, its wait bits tell who is queued when
the turnstile is at rest, and queued threads wait for a holder. -/
structure Correct (a : Addresses T) (s : State T) : Prop where
  holders : (∃ t, s.holders .writer = {t} ∧ s.holders .reader = ∅ ∧ writeLocked s.word ∧ locked s.word = 8 * a.num t) ∨
    (s.holders .writer = ∅ ∧ ¬writeLocked s.word ∧ locked s.word = 8 * (s.holders .reader).card)
  waiters : s.tsLock = none → (hasWaiters s.word ↔ ∃ q, s.queue q ≠ [])
  wanted : s.tsLock = none → (writeWanted s.word ↔ s.queue .writer ≠ [])
  held : (∃ q, s.queue q ≠ []) → locked s.word ≠ 0

variable {a : Addresses T} {s : State T}

omit [DecidableEq T] in
theorem Inv.waiting_nonempty (h : Inv a s) (hl : s.tsLock = none) (q : Krw) :
    (s.waiting q).Nonempty ↔ s.queue q ≠ [] := by
  refine nonempty_iff_ne_nil fun u => ?_
  have hin (v : T) : (s.pc v).inTurnstile ≠ true := by simp [h.lock, hl]
  have hn : s.pc u ≠ .granted q := by
    rw [Ne, h.granted]
    rintro ⟨v, n, hk, -⟩
    exact hin v (inTurnstile_of_waking hk)
  have hinu := hin u
  rw [State.mem_waiting, h.queue]
  cases hp : s.pc u <;> simp_all [waits, queued, inTurnstile]

/-- Every reachable state is one of a lock that works. -/
theorem rwlock_correct (h : Reachable Init (Step a) s) : Correct a s := by
  have hi := inv_of_reachable h
  obtain ⟨wanted, waiters, hb, hc, hn⟩ := hi.encoded
  have hwr : ∃ n l, s.word = encode n l wanted waiters := by
    obtain ⟨t, -, -, hw⟩ | ⟨-, hw⟩ := hn <;> exact ⟨_, _, hw⟩
  obtain ⟨n, l, hwr⟩ := hwr
  refine ⟨?_, fun hl => ?_, fun hl => ?_, fun ⟨q, hq⟩ => ?_⟩
  · refine hn.imp (fun ⟨t, hw, hr, hwr⟩ => ⟨t, hw, hr, ?_, ?_⟩) fun ⟨hw, hwr⟩ => ⟨hw, ?_, ?_⟩ <;> simp [hwr]
  · rw [hwr, hasWaiters_encode, hc]
    unfold State.Waited
    simp only [hi.waiting_nonempty hl]
  · rw [hwr, writeWanted_encode, hb, hi.waiting_nonempty hl]
  · obtain ⟨u, hu⟩ := exists_mem_of_ne_nil _ hq
    -- a queued thread waits for a holder, or has become one
    have hs : ∃ q', (s.holders q').Nonempty := by
      have hd := (hi.queue q u).mp hu
      cases hp : s.pc u <;> simp [hp, queued] at hd
      · exact hi.held ⟨q, u, by simp [hp, hd, waits]⟩
      · exact ⟨q, u, by simp [hp, hd, holds]⟩
    obtain ⟨q', v, hv⟩ := hs
    obtain ⟨-, -, hl⟩ | ⟨-, -, hl⟩ := hi.word_of_holds rfl (s.mem_holders.mp hv)
    · have := a.pos v
      omega
    · exact hl

/-! A run with three threads: the first takes the lock as a writer, the others block, the first hands the
lock to the reader while it downgrades, and the reader leaves the lock to the writer. -/

def threeThreads : Addresses (Fin 3) where
  num t := 2 * (t + 1)
  injective t u h := Fin.ext (by dsimp only at h; omega)
  pos t := by simp

def freeLock : State (Fin 3) where
  word := 0
  tsLock := none
  queue _ := []
  pri _ := 0
  pc _ := .idle

def downgradeRun : List (Event (Fin 3)) :=
  .call 0 (.rwTryenter .writer) :: .step 0 ::
  Event.call 1 (.rwEnter .reader) :: List.replicate 5 (Event.step 1) ++
  Event.call 2 (.rwEnter .writer) :: List.replicate 5 (Event.step 2) ++
  Event.call 0 .rwDowngrade :: List.replicate 5 (Event.step 0) ++
  Event.call 0 .rwExit :: List.replicate 3 (Event.step 0) ++
  Event.call 1 .rwExit :: List.replicate 5 (Event.step 1)

theorem rwlock_correct_downgradeRun : ∃ s, runList (exec threeThreads) freeLock downgradeRun = some s ∧
    (s.word = 52 ∧ s.pc 2 = .held .writer) ∧ Correct threeThreads s := by
  have hr : (runList (exec threeThreads) freeLock downgradeRun).isSome = true := by decide
  obtain ⟨s, hs⟩ := Option.isSome_iff_exists.mp hr
  have hn : ∀ s ∈ runList (exec threeThreads) freeLock downgradeRun, s.word = 52 ∧ s.pc 2 = .held .writer := by
    decide
  refine ⟨s, hs, hn s hs, rwlock_correct (.runList (fun _ e _ he => ⟨e, he⟩) (.start ?_) hs)⟩
  exact ⟨rfl, rfl, fun _ => rfl, fun _ => rfl⟩

end Sol8.Os.Rwlock
