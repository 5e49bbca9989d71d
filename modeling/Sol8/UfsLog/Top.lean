import Sol8.Lib.Run
import Sol8.Lib.Threads

/-! Reservations of log space by UFS operations (`ufs_log/lufs_top.c`).

Threads enter a transaction with `top_begin_sync` or `top_begin_async` and leave it with the
matching end function. A step is what a thread does while it holds `mtm_lock`; a thread that has to
wait leaves the state as it is and tries again, so only admissions are steps of the begin
functions. The system is not panicking. Next to the code's counters the state records which sizes
were admitted to which transaction, directly or through `un_resv_wantin`. -/

namespace Sol8.UfsLog.Top

open Sol8.Lib

/-- The size of the log and the width of `ulong_t`. -/
structure Params where
  maxresv : ℕ
  maxresv_lt : maxresv < 2 ^ 32
  ulongBits : ℕ
  le_ulongBits : 32 ≤ ulongBits

/-- The fields of the log map and the log unit that the functions use. -/
structure Mtm where
  closedSync : Bool
  closedAsync : Bool
  active : ℤ
  activesync : ℤ
  wantin : ℤ
  seq : BitVec 16
  resv : ℕ
  resvWantin : ℕ

/-- How `top_begin_sync` lets an operation in. -/
inductive Entry
  | next
  | current

variable (p : Params)

/-- `top_begin_sync` from its retry label; no result when the thread waits and tries again. -/
def topBeginSync (m : Mtm) (size : ℕ) : Option (Entry × Mtm) :=
  if m.closedSync then
    if (size + m.resvWantin + m.resv) % 2 ^ p.ulongBits > p.maxresv then none
    else some (.next, { m with wantin := m.wantin + 1, resvWantin := (m.resvWantin + size) % 2 ^ 32 })
  else if size ≠ 0 ∧ m.resv ≠ 0 ∧ (size + m.resv) % 2 ^ p.ulongBits > p.maxresv then none
  else some (.current,
    { m with
      active := m.active + 1, activesync := m.activesync + 1, resv := (m.resv + size) % 2 ^ 32 })

/-- `top_begin_async`; no result when the thread waits or returns `EWOULDBLOCK`. -/
def topBeginAsync (m : Mtm) (size : ℕ) : Option Mtm :=
  if m.closedAsync then none
  else if m.resv ≠ 0 ∧ (size + m.resv) % 2 ^ p.ulongBits > p.maxresv then none
  else some { m with active := m.active + 1, resv := (m.resv + size) % 2 ^ 32 }

/-- `top_end_sync` up to its first wait, and whether this is the last sync operation. -/
def topEndSync (m : Mtm) : Bool × Mtm :=
  let m := { m with activesync := m.activesync - 1, active := m.active - 1 }
  if m.activesync ≠ 0 then (false, { m with closedSync := true })
  else (true, { m with closedSync := true, closedAsync := true, resv := 0 })

/-- The last sync operation after the last async one has left: the commit record is written and
async operations may enter the next transaction. -/
def allowAsync (m : Mtm) : Mtm := { m with closedSync := true, closedAsync := false }

/-- The end of `top_end_sync`: the sync operations that wait are let in. -/
def allowAll (m : Mtm) : Mtm :=
  { m with
    active := m.active + m.wantin, resv := (m.resv + m.resvWantin) % 2 ^ 32, activesync := m.wantin,
    wantin := 0, closedSync := false, closedAsync := false, resvWantin := 0, seq := m.seq + 1 }

def topEndAsync (m : Mtm) : Mtm := { m with active := m.active - 1 }

/-! ### Threads -/

inductive Pc
  | idle
  /-- let into the next transaction, waiting for the sequence number to change -/
  | want (seq : BitVec 16)
  | sync
  | async
  /-- ended a sync operation that was not the last one -/
  | ended (seq : BitVec 16)
  /-- last sync operation, waiting for the async ones -/
  | draining
  /-- waiting for the commit record to reach the log -/
  | committing
  deriving DecidableEq

/-- `members i` are the sizes admitted to transaction `i`; `tid` is the transaction that async
operations enter, and `nextTid` the one of the sync operations that have to wait. -/
structure State (T : Type) where
  mtm : Mtm
  pc : T → Pc
  tid : ℕ
  nextTid : ℕ
  members : ℕ → List ℕ

inductive Event (T : Type)
  | beginSync (t : T) (size : ℕ)
  | started (t : T)
  | beginAsync (t : T) (size : ℕ)
  | endSync (t : T)
  | woken (t : T)
  | drained (t : T)
  | committed (t : T)
  | endAsync (t : T)

section Exec

variable {T : Type} [DecidableEq T] (s : State T)

def State.admitAll (i size : ℕ) : ℕ → List ℕ :=
  Function.update s.members i (s.members i ++ [size])

def State.move (m : Mtm) (t : T) (q : Pc) : State T :=
  { s with mtm := m, pc := Function.update s.pc t q }

/-- One step of one thread; no result when the thread cannot take it. -/
def State.exec : Event T → Option (State T)
  | .beginSync t size =>
    if s.pc t = .idle then
      match topBeginSync p s.mtm size with
      | none => none
      | some (.next, m) =>
        some { s.move m t (.want m.seq) with members := s.admitAll s.nextTid size }
      | some (.current, m) => some { s.move m t .sync with members := s.admitAll s.tid size }
    else none
  | .started t =>
    match s.pc t with
    | .want seq => if seq = s.mtm.seq then none else some (s.move s.mtm t .sync)
    | _ => none
  | .beginAsync t size =>
    if s.pc t = .idle then
      match topBeginAsync p s.mtm size with
      | none => none
      | some m => some { s.move m t .async with members := s.admitAll s.tid size }
    else none
  | .endSync t =>
    if s.pc t = .sync then
      match topEndSync s.mtm with
      | (false, m) => some (s.move m t (.ended m.seq))
      | (true, m) => some (s.move m t .draining)
    else none
  | .woken t =>
    match s.pc t with
    | .ended seq => if seq = s.mtm.seq then none else some (s.move s.mtm t .idle)
    | _ => none
  | .drained t =>
    if s.pc t = .draining ∧ s.mtm.active = 0 then
      some { s.move (allowAsync s.mtm) t .committing with tid := s.tid + 1 }
    else none
  | .committed t =>
    if s.pc t = .committing then
      some { s.move (allowAll s.mtm) t .idle with nextTid := s.tid + 1 }
    else none
  | .endAsync t =>
    if s.pc t = .async then some (s.move (topEndAsync s.mtm) t .idle) else none

end Exec

/-- No thread is in an operation and the log map is as `map_get` leaves it. -/
def Start {T : Type} (s : State T) : Prop :=
  s.mtm.closedSync = false ∧ s.mtm.closedAsync = false ∧ s.mtm.active = 0 ∧ s.mtm.activesync = 0 ∧
  s.mtm.wantin = 0 ∧ s.mtm.resv = 0 ∧ s.mtm.resvWantin = 0 ∧ (∀ t, s.pc t = .idle) ∧
  s.nextTid = s.tid + 1 ∧ ∀ i, s.members i = []

def Step {T : Type} [DecidableEq T] (s s' : State T) : Prop := ∃ e, s.exec p e = some s'

/-- An operation fits: the counters do not overflow, and an async operation that comes while sync
operations wait for the same transaction leaves room for them. -/
def Fits {T : Type} (s : State T) : Event T → Prop
  | .beginSync _ size => size + s.mtm.resv + s.mtm.resvWantin < 2 ^ 32
  | .beginAsync _ size => size + s.mtm.resv + s.mtm.resvWantin < 2 ^ 32 ∧
      (s.mtm.resvWantin = 0 ∨ size + s.mtm.resv + s.mtm.resvWantin ≤ p.maxresv)
  | _ => True

def FitStep {T : Type} [DecidableEq T] (s s' : State T) : Prop :=
  ∃ e, Fits p s e ∧ s.exec p e = some s'

/-- A transaction's reservations fit the log, or all of them are those of one oversized operation:
operations of size zero reserve nothing. -/
def Bounded (sizes : List ℕ) : Prop :=
  sizes.sum ≤ p.maxresv ∨ ∃ size, sizes.filter (0 < ·) = [size]

section Bounded

variable {p} {sizes : List ℕ} {size : ℕ}

theorem bounded_nil : Bounded p [] := .inl (Nat.zero_le _)

theorem bounded_concat_of_le (h : sizes.sum + size ≤ p.maxresv) : Bounded p (sizes ++ [size]) := .inl (by simpa using h)

theorem bounded_concat_of_sum_eq_zero (h : sizes.sum = 0) : Bounded p (sizes ++ [size]) := by
  have hnil : sizes.filter (0 < ·) = [] := by
    rw [List.filter_eq_nil_iff]
    intro x hx
    simp [List.sum_eq_zero_iff.mp h x hx]
  rcases Nat.eq_zero_or_pos size with rfl | hpos
  · exact bounded_concat_of_le (by omega)
  · exact .inr ⟨size, by simp [hnil, hpos]⟩

theorem Bounded.concat_zero (h : Bounded p sizes) : Bounded p (sizes ++ [0]) := by
  rcases h with h | ⟨size, h⟩
  · exact bounded_concat_of_le h
  · exact .inr ⟨size, by simpa using h⟩

end Bounded

/-! ### The invariant -/

/-- Threads inside a sync operation of the transaction that is open. -/
def syncWeight (seq : BitVec 16) : Pc → ℤ
  | .sync => 1
  | .want q => if q = seq then 0 else 1
  | _ => 0

/-- Threads whose sync operation waits for the next transaction. -/
def wantWeight (seq : BitVec 16) : Pc → ℤ
  | .want q => if q = seq then 1 else 0
  | _ => 0

def asyncWeight : Pc → ℤ
  | .async => 1
  | _ => 0

def drainWeight : Pc → ℤ
  | .draining => 1
  | _ => 0

def commitWeight : Pc → ℤ
  | .committing => 1
  | _ => 0

theorem syncWeight_nonneg (seq : BitVec 16) (q : Pc) : 0 ≤ syncWeight seq q := by
  unfold syncWeight
  split
  · exact Int.one_nonneg
  · split_ifs <;> decide
  · exact le_rfl

theorem drainWeight_nonneg (q : Pc) : 0 ≤ drainWeight q := by
  cases q <;> simp [drainWeight]

theorem commitWeight_nonneg (q : Pc) : 0 ≤ commitWeight q := by
  cases q <;> simp [commitWeight]

variable {T : Type} [Fintype T]

/-- The counters count threads, and the thread that ends a transaction is alone. -/
structure Counted (s : State T) : Prop where
  activesync : s.mtm.activesync = tally (syncWeight s.mtm.seq) s.pc
  active : s.mtm.active = tally (syncWeight s.mtm.seq) s.pc + tally asyncWeight s.pc
  wantin : s.mtm.wantin = tally (wantWeight s.mtm.seq) s.pc
  alone : tally drainWeight s.pc + tally commitWeight s.pc ≤ 1
  quiet : tally drainWeight s.pc + tally commitWeight s.pc = 1 → s.mtm.activesync = 0
  opened : s.mtm.closedSync = false → tally drainWeight s.pc = 0 ∧ tally commitWeight s.pc = 0 ∧ s.mtm.wantin = 0
  async : s.mtm.closedAsync = false → tally drainWeight s.pc = 0

/-- The reservations are those of the members of the transactions. -/
structure Reserved (s : State T) : Prop where
  nextTid : (s.nextTid : ℤ) + tally commitWeight s.pc = s.tid + 1
  own : tally drainWeight s.pc = 0 → tally commitWeight s.pc = 0 → s.mtm.resv = (s.members s.tid).sum
  draining : tally drainWeight s.pc = 1 → s.mtm.resv = 0
  next : tally commitWeight s.pc = 0 → s.mtm.resvWantin = (s.members s.nextTid).sum
  shared : tally commitWeight s.pc = 1 → s.mtm.resv + s.mtm.resvWantin = (s.members s.tid).sum
  opened : s.mtm.closedSync = false → s.mtm.resvWantin = 0
  room : s.mtm.resv + s.mtm.resvWantin ≤ p.maxresv ∨ s.mtm.resvWantin = 0
  resv_lt : s.mtm.resv < 2 ^ 32
  fresh : ∀ i, s.nextTid < i → s.members i = []
  bounded : ∀ i, Bounded p (s.members i)

/-- When the sequence number moves on, the waiting sync operations become active. -/
theorem tally_succ_seq {seq : BitVec 16} {pc : T → Pc} (h : tally (syncWeight seq) pc = 0) :
    tally (syncWeight (seq + 1)) pc = tally (wantWeight seq) pc ∧ tally (wantWeight (seq + 1)) pc = 0 := by
  have hq : ∀ t, syncWeight seq (pc t) = 0 := eq_zero_of_tally (syncWeight_nonneg seq) h
  constructor
  · refine tally_congr fun t => ?_
    have := hq t
    cases hpc : pc t <;> simp_all [syncWeight, wantWeight]
  · refine tally_eq_zero fun t => ?_
    have := hq t
    cases hpc : pc t <;> simp_all [syncWeight, wantWeight]

attribute [local simp] State.move tally_update syncWeight wantWeight asyncWeight drainWeight commitWeight

variable {s s' : State T} {e : Event T}

theorem Counted.exec [DecidableEq T] (h : Counted s) (he : s.exec p e = some s') : Counted s' := by
  obtain ⟨h1, h2, h3, h4, h5, h6, h7⟩ := h
  have hd := tally_nonneg drainWeight_nonneg s.pc
  have hc := tally_nonneg commitWeight_nonneg s.pc
  cases e with
  | beginSync t size =>
    simp only [State.exec, topBeginSync] at he
    split_ifs at he with hpc hcl hf hf
    all_goals
      cases he
      constructor <;> simp [hpc] <;> grind -ring -linarith
  | started t | woken t =>
    simp only [State.exec] at he
    split at he
    case h_1 seq hpc =>
      split_ifs at he with hq
      cases he
      constructor <;> simp [hpc, if_neg hq] <;> grind -ring -linarith
    case h_2 => cases he
  | beginAsync t size =>
    simp only [State.exec, topBeginAsync] at he
    split_ifs at he with hpc hcl hf
    cases he
    constructor <;> simp [hpc] <;> grind -ring -linarith
  | endSync t =>
    simp only [State.exec, topEndSync] at he
    split_ifs at he with hpc hl
    all_goals
      have hle := le_tally (syncWeight_nonneg s.mtm.seq) s.pc t
      rw [hpc, syncWeight] at hle
      cases he
      constructor <;> simp [hpc] <;> grind -ring -linarith
  | drained t =>
    simp only [State.exec, allowAsync] at he
    split_ifs at he with hpc
    have hle := le_tally drainWeight_nonneg s.pc t
    rw [hpc.1, drainWeight] at hle
    cases he
    constructor <;> simp [hpc.1] <;> grind -ring -linarith
  | committed t =>
    simp only [State.exec, allowAll] at he
    split_ifs at he with hpc
    have hle := le_tally commitWeight_nonneg s.pc t
    rw [hpc, commitWeight] at hle
    obtain ⟨hs, hw⟩ := tally_succ_seq (h1.symm.trans (h5 (by omega)))
    cases he
    constructor <;> simp [hpc] <;> grind -ring -linarith
  | endAsync t =>
    simp only [State.exec, topEndAsync] at he
    split_ifs at he with hpc
    cases he
    constructor <;> simp [hpc] <;> grind -ring -linarith

section

omit [Fintype T]

attribute [local simp] State.admitAll

theorem sum_admitAll (s : State T) (i j size : ℕ) :
    (s.admitAll j size i).sum = (s.members i).sum + if i = j then size else 0 := by
  by_cases h : i = j
  · subst h
    simp
  · simp [h]

theorem bounded_admitAll {s : State T} {j size : ℕ} (h : ∀ i, Bounded p (s.members i))
    (hj : Bounded p (s.members j ++ [size])) (i : ℕ) : Bounded p (s.admitAll j size i) := by
  by_cases hi : i = j
  · subst hi
    simpa using hj
  · simpa [hi] using h i

theorem fresh_admitAll {s : State T} {j k size : ℕ} (h : ∀ i, k < i → s.members i = []) (hj : j ≤ k)
    (i : ℕ) (hi : k < i) : s.admitAll j size i = [] := by
  rw [State.admitAll, Function.update_of_ne (by omega)]
  exact h i hi

end

variable [DecidableEq T]

theorem Params.mod_ulong {n : ℕ} (h : n < 2 ^ 32) : n % 2 ^ p.ulongBits = n :=
  Nat.mod_eq_of_lt (h.trans_le (Nat.pow_le_pow_right (by omega) p.le_ulongBits))

theorem Reserved.exec (hs : Counted s) (h : Reserved p s) (hf : Fits p s e) (he : s.exec p e = some s') :
    Reserved p s' := by
  obtain ⟨h1, h2, h3, h4, h5, h6, h7, hlt, h8, h9⟩ := h
  have hd := tally_nonneg drainWeight_nonneg s.pc
  have hc := tally_nonneg commitWeight_nonneg s.pc
  have ha := hs.alone
  cases e with
  | beginSync t size =>
    simp only [State.exec, topBeginSync] at he
    simp only [Fits] at hf
    split_ifs at he with hpc hcl hfl hfl
    · rw [p.mod_ulong (by omega)] at hfl
      cases he
      have hsum : (s.members s.nextTid).sum + size ≤ p.maxresv := by grind -ring -linarith
      constructor <;> simp [hpc, sum_admitAll]
      case fresh => exact fresh_admitAll h8 le_rfl
      case bounded => exact bounded_admitAll p h9 (bounded_concat_of_le hsum)
      all_goals grind -ring -linarith
    · rw [p.mod_ulong (by omega)] at hfl
      cases he
      have hc' : s.mtm.closedSync = false := by simpa using hcl
      obtain ⟨hd0, hc0, -⟩ := hs.opened hc'
      have hn : Bounded p (s.members s.tid ++ [size]) := by
        rcases Nat.eq_zero_or_pos size with rfl | hpos
        · exact (h9 _).concat_zero
        · by_cases hr : s.mtm.resv = 0
          · exact bounded_concat_of_sum_eq_zero (by rw [← h2 hd0 hc0, hr])
          · exact bounded_concat_of_le (by grind -ring -linarith)
      constructor <;> simp [hpc, sum_admitAll]
      case fresh => exact fresh_admitAll h8 (by omega)
      case bounded => exact bounded_admitAll p h9 hn
      all_goals grind -ring -linarith
  | beginAsync t size =>
    simp only [State.exec, topBeginAsync] at he
    obtain ⟨hf, ht⟩ := hf
    split_ifs at he with hpc hcl hfl
    rw [p.mod_ulong (by omega)] at hfl
    cases he
    have hd0 := hs.async (by simpa using hcl)
    have hn : Bounded p (s.members s.tid ++ [size]) := by
      by_cases hr : s.mtm.resv = 0 ∧ s.mtm.resvWantin = 0
      · exact bounded_concat_of_sum_eq_zero (by grind -ring -linarith)
      · exact bounded_concat_of_le (by grind -ring -linarith)
    constructor <;> simp [hpc, sum_admitAll]
    case fresh => exact fresh_admitAll h8 (by omega)
    case bounded => exact bounded_admitAll p h9 hn
    all_goals grind -ring -linarith
  | started t | woken t =>
    simp only [State.exec] at he
    split at he
    case h_1 seq hpc =>
      split_ifs at he with hsq
      cases he
      constructor <;> simp [hpc] <;> grind -ring -linarith
    case h_2 => cases he
  | endSync t =>
    simp only [State.exec, topEndSync] at he
    have hq := hs.quiet
    split_ifs at he with hpc hl
    all_goals
      cases he
      constructor <;> simp [hpc] <;> grind -ring -linarith
  | drained t =>
    simp only [State.exec, allowAsync] at he
    split_ifs at he with hpc
    have hle := le_tally drainWeight_nonneg s.pc t
    rw [hpc.1, drainWeight] at hle
    cases he
    constructor <;> simp [hpc.1] <;> grind -ring -linarith
  | committed t =>
    simp only [State.exec, allowAll] at he
    split_ifs at he with hpc
    have hle := le_tally commitWeight_nonneg s.pc t
    rw [hpc, commitWeight] at hle
    cases he
    have hmax := p.maxresv_lt
    constructor <;> simp [hpc] <;> grind -ring -linarith
  | endAsync t =>
    simp only [State.exec, topEndAsync] at he
    split_ifs at he with hpc
    cases he
    constructor <;> simp [hpc] <;> grind -ring -linarith

section

omit [DecidableEq T]

theorem counted_of_start {s : State T} (h : Start s) : Counted s := by
  obtain ⟨h1, h2, h3, h4, h5, -, -, hpc, -, -⟩ := h
  have hz : ∀ w : Pc → ℤ, w .idle = 0 → tally w s.pc = 0 := fun w hw =>
    tally_eq_zero fun t => by rw [hpc t, hw]
  have hs := hz (syncWeight s.mtm.seq) rfl
  have hn := hz (wantWeight s.mtm.seq) rfl
  have ha := hz asyncWeight rfl
  have hd := hz drainWeight rfl
  have hc := hz commitWeight rfl
  constructor <;> omega

theorem reserved_of_start {s : State T} (h : Start s) : Reserved p s := by
  obtain ⟨-, -, -, -, -, hr, hw, hpc, hn, hmem⟩ := h
  have hc : tally commitWeight s.pc = 0 := tally_eq_zero fun t => by rw [hpc t]; rfl
  constructor <;> simp only [hr, hw, hc, hmem] <;> simp [hn, bounded_nil]

end

/-- In every run of operations that fit, no transaction's reservations exceed the log, unless they
are those of one oversized operation. -/
theorem bounded_of_fits (s : State T) (h : Reachable Start (FitStep p) s) (i : ℕ) : Bounded p (s.members i) := by
  have hin : Counted s ∧ Reserved p s := by
    refine h.invariant (P := fun s => Counted s ∧ Reserved p s)
      (fun s hs => ⟨counted_of_start hs, reserved_of_start p hs⟩) ?_
    rintro s s' ⟨hc, hr⟩ ⟨e, hf, he⟩
    exact ⟨hc.exec p he, hr.exec p hc hf he⟩
  exact hin.2.bounded i

/-! ### An async operation among waiting sync operations -/

def megabyte : Params := ⟨2048 * 504, by decide, 64, by decide⟩

def idleState : State (Fin 3) :=
  ⟨⟨false, false, 0, 0, 0, 0, 0, 0⟩, fun _ => .idle, 0, 1, fun _ => []⟩

theorem start_idleState : Start idleState := by
  simp [Start, idleState]

def State.run {T : Type} [DecidableEq T] (p : Params) (s : State T) : List (Event T) → Option (State T)
  | [] => some s
  | e :: es => (s.exec p e).bind fun s' => s'.run p es

theorem reachable_run {T : Type} [DecidableEq T] {p : Params} {s s' : State T} {es : List (Event T)}
    (hs : Reachable Start (Step p) s) (h : s.run p es = some s') : Reachable Start (Step p) s' := by
  induction es generalizing s with
  | nil =>
    cases h
    exact hs
  | cons e es ih =>
    obtain ⟨s1, h₁, h₂⟩ := Option.bind_eq_some_iff.mp h
    exact ih (hs.next ⟨e, h₁⟩) h₂

/-- A sync operation that fills the next log waits for the commit record; an async operation then
enters the same transaction. -/
def overbooking : List (Event (Fin 3)) :=
  [.beginSync 0 100, .endSync 0, .drained 0, .beginSync 1 (2048 * 504), .beginAsync 2 1000]

theorem bounded_fails_overbooking : ∃ s : State (Fin 3), Reachable Start (Step megabyte) s ∧
      idleState.run megabyte overbooking = some s ∧
      s.members 1 = [2048 * 504, 1000] ∧ ¬ Bounded megabyte (s.members 1) := by
  have hmem : (idleState.run megabyte overbooking).map (fun s => s.members 1) = some [2048 * 504, 1000] := by decide
  obtain ⟨s, hs, hmem⟩ := Option.map_eq_some_iff.mp hmem
  refine ⟨s, reachable_run (.start start_idleState) hs, hs, hmem, ?_⟩
  rw [hmem]
  rintro (h | ⟨size, h⟩)
  · revert h
    decide
  · simp at h

/-- Without waiting sync operations an async operation may enter. -/
theorem bounded_of_fits_two : ∃ s : State (Fin 3), Reachable Start (FitStep megabyte) s ∧
    s.members 0 = [100, 1000] ∧ Bounded megabyte (s.members 0) := by
  have h0 : Reachable Start (FitStep megabyte) idleState := .start start_idleState
  obtain ⟨s1, he1⟩ : ∃ s1, idleState.exec megabyte (.beginSync 0 100) = some s1 := ⟨_, rfl⟩
  have h1 := h0.next ⟨.beginSync 0 100, by simp [Fits, idleState], he1⟩
  obtain ⟨s2, he2⟩ : ∃ s2, s1.exec megabyte (.beginAsync 1 1000) = some s2 := by
    cases he1
    exact ⟨_, rfl⟩
  have hf : Fits megabyte s1 (.beginAsync 1 1000) := by
    cases he1
    exact ⟨by decide, .inl rfl⟩
  have h2 := h1.next ⟨.beginAsync 1 1000, hf, he2⟩
  refine ⟨s2, h2, ?_, bounded_of_fits megabyte s2 h2 0⟩
  cases he1
  cases he2
  decide

end Sol8.UfsLog.Top
