import Sol8.Lib.Cursor
import Sol8.Lib.Run
import Sol8.Lib.SerialNumber

/-! Callout tables (`os/callout.c`).

One table with its hash chains and free list, any number of threads inside `callout_execute` and
`callout_schedule_1`, and callers of `timeout_common` and `untimeout`. A step is one stretch of
code under `ct_lock`; the outer loops of the two walkers give up the lock after every round, which
only adds interleavings. `clock_t` and `callout_id_t` are words of `w` bits; the tick count that
they are read from is kept next to them. Chains are lists of callout structures. -/

namespace Sol8.Os.Callout

open Function Sol8.Lib BitVec

variable {w : ℕ} {T : Type} [DecidableEq T]

/-! ### The table -/

def calloutExecuting (w : ℕ) : BitVec w := BitVec.twoPow w (w - 1)
def calloutLongterm (w : ℕ) : BitVec w := BitVec.twoPow w (w - 2)
def calloutCounterHigh (w : ℕ) : BitVec w := BitVec.twoPow w (w - 3)
def calloutCounterShift : ℕ := 4
def calloutCounterLow (w : ℕ) : BitVec w := BitVec.ofNat w (1 <<< calloutCounterShift)
def calloutLongtermTicks : ℤ := 0x4000
def calloutBucketMask (w : ℕ) : BitVec w := BitVec.ofNat w 511

def calloutHash (x : BitVec w) : ℕ := (x &&& calloutBucketMask w).toNat
def calloutIdhash (x : BitVec w) : ℕ := calloutHash (x >>> calloutCounterShift)
def calloutLbhash (x : BitVec w) : ℕ := calloutHash x

def IsExecuting (xid : BitVec w) : Prop := xid &&& calloutExecuting w ≠ 0

instance (xid : BitVec w) : Decidable (IsExecuting xid) := inferInstanceAs (Decidable (_ ≠ _))

/-- The fields of a callout structure besides its links. -/
structure CalloutT (w : ℕ) (T : Type) where
  xid : BitVec w
  runtime : BitVec w
  executor : Option T

structure CalloutTable (w : ℕ) (T : Type) where
  callout : ℕ → CalloutT w T
  freelist : List ℕ
  curtime : BitVec w
  runtime : BitVec w
  shortId : BitVec w
  longId : BitVec w
  idhash : ℕ → List ℕ
  lbhash : ℕ → List ℕ

/-- `CALLOUT_HASH_UPDATE(INSERT, ...)`. -/
def CalloutTable.hashInsert (ct : CalloutTable w T) (cp : ℕ) (id runtime : BitVec w) : CalloutTable w T :=
  { ct with
    idhash := update ct.idhash (calloutIdhash id) (cp :: ct.idhash (calloutIdhash id))
    lbhash := update ct.lbhash (calloutLbhash runtime) (cp :: ct.lbhash (calloutLbhash runtime)) }

/-- `CALLOUT_HASH_UPDATE(DELETE, ...)`. -/
def CalloutTable.hashDelete (ct : CalloutTable w T) (cp : ℕ) (id runtime : BitVec w) : CalloutTable w T :=
  { ct with
    idhash := update ct.idhash (calloutIdhash id) ((ct.idhash (calloutIdhash id)).erase cp)
    lbhash := update ct.lbhash (calloutLbhash runtime) ((ct.lbhash (calloutLbhash runtime)).erase cp) }

def CalloutTable.set (ct : CalloutTable w T) (cp : ℕ) (c : CalloutT w T) : CalloutTable w T :=
  { ct with callout := update ct.callout cp c }

def nextId (id : BitVec w) : BitVec w := (id - calloutCounterLow w) ||| calloutCounterHigh w

def atLeastOne (delta : BitVec w) : BitVec w := if delta.toInt ≤ 0 then 1 else delta

def calloutInit (tableId lbolt : BitVec w) : CalloutTable w T :=
  let shortId := tableId ||| calloutCounterHigh w
  ⟨fun _ => ⟨0, 0, none⟩, [], lbolt, lbolt, shortId, shortId ||| calloutLongterm w, fun _ => [], fun _ => []⟩

def CalloutTable.newId (ct : CalloutTable w T) (delta : BitVec w) : BitVec w :=
  nextId (if (atLeastOne delta).toInt > calloutLongtermTicks then ct.longId else ct.shortId)

/-- `timeout_common` on the structure `cp`, taken from the free list or from `callout_alloc`;
returns the id. -/
def timeoutCommon (ct : CalloutTable w T) (lbolt delta : BitVec w) (cp : ℕ) : CalloutTable w T × BitVec w :=
  let runtime := lbolt + atLeastOne delta
  let id := ct.newId delta
  let ct := if (atLeastOne delta).toInt > calloutLongtermTicks then { ct with longId := id }
    else { ct with shortId := id }
  ((ct.set cp ⟨id, runtime, (ct.callout cp).executor⟩).hashInsert cp id runtime, id)

/-- What one call of `untimeout` does under the lock. -/
inductive UntimeoutResult (w : ℕ) (T : Type)
  /-- the callout is taken off the table; the value is the time left -/
  | cancelled (cp : ℕ) (ct : CalloutTable w T) (timeLeft : ℤ)
  /-- `-1`: the caller is the handler itself -/
  | self
  /-- waits for `c_xid` of the structure to change -/
  | wait (cp : ℕ) (xid : BitVec w)
  /-- `-1`: there is no such callout -/
  | notFound
  /-- the id is none that `timeout_common` returns -/
  | panic

def untimeout (ct : CalloutTable w T) (lbolt id : BitVec w) (curthread : T) : UntimeoutResult w T :=
  match (ct.idhash (calloutIdhash id)).find? fun cp =>
      (ct.callout cp).xid = id ∨ (ct.callout cp).xid = id ||| calloutExecuting w with
  | none =>
    if id ≠ 0 ∧ id &&& (calloutCounterHigh w ||| calloutExecuting w) ≠ calloutCounterHigh w then .panic
    else .notFound
  | some cp =>
    let c := ct.callout cp
    if c.xid = id then
      let timeLeft := (c.runtime - lbolt).toInt
      let ct := ct.hashDelete cp id c.runtime
      .cancelled cp { ct with freelist := cp :: ct.freelist } (if timeLeft < 0 then 0 else timeLeft)
    else if c.executor = some curthread then .self
    else .wait cp c.xid

/-- The test of the two walks: the callout is due now and no thread runs it. -/
def CalloutTable.Due (ct : CalloutTable w T) (runtime : BitVec w) (cp : ℕ) : Prop :=
  (ct.callout cp).runtime = runtime ∧ ¬ IsExecuting (ct.callout cp).xid

instance (ct : CalloutTable w T) (runtime : BitVec w) (cp : ℕ) : Decidable (ct.Due runtime cp) :=
  inferInstanceAs (Decidable (_ ∧ _))

/-- The inner loop of `callout_execute` over a chain or the rest of one: the next callout to start,
or else the end of the chain, where the global run time advances. -/
def walk (ct : CalloutTable w T) (curthread : T) (runtime : BitVec w) (chain : List ℕ) : Option ℕ × CalloutTable w T :=
  match chain.find? fun cp => ct.Due runtime cp with
  | some cp =>
    let c := ct.callout cp
    (some cp, ct.set cp { c with xid := c.xid ||| calloutExecuting w, executor := some curthread })
  | none => (none, if ct.runtime = runtime then { ct with runtime := runtime + 1 } else ct)

def CalloutTable.lbnext (ct : CalloutTable w T) (cp : ℕ) (runtime : BitVec w) : List ℕ :=
  Cursor.after cp (ct.lbhash (calloutLbhash runtime))

def complete (ct : CalloutTable w T) (cp : ℕ) (runtime : BitVec w) : CalloutTable w T :=
  let c := ct.callout cp
  let ct := ct.hashDelete cp c.xid runtime
  { ct.set cp { c with xid := 0 } with freelist := cp :: ct.freelist }

/-- One round of the loop of `callout_schedule_1`, whose `curtime` is the table's; no result when it
ends, be it because a due callout was found and `callout_execute` dispatched. -/
def scheduleRound (ct : CalloutTable w T) : Option (CalloutTable w T) :=
  if (ct.runtime - ct.curtime).toInt ≤ 0 then
    if (ct.lbhash (calloutLbhash ct.runtime)).any fun cp => ct.Due ct.runtime cp then none
    else some { ct with runtime := ct.runtime + 1 }
  else none

/-! ### Threads and history -/

inductive Pc (w : ℕ)
  | idle
  | execute
  | running (cp : ℕ) (runtime : BitVec w)
  | schedule

/-- A caller of `untimeout` that waits for a handler to finish. -/
structure Waiter (w : ℕ) (T : Type) where
  thread : T
  id : BitVec w
  cp : ℕ
  xid : BitVec w
  deriving DecidableEq

/-- What a callout structure is in use for. -/
inductive Slot (w : ℕ) (T : Type)
  | free
  | pending (id : BitVec w)
  | executing (id : BitVec w) (thread : T)

/-- The table, the tick count that `lbolt` is read from, the threads, and a record of what became
of each id. `rt` and `cur` are the ticks that `ct_runtime` and `ct_curtime` are read from, and
`due` the tick that an id was asked for. -/
structure State (w : ℕ) (T : Type) where
  ct : CalloutTable w T
  now : ℕ
  pc : T → Pc w
  waiters : List (Waiter w T)
  rt : ℕ
  cur : ℕ
  slot : ℕ → Slot w T
  issued : List (BitVec w)
  due : BitVec w → ℕ
  /-- ids with the tick of their start -/
  started : List (BitVec w × ℕ)
  finished : List (BitVec w)
  cancelled : List (BitVec w)

def State.lbolt (s : State w T) : BitVec w := BitVec.ofNat w s.now

def State.walk (s : State w T) (t : T) (runtime : BitVec w) (chain : List ℕ) : State w T :=
  match Callout.walk s.ct t runtime chain with
  | (none, ct) =>
    { s with
      ct := ct
      pc := update s.pc t .execute
      rt := if s.ct.runtime = runtime then s.rt + 1 else s.rt }
  | (some cp, ct) =>
    { s with
      ct := ct
      pc := update s.pc t (.running cp runtime)
      slot := update s.slot cp (.executing (s.ct.callout cp).xid t)
      started := ((s.ct.callout cp).xid, s.now) :: s.started }

def State.complete (s : State w T) (t : T) (cp : ℕ) (runtime : BitVec w) : State w T :=
  { s with
    ct := Callout.complete s.ct cp runtime
    pc := update s.pc t .execute
    slot := update s.slot cp .free
    finished := match s.slot cp with
      | .executing id _ => id :: s.finished
      | _ => s.finished }

inductive Event (w : ℕ) (T : Type)
  | tick (n : ℕ)
  /-- with a structure from `callout_alloc`, or without -/
  | timeout (delta : BitVec w) (alloc : Option ℕ)
  | untimeout (t : T) (id : BitVec w)
  | untimeoutDone (u : Waiter w T)
  | enterExecute (t : T)
  | executeRound (t : T)
  | handlerReturn (t : T)
  | enterSchedule (t : T)
  | scheduleRound (t : T)

/-- The structure that a call of `timeout_common` uses and the free list it leaves. -/
def State.take (s : State w T) : Option ℕ → Option (ℕ × List ℕ)
  | none => match s.ct.freelist with
    | [] => none
    | cp :: rest => some (cp, rest)
  | some cp =>
    match s.slot cp with
    | .free => if cp ∈ s.ct.freelist then none else some (cp, s.ct.freelist)
    | _ => none

/-- One step, with what `untimeout` returns when the step ends a call of it. -/
def State.exec (s : State w T) : Event w T → Option (State w T × Option ℤ)
  | .tick n => some ({ s with now := s.now + n }, none)
  | .timeout delta alloc =>
    match s.take alloc with
    | none => none
    | some (cp, freelist) =>
      let (ct, id) := timeoutCommon { s.ct with freelist := freelist } s.lbolt delta cp
      some ({ s with
        ct := ct
        slot := update s.slot cp (.pending id)
        issued := id :: s.issued
        due := update s.due id (s.now + (atLeastOne delta).toInt.toNat) }, none)
  | .untimeout t id =>
    match untimeout s.ct s.lbolt id t with
    | .cancelled cp ct timeLeft =>
      some ({ s with
        ct := ct, slot := update s.slot cp .free, cancelled := id :: s.cancelled },
        some timeLeft)
    | .self => some (s, some (-1))
    | .wait cp xid => some ({ s with waiters := ⟨t, id, cp, xid⟩ :: s.waiters }, none)
    | .notFound => some (s, some (-1))
    | .panic => none
  | .untimeoutDone u =>
    if u ∈ s.waiters ∧ (s.ct.callout u.cp).xid ≠ u.xid then
      some ({ s with waiters := s.waiters.erase u }, some (-1))
    else none
  | .enterExecute t =>
    match s.pc t with
    | .idle => some ({ s with pc := update s.pc t .execute }, none)
    | _ => none
  | .executeRound t =>
    match s.pc t with
    | .execute =>
      -- the test of the outer loop of `callout_execute`
      if (s.ct.runtime - s.ct.curtime).toInt ≤ 0 then
        some (s.walk t s.ct.runtime (s.ct.lbhash (calloutLbhash s.ct.runtime)), none)
      else some ({ s with pc := update s.pc t .idle }, none)
    | _ => none
  | .handlerReturn t =>
    match s.pc t with
    | .running cp runtime =>
      some ((s.complete t cp runtime).walk t runtime (s.ct.lbnext cp runtime), none)
    | _ => none
  | .enterSchedule t =>
    match s.pc t with
    | .idle => some ({ s with
        ct := { s.ct with curtime := s.lbolt }
        cur := s.now
        pc := update s.pc t .schedule }, none)
    | _ => none
  | .scheduleRound t =>
    match s.pc t with
    | .schedule => match scheduleRound s.ct with
      | none => some ({ s with pc := update s.pc t .idle }, none)
      | some ct => some ({ s with ct := ct, rt := s.rt + 1 }, none)
    | _ => none

/-! ### Ids -/

section Ids

variable {id id' : BitVec w}

section

variable (hw : 32 ≤ w)
include hw

theorem isExecuting_iff (x : BitVec w) : IsExecuting x ↔ x.getLsbD (w - 1) = true := by
  rw [IsExecuting, calloutExecuting, and_twoPow]
  split_ifs with h
  · simp only [h, iff_true]
    intro h0
    have := congrArg (BitVec.getLsbD · (w - 1)) h0
    simp [show w - 1 < w by omega] at this
  · simp [h]

theorem isExecuting_or (x : BitVec w) : IsExecuting (x ||| calloutExecuting w) := by
  rw [isExecuting_iff hw, calloutExecuting, getLsbD_or]
  simp [show w - 1 < w by omega]

/-- Marking ids of callouts that do not run yet keeps them apart. -/
theorem or_executing_inj (h : ¬ IsExecuting id) (h' : ¬ IsExecuting id')
    (he : id ||| calloutExecuting w = id' ||| calloutExecuting w) : id = id' := by
  rw [isExecuting_iff hw, Bool.not_eq_true] at h h'
  apply eq_of_getLsbD_eq
  intro i hi
  by_cases hm : i = w - 1
  · rw [hm, h, h']
  · have := congrArg (BitVec.getLsbD · i) he
    simpa [calloutExecuting, getLsbD_twoPow, Ne.symm hm] using this

theorem calloutIdhash_or (id : BitVec w) : calloutIdhash (id ||| calloutExecuting w) = calloutIdhash id := by
  rw [calloutIdhash, calloutIdhash, calloutHash]
  congr 1
  apply eq_of_getLsbD_eq
  intro i hi
  rw [getLsbD_and, getLsbD_and, getLsbD_ushiftRight, getLsbD_ushiftRight, getLsbD_or]
  -- the mark lies above the bits that the mask keeps
  by_cases h9 : i < 9
  · have : (calloutExecuting w).getLsbD (calloutCounterShift + i) = false := by
      rw [calloutExecuting, getLsbD_twoPow, calloutCounterShift]
      simp only [Bool.and_eq_false_iff, decide_eq_false_iff_not]
      omega
    rw [this, Bool.or_false]
  · have : (calloutBucketMask w).getLsbD i = false := by
      rw [calloutBucketMask, getLsbD_ofNat]
      have : Nat.testBit 511 i = false :=
        Nat.testBit_lt_two_pow (lt_of_lt_of_le (by decide) (Nat.pow_le_pow_right (by omega) (not_lt.mp h9)))
      simp [this]
    rw [this, Bool.and_false, Bool.and_false]

/-- The running counter keeps the bits above it and never becomes zero. -/
theorem nextId_spec (h : ¬ IsExecuting id) (hh : id.getLsbD (w - 3) = true) :
    ¬ IsExecuting (nextId id) ∧ (nextId id).getLsbD (w - 3) = true := by
  have hge : 2 ^ (w - 3) ≤ id.toNat := Nat.ge_two_pow_of_testBit hh
  have hpow : 2 ^ 4 ≤ 2 ^ (w - 3) := Nat.pow_le_pow_right (by omega) (by omega)
  rw [isExecuting_iff hw, Bool.not_eq_true] at h ⊢
  have hlt : id.toNat < 2 ^ (w - 1) := by
    apply Nat.lt_pow_two_of_testBit
    intro i hi
    rcases eq_or_lt_of_le hi with rfl | hi
    · exact h
    · exact getLsbD_of_ge id i (by omega)
  have hl : (calloutCounterLow w).toNat = 2 ^ 4 := by
    rw [calloutCounterLow, calloutCounterShift, toNat_ofNat, Nat.mod_eq_of_lt (by omega)]
    rfl
  have hsub : (id - calloutCounterLow w).toNat = id.toNat - 2 ^ 4 := by
    rw [toNat_sub_of_le (by rw [le_def]; omega), hl]
  have hx : (id - calloutCounterLow w).getLsbD (w - 1) = false := Nat.testBit_lt_two_pow (by omega)
  constructor
  · rw [nextId, getLsbD_or, hx, calloutCounterHigh]
    simp
    omega
  · rw [nextId, getLsbD_or, calloutCounterHigh]
    simp [show w - 3 < w by omega]

end

end Ids

end Sol8.Os.Callout
