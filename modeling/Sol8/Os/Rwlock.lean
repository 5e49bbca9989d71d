import Sol8.Lib.Run

/-! Reader/writer locks of the kernel (`os/rwlock.c`).

One lock, shared by any number of threads. A step of a thread is one access to the word of the lock (a
load, a `casip`, an atomic add or the plain store of a final exit) or one call of the turnstile code;
whoever is between `turnstile_lookup` and the call that drops the lock of the turnstile owns `tsLock`. -/

namespace Sol8.Os.Rwlock

open Function Sol8.Lib

/-- `krw_t`; also names the sleep queue of a turnstile that such threads wait on. -/
inductive Krw
  | reader
  | writer
  deriving DecidableEq

/-! ### The word of the lock

`rw_wwwh` holds `RW_HAS_WAITERS` (1), `RW_WRITE_WANTED` (2) and `RW_WRITE_LOCKED` (4); above them
stands the owner of a write lock, or the number of readers in units of `RW_READ_LOCK` (8). Threads are
aligned, so their addresses are multiples of 8. -/

/-- Addresses of the threads, divided by 8. -/
structure Addresses (T : Type) where
  num : T → ℕ
  injective : Injective num
  pos : ∀ t, 0 < num t

variable {T : Type}

/-- `w & RW_LOCKED`, which is also `w & RW_OWNER`. -/
def locked (w : ℕ) : ℕ := w >>> 3 <<< 3

def hasWaiters (w : ℕ) : Prop := w &&& 1 ≠ 0
def writeWanted (w : ℕ) : Prop := w &&& 2 ≠ 0
def writeLocked (w : ℕ) : Prop := w &&& 4 ≠ 0

instance : DecidablePred hasWaiters := fun w => inferInstanceAs (Decidable (w &&& 1 ≠ 0))
instance : DecidablePred writeWanted := fun w => inferInstanceAs (Decidable (w &&& 2 ≠ 0))
instance : DecidablePred writeLocked := fun w => inferInstanceAs (Decidable (w &&& 4 ≠ 0))

namespace Krw

/-- `lock_value`: `RW_READ_LOCK`, or `RW_WRITE_LOCK` of the thread. -/
def value (a : Addresses T) (t : T) : Krw → ℕ
  | reader => 8
  | writer => 8 * a.num t ||| 4

/-- `w & lock_busy`: `RW_WRITE_CLAIMED` keeps readers out, `RW_LOCKED` keeps writers out. -/
def busy (w : ℕ) : Krw → ℕ
  | reader => w &&& 6
  | writer => locked w

def wait : Krw → ℕ
  | reader => 1
  | writer => 3

end Krw

/-- The value that `rw_exit_wakeup` would leave is that of a free lock with waiters. -/
def finalExit (new : ℕ) : Prop := locked new = 0 ∧ hasWaiters new

instance : DecidablePred finalExit := fun w => inferInstanceAs (Decidable (locked w = 0 ∧ hasWaiters w))

/-! ### Threads -/

/-- What a thread is about to do. A local `old` is in the program counter while it is still needed. -/
inductive Pc
  | idle
  /-- holding the lock, outside of the lock code -/
  | held (rw : Krw)
  /-- `rw_enter_sleep`: the load at the top of the loop, and the `casip` that takes the lock -/
  | enterRead (rw : Krw)
  | enterCas (rw : Krw) (old : ℕ)
  | enterLookup (rw : Krw)
  /-- the inner loop: the load, and the `casip` that sets the wait bits -/
  | enterTest (rw : Krw)
  | enterSet (rw : Krw) (old : ℕ)
  | enterExit (rw : Krw)
  | enterBlock (rw : Krw)
  /-- on a sleep queue -/
  | blocked (rw : Krw)
  /-- on a sleep queue, but the word of the lock already counts this thread as a holder -/
  | granted (rw : Krw)
  /-- `rw_exit_wakeup` of a thread that holds the lock as `rw`: finding `lock_value` -/
  | exitOwner (rw : Krw)
  | exitRead (rw : Krw)
  | exitCas (rw : Krw) (old : ℕ)
  | exitLookup (rw : Krw) (old : ℕ)
  | exitStore (rw : Krw) (old : ℕ)
  /-- `turnstile_wakeup` of the first `n` threads of a queue -/
  | exitWake (q : Krw) (n : ℕ)
  | tryRead
  | tryCas (old : ℕ)
  | tryWrite
  | downCheck
  | downAdd
  | downLookup
  | downStore
  | downWake (n : ℕ)
  | upRead
  | upCas (old : ℕ)
  | panicked
  deriving DecidableEq

/-- The lock with its turnstile and the threads. Sleep queues are in the order of their links. -/
structure State (T : Type) where
  word : ℕ
  tsLock : Option T
  queue : Krw → List T
  /-- dispatch priorities -/
  pri : T → ℕ
  pc : T → Pc

def Init (s : State T) : Prop :=
  s.word = 0 ∧ s.tsLock = none ∧ (∀ q, s.queue q = []) ∧ ∀ t, s.pc t = .idle

namespace State

variable [DecidableEq T] (s : State T)

def goto (t : T) (p : Pc) : State T := { s with pc := update s.pc t p }

/-- `casip(&lp->rw_wwwh, old, new)`, and where the thread goes if it succeeds or not. -/
def casip (t : T) (old new : ℕ) (yes no : Pc) : State T :=
  if s.word = old then { s with word := new, pc := update s.pc t yes } else s.goto t no

def turnstileLookup (t : T) (p : Pc) : Option (State T) :=
  if s.tsLock = none then some { s with tsLock := some t, pc := update s.pc t p } else none

def turnstileExit (t : T) (p : Pc) : State T := { s with tsLock := none, pc := update s.pc t p }

/-- `sleepq_insert`: behind the threads of the same or a higher priority. -/
def sleepqInsert (q : List T) (t : T) : List T :=
  q.takeWhile (fun u => s.pri t ≤ s.pri u) ++ t :: q.dropWhile (fun u => s.pri t ≤ s.pri u)

def turnstileBlock (t : T) (q : Krw) : State T :=
  { s with
    queue := update s.queue q (s.sleepqInsert (s.queue q) t)
    tsLock := none
    pc := update s.pc t (.blocked q) }

/-- `turnstile_wakeup` of `n` threads, which leave `rw_enter_sleep` with the lock. -/
def turnstileWakeup (t : T) (q : Krw) (n : ℕ) (p : Pc) : State T :=
  { s with
    queue := update s.queue q ((s.queue q).drop n)
    tsLock := none
    pc := update (fun u => if u ∈ (s.queue q).take n then .held q else s.pc u) t p }

def waiters : ℕ := (s.queue .reader).length + (s.queue .writer).length

/-- `wpri` of `rw_readers_to_wake`. -/
def writerPri : ℤ :=
  match s.queue .writer with
  | [] => -1
  | w :: _ => s.pri w

def readersToWake : ℕ := ((s.queue .reader).takeWhile fun r => s.writerPri ≤ s.pri r).length

/-- The lock gets the word `w`, with which it is handed to the first `n` threads of queue `q`. -/
def grant (t : T) (q : Krw) (n : ℕ) (w : ℕ) (p : Pc) : State T :=
  { s with
    word := w
    pc := update (fun u => if u ∈ (s.queue q).take n then .granted q else s.pc u) t p }

/-- The bits that a store of `rw_exit_wakeup` sets next to the new holders. -/
def waitBits (more wanted : Bool) : ℕ := (if more then 1 else 0) ||| (if wanted then 2 else 0)

/-- `rw_exit_wakeup` with the turnstile found, up to its store. -/
def exitStore (a : Addresses T) (t : T) (old : ℕ) : State T :=
  if writeLocked old ∧ 0 < s.readersToWake then
    let n := s.readersToWake
    s.grant t .reader n (n * 8 ||| waitBits (n < s.waiters) (s.queue .writer ≠ [])) (.exitWake .reader n)
  else
    match s.queue .writer with
    | [] => s.goto t .panicked
    | w :: rest =>
      s.grant t .writer 1 (Krw.value a w .writer ||| waitBits (1 < s.waiters) (rest ≠ [])) (.exitWake .writer 1)

/-- `rw_downgrade` with the turnstile found, up to its second atomic add. -/
def downStore (t : T) : State T :=
  let n := s.readersToWake
  if 0 < n then
    s.grant t .reader n (s.word + (n * 8 - if s.waiters = n then 1 else 0)) (.downWake n)
  else s.goto t (.downWake n)

/-- The next step of thread `t`, if it has one and need not wait. -/
def next (a : Addresses T) (t : T) : Option (State T) :=
  match s.pc t with
  | .idle | .held _ | .blocked _ | .granted _ | .panicked => none
  | .enterRead rw =>
    if rw.busy s.word = 0 then s.goto t (.enterCas rw s.word)
    else if s.word &&& 12 = 12 ∨ locked s.word = 8 * a.num t then s.goto t .panicked
    else s.goto t (.enterLookup rw)
  | .enterCas rw old => s.casip t old (old + rw.value a t) (.held rw) (.enterRead rw)
  | .enterLookup rw => s.turnstileLookup t (.enterTest rw)
  | .enterTest rw =>
    if rw.busy s.word = 0 then s.goto t (.enterExit rw)
    else if s.word = s.word ||| rw.wait then s.goto t (.enterBlock rw)
    else s.goto t (.enterSet rw s.word)
  | .enterSet rw old => s.casip t old (old ||| rw.wait) (.enterBlock rw) (.enterTest rw)
  | .enterExit rw => s.turnstileExit t (.enterRead rw)
  | .enterBlock rw => s.turnstileBlock t rw
  | .exitOwner _ =>
    if writeLocked s.word then
      if locked s.word ≠ 8 * a.num t then some { s with word := 0, pc := update s.pc t .panicked }
      else s.goto t (.exitRead .writer)
    else if locked s.word = 0 then s.goto t .panicked
    else s.goto t (.exitRead .reader)
  | .exitRead rw =>
    if finalExit (s.word - rw.value a t) then s.goto t (.exitLookup rw s.word)
    else s.goto t (.exitCas rw s.word)
  | .exitCas rw old => s.casip t old (old - rw.value a t) .idle (.exitRead rw)
  | .exitLookup rw old => s.turnstileLookup t (.exitStore rw old)
  | .exitStore _ old => s.exitStore a t old
  | .exitWake q n => s.turnstileWakeup t q n .idle
  | .tryRead =>
    if s.word &&& 6 ≠ 0 then s.goto t .idle else s.goto t (.tryCas s.word)
  | .tryCas old => s.casip t old (old + 8) (.held .reader) .tryRead
  | .tryWrite => s.casip t 0 (Krw.value a t .writer) (.held .writer) .idle
  | .downCheck =>
    if locked s.word ≠ 8 * a.num t then s.goto t .panicked else s.goto t .downAdd
  | .downAdd =>
    let new := s.word + 8 - Krw.value a t .writer
    some { s with
      word := new
      pc := update s.pc t (if hasWaiters new then .downLookup else .held .reader) }
  | .downLookup => s.turnstileLookup t .downStore
  | .downStore => s.downStore t
  | .downWake n => s.turnstileWakeup t .reader n (.held .reader)
  | .upRead =>
    -- clearing the lowest bit is `& ~RW_HAS_WAITERS`
    if s.word >>> 1 <<< 1 ≠ 8 then s.goto t (.held .reader) else s.goto t (.upCas s.word)
  | .upCas old => s.casip t old (old + Krw.value a t .writer - 8) (.held .writer) .upRead

end State

/-! ### Calls and runs -/

inductive Op
  | rwEnter (rw : Krw)
  | rwExit
  | rwTryenter (rw : Krw)
  | rwDowngrade
  | rwTryupgrade

/-- Where a call starts, for a thread that may make it: no thread enters a lock that it holds, and only
holders exit, downgrade or upgrade. -/
def Op.start : Op → Pc → Option Pc
  | .rwEnter rw, .idle => some (.enterRead rw)
  | .rwTryenter .reader, .idle => some .tryRead
  | .rwTryenter .writer, .idle => some .tryWrite
  | .rwExit, .held rw => some (.exitOwner rw)
  | .rwDowngrade, .held .writer => some .downCheck
  | .rwTryupgrade, .held .reader => some .upRead
  | _, _ => none

inductive Event (T : Type)
  | call (t : T) (op : Op)
  | step (t : T)
  /-- new priorities, with the queues sorted anew by `turnstile_change_pri` -/
  | changePri (pri : T → ℕ) (queue : Krw → List T)

variable [DecidableEq T]

def exec (a : Addresses T) (s : State T) : Event T → Option (State T)
  | .call t op => (op.start (s.pc t)).map (s.goto t)
  | .step t => s.next a t
  | .changePri pri queue =>
    if s.tsLock = none ∧ (queue .reader).Perm (s.queue .reader) ∧ (queue .writer).Perm (s.queue .writer) then
      some { s with pri := pri, queue := queue }
    else none

def Step (a : Addresses T) (s s' : State T) : Prop := ∃ e, exec a s e = some s'

end Sol8.Os.Rwlock
