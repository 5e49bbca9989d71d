import Sol8.Lib.Run
import Sol8.Lib.Threads

/-! Task queues (`os/taskq.c`).

A step is what a thread does while it holds `tq_lock`, or one call that it makes without the lock.
Condition variables wake any of their threads and may wake one for no reason. Task structures are
numbers that the allocator hands out; next to the queue the state records which tasks were
dispatched, taken off the queue and run. -/

namespace Sol8.Os.Taskq

open Function Sol8.Lib

/-- A `task_t` on the queue or in a thread; `num` stands for its function and argument, and counts the
dispatches. -/
structure Task where
  addr : ℕ
  num : ℕ
  deriving DecidableEq

/-- `taskq_t`; `live` is `TASKQ_ACTIVE`. -/
structure Tq where
  task : List Task
  freelist : List ℕ
  nalloc : ℤ
  minalloc : ℤ
  maxalloc : ℤ
  active : ℤ
  nthreads : ℤ
  live : Bool

namespace Tq

variable (tq : Tq)

/-- `task_alloc` while it does not need the allocator. -/
def taskAlloc : Option (ℕ × Tq) :=
  match tq.freelist with
  | [] => none
  | t :: rest => if tq.minalloc ≤ tq.nalloc then some (t, { tq with freelist := rest }) else none

/-- `task_free`; no result when the structure goes back to the allocator. -/
def taskFree (t : ℕ) : Option Tq :=
  if tq.nalloc ≤ tq.minalloc then some { tq with freelist := t :: tq.freelist } else none

/-- `task_free(tq, task_alloc(tq, KM_SLEEP))` when no one else uses the queue, with the structures that
the allocator has handed out. -/
def recycle (heap : List ℕ) : Tq × List ℕ :=
  let (t, tq, heap) := match tq.taskAlloc with
    | some (t, tq) => (t, tq, heap)
    | none =>
      let t := heap.foldr max 0 + 1
      (t, { tq with nalloc := tq.nalloc + 1 }, t :: heap)
  match tq.taskFree t with
  | some tq => (tq, heap)
  | none => ({ tq with nalloc := tq.nalloc - 1 }, heap.erase t)

/-- The loop of `taskq_create` for `TASKQ_PREPOPULATE`. -/
def prepopulate : ℕ → Tq × List ℕ → Tq × List ℕ
  | 0, s => s
  | n + 1, s => prepopulate n (s.1.recycle s.2)

/-- The last loop of `taskq_destroy`, at most `fuel` rounds of it. -/
def destroyLoop : ℕ → Tq × List ℕ → Option (Tq × List ℕ)
  | 0, _ => none
  | fuel + 1, s => if s.1.nalloc = 0 then some s else destroyLoop fuel (s.1.recycle s.2)

end Tq

inductive Pc
  /-- about to take the lock at the top of the loop -/
  | start
  /-- in `cv_wait` on `tq_dispatch_cv` -/
  | asleep
  | woken
  | exec (t : Task)
  /-- the function has returned -/
  | done (t : Task)
  /-- in `kmem_cache_free` -/
  | freeing (t : ℕ)
  | exited
  deriving DecidableEq

inductive DispatchPc
  | idle
  /-- in `task_alloc`, without the lock -/
  | unlocked (nosleep : Bool)
  | allocating (nosleep : Bool)
  | allocated (t : ℕ)
  deriving DecidableEq

/-- Where a caller of `taskq_wait` is; `done` has the number of dispatches when it returned. -/
inductive WaitPc
  | idle | asleep | woken | done (num : ℕ)
  deriving DecidableEq

inductive DestroyPc
  | idle
  /-- in `taskq_wait` -/
  | asleep | woken
  /-- `taskq_wait` has returned -/
  | waited
  /-- waiting for the threads to exit -/
  | stopping | stopWoken
  | stopped
  | gone
  deriving DecidableEq

structure State (ι D W : Type) where
  tq : Tq
  pc : ι → Pc
  dispatch : D → DispatchPc
  wait : W → WaitPc
  destroy : DestroyPc
  /-- what the allocator has handed out -/
  heap : List ℕ
  /-- the number of dispatches that put a task on the queue -/
  count : ℕ
  /-- the tasks taken off the queue, and by which thread -/
  taken : List (ι × ℕ)
  /-- the tasks whose function has returned -/
  ran : List (ι × ℕ)

variable {ι D W : Type} [DecidableEq ι] [DecidableEq D] [DecidableEq W]

namespace State

variable (s : State ι D W)

/-- `cv_broadcast(&tq->tq_wait_cv)` -/
def broadcastWait : State ι D W :=
  { s with
    wait := fun w => if s.wait w = .asleep then .woken else s.wait w
    destroy := match s.destroy with
      | .asleep => .woken
      | .stopping => .stopWoken
      | d => d }

/-- `cv_broadcast(&tq->tq_dispatch_cv)` -/
def broadcastDispatch : State ι D W :=
  { s with pc := fun i => if s.pc i = .asleep then .woken else s.pc i }

/-- `cv_signal(&tq->tq_dispatch_cv)`, which wakes this thread. -/
def signalDispatch : Option ι → State ι D W
  | some i => { s with pc := update s.pc i .woken }
  | none => s

/-- The thread that a signal wakes: one that is asleep, if there is one. -/
def CanSignal : Option ι → Prop
  | some i => s.pc i = .asleep
  | none => ∀ i, s.pc i ≠ .asleep

instance [Fintype ι] : ∀ i, Decidable (s.CanSignal i)
  | some i => inferInstanceAs (Decidable (s.pc i = .asleep))
  | none => inferInstanceAs (Decidable (∀ i, s.pc i ≠ .asleep))

/-- One round of the loop of `taskq_thread`, up to where it gives up the lock. -/
def loop (i : ι) : State ι D W :=
  if s.tq.live then
    match s.tq.task with
    | [] =>
      let s' := { s with
        tq := { s.tq with active := s.tq.active - 1 }
        pc := update s.pc i .asleep }
      if s.tq.active - 1 = 0 then s'.broadcastWait else s'
    | t :: rest => { s with
        tq := { s.tq with task := rest }
        pc := update s.pc i (.exec t)
        taken := s.taken ++ [(i, t.num)] }
  else
    { s with
      tq := { s.tq with nthreads := s.tq.nthreads - 1 }
      pc := update s.pc i .exited }.broadcastWait

def taskqThread (i : ι) : Option (State ι D W) :=
  match s.pc i with
  | .start => some (s.loop i)
  | .asleep => none
  | .woken => some ({ s with tq := { s.tq with active := s.tq.active + 1 } }.loop i)
  | .exec t => some { s with pc := update s.pc i (.done t), ran := s.ran ++ [(i, t.num)] }
  | .done t =>
    match s.tq.taskFree t.addr with
    | some tq => some ({ s with tq := tq }.loop i)
    | none => some { s with
        tq := { s.tq with nalloc := s.tq.nalloc - 1 }
        pc := update s.pc i (.freeing t.addr) }
  | .freeing t => some { s with heap := s.heap.erase t, pc := update s.pc i .start }
  | .exited => none

/-- The end of `taskq_dispatch`: the task goes on the queue, and the signal wakes `sig`. -/
def enqueue (d : D) (t : ℕ) (sig : Option ι) : State ι D W :=
  let tq := { s.tq with task := s.tq.task ++ [⟨t, s.count⟩] }
  { s with tq := tq, dispatch := update s.dispatch d .idle, count := s.count + 1 }.signalDispatch sig

/-- The loop condition of `taskq_wait`. -/
def Busy : Prop := s.tq.task ≠ [] ∨ s.tq.active ≠ 0

instance : Decidable s.Busy := inferInstanceAs (Decidable (_ ∨ _))

end State

inductive Event (ι D W : Type)
  | thread (i : ι)
  | wakeThread (i : ι)
  | dispatch (d : D) (nosleep : Bool) (sig : Option ι)
  /-- compare `tq_nalloc` with `tq_maxalloc` -/
  | throttle (d : D)
  /-- `kmem_cache_alloc` returns -/
  | allocate (d : D) (t : Option ℕ)
  | dispatchAllocated (d : D) (sig : Option ι)
  | wait (w : W)
  | wakeWait (w : W)
  | destroyWait
  | destroyStop
  | wakeDestroy
  | destroyLoop (fuel : ℕ)

variable [Fintype ι]

def State.exec (s : State ι D W) : Event ι D W → Option (State ι D W)
  | .thread i => s.taskqThread i
  | .wakeThread i =>
    if s.pc i = .asleep then some { s with pc := update s.pc i .woken } else none
  | .dispatch d nosleep sig =>
    if s.dispatch d = .idle then
      match s.tq.taskAlloc with
      | some (t, tq) => if s.CanSignal sig then some ({ s with tq := tq }.enqueue d t sig) else none
      | none => some { s with dispatch := update s.dispatch d (.unlocked nosleep) }
    else none
  | .throttle d =>
    match s.dispatch d with
    | .unlocked nosleep =>
      -- a caller that does not want to sleep is told so, any other is delayed
      let pc := if s.tq.maxalloc ≤ s.tq.nalloc ∧ nosleep then .idle else .allocating nosleep
      some { s with dispatch := update s.dispatch d pc }
    | _ => none
  | .allocate d t =>
    match s.dispatch d, t with
    | .allocating _, some t =>
      if t ∈ s.heap then none
      else some { s with heap := t :: s.heap, dispatch := update s.dispatch d (.allocated t) }
    | .allocating true, none => some { s with dispatch := update s.dispatch d .idle }
    | _, _ => none
  | .dispatchAllocated d sig =>
    match s.dispatch d with
    | .allocated t =>
      if s.CanSignal sig then
        some ({ s with tq := { s.tq with nalloc := s.tq.nalloc + 1 } }.enqueue d t sig)
      else none
    | _ => none
  | .wait w =>
    if s.wait w = .asleep then none
    else some { s with wait := update s.wait w (if s.Busy then .asleep else .done s.count) }
  | .wakeWait w =>
    if s.wait w = .asleep then some { s with wait := update s.wait w .woken } else none
  | .destroyWait =>
    if s.destroy = .idle ∨ s.destroy = .woken then
      some { s with destroy := if s.Busy then .asleep else .waited }
    else none
  | .destroyStop =>
    let check (s : State ι D W) : State ι D W :=
      { s with destroy := if s.tq.nthreads ≠ 0 then .stopping else .stopped }
    match s.destroy with
    | .waited => some (check { s with tq := { s.tq with live := false } }.broadcastDispatch)
    | .stopWoken => some (check s)
    | _ => none
  | .wakeDestroy =>
    match s.destroy with
    | .asleep => some { s with destroy := .woken }
    | .stopping => some { s with destroy := .stopWoken }
    | _ => none
  | .destroyLoop fuel =>
    if s.destroy = .stopped then
      (Tq.destroyLoop fuel ({ s.tq with minalloc := 0 }, s.heap)).map fun (tq, heap) =>
        { s with tq := tq, heap := heap, destroy := .gone }
    else none

def taskqCreate (minalloc maxalloc : ℤ) (prepopulate : Bool) : State ι D W :=
  let nthreads : ℤ := Fintype.card ι
  let tq : Tq := ⟨[], [], 0, minalloc, maxalloc, nthreads, nthreads, true⟩
  let (tq, heap) := if prepopulate then Tq.prepopulate minalloc.toNat (tq, []) else (tq, [])
  { tq := tq
    pc := fun _ => .start
    dispatch := fun _ => .idle
    wait := fun _ => .idle
    destroy := .idle
    heap := heap
    count := 0
    taken := []
    ran := [] }

end Sol8.Os.Taskq
