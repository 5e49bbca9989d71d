import Sol8.Lib.Chain
import Sol8.Lib.Run
import Sol8.Os.Bitmap

/-! The dispatch queues (`disp/disp.c`): one list of runnable threads for each priority, a bitmap of the lists in
use, and two cached maxima. There is one queue for each CPU and one for each partition, the kp queue, which holds
unbound threads of high priority. The operations below run with the lock of their queue held. -/

namespace Sol8.Disp

open Function Sol8.Lib Sol8.Os.Bitmap

variable {Q T : Type}

structure Dispq (T : Type) where
  first : Option T
  last : Option T
  sruncnt : ℤ
deriving DecidableEq, Repr

structure DispT (T : Type) where
  npri : ℕ
  q : ℕ → Dispq T
  /-- Bitmap of the lists in use, in words. -/
  qactmap : ℕ → ℕ
  nrunnable : ℤ
  maxrunpri : ℤ
  maxUnboundPri : ℤ

def DispT.empty (npri : ℕ) : DispT T := ⟨npri, fun _ => ⟨none, none, 0⟩, fun _ => 0, 0, -1, -1⟩

def DispT.setQ (dp : DispT T) (pri : ℕ) (dq : Dispq T) : DispT T := { dp with q := update dp.q pri dq }

/-- Raises `disp_maxrunpri` to the priority of a thread that is put on an empty list. -/
def DispT.raiseMax (dp : DispT T) (pri : ℕ) : DispT T :=
  if dp.maxrunpri < pri then { dp with maxrunpri := pri } else dp

def DispT.raiseUnbound (dp : DispT T) (pri : ℕ) : DispT T :=
  if dp.maxUnboundPri < pri then { dp with maxUnboundPri := pri } else dp

/-- The queues, and the fields of the threads that the dispatcher reads and writes. -/
structure State (Q T : Type) where
  disp : Q → DispT T
  link : T → Option T
  /-- `t_state` is `TS_RUN` -/
  run : T → Bool
  /-- `t_schedflag` has `TS_LOAD` and not `TS_ON_SWAPQ` -/
  load : T → Bool
  dispQueue : T → Q
  /-- `DISP_PRIO` -/
  pri : T → ℕ
  /-- `t_bound_cpu` is not NULL -/
  bound : T → Bool

structure Config where
  /-- `BT_ULSHIFT` -/
  ulshift : ℕ
  ncpus : ℕ
  /-- Lowest priority of the kp queue. -/
  kpqpri : ℕ

/-- `SETKP_BACK`, `SETKP_FRONT` -/
inductive Borf
  | back
  | front
deriving DecidableEq, Repr

namespace State

variable [DecidableEq Q] [DecidableEq T] (c : Config)

def queued (s : State Q T) (t : T) : Bool := s.run t && s.load t

def setDisp (s : State Q T) (d : Q) (dp : DispT T) : State Q T := { s with disp := update s.disp d dp }

/-- A swapped thread becomes runnable, but is not put on a queue. -/
def dispSwappedSetrun (s : State Q T) (tp : T) : State Q T := { s with run := update s.run tp true }

/-- `THREAD_RUN` together with the assignment to `t_disp_queue`. -/
def threadRun (s : State Q T) (tp : T) (d : Q) : State Q T :=
  { s with run := update s.run tp true, dispQueue := update s.dispQueue tp d }

/-- The part of `setbackdq` from the choice of the CPU on. -/
def insertBack (s : State Q T) (tp : T) (cp : Q) : State Q T :=
  let tpri : ℕ := s.pri tp
  let s := s.threadRun tp cp
  let s := { s with link := update s.link tp none }
  let dp : DispT T := s.disp cp
  let dq : Dispq T := dp.q tpri
  let dp : DispT T := { dp with nrunnable := dp.nrunnable + 1 }
  let (s, dp) :=
    if dq.sruncnt ≠ 0 then
      let link := match dq.last with
        | some last => update s.link last (some tp)
        | none => s.link
      ({ s with link := link }, dp.setQ tpri { dq with last := some tp, sruncnt := dq.sruncnt + 1 })
    else
      let dp : DispT T := dp.setQ tpri ⟨some tp, some tp, dq.sruncnt + 1⟩
      let dp : DispT T := { dp with qactmap := btSet c.ulshift dp.qactmap tpri }
      (s, dp.raiseMax tpri)
  s.setDisp cp (if s.bound tp then dp else dp.raiseUnbound tpri)

/-- The part of `setfrontdq` from the choice of the CPU on. -/
def insertFront (s : State Q T) (tp : T) (cp : Q) : State Q T :=
  let tpri : ℕ := s.pri tp
  let s := s.threadRun tp cp
  let dp : DispT T := s.disp cp
  let dq : Dispq T := dp.q tpri
  let dp : DispT T := { dp with nrunnable := dp.nrunnable + 1 }
  let (s, dp) :=
    if dq.sruncnt ≠ 0 then
      ({ s with link := update s.link tp dq.first },
        dp.setQ tpri { dq with first := some tp, sruncnt := dq.sruncnt + 1 })
    else
      let dp : DispT T := dp.setQ tpri ⟨some tp, some tp, dq.sruncnt + 1⟩
      let dp : DispT T := { dp with qactmap := btSet c.ulshift dp.qactmap tpri }
      ({ s with link := update s.link tp none }, dp.raiseMax tpri)
  s.setDisp cp (if s.bound tp then dp else dp.raiseUnbound tpri)

def setkpdq (s : State Q T) (tp : T) (kp : Q) (borf : Borf) : State Q T :=
  let tpri : ℕ := s.pri tp
  let s := s.threadRun tp kp
  let dp : DispT T := s.disp kp
  let dq : Dispq T := dp.q tpri
  let dp : DispT T := { dp with nrunnable := dp.nrunnable + 1 }
  if dq.sruncnt ≠ 0 then
    match borf with
    | .back =>
      let link := update s.link tp none
      let link := match dq.last with
        | some last => update link last (some tp)
        | none => link
      { s with link := link }.setDisp kp (dp.setQ tpri { dq with last := some tp, sruncnt := dq.sruncnt + 1 })
    | .front =>
      { s with link := update s.link tp dq.first }.setDisp kp
        (dp.setQ tpri { dq with first := some tp, sruncnt := dq.sruncnt + 1 })
  else
    -- the link of the thread is written in one of the two cases only
    let link := match borf with
      | .back => s.link
      | .front => update s.link tp none
    let dp : DispT T := dp.setQ tpri ⟨some tp, some tp, dq.sruncnt + 1⟩
    let dp : DispT T := { dp with qactmap := btSet c.ulshift dp.qactmap tpri }
    { s with link := link }.setDisp kp ((dp.raiseUnbound tpri).raiseMax tpri)

/-- The thread belongs on the kp queue of its partition. -/
def toKp (s : State Q T) (tp : T) : Bool := c.ncpus ≠ 1 && !s.bound tp && decide (c.kpqpri ≤ s.pri tp)

/-- Puts the thread on the back of the queue of its priority. The CPU is the one the thread is bound to or the one
`cpu_choose` finds. -/
def setbackdq (s : State Q T) (tp : T) (cp kp : Q) : State Q T :=
  if !s.load tp then s.dispSwappedSetrun tp
  else if s.toKp c tp then s.setkpdq c tp kp .back
  else s.insertBack c tp cp

def setfrontdq (s : State Q T) (tp : T) (cp kp : Q) : State Q T :=
  if !s.load tp then s.dispSwappedSetrun tp
  else if s.toKp c tp then s.setkpdq c tp kp .front
  else s.insertFront c tp cp

/-- The end of `dispdeq`, with the lists already changed: the counters, the bitmap and the maxima. -/
def uncount (dp : DispT T) (tpri : ℕ) : DispT T :=
  let dp : DispT T := { dp with nrunnable := dp.nrunnable - 1 }
  let dq : Dispq T := dp.q tpri
  let dp : DispT T := dp.setQ tpri { dq with sruncnt := dq.sruncnt - 1 }
  if dq.sruncnt - 1 = 0 then
    let dp : DispT T := { dp with qactmap := btClear c.ulshift dp.qactmap tpri }
    if dp.nrunnable = 0 then { dp with maxUnboundPri := -1, maxrunpri := -1 }
    else if (tpri : ℤ) = dp.maxrunpri then
      let ipri : ℤ := btGethighbit c.ulshift dp.qactmap (dp.maxrunpri.toNat >>> c.ulshift)
      let dp : DispT T := if ipri < dp.maxUnboundPri then { dp with maxUnboundPri := ipri } else dp
      { dp with maxrunpri := ipri }
    else dp
  else dp

/-- Removes the thread from its queue if it is on one; `none` is the panic. -/
def dispdeq (s : State Q T) (tp : T) : Option (State Q T × Bool) :=
  if !s.run tp then some (s, false)
  else if !s.load tp then some (s, true)
  else
    let tpri : ℕ := s.pri tp
    let d := s.dispQueue tp
    let dp : DispT T := s.disp d
    let dq : Dispq T := dp.q tpri
    match Chain.seek s.link (· == tp) dq.sruncnt.toNat none dq.first with
    | (_, none) => none
    | (trp, some rp) =>
      let (link, dq) := match trp with
        | some prev => (update s.link prev (s.link rp), dq)
        | none => (s.link, { dq with first := s.link rp })
      let dq : Dispq T := if s.link rp = none then { dq with last := trp } else dq
      let dp : DispT T := uncount c (dp.setQ tpri dq) tpri
      some ({ s with link := update link tp none, run := update s.run tp false }.setDisp d dp, true)

/-- The part of `disp` that takes a thread off the own queue. -/
def dispOwn (s : State Q T) (d : Q) : State Q T × Option T :=
  let dp : DispT T := s.disp d
  if dp.maxrunpri = -1 then (s, none)
  else
    let pri : ℕ := dp.maxrunpri.toNat
    let dq : Dispq T := dp.q pri
    match dq.first with
    | none => (s, none)
    | some tp =>
      let dp : DispT T := { dp with nrunnable := dp.nrunnable - 1 }
      let dq : Dispq T := { dq with first := s.link tp, sruncnt := dq.sruncnt - 1 }
      let (s, dp) :=
        if s.link tp = none then
          let dp : DispT T := dp.setQ pri { dq with last := none }
          let dp : DispT T := { dp with qactmap := btClear c.ulshift dp.qactmap pri }
          (s, if dp.nrunnable = 0 then { dp with maxUnboundPri := -1, maxrunpri := -1 }
            else
              let ipri : ℤ := btGethighbit c.ulshift dp.qactmap (pri >>> c.ulshift)
              let dp : DispT T := { dp with maxrunpri := ipri }
              if ipri < dp.maxUnboundPri then { dp with maxUnboundPri := ipri } else dp)
        else ({ s with link := update s.link tp none }, dp.setQ pri dq)
      ({ s with run := update s.run tp false }.setDisp d dp, some tp)

def firstUnbound (s : State Q T) (dq : Dispq T) : Option T :=
  (Chain.seek s.link (fun t => !s.bound t) dq.sruncnt.toNat none dq.first).2

/-- The next active priority below `pri`, or -1. -/
def nextLower (m : ℕ → ℕ) (pri : ℕ) : ℤ :=
  let wx := pri >>> c.ulshift
  let mapword := m wx &&& (btBiw c.ulshift pri - 1)
  if mapword ≠ 0 then (wx <<< c.ulshift + highbit c.ulshift mapword - 1 : ℕ)
  else if 0 < wx then btGethighbit c.ulshift m (wx - 1)
  else -1

/-- The loop of `disp_fix_unbound_pri`. The first argument bounds its rounds. -/
def fixLoop (s : State Q T) (dp : DispT T) : ℕ → ℕ → ℤ
  | 0, _ => -1
  | n + 1, pri =>
    let pri := nextLower c dp.qactmap pri
    if pri < 0 then -1
    else if s.firstUnbound (dp.q pri.toNat) = none then fixLoop s dp n pri.toNat
    else pri

/-- Determines the maximum priority of the unbound threads below `pri`. -/
def dispFixUnboundPri (s : State Q T) (d : Q) (pri : ℕ) : State Q T :=
  let dp : DispT T := s.disp d
  s.setDisp d { dp with maxUnboundPri := s.fixLoop c dp (pri + 1) pri }

/-- De-queues the highest priority unbound thread for the CPU with queue `cp`. -/
def dispGetbest (s : State Q T) (d cp : Q) : State Q T × Option T :=
  let pri : ℤ := (s.disp d).maxUnboundPri
  if pri = -1 then (s, none)
  else
    match s.firstUnbound ((s.disp d).q pri.toNat) with
    | none => (s.dispFixUnboundPri c d pri.toNat, none)
    | some tp =>
      match s.dispdeq c tp with
      | none => (s, none)
      | some (s, _) => ({ s with dispQueue := update s.dispQueue tp cp }, some tp)

/-- One round of the loop of `disp_cpu_inactive`; the lock is dropped after it. -/
def inactiveRound (s : State Q T) (d cp kp : Q) : State Q T :=
  let pri : ℤ := (s.disp d).maxUnboundPri
  if pri = -1 then s
  else
    match s.firstUnbound ((s.disp d).q pri.toNat) with
    | none => s.dispFixUnboundPri c d pri.toNat
    | some tp =>
      match s.dispdeq c tp with
      | none => s
      | some (s, _) => s.setbackdq c tp cp kp

end State

end Sol8.Disp
