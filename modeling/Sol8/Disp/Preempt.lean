import Sol8.Lib.Run

/-! Dispatching against insertions (`disp/disp.c`). One CPU looks for a thread in `disp`, commits to it in
`disp_ratify` without the lock of its queue, and goes back if a better one has come. Meanwhile other CPUs put
threads on its queue under the lock, and ask for a preemption in `cpu_resched`. The model interleaves the accesses
to the shared words; memory is sequentially consistent. -/

namespace Sol8.Disp.Preempt

open Function Sol8.Lib

variable {I : Type}

/-- Where `setbackdq` or `setfrontdq` is with a thread of priority `tpri`. -/
inductive InsPc
  | idle
  /-- About to enter the lock of the queue. -/
  | enter (tpri : ℕ)
  /-- About to put the thread on the list of its priority. -/
  | insert (tpri : ℕ)
  /-- The list was empty; about to compare with `disp_maxrunpri`. -/
  | raise (tpri : ℕ)
  /-- At the start of `cpu_resched`. -/
  | readPri (tpri : ℕ)
  /-- With `cpu_dispatch_pri` as it was read. -/
  | setRunrun (tpri : ℕ) (cpupri : ℤ)
  | setKprunrun (tpri : ℕ) (cpupri : ℤ)
  /-- About to leave the lock. -/
  | leave
deriving DecidableEq, Repr

/-- Where a `disp` goes that could not keep its choice: `disp` itself tries again, `disp_getwork` has no work. -/
inductive Retry
  | reschedule
  | noWork
deriving DecidableEq, Repr

inductive CpuPc
  /-- Running a thread of priority `pri` that `disp` has returned; -1 is the idle thread. -/
  | run (pri : ℤ)
  | reschedule
  /-- About to take a thread from the kp queue. -/
  | getKp
  | enter
  /-- In the lock, about to read `disp_maxrunpri`. -/
  | look
  /-- Has taken a thread off its own queue. -/
  | taken (pri : ℕ)
  | leave (pri : ℕ)
  | getwork
  /-- About to clear `cpu_runrun`, at the start of `disp_ratify`. -/
  | clearRunrun (tpri : ℕ) (retry : Retry)
  | clearKprunrun (tpri : ℕ) (retry : Retry)
  | readMax (tpri : ℕ) (retry : Retry)
  /-- With `disp_maxrunpri` of the own queue as it was read. -/
  | judge (tpri : ℕ) (maxpri : ℤ) (retry : Retry)
  /-- About to put the thread back. -/
  | reject (tpri : ℕ) (retry : Retry)
  | putBack (tpri : ℕ) (retry : Retry)
  /-- In the `setfrontdq` of `disp_ratify`. -/
  | inSetfront (retry : Retry)
  /-- Choosing the idle thread: three writes. -/
  | idlePri
  | idleKprunrun
  | idleRunrun
deriving DecidableEq, Repr

/-- The words both sides use. The CPU itself is the inserter `none`. -/
structure State (I : Type) where
  /-- `dq_sruncnt` of each priority -/
  sruncnt : ℕ → ℕ
  maxrunpri : ℤ
  dispatchPri : ℤ
  runrun : Bool
  kprunrun : Bool
  /-- Who has `disp_lock`. -/
  lock : Option (Option I)
  ins : Option I → InsPc
  cpu : CpuPc

/-- `upreemptpri` and `kpreemptpri` -/
structure Config where
  upreemptpri : ℤ
  kpreemptpri : ℤ

namespace State

variable [DecidableEq I] (c : Config)

def setIns (s : State I) (a : Option I) (pc : InsPc) : State I := { s with ins := update s.ins a pc }

def insStep (s : State I) (a : Option I) : Option (State I) :=
  match s.ins a with
  | .idle => none
  | .enter tpri => if s.lock = none then some ({ s with lock := some a }.setIns a (.insert tpri)) else none
  | .insert tpri =>
    let s' := { s with sruncnt := update s.sruncnt tpri (s.sruncnt tpri + 1) }
    some (if s.sruncnt tpri ≠ 0 then s'.setIns a .leave else s'.setIns a (.raise tpri))
  | .raise tpri =>
    some (if s.maxrunpri < tpri then { s with maxrunpri := tpri }.setIns a (.readPri tpri) else s.setIns a .leave)
  | .readPri tpri => some (s.setIns a (.setRunrun tpri s.dispatchPri))
  | .setRunrun tpri cpupri =>
    let s' := if cpupri ≠ -1 ∧ cpupri < tpri ∧ c.upreemptpri ≤ tpri then { s with runrun := true } else s
    some (s'.setIns a (.setKprunrun tpri cpupri))
  | .setKprunrun tpri cpupri =>
    let s' := if cpupri ≠ -1 ∧ cpupri < tpri ∧ c.kpreemptpri ≤ tpri then { s with kprunrun := true } else s
    some (s'.setIns a .leave)
  | .leave => some ({ s with lock := none }.setIns a .idle)

/-- The highest priority under `n` with threads, or -1. -/
def highest (sruncnt : ℕ → ℕ) : ℕ → ℤ
  | 0 => -1
  | n + 1 => if sruncnt n ≠ 0 then n else highest sruncnt n

def take (s : State I) (pri : ℕ) : State I :=
  let sruncnt := update s.sruncnt pri (s.sruncnt pri - 1)
  { s with
    sruncnt := sruncnt
    maxrunpri := if sruncnt pri = 0 then highest sruncnt pri else s.maxrunpri }

/-- Events of the CPU where more than one thing can happen: what it finds on other queues, and what it reads of
other data. -/
inductive Choice
  /-- The next access is the only one. -/
  | next
  /-- `disp_getbest` of the kp queue or of another CPU's queue gave a thread of this priority. -/
  | got (pri : ℕ)
  /-- There is nothing to take elsewhere. -/
  | nothing
  | offline
  /-- `disp_maxrunpri` of the kp queue, as it is read. -/
  | kp (maxkpri : ℤ)
  /-- The priority of the thread that called `disp`. -/
  | curthread (pri : ℤ)
  /-- `setfrontdq` takes the own queue, or another one. -/
  | own
  | elsewhere
deriving DecidableEq, Repr

def cpuStep (s : State I) (ch : Choice) : Option (State I) :=
  match s.cpu, ch with
  | .run _, .next => some { s with cpu := .reschedule }
  -- the loop over the kp queue
  | .reschedule, .kp pri => some { s with cpu := if 0 ≤ pri ∧ s.maxrunpri ≤ pri then .getKp else .enter }
  | .getKp, .got pri => some { s with dispatchPri := pri, cpu := .clearRunrun pri .reschedule }
  | .getKp, .nothing => some { s with cpu := .enter }
  | .getKp, .offline => some { s with cpu := .enter }
  | .enter, .next => if s.lock = none then some { s with lock := some none, cpu := .look } else none
  | .look, .next =>
    if s.maxrunpri = -1 then some { s with lock := none, cpu := .getwork }
    else some { s.take s.maxrunpri.toNat with cpu := .taken s.maxrunpri.toNat }
  | .look, .offline => if s.maxrunpri = -1 then some { s with lock := none, cpu := .idlePri } else none
  | .taken pri, .next => some { s with dispatchPri := pri, cpu := .leave pri }
  | .leave pri, .next => some { s with lock := none, cpu := .clearRunrun pri .reschedule }
  | .getwork, .got pri => some { s with dispatchPri := pri, cpu := .clearRunrun pri .noWork }
  | .getwork, .nothing => some { s with cpu := .idlePri }
  -- disp_ratify
  | .clearRunrun tpri retry, .next => some { s with runrun := false, cpu := .clearKprunrun tpri retry }
  | .clearKprunrun tpri retry, .next => some { s with kprunrun := false, cpu := .readMax tpri retry }
  | .readMax tpri retry, .next => some { s with cpu := .judge tpri s.maxrunpri retry }
  | .judge tpri maxpri retry, .kp maxkpri =>
    let maxpri := if maxpri < maxkpri then maxkpri else maxpri
    some { s with cpu := if tpri < maxpri then .reject tpri retry else .run tpri }
  | .reject tpri retry, .curthread pri => some { s with dispatchPri := pri, cpu := .putBack tpri retry }
  | .putBack tpri retry, .own => some { s.setIns none (.enter tpri) with cpu := .inSetfront retry }
  | .putBack _ retry, .elsewhere => some { s with cpu := .inSetfront retry }
  | .inSetfront retry, .next =>
    if s.ins none = .idle then
      some { s with cpu := match retry with
        | .reschedule => .reschedule
        | .noWork => .idlePri }
    else none
  -- the idle thread
  | .idlePri, .next => some { s with dispatchPri := -1, cpu := .idleKprunrun }
  | .idleKprunrun, .next => some { s with kprunrun := false, cpu := .idleRunrun }
  | .idleRunrun, .next => some { s with runrun := false, cpu := .run (-1) }
  | _, _ => none

end State

inductive Event (I : Type)
  /-- Another CPU calls `setbackdq` or `setfrontdq` with a thread for this queue. -/
  | call (i : I) (tpri : ℕ)
  | ins (a : Option I)
  | cpu (ch : State.Choice)

def exec [DecidableEq I] (c : Config) (s : State I) : Event I → Option (State I)
  | .call i tpri => if s.ins (some i) = .idle then some (s.setIns (some i) (.enter tpri)) else none
  | .ins a => s.insStep c a
  | .cpu ch => s.cpuStep ch

def Step [DecidableEq I] (c : Config) (s s' : State I) : Prop := ∃ e, exec c s e = some s'

/-- The CPU is about to dispatch, nobody is putting a thread on its queue, and `disp_maxrunpri` is the highest
priority with threads. The flags and `cpu_dispatch_pri` are arbitrary. -/
structure Init (s : State I) : Prop where
  cpu : s.cpu = .reschedule
  ins : ∀ a, s.ins a = .idle
  lock : s.lock = none
  max : ∀ q : ℕ, s.sruncnt q ≠ 0 → (q : ℤ) ≤ s.maxrunpri
  top : s.maxrunpri = -1 ∨ ∃ q : ℕ, s.maxrunpri = q ∧ s.sruncnt q ≠ 0

end Sol8.Disp.Preempt
