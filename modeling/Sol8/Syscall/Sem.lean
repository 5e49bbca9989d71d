import Sol8.Lib.Run

/-! System V semaphores (`syscall/sem.c`).

One semaphore set. A step is one stretch of code under the lock of the set: a call of `semop` up to
its return or to `cv_wait_sig`, the same from the return of `cv_wait_sig` on, `SETVAL`, `SETALL`, or
one round of `semexit`. A process on a condition variable is taken off by `cv_signal`,
`cv_broadcast` or a signal, and then waits for the lock. -/

namespace Sol8.Syscall.Sem

open Sol8.Lib Function

structure Params where
  nsems : ℕ
  semvmx : ℤ
  semaem : ℤ
  semopm : ℕ
  /-- `semval` is an unsigned short -/
  semvmx_le : semvmx ≤ 65535

inductive Errno
  | e2big | efbig | erange | enospc | einval | eagain | eintr
  deriving DecidableEq

structure Sembuf where
  semNum : ℕ
  semOp : ℤ
  nowait : Bool
  undo : Bool
  deriving DecidableEq

/-- `semncnt` with its condition variable, and `semzcnt` with its own. -/
inductive Kind
  | n | z
  deriving DecidableEq

/-- A call of `semop` in `cv_wait_sig`, with the operation that it could not carry out. -/
structure Waiter (P : Type) where
  proc : P
  done : List Sembuf
  op : Sembuf
  rest : List Sembuf
  deriving DecidableEq

variable {P : Type}

def Waiter.ops (w : Waiter P) : List Sembuf := w.done ++ w.op :: w.rest

def Waiter.chan (w : Waiter P) : ℕ × Kind := (w.op.semNum, if w.op.semOp < 0 then .n else .z)

/-- What took a process off its condition variable. -/
inductive Cause
  | cv | signal
  deriving DecidableEq

structure State (P : Type) where
  semval : ℕ → ℤ
  /-- `semncnt` and `semzcnt`, unsigned shorts -/
  cnt : ℕ × Kind → ℕ
  /-- the processes on `semncnt_cv` and `semzcnt_cv` -/
  cv : ℕ × Kind → List (Waiter P)
  binary : Bool
  /-- the processes that wait for the lock at the end of `cv_wait_sig` -/
  runnable : List (Cause × Waiter P)
  /-- the adjust-on-exit values, 0 without an entry -/
  aoe : P → ℕ → ℤ

/-- What the rest of the system decides: whether a new undo entry fits, and whom `cv_signal`
finds, for each operation of an array. -/
structure Oracle where
  full : ℕ → Option Errno
  pick : ℕ → ℕ

namespace State

/-- The test of `semop` for the `cv_signal` path. -/
def binaryType (s : State P) (prm : Params) : Bool := s.binary && prm.nsems = 1

/-- The counter is cleared and everyone on the condition variable woken. -/
def broadcast (s : State P) (c : ℕ × Kind) : State P :=
  { s with
    cnt := update s.cnt c 0
    cv := update s.cv c []
    runnable := (s.cv c).map (.cv, ·) ++ s.runnable }

/-- The counter is lowered and one process on the condition variable woken. -/
def signal (s : State P) (c : ℕ × Kind) (pick : ℕ) : State P :=
  let i := pick % (s.cv c).length
  { s with
    cnt := update s.cnt c (s.cnt c - 1)
    cv := update s.cv c ((s.cv c).eraseIdx i)
    runnable := ((s.cv c)[i]?.map (Cause.cv, ·)).toList ++ s.runnable }

/-- `if (cnt) { cnt = 0; cv_broadcast(...); }` -/
def wakeAll (s : State P) (c : ℕ × Kind) : State P := if s.cnt c ≠ 0 then s.broadcast c else s

def addVal (s : State P) (j : ℕ) (v : ℤ) : State P :=
  { s with semval := update s.semval j (s.semval j + v) }

/-- A positive operation, from `semval += sem_op` on. -/
def semaV (s : State P) (binaryType : Bool) (pick : ℕ) (op : Sembuf) : State P :=
  let s := s.addVal op.semNum op.semOp
  let signal := op.semOp = 1 ∧ binaryType = true
  let s :=
    if s.cnt (op.semNum, .n) ≠ 0 then
      if signal then s.signal (op.semNum, .n) pick else s.broadcast (op.semNum, .n)
    else s
  if s.cnt (op.semNum, .z) ≠ 0 ∧ s.semval op.semNum = 0 then
    if signal then s.signal (op.semNum, .z) pick else s.broadcast (op.semNum, .z)
  else s

/-- A negative operation that the value allows, from `semval += sem_op` on. -/
def semaP (s : State P) (op : Sembuf) : State P :=
  let s := s.addVal op.semNum op.semOp
  if s.semval op.semNum = 0 then s.wakeAll (op.semNum, .z) else s

variable [DecidableEq P]

def setAoe (s : State P) (p : P) (num : ℕ) (v : ℤ) : State P :=
  { s with aoe := update s.aoe p (update (s.aoe p) num v) }

/-- `full` is the error when there is no room for a new entry. -/
def semaoe (s : State P) (prm : Params) (full : Option Errno) (p : P) (num : ℕ) (val : ℤ) : Except Errno (State P) :=
  if val = 0 then .ok s
  else if val > prm.semaem ∨ val < -prm.semaem then .error .erange
  else if s.aoe p num = 0 then
    match full with
    | some e => .error e
    | none => .ok (s.setAoe p num (-val))
  else
    let aoe := s.aoe p num - val
    if aoe > prm.semaem ∨ aoe < -prm.semaem then .error .erange else .ok (s.setAoe p num aoe)

/-- `semaoe` for an operation with `SEM_UNDO`. -/
def adjust (s : State P) (prm : Params) (full : Option Errno) (p : P) (op : Sembuf) : Except Errno (State P) :=
  if op.undo then s.semaoe prm full p op.semNum op.semOp else .ok s

/-- `semundo` on the operations done, the last one first. The entry of an undone operation is
there, or was removed by it, so there is room for it. -/
def semundo (s : State P) (prm : Params) (p : P) : List Sembuf → State P
  | [] => s
  | op :: ops =>
    if op.semOp = 0 then s.semundo prm p ops
    else
      let s := s.addVal op.semNum (-op.semOp)
      let s :=
        if op.undo then
          match s.semaoe prm none p op.semNum (-op.semOp) with
          | .ok s => s
          | .error _ => s
        else s
      s.semundo prm p ops

end State

inductive Verdict (P : Type)
  | done
  | error (e : Errno)
  | wait (w : Waiter P)

variable [DecidableEq P]

/-- The loop of `semop` over the operations, after those of `done` (the last one first). -/
def semopLoop (prm : Params) (binaryType : Bool) (o : Oracle) (p : P) :
    List Sembuf → List Sembuf → State P → State P × Verdict P
  | _, [], s => (s, .done)
  | done, op :: ops, s =>
    if op.semOp > 0 then
      if op.semOp + s.semval op.semNum > prm.semvmx then (s.semundo prm p done, .error .erange)
      else
        match s.adjust prm (o.full done.length) p op with
        | .error e => (s.semundo prm p done, .error e)
        | .ok s' => semopLoop prm binaryType o p (op :: done) ops (s'.semaV binaryType (o.pick done.length) op)
    else if op.semOp < 0 then
      if s.semval op.semNum ≥ -op.semOp then
        match s.adjust prm (o.full done.length) p op with
        | .error e => (s.semundo prm p done, .error e)
        | .ok s' => semopLoop prm binaryType o p (op :: done) ops (s'.semaP op)
      else if op.nowait then (s.semundo prm p done, .error .eagain)
      else (s.semundo prm p done, .wait ⟨p, done.reverse, op, ops⟩)
    else if s.semval op.semNum ≠ 0 then
      if op.nowait then (s.semundo prm p done, .error .eagain)
      else (s.semundo prm p done, .wait ⟨p, done.reverse, op, ops⟩)
    else semopLoop prm binaryType o p (op :: done) ops s

namespace State

/-- From `check:` up to the return or to `cv_wait_sig`. -/
def check (s : State P) (prm : Params) (o : Oracle) (p : P) (ops : List Sembuf) : State P × Verdict P :=
  semopLoop prm (s.binaryType prm) o p [] ops s

def sleep (s : State P) (w : Waiter P) : State P :=
  { s with
    cnt := update s.cnt w.chan ((s.cnt w.chan + 1) % 2 ^ 16)
    cv := update s.cv w.chan (s.cv w.chan ++ [w])
    binary := s.binary && !decide (w.op.semOp < -1) }

def finish : State P × Verdict P → State P
  | (s, .wait w) => s.sleep w
  | (s, _) => s

/-- A process leaves with `EINTR`. -/
def leave (s : State P) (c : ℕ × Kind) : State P :=
  if s.cnt c ≤ 1 then s.broadcast c else { s with cnt := update s.cnt c (s.cnt c - 1) }

def semunrm (s : State P) (low high : ℕ) : State P :=
  { s with aoe := fun p j => if low ≤ j ∧ j ≤ high then 0 else s.aoe p j }

def setVal (s : State P) (j : ℕ) (v : ℕ) : State P :=
  let s := { s with semval := update s.semval j (v : ℤ) }
  if v ≠ 0 then s.wakeAll (j, .n) else s.wakeAll (j, .z)

def semexitRound (s : State P) (prm : Params) (p : P) (j : ℕ) : State P :=
  let aoe := s.aoe p j
  let v := s.semval j + aoe
  if v < 0 ∨ v > prm.semvmx then s
  else
    let s := { s with semval := update s.semval j v }
    let s := if v = 0 then s.wakeAll (j, .z) else s
    if aoe > 0 then s.wakeAll (j, .n) else s

end State

inductive Event (P : Type)
  | semop (p : P) (ops : List Sembuf) (o : Oracle)
  /-- `cv_wait_sig` returns 1 -/
  | recheck (r : Cause × Waiter P) (o : Oracle)
  /-- a signal takes a process off its condition variable -/
  | interrupt (w : Waiter P)
  /-- `cv_wait_sig` returns 0 -/
  | eintr (r : Cause × Waiter P)
  | setval (num v : ℕ)
  | setall (vals : ℕ → ℕ)
  /-- a round of `semexit`; rounds in any order and number add interleavings only -/
  | semexit (p : P) (num : ℕ)
  | semexitEnd (p : P)

def State.exec (s : State P) (prm : Params) : Event P → Option (State P)
  | .semop p ops o =>
    -- `E2BIG`, an empty array and `EFBIG`
    if ops.length > prm.semopm ∨ ops = [] ∨ ∃ op ∈ ops, op.semNum ≥ prm.nsems then some s
    else some (.finish (s.check prm o p ops))
  | .recheck r o =>
    if r ∈ s.runnable then
      some (.finish (({ s with runnable := s.runnable.erase r } : State P).check prm o r.2.proc r.2.ops))
    else none
  | .interrupt w =>
    if w ∈ s.cv w.chan then
      some { s with
        cv := update s.cv w.chan ((s.cv w.chan).erase w)
        runnable := (.signal, w) :: s.runnable }
    else none
  | .eintr r =>
    if r ∈ s.runnable then
      some (({ s with runnable := s.runnable.erase r } : State P).leave r.2.chan)
    else none
  | .setval num v =>
    if num ≥ prm.nsems ∨ (v : ℤ) > prm.semvmx then some s
    else some ((s.setVal num v).semunrm num num)
  | .setall vals =>
    if ∃ j ∈ List.range prm.nsems, (vals j : ℤ) > prm.semvmx then some s
    else some ((List.range prm.nsems).foldl (fun s j => s.setVal j (vals j)) (s.semunrm 0 prm.nsems))
  | .semexit p num => if num < prm.nsems ∧ s.aoe p num ≠ 0 then some (s.semexitRound prm p num) else none
  | .semexitEnd p => some { s with aoe := update s.aoe p fun _ => 0 }

def newSet : State P := ⟨fun _ => 0, fun _ => 0, fun _ => [], true, [], fun _ _ => 0⟩

end Sol8.Syscall.Sem
