import Sol8.Lib.Chain
import Sol8.Lib.Run

/-! System V message queues (`os/msg.c`): `msgsnd`, `msgrcv` and `msgctl(IPC_RMID)`. Every queue has a lock; the
free list of message headers has another, `msg_lock`, which is taken inside. A step runs from one operation on a
lock of a queue to the next operation on any lock; a section under `msg_lock` is one step. Sleeping calls may be
woken up at any time. -/

namespace Sol8.Os.Msgq

open Function Sol8.Lib

inductive Errno
  | einval
  | eacces
  | eperm
  | efault
  | eagain
  | eidrm
  | eintr
  | e2big
  | enomsg
deriving DecidableEq, Repr

/-- A message: `msg_type`, and the text at `msg_addr` with its length `msg_size`. -/
structure Msg where
  type : ℤ
  size : ℕ
  text : List UInt8
deriving DecidableEq, Repr

/-- `msqid_ds`, with the lock of the queue. -/
structure Msqid (H Th : Type) where
  first : Option H
  last : Option H
  cbytes : ℤ
  qnum : ℤ
  qbytes : ℤ
  /-- `msg_perm.mode & IPC_ALLOC` -/
  alloc : Bool
  seq : ℕ
  lock : Option Th

structure SndArgs where
  msqid : ℤ
  msgsz : ℕ
  nowait : Bool
deriving DecidableEq, Repr

structure RcvArgs where
  msqid : ℤ
  msgsz : ℕ
  msgtyp : ℤ
  noerror : Bool
  nowait : Bool
deriving DecidableEq, Repr

inductive Pc (H : Type)
  /-- No call, or the result of the last one. -/
  | ret (r : Except Errno ℕ)
  /-- `msgsnd` before `msgconv`. -/
  | snd (a : SndArgs)
  /-- Asleep on `msg_cv` of the queue. -/
  | sndFull (a : SndArgs) (type : ℤ)
  /-- Interrupted in its sleep, before the second `msgconv`; the result if the queue is gone. -/
  | sndIntr (a : SndArgs) (gone : Errno)
  /-- Inside the lock of the queue, before `mutex_enter(&msg_lock)`. -/
  | sndHdr (a : SndArgs) (type : ℤ)
  /-- Asleep on `msgfp_cv`. -/
  | sndNoHdr (a : SndArgs) (type : ℤ)
  /-- Inside the lock, with a header, before the text is copied in. -/
  | sndCopy (a : SndArgs) (type : ℤ) (mp : H)
  /-- Inside the lock, at `msgsnd_out1`. -/
  | sndOut1 (a : SndArgs) (mp : H)
  /-- `msgrcv` before `msgconv`. -/
  | rcv (a : RcvArgs)
  | rcvWait (a : RcvArgs)
  /-- Inside the lock, in `msgfree` with the message off the queue. -/
  | rcvFree (a : RcvArgs) (mp : H) (xtsz : ℕ)
  /-- `msgctl(IPC_RMID)` before `msgconv`. -/
  | rmid (msqid : ℤ)
  /-- Inside the lock, at the loop over the messages. -/
  | rmidLoop (msqid : ℤ)
  | rmidFree (msqid : ℤ) (mp : H)

variable {H Th : Type}

structure State (H Th : Type) where
  q : ℕ → Msqid H Th
  next : H → Option H
  msg : H → Msg
  msgfp : Option H
  pc : Th → Pc H

structure Msginfo where
  msgmax : ℕ
  msgmnb : ℕ
  msgmni : ℕ

/-- What the surroundings decide in a step. -/
inductive Choice
  | go
  /-- `ipcaccess`, or the test of the owner, fails. -/
  | denied
  /-- A `copyin` or `copyout` fails. -/
  | fault
  /-- The type that `copyin` reads. -/
  | type (t : ℤ)
  /-- The text that `copyin` reads. -/
  | text (b : List UInt8)
  | signal
deriving DecidableEq, Repr

/-- What a step does to the contents of a queue. -/
inductive Label
  | tau
  | send (i : ℕ) (m : Msg)
  | recv (i : ℕ) (msgtyp : ℤ) (m : Msg) (xtsz : ℕ)
  /-- `IPC_RMID` drops the first message. -/
  | discard (i : ℕ)
deriving DecidableEq, Repr

/-- `-msgtyp` of a `long`. -/
def negLong (x : ℤ) : ℤ := if x = -2 ^ 63 then x else -x

/-- The search of `msgrcv` for a type other than 0: the best message so far and its predecessor. -/
def findmsg (next : H → Option H) (msg : H → Msg) (msgtyp : ℤ) :
    ℕ → Option H → Option H → Option H → Option H → Option H × Option H
  | 0, _, _, smp, spmp => (smp, spmp)
  | _ + 1, none, _, smp, spmp => (smp, spmp)
  | n + 1, some mp, pmp, smp, spmp =>
    if 0 < msgtyp then
      if msgtyp ≠ (msg mp).type then findmsg next msg msgtyp n (next mp) (some mp) smp spmp
      else (some mp, pmp)
    else if (msg mp).type ≤ negLong msgtyp then
      match smp with
      | some best =>
        if (msg best).type ≤ (msg mp).type then findmsg next msg msgtyp n (next mp) (some mp) smp spmp
        else findmsg next msg msgtyp n (next mp) (some mp) (some mp) pmp
      | none => findmsg next msg msgtyp n (next mp) (some mp) (some mp) pmp
    else findmsg next msg msgtyp n (next mp) (some mp) smp spmp

namespace Msginfo

variable (c : Msginfo)

def slot (msqid : ℤ) : ℕ := msqid.toNat % c.msgmni

def seqOf (msqid : ℤ) : ℕ := msqid.toNat / c.msgmni

end Msginfo

namespace State

variable [DecidableEq H] [DecidableEq Th] (c : Msginfo)

def setQ (s : State H Th) (i : ℕ) (qp : Msqid H Th) : State H Th := { s with q := update s.q i qp }

def setPc (s : State H Th) (th : Th) (pc : Pc H) : State H Th := { s with pc := update s.pc th pc }

def setLock (s : State H Th) (i : ℕ) (l : Option Th) : State H Th := s.setQ i { s.q i with lock := l }

def exit (s : State H Th) (th : Th) (i : ℕ) (r : Except Errno ℕ) : State H Th := (s.setLock i none).setPc th (.ret r)

/-- The test of `msgconv`, also made after a sleep. -/
def valid (s : State H Th) (msqid : ℤ) : Bool :=
  decide (0 ≤ msqid) && (s.q (c.slot msqid)).alloc && decide ((s.q (c.slot msqid)).seq = c.seqOf msqid)

def putHdr (s : State H Th) (mp : H) : State H Th :=
  { s with next := update s.next mp s.msgfp, msgfp := some mp }

def unlink (s : State H Th) (i : ℕ) (pmp : Option H) (mp : H) : State H Th :=
  let qp := s.q i
  let (next, qp) := match pmp with
    | none => (s.next, { qp with first := s.next mp })
    | some p => (update s.next p (s.next mp), qp)
  let qp := if s.next mp = none then { qp with last := pmp } else qp
  { s with next := next }.setQ i { qp with qnum := qp.qnum - 1 }

def append (s : State H Th) (i : ℕ) (mp : H) (m : Msg) : State H Th :=
  let qp := s.q i
  let qp := { qp with qnum := qp.qnum + 1, cbytes := qp.cbytes + m.size }
  let next := update s.next mp none
  match qp.last with
  | none => { s with next := next, msg := update s.msg mp m }.setQ i { qp with first := some mp, last := some mp }
  | some last => { s with next := update next last (some mp), msg := update s.msg mp m }.setQ i { qp with last := some mp }

/-- `msgsnd` from `getres` on, with the lock of the queue. -/
def getres (s : State H Th) (th : Th) (a : SndArgs) (type : ℤ) : State H Th :=
  let i := c.slot a.msqid
  -- unsigned arithmetic
  if ((s.q i).qbytes - (s.q i).cbytes) % 2 ^ 64 < a.msgsz then
    if a.nowait then s.exit th i (.error .eagain)
    else (s.setLock i none).setPc th (.sndFull a type)
  else (s.setLock i (some th)).setPc th (.sndHdr a type)

/-- `msgrcv` from `findmsg` on, with the lock of the queue. -/
def rcvFind (s : State H Th) (th : Th) (a : RcvArgs) (fault : Bool) : State H Th × Label :=
  let i := c.slot a.msqid
  let qp := s.q i
  let (smp, spmp) :=
    if a.msgtyp = 0 then (qp.first, none) else findmsg s.next s.msg a.msgtyp qp.qnum.toNat qp.first none none none
  match smp with
  | some mp =>
    let m := s.msg mp
    if a.msgsz < m.size && !a.noerror then (s.exit th i (.error .e2big), .tau)
    else
      let xtsz := if a.msgsz < m.size then a.msgsz else m.size
      if fault then (s.exit th i (.error .efault), .tau)
      else
        let s := s.setQ i { qp with cbytes := qp.cbytes - m.size, lock := some th }
        ((s.unlink i spmp mp).setPc th (.rcvFree a mp xtsz), .recv i a.msgtyp m xtsz)
  | none =>
    if a.nowait then (s.exit th i (.error .enomsg), .tau)
    else ((s.setLock i none).setPc th (.rcvWait a), .tau)

/-- The next step of a call, if it can go on. -/
def step (s : State H Th) (th : Th) (ch : Choice) : Option (State H Th × Label) :=
  match s.pc th, ch with
  | .snd a, ch =>
    let i := c.slot a.msqid
    if (s.q i).lock ≠ none then none
    else if !s.valid c a.msqid then some (s.setPc th (.ret (.error .einval)), .tau)
    else
      match ch with
      | .denied => some (s.exit th i (.error .eacces), .tau)
      | .fault => some (s.exit th i (.error .efault), .tau)
      | .type t => if t < 1 then some (s.exit th i (.error .einval), .tau) else some (s.getres c th a t, .tau)
      | _ => none
  | .sndFull a t, .go =>
    if (s.q (c.slot a.msqid)).lock ≠ none then none
    else if !s.valid c a.msqid then some (s.setPc th (.ret (.error .eidrm)), .tau)
    else some (s.getres c th a t, .tau)
  | .sndFull a _, .signal =>
    if (s.q (c.slot a.msqid)).lock ≠ none then none else some (s.setPc th (.sndIntr a .eidrm), .tau)
  | .sndIntr a gone, .go =>
    if (s.q (c.slot a.msqid)).lock ≠ none then none
    else some (s.setPc th (.ret (.error (if s.valid c a.msqid then .eintr else gone))), .tau)
  | .sndHdr a t, .go =>
    let i := c.slot a.msqid
    match s.msgfp with
    | none =>
      if a.nowait then some (s.exit th i (.error .eagain), .tau)
      else some ((s.setLock i none).setPc th (.sndNoHdr a t), .tau)
    | some mp => some ({ s with msgfp := s.next mp }.setPc th (.sndCopy a t mp), .tau)
  | .sndNoHdr a t, .go =>
    if (s.q (c.slot a.msqid)).lock ≠ none then none
    else if !s.valid c a.msqid then some (s.setPc th (.ret (.error .eidrm)), .tau)
    else some (s.getres c th a t, .tau)
  | .sndNoHdr a _, .signal => some (s.setPc th (.sndIntr a .einval), .tau)
  | .sndCopy a _ mp, .fault => if a.msgsz = 0 then none else some (s.setPc th (.sndOut1 a mp), .tau)
  | .sndCopy a t mp, .text b =>
    let i := c.slot a.msqid
    if b.length ≠ a.msgsz then none
    else some ((s.append i mp ⟨t, a.msgsz, b⟩).exit th i (.ok 0), .send i ⟨t, a.msgsz, b⟩)
  | .sndOut1 a mp, .go => some ((s.putHdr mp).exit th (c.slot a.msqid) (.error .efault), .tau)
  | .rcv a, ch =>
    let i := c.slot a.msqid
    if (s.q i).lock ≠ none then none
    else if !s.valid c a.msqid then some (s.setPc th (.ret (.error .einval)), .tau)
    else
      match ch with
      | .denied => some (s.exit th i (.error .eacces), .tau)
      | .fault => some (s.rcvFind c th a true)
      | .go => some (s.rcvFind c th a false)
      | _ => none
  | .rcvWait a, ch =>
    if (s.q (c.slot a.msqid)).lock ≠ none then none
    else
      match ch with
      | .signal => some (s.setPc th (.ret (.error .eintr)), .tau)
      | .fault =>
        if !s.valid c a.msqid then some (s.setPc th (.ret (.error .eidrm)), .tau) else some (s.rcvFind c th a true)
      | .go =>
        if !s.valid c a.msqid then some (s.setPc th (.ret (.error .eidrm)), .tau) else some (s.rcvFind c th a false)
      | _ => none
  | .rcvFree a mp xtsz, .go => some ((s.putHdr mp).exit th (c.slot a.msqid) (.ok xtsz), .tau)
  | .rmid msqid, ch =>
    let i := c.slot msqid
    if (s.q i).lock ≠ none then none
    else if !s.valid c msqid then some (s.setPc th (.ret (.error .einval)), .tau)
    else
      match ch with
      | .denied => some (s.exit th i (.error .eperm), .tau)
      | .go => some ((s.setLock i (some th)).setPc th (.rmidLoop msqid), .tau)
      | _ => none
  | .rmidLoop msqid, .go =>
    let i := c.slot msqid
    match (s.q i).first with
    | some mp => some ((s.unlink i none mp).setPc th (.rmidFree msqid mp), .discard i)
    | none =>
      let qp := s.q i
      let qp := { qp with
        cbytes := 0
        seq := if 2 ^ 31 ≤ msqid + c.msgmni then 0 else qp.seq + 1
        alloc := false }
      some ((s.setQ i qp).exit th i (.ok 0), .tau)
  | .rmidFree msqid mp, .go => some ((s.putHdr mp).setPc th (.rmidLoop msqid), .tau)
  | _, _ => none

end State

inductive Call
  | msgsnd (a : SndArgs)
  | msgrcv (a : RcvArgs)
  | rmid (msqid : ℤ)

inductive Event (Th : Type)
  | call (th : Th) (k : Call)
  | step (th : Th) (ch : Choice)
  /-- `msgget` makes a new queue in a free slot. -/
  | get (i : ℕ)
  /-- `IPC_SET` changes `msg_qbytes`. -/
  | set (i : ℕ) (qbytes : ℕ)

def Call.start (c : Msginfo) : Call → Pc H
  | .msgsnd a => if c.msgmax < a.msgsz then .ret (.error .einval) else .snd a
  | .msgrcv a => .rcv a
  | .rmid msqid => .rmid msqid

def exec [DecidableEq H] [DecidableEq Th] (c : Msginfo) (s : State H Th) : Event Th → Option (State H Th × Label)
  | .call th k =>
    match s.pc th with
    | .ret _ => some (s.setPc th (k.start c), .tau)
    | _ => none
  | .step th ch => s.step c th ch
  | .get i =>
    if i < c.msgmni ∧ (s.q i).alloc = false then
      some (s.setQ i { s.q i with first := none, last := none, qnum := 0, qbytes := c.msgmnb, alloc := true }, .tau)
    else none
  | .set i qbytes =>
    if (s.q i).alloc = true ∧ (s.q i).lock = none then some (s.setQ i { s.q i with qbytes := qbytes }, .tau) else none

/-- No queue is allocated, every header is free, and no call is under way. -/
structure Init (s : State H Th) : Prop where
  q : ∀ i, (s.q i).first = none ∧ (s.q i).last = none ∧ (s.q i).cbytes = 0 ∧ (s.q i).qnum = 0 ∧
    (s.q i).alloc = false ∧ (s.q i).lock = none
  free : ∃ F, Chain.Spells s.next s.msgfp F ∧ ∀ mp, mp ∈ F
  pc : ∀ th, ∃ r, s.pc th = .ret r

end Sol8.Os.Msgq
