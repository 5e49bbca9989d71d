import Sol8.Lib.Links
import Sol8.Lib.Run

/-! Message queues of STREAMS (`io/stream.c`).

One queue, used by one thread at a time. Messages are addresses of their first block; there are finitely
many of them. A call gives no result where the source would follow a null pointer. -/

namespace Sol8.Io.Streamq

open Function Sol8.Lib

instance neZero_256 : NeZero 256 := ⟨by decide⟩

/-- `QPCTL`, the class of high-priority messages; `QNORM` is 0. -/
def qpctl : ℕ := 0x80

structure Msg where
  /-- `db_type` -/
  type : Fin 256
  band : Fin 256
  /-- bytes in the first block and in those that continue it -/
  size : ℕ
  cont : List ℕ
  /-- `MSGNOGET` -/
  noget : Bool
  deriving DecidableEq

namespace Msg

variable (m : Msg)

def queclass : ℕ := if qpctl ≤ m.type.val then qpctl else 0

/-- `datamsg`: `M_DATA`, `M_PROTO`, `M_PCPROTO` and `M_DELAY`. -/
def datamsg : Bool := m.type.val = 0x00 ∨ m.type.val = 0x01 ∨ m.type.val = 0x83 ∨ m.type.val = 0x0c

def bytecnt : ℕ := m.size + m.cont.sum
def mblkcnt : ℕ := 1 + m.cont.length

end Msg

/-- Flow control of a band: of band 0 in the queue itself, of the others in their `qband_t`. -/
structure Flow where
  count : ℕ
  mblkcnt : ℕ
  hiwat : ℕ
  /-- `QFULL` or `QB_FULL` -/
  full : Bool
  deriving DecidableEq

namespace Flow

variable (f : Flow)

/-- Accounting for a message that is put on the queue. -/
def add (m : Msg) : Flow :=
  { f with
    count := f.count + m.bytecnt
    mblkcnt := f.mblkcnt + m.mblkcnt
    full := f.full || (f.hiwat ≤ f.count + m.bytecnt ∨ f.hiwat ≤ f.mblkcnt + m.mblkcnt) }

/-- Accounting for a message that is taken off. -/
def sub (m : Msg) : Flow :=
  { f with
    count := f.count - m.bytecnt
    mblkcnt := f.mblkcnt - m.mblkcnt
    full := f.full && !(f.count - m.bytecnt < f.hiwat ∧ f.mblkcnt - m.mblkcnt < f.hiwat) }

def reset : Flow := { f with count := 0, mblkcnt := 0, full := false }

end Flow

structure Qband (α : Type) where
  first : Option α
  last : Option α
  flow : Flow

/-- `queue_t` with the messages; `bands` is the list at `q_bandp`, and `q_nband` its length. -/
structure Queue (α : Type) where
  links : Links α
  msg : α → Msg
  flow : Flow
  bands : List (Qband α)

namespace Queue

variable {α : Type} (q : Queue α)

def qband (b : ℕ) : Option (Qband α) := q.bands[b - 1]?

/-- Changes the `qband_t` of a band; band 0 has none. -/
def setBand (b : ℕ) (f : Qband α → Qband α) : Queue α :=
  if b = 0 then q else { q with bands := q.bands.modify (b - 1) f }

/-- Accounting for a message on the list. -/
def account (f : Flow → Flow) (b : ℕ) : Queue α :=
  if b = 0 then { q with flow := f q.flow } else q.setBand b fun qb => { qb with flow := f qb.flow }

section Fields

variable {q} {b : ℕ} {g : Qband α → Qband α} {f : Flow → Flow}

@[simp] theorem setBand_links : (q.setBand b g).links = q.links := by unfold setBand; split <;> rfl
@[simp] theorem setBand_msg : (q.setBand b g).msg = q.msg := by unfold setBand; split <;> rfl
@[simp] theorem length_setBand : (q.setBand b g).bands.length = q.bands.length := by unfold setBand; split <;> simp

@[simp] theorem account_links : (q.account f b).links = q.links := by unfold account; split <;> simp
@[simp] theorem account_msg : (q.account f b).msg = q.msg := by unfold account; split <;> simp
@[simp] theorem length_account : (q.account f b).bands.length = q.bands.length := by unfold account; split <;> simp

end Fields

variable [DecidableEq α]

/-- High-priority messages are forced into band 0. -/
def forceBand (bp : α) : Queue α :=
  if (q.msg bp).queclass = qpctl then { q with msg := update q.msg bp { q.msg bp with band := 0 } } else q

/-- The loop that allocates the bands up to `band`, when `k` calls of `allocband` succeed; says whether
all did. -/
def allocBands (band : ℕ) : ℕ → Queue α → Queue α × Bool
  | 0, q => (q, band ≤ q.bands.length)
  | k + 1, q =>
    if band ≤ q.bands.length then (q, true)
    else allocBands band k
      { q with bands := q.bands ++ [⟨none, none, { count := 0, mblkcnt := 0, hiwat := q.flow.hiwat, full := false }⟩] }

def insertBefore (bp tmp : α) : Queue α := { q with links := q.links.link (q.links.prev tmp) (some tmp) bp }

def insertAfter (bp tmp : α) : Queue α := { q with links := q.links.link (some tmp) (q.links.next tmp) bp }

def insertLast (bp : α) : Queue α := { q with links := q.links.link q.links.last none bp }

def insertFirst (bp : α) : Queue α := { q with links := q.links.link none q.links.first bp }

variable [Fintype α]

/-- Insertion before the first message where a walk from the front stops, first over `f`, then over
`g`. -/
def insertWalk (f g : Msg → Bool) (bp : α) : Option (Queue α) := do
  let tmp ← q.links.walk (fun a => f (q.msg a)) (Fintype.card α) q.links.first
  let tmp ← q.links.walk (fun a => g (q.msg a)) (Fintype.card α) (some tmp)
  some (q.insertBefore bp tmp)

def putqLink (bp : α) : Option (Queue α) :=
  let mcls := (q.msg bp).queclass
  let band := (q.msg bp).band.val
  if q.links.first = none then
    some ((q.insertLast bp).setBand band fun qb => { qb with first := some bp, last := some bp })
  else if band = 0 then do
    let tmp ← q.links.last
    if mcls ≤ (q.msg tmp).queclass then some (q.insertLast bp)
    else q.insertWalk (fun m => mcls ≤ m.queclass) (fun _ => false) bp
  else do
    let qbp ← q.qband band
    match qbp.first with
    | some _ => do
      let tmp ← qbp.last
      some ((q.insertAfter bp tmp).setBand band fun qb => { qb with last := some bp })
    | none => do
      let tmp ← q.links.last
      let q ← if mcls < (q.msg tmp).queclass ∨ band ≤ (q.msg tmp).band.val then some (q.insertLast bp)
        else q.insertWalk (fun m => qpctl ≤ m.type.val) (fun m => band ≤ m.band.val) bp
      some (q.setBand band fun qb => { qb with first := some bp, last := some bp })

def putbqLink (bp : α) : Option (Queue α) :=
  let mcls := (q.msg bp).queclass
  let band := (q.msg bp).band.val
  if q.links.first = none ∨ mcls = qpctl then
    some ((q.insertFirst bp).setBand band fun qb => { qb with first := some bp, last := some bp })
  else if band ≠ 0 then do
    let qbp ← q.qband band
    match qbp.first with
    | some tmp => some ((q.insertBefore bp tmp).setBand band fun qb => { qb with first := some bp })
    | none => do
      let tmp ← q.links.last
      let q ← if mcls < (q.msg tmp).queclass ∨ band < (q.msg tmp).band.val then some (q.insertLast bp)
        else q.insertWalk (fun m => qpctl ≤ m.type.val) (fun m => band < m.band.val) bp
      some (q.setBand band fun qb => { qb with first := some bp, last := some bp })
  else do
    let tmp ← q.links.last
    if mcls < (q.msg tmp).queclass ∨ band < (q.msg tmp).band.val then some (q.insertLast bp)
    else q.insertWalk (fun m => qpctl ≤ m.type.val) (fun m => band < m.band.val) bp

/-- What `putq`, `putbq` and `insq` have in common: the band is allocated, the message linked and
accounted for. The result is that of the call. -/
def put (link : Queue α → Option (Queue α)) (bp : α) (k : ℕ) : Option (Queue α × Bool) :=
  let band := (q.msg bp).band.val
  let (q, ok) := allocBands band k q
  if ok then do
    let q ← link q
    some (q.account (·.add (q.msg bp)) band, true)
  else some (q, false)

/-- `putq`, when `k` calls of `allocband` succeed. -/
def putq (bp : α) (k : ℕ) : Option (Queue α × Bool) := (q.forceBand bp).put (·.putqLink bp) bp k

def putbq (bp : α) (k : ℕ) : Option (Queue α × Bool) := (q.forceBand bp).put (·.putbqLink bp) bp k

/-- `insq` finds the message out of order. -/
def badord (emp : Option α) (mp : α) : Bool :=
  let mcls := (q.msg mp).queclass
  let band := (q.msg mp).band.val
  match emp with
  | some emp =>
    let prev := (q.links.prev emp).map q.msg
    (mcls = qpctl ∧ prev.any (fun p => p.type.val < qpctl)) ∨
      (mcls = 0 ∧ band < (q.msg emp).band.val) ∨ prev.any (fun p => p.type.val < qpctl ∧ p.band.val < band)
  | none => (q.links.last.map q.msg).any fun p => mcls = 0 ∧ p.band.val < band

def insertAt (mp : α) : Option α → Queue α
  | some emp => q.insertBefore mp emp
  | none => q.insertLast mp

def insqLink (emp : Option α) (mp : α) : Queue α :=
  let band := (q.msg mp).band.val
  let q := q.insertAt mp emp
  let differs (a : Option α) : Bool := (a.map fun a => (q.msg a).band.val) ≠ some band
  q.setBand band fun qb =>
    if qb.first = none then { qb with first := some mp, last := some mp }
    else if differs (q.links.prev mp) then { qb with first := some mp }
    else if differs (q.links.next mp) then { qb with last := some mp }
    else qb

def insq (emp : Option α) (mp : α) (k : ℕ) : Option (Queue α × Bool) :=
  let q := q.forceBand mp
  if q.badord emp mp then some (q, false) else q.put (fun q => some (q.insqLink emp mp)) mp k

/-- `rmvq` and `rmvq_noenab` -/
def rmvq (mp : α) : Queue α :=
  let m := q.msg mp
  let next := q.links.next mp
  let prev := q.links.prev mp
  let same (a : Option α) : Option α := a.filter fun a => (q.msg a).band = m.band
  let q := q.setBand m.band.val fun qb =>
    { qb with
      first := if qb.first = some mp then same next else qb.first
      last := if qb.last = some mp then same prev else qb.last }
  ({ q with links := q.links.unlink mp }).account (·.sub m) m.band.val

/-- The links when `getq` takes off the first message. -/
def dropFirst (s : Links α) (bp : α) : Links α :=
  let s' := match s.next bp with
    | none => { s with first := none, last := none }
    | some n => { s with first := some n, prev := update s.prev n none }
  { s' with next := update s'.next bp none, prev := update s'.prev bp none }

/-- `getq`: the message taken off, if there is one. -/
def getq : Queue α × Option α :=
  match q.links.first with
  | none => (q, none)
  | some bp =>
    let m := q.msg bp
    if m.noget then
      match q.links.walk (fun a => (q.msg a).noget) (Fintype.card α) (some bp) with
      | none => (q, none)
      | some bp => (q.rmvq bp, some bp)
    else
      let next := q.links.next bp
      let q := ({ q with links := dropFirst q.links bp }).setBand m.band.val fun qb =>
        if qb.first = qb.last then { qb with first := none, last := none } else { qb with first := next }
      (q.account (·.sub m) m.band.val, some bp)

def reset : Queue α :=
  { q with
    links := { q.links with first := none, last := none }
    flow := q.flow.reset
    bands := q.bands.map fun qb => ⟨none, none, qb.flow.reset⟩ }

/-- The loop of `flushq_common` and `flushband` over the messages that were on the queue: what is not
flushed is put again. -/
def requeue (flushed : Msg → Bool) : ℕ → Option α → Queue α → Option (Queue α)
  | _, none, q => some q
  | 0, some _, _ => none
  | n + 1, some mp, q => do
    let nmp := q.links.next mp
    let q := { q with links := { q.links with next := update q.links.next mp none, prev := update q.links.prev mp none } }
    let q ← if flushed (q.msg mp) then some q else (q.putq mp 0).map Prod.fst
    requeue flushed n nmp q

def flushqCommon (flag pcprotoFlag : Bool) : Option (Queue α) :=
  if q.links.first = none then some q
  else requeue (fun m => !(pcprotoFlag && m.type.val = 0x83) && (flag || m.datamsg)) (Fintype.card α) q.links.first q.reset

/-- The loop of `flushband` up to `last`. -/
def flushbandLoop (pri : ℕ) (flag : Bool) (last : Option α) : ℕ → Option α → Queue α → Option (Queue α × Option α)
  | 0, _, _ => none
  | n + 1, mp, q =>
    if mp = last then some (q, mp)
    else do
      let mp ← mp
      let nmp := q.links.next mp
      let m := q.msg mp
      flushbandLoop pri flag last n nmp (if m.band.val = pri ∧ (flag ∨ m.datamsg) then q.rmvq mp else q)

def flushband (pri : Fin 256) (flag : Bool) : Option (Queue α) :=
  if q.bands.length < pri.val then some q
  else if pri.val = 0 then
    requeue (fun m => m.band.val = 0 && (flag || m.datamsg)) (Fintype.card α) q.links.first q.reset
  else do
    let qbp ← q.qband pri.val
    match qbp.first with
    | none => some q
    | some mp => do
      let last := if qbp.first = qbp.last then q.links.next mp else qbp.last
      let (q, mp) ← flushbandLoop pri.val flag last (Fintype.card α + 1) (some mp) q
      match mp with
      | none => some q
      | some mp =>
        let m := q.msg mp
        some (if m.band.val = pri.val ∧ (flag ∨ m.datamsg) then q.rmvq mp else q)

end Queue

end Sol8.Io.Streamq
