import Sol8.Lib.Chain
import Sol8.Lib.Circle
import Sol8.Lib.Run

/-! The cache of datagram requests (`rpc/svc_clts.c`), with which a retransmitted request is recognised. A call of
`svc_clts_kdup` holds `dupreq_lock`, one of `svc_clts_kdupdone` does not, so a call is cut into steps between the
accesses that the two have in common. -/

namespace Sol8.Rpc.Dupreq

open Function Sol8.Lib

/-- What tells two requests apart. -/
structure Req where
  xid : UInt32
  prog : UInt32
  vers : UInt32
  proc : UInt32
  addr : List UInt8
deriving DecidableEq, Repr

/-- The values of `dr_status`. -/
inductive Status
  | inProgress
  | done
  | drop
deriving DecidableEq, Repr

/-- What `svc_clts_kdup` returns, with the response it copies. -/
inductive Dup
  | new
  | inProgress
  | done (res : List UInt8)
  | drop
  | error
deriving DecidableEq, Repr

/-- `struct dupreq`. The length of `resp` is `dr_resp.maxlen`. -/
structure Entry (D : Type) where
  req : Req
  addrMaxlen : ℕ
  resp : List UInt8
  status : Status
  next : D
  chain : Option D

inductive Pc (D : Type)
  | idle
  /-- in `svc_clts_kdup`, with the entry found and the status read from it -/
  | found (r : Req) (d : D) (s : Status)
  /-- in `svc_clts_kdup`, with no entry found -/
  | missing (r : Req)
  /-- in the scan for an entry to recycle, with the number of entries passed -/
  | scanning (r : Req) (d : D) (passed : ℕ)
  /-- executing the request -/
  | holding (d : D)
  /-- in `svc_clts_kdupdone`, before the store of the status -/
  | copied (d : D) (res : Option (List UInt8))
deriving DecidableEq

/-- What callers of the two functions see, and entries that are recycled. -/
inductive Mark (T : Type)
  | kdup (t : T) (r : Req) (res : Dup)
  | kdupdone (t : T) (r : Req) (res : Option (List UInt8))
  | recycled (r : Req)
deriving DecidableEq

structure World (T D : Type) where
  ndupreqs : ℕ
  drhashtbl : ℕ → Option D
  dr : D → Entry D
  drmru : Option D
  /-- the entries that `kmem_alloc` has returned -/
  heap : List D
  /-- the owner of `dupreq_lock` -/
  lock : Option T
  pc : T → Pc D
  trace : List (Mark T)

/-- What `kmem_alloc` returns for the address and for the response, if it is called. -/
structure Mem where
  addr : Bool
  resp : Option (ℕ → UInt8)

inductive Event (T D : Type)
  /-- `svc_clts_kdup` up to the read of the status -/
  | kdup (t : T) (r : Req)
  /-- the rest of a call that has found an entry -/
  | hit (t : T)
  /-- a new entry, or the start of the scan -/
  | miss (t : T) (d : Option D) (mem : Mem)
  /-- one round of the scan -/
  | scan (t : T) (mem : Mem)
  /-- `svc_clts_kdupdone` up to the store of the status -/
  | copy (t : T) (res : Option (List UInt8))
  | store (t : T)

section Model

variable {T D : Type} [DecidableEq T] [DecidableEq D]

def xidHash (xid : UInt32) : ℕ := xid.toNat % 257

def World.set (w : World T D) (d : D) (e : Entry D) : World T D := { w with dr := update w.dr d e }

/-- The call of `t` is over, or holds the lock no longer. -/
def World.leave (w : World T D) (t : T) (pc : Pc D) (m : Mark T) : World T D :=
  { w with lock := none, pc := update w.pc t pc, trace := w.trace ++ [m] }

def search (w : World T D) (r : Req) : Option D :=
  (Chain.seek (fun d => (w.dr d).chain) (fun d => decide ((w.dr d).req = r)) w.ndupreqs none
    (w.drhashtbl (xidHash r.xid))).2

/-- The entry leaves its chain, if it is on it. -/
def unhash (w : World T D) (d : D) : World T D :=
  let h := xidHash (w.dr d).req.xid
  match Chain.seek (fun d => (w.dr d).chain) (fun d' => decide (d' = d)) w.ndupreqs none (w.drhashtbl h) with
  | (none, some d) =>
    { w with drhashtbl := update w.drhashtbl h (w.dr d).chain, trace := w.trace ++ [.recycled (w.dr d).req] }
  | (some p, some d) =>
    { w.set p { w.dr p with chain := (w.dr d).chain } with trace := w.trace ++ [.recycled (w.dr d).req] }
  | (_, none) => w

/-- A new entry joins the ring behind `drmru`. -/
def link (w : World T D) (d : D) : World T D :=
  let e := { w.dr d with resp := [], addrMaxlen := 0 }
  let w := { w with ndupreqs := w.ndupreqs + 1, heap := d :: w.heap }
  match w.drmru with
  | some m => (w.set d { e with next := (w.dr m).next }).set m { w.dr m with next := d }
  | none => w.set d { e with next := d }

/-- `dr_resp.buf`, which is allocated if what there is is too small. -/
def respBuf (e : Entry D) (size : ℕ) (mem : Mem) : Option (List UInt8) :=
  if e.resp.length < size then mem.resp.map fun f => (List.range size).map f else some e.resp

/-- The end of `svc_clts_kdup`, with the entry that is new or to be recycled. -/
def recache (size : Req → ℕ) (w : World T D) (t : T) (r : Req) (d : D) (mem : Mem) : World T D :=
  let w := { w with drmru := some d }
  let e := w.dr d
  if e.addrMaxlen < r.addr.length ∧ mem.addr = false then
    (w.set d { e with req := { r with addr := e.req.addr }, addrMaxlen := 0, status := .drop }).leave t .idle
      (.kdup t r .error)
  else
    let e := { e with
      req := r
      addrMaxlen := if e.addrMaxlen < r.addr.length then r.addr.length else e.addrMaxlen }
    match respBuf e (size r) mem with
    | none => (w.set d { e with resp := [], status := .drop }).leave t .idle (.kdup t r .error)
    | some resp =>
      let h := xidHash r.xid
      let w := w.set d { e with resp := resp, status := .inProgress, chain := w.drhashtbl h }
      { w with drhashtbl := update w.drhashtbl h (some d) }.leave t (.holding d) (.kdup t r .new)

/-- The rest of `svc_clts_kdup` when an entry was found. -/
def hit (size : Req → ℕ) (w : World T D) (t : T) (r : Req) (d : D) : Status → World T D
  | .done => w.leave t .idle (.kdup t r (.done ((w.dr d).resp.take (size r))))
  | .inProgress => (w.set d { w.dr d with status := .inProgress }).leave t .idle (.kdup t r .inProgress)
  | .drop => (w.set d { w.dr d with status := .inProgress }).leave t (.holding d) (.kdup t r .drop)

def miss (maxdupreqs : ℕ) (size : Req → ℕ) (w : World T D) (t : T) (r : Req) (d : Option D) (mem : Mem) :
    Option (World T D) :=
  if w.ndupreqs < maxdupreqs then
    match d with
    | none => some (w.leave t .idle (.kdup t r .error))
    | some d => if d ∈ w.heap then none else some (recache size (link w d) t r d mem)
  else w.drmru.map fun m => { w with pc := update w.pc t (.scanning r (w.dr m).next 0) }

def scan (size : Req → ℕ) (w : World T D) (t : T) (r : Req) (d : D) (passed : ℕ) (mem : Mem) : World T D :=
  if (w.dr d).status = .inProgress then
    { w with pc := update w.pc t (.scanning r (w.dr d).next (passed + 1)) }
  else recache size (unhash w d) t r d mem

/-- `bcopy` into the response of an entry. -/
def overwrite (buf res : List UInt8) : List UInt8 := res.take buf.length ++ buf.drop res.length

/-- A response is as long as the responses to its request are, which is also what `svc_clts_kdup` was told. -/
def copy (size : Req → ℕ) (w : World T D) (t : T) (d : D) : Option (List UInt8) → Option (World T D)
  | some res =>
    if res.length = size (w.dr d).req then
      let w := w.set d { w.dr d with resp := overwrite (w.dr d).resp res }
      some { w with pc := update w.pc t (.copied d (some res)) }
    else none
  | none => some { w with pc := update w.pc t (.copied d none) }

def store (w : World T D) (t : T) (d : D) (res : Option (List UInt8)) : World T D :=
  let w := w.set d { w.dr d with status := if res.isSome then .done else .drop }
  { w with pc := update w.pc t .idle, trace := w.trace ++ [.kdupdone t (w.dr d).req res] }

def exec (maxdupreqs : ℕ) (size : Req → ℕ) (w : World T D) : Event T D → Option (World T D)
  | .kdup t r =>
    if w.pc t = .idle ∧ w.lock = none then
      let pc := match search w r with
        | some d => .found r d (w.dr d).status
        | none => .missing r
      some { w with lock := some t, pc := update w.pc t pc }
    else none
  | .hit t =>
    match w.pc t with
    | .found r d s => some (hit size w t r d s)
    | _ => none
  | .miss t d mem =>
    match w.pc t with
    | .missing r => miss maxdupreqs size w t r d mem
    | _ => none
  | .scan t mem =>
    match w.pc t with
    | .scanning r d passed => some (scan size w t r d passed mem)
    | _ => none
  | .copy t res =>
    match w.pc t with
    | .holding d => copy size w t d res
    | _ => none
  | .store t =>
    match w.pc t with
    | .copied d res => some (store w t d res)
    | _ => none

end Model

end Sol8.Rpc.Dupreq
