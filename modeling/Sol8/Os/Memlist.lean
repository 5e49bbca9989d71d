import Sol8.Lib.Chain
import Sol8.Lib.RangeList

/-! Lists of spans of physical memory (`os/memlist_new.c`): adding a span and deleting one. -/

namespace Sol8.Os.Memlist

open Function Sol8.Lib Sol8.Lib.Ranges

variable {P : Type}

/-- A memlist, the elements with their fields, and the list of free ones. -/
structure Lists (P : Type) where
  curmemlist : Option P
  freelist : Option P
  freelistCount : UInt32
  address : P → UInt64
  size : P → UInt64
  next : P → Option P
  prev : P → Option P

/-- `MEML_SPANOP_OK`, `MEML_SPANOP_ESPAN` and `MEML_SPANOP_EALLOC`. -/
inductive Spanop
  | ok
  | espan
  | ealloc
deriving DecidableEq, Repr

/-- The elements do not overlap: no walk along the list needs more steps than there are addresses. -/
def limit : ℕ := 2 ^ 64

variable [DecidableEq P] (s : Lists P)

def memlistGetOne : Option P × Lists P :=
  match s.freelist with
  | none => (none, s)
  | some mlp => (some mlp, { s with freelist := s.next mlp, freelistCount := s.freelistCount - 1 })

def memlistFreeOne (mlp : P) : Lists P :=
  { s with next := update s.next mlp s.freelist, freelist := some mlp, freelistCount := s.freelistCount + 1 }

/-- The span that starts where the element `next` ends. -/
def appendSpan (address bytes : UInt64) (next : P) : Spanop × Lists P :=
  match s.next next with
  | none => (.ok, { s with size := update s.size next (s.size next + bytes) })
  | some mlp =>
    if address + bytes > s.address mlp then (.espan, s)
    else if address + bytes = s.address mlp then
      let s := { s with curmemlist := if s.curmemlist = some next then s.next next else s.curmemlist }
      let s := { s with
        address := update s.address mlp (s.address next)
        size := update s.size mlp (s.size mlp + s.size next + bytes) }
      let s :=
        match s.prev next with
        | some p => { s with next := update s.next p (some mlp) }
        | none => s
      let s := { s with prev := update s.prev mlp (s.prev next) }
      (.ok, memlistFreeOne s next)
    else (.ok, { s with size := update s.size next (s.size next + bytes) })

def insertBefore (prev : Option P) (next dst : P) : Lists P :=
  let s := { s with prev := update s.prev dst prev, next := update s.next dst (some next) }
  let s := { s with prev := update s.prev next (some dst) }
  match prev with
  | none => { s with curmemlist := some dst }
  | some p => { s with next := update s.next p (some dst) }

/-- The search for the place of the span; at the end of the list there is an element before it. -/
def addLoop (address bytes : UInt64) (dst : P) : ℕ → Option P → Option P → Option (Spanop × Lists P)
  | 0, _, _ => none
  | _ + 1, none, none => none
  | _ + 1, some prev, none =>
    let s := { s with next := update s.next prev (some dst) }
    some (.ok, { s with prev := update s.prev dst (some prev), next := update s.next dst none })
  | n + 1, prev, some next =>
    if address > s.address next + s.size next then addLoop address bytes dst n (some next) (s.next next)
    else if address + bytes = s.address next then
      let s := memlistFreeOne s dst
      some (.ok, { s with address := update s.address next address, size := update s.size next (s.size next + bytes) })
    else if address = s.address next + s.size next then some (appendSpan (memlistFreeOne s dst) address bytes next)
    else if address + bytes > s.address next then some (.espan, memlistFreeOne s dst)
    else some (.ok, insertBefore s prev next dst)

def memlistAddSpan (address bytes : UInt64) : Option (Spanop × Lists P) :=
  match memlistGetOne s with
  | (none, s) => some (.ealloc, s)
  | (some dst, s) =>
    let s := { s with address := update s.address dst address, size := update s.size dst bytes }
    match s.curmemlist with
    | none =>
      some (.ok, { s with prev := update s.prev dst none, next := update s.next dst none, curmemlist := some dst })
    | some first => addLoop s address bytes dst limit none (some first)

def findLoop (address : UInt64) : ℕ → Option P → Option (Option P)
  | 0, _ => none
  | _ + 1, none => some none
  | n + 1, some next =>
    if address ≥ s.address next ∧ address < s.address next + s.size next then some (some next)
    else findLoop address n (s.next next)

/-- The span is in the element `next`, and at neither of its ends. -/
def deleteMiddle (address bytes : UInt64) (next : P) : Spanop × Lists P :=
  match memlistGetOne s with
  | (none, s) => (.ealloc, s)
  | (some dst, s) =>
    let s := { s with address := update s.address dst (address + bytes) }
    let s := { s with size := update s.size dst ((s.address next + s.size next) - s.address dst) }
    let s := { s with size := update s.size next (address - s.address next) }
    let s := { s with next := update s.next dst (s.next next), prev := update s.prev dst (some next) }
    let s :=
      match s.next next with
      | some x => { s with prev := update s.prev x (some dst) }
      | none => s
    (.ok, { s with next := update s.next next (some dst) })

def deleteElement (next : P) : Lists P :=
  let s := { s with curmemlist := if s.curmemlist = some next then s.next next else s.curmemlist }
  let s :=
    match s.prev next with
    | some p => { s with next := update s.next p (s.next next) }
    | none => s
  let s :=
    match s.next next with
    | some x => { s with prev := update s.prev x (s.prev next) }
    | none => s
  memlistFreeOne s next

def memlistDeleteSpan (address bytes : UInt64) : Option (Spanop × Lists P) :=
  match findLoop s address limit s.curmemlist with
  | none => none
  | some none => some (.espan, s)
  | some (some next) =>
    if address + bytes > s.address next + s.size next then some (.espan, s)
    else if address = s.address next then
      if bytes = s.size next then some (.ok, deleteElement s next)
      else some (.ok, { s with
        address := update s.address next (s.address next + bytes)
        size := update s.size next (s.size next - bytes) })
    else if address + bytes = s.address next + s.size next then
      some (.ok, { s with size := update s.size next (s.size next - bytes) })
    else some (deleteMiddle s address bytes next)

end Sol8.Os.Memlist
