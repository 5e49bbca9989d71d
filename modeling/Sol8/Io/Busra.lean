import Sol8.Lib.Ranges
import Sol8.Lib.Run

/-! The allocator of bus resources (`io/busra.c`), for one resource map.

The range list is a list of nodes in the order of the links; `backp` is the index of a node. -/

namespace Sol8.Io.Busra

open Sol8.Lib

structure Resource where
  base : BitVec 64
  len : BitVec 64
  deriving DecidableEq

/-! ### Freeing -/

/-- The loop of `ndi_ra_free`; no result when the range overlaps the list. -/
def ndiRaFree (base len : BitVec 64) : List Resource → Option (List Resource)
  | [] => some [⟨base, len⟩]
  | mapp :: rest =>
    let newend := base + len
    let mapend := mapp.base + mapp.len
    if (base ≤ mapp.base ∧ newend > mapp.base) ∨ (base > mapp.base ∧ base < mapend) then none
    else if base = mapend ∧ rest.head?.any (fun next => newend > next.base) then none
    else if newend = mapp.base then some (⟨base, mapp.len + len⟩ :: rest)
    else if base = mapend then
      match rest with
      | next :: rest' =>
        if newend = next.base then some (⟨mapp.base, mapp.len + len + next.len⟩ :: rest')
        else some (⟨mapp.base, mapp.len + len⟩ :: rest)
      | [] => some [⟨mapp.base, mapp.len + len⟩]
    else if base < mapp.base then some (⟨base, len⟩ :: mapp :: rest)
    else (ndiRaFree base len rest).map (mapp :: ·)

/-! ### Allocating -/

/-- `adjust_link`: what is left of a node. -/
def Resource.adjust (mapp : Resource) (base len : BitVec 64) : List Resource :=
  if base ≠ mapp.base then
    let newlen := base - mapp.base
    if mapp.len - newlen = len then [⟨mapp.base, newlen⟩]
    else [⟨mapp.base, newlen⟩, ⟨base + len, mapp.len - (len + newlen)⟩]
  else if mapp.len - len = 0 then []
  else [⟨mapp.base + len, mapp.len - len⟩]

def adjustLink (l : List Resource) (i : ℕ) (base len : BitVec 64) : List Resource :=
  match l[i]? with
  | some mapp => l.take i ++ mapp.adjust base len ++ l.drop (i + 1)
  | none => l

/-- `ndi_ra_request_t`, with a field for each flag. -/
structure Request where
  alignSize : Bool
  bounded : Bool
  specified : Bool
  partialOk : Bool
  len : BitVec 64
  addr : BitVec 64
  boundbase : BitVec 64
  boundlen : BitVec 64
  alignMask : BitVec 64

def ffs (mask : BitVec 32) : ℕ :=
  match (List.range 32).find? mask.getLsbD with
  | some i => i + 1
  | none => 0

def ddiFfs (mask : BitVec 32) : ℕ := ffs mask

/-- The loop of `ddi_fls`, which runs at most once for each bit. -/
def lastSet : ℕ → BitVec 32 → BitVec 32
  | 0, mask => mask
  | n + 1, mask => if mask &&& (mask - 1) = 0 then mask else lastSet n (mask &&& (mask - 1))

def ddiFls (mask : BitVec 32) : ℕ := ffs (lastSet 32 mask)

def isnotPow2 (value : BitVec 64) : Bool :=
  let low := value.truncate 32
  let hi := (value >>> 32).truncate 32
  !(ddiFfs low = ddiFls low && ddiFfs hi = ddiFls hi)

namespace Request

variable (req : Request)

def mask : BitVec 64 := if req.alignSize then req.len - 1 else req.alignMask

def lower : BitVec 64 := if req.bounded then req.boundbase else 0

def upper : BitVec 64 :=
  if req.bounded then
    let upper := req.boundlen + req.boundbase
    if upper = 0 ∨ upper < req.boundlen then ~~~0 else upper
  else ~~~0

/-- The base that a node is tried at. -/
def tryBase (mapp : Resource) : BitVec 64 :=
  let base := if mapp.base < req.lower then req.lower else mapp.base
  if base &&& req.mask ≠ 0 then (base &&& ~~~req.mask) + (req.mask + 1) else base

/-- `remlen`, the length from `base` on that a partial allocation could have. -/
def remlen (mapp : Resource) (base : BitVec 64) : BitVec 64 :=
  if req.upper - mapp.base < mapp.len then req.upper - base else mapp.len - (base - mapp.base)

end Request

structure Found where
  index : ℕ
  base : BitVec 64
  len : BitVec 64

section Search

variable (req : Request)

/-- The number of nodes that a bounded request skips. -/
def skipBelow : List Resource → ℕ
  | [] => 0
  | mapp :: rest =>
    let mapend := mapp.base + mapp.len
    if mapend < req.lower then
      -- the end of the node is beyond the largest number
      if mapp.len + mapp.base = 0 ∨ mapp.len + mapp.base < mapp.len then 0
      else skipBelow rest + 1
    else 0

/-- The largest range so far, with the one at this node. -/
def updateLargest (largest : Option Found) (found : Found) : Option Found :=
  match largest with
  | none => some found
  | some l => if l.len < found.len then some found else some l

/-- The search for a request that is not specified, from node `i` on: a fit, and the largest range seen. -/
def firstFit : ℕ → List Resource → Option Found → Option Found × Option Found
  | _, [], largest => (none, largest)
  | i, mapp :: rest, largest =>
    if mapp.base ≤ req.upper then
      let base := req.tryBase mapp
      let largest := if req.partialOk then updateLargest largest ⟨i, base, req.remlen mapp base⟩ else largest
      if mapp.len ≥ req.len ∧ ¬ (req.len > mapp.len - (base - mapp.base) ∨ req.len - 1 + base > req.upper) then
        (some ⟨i, base, req.len⟩, largest)
      else firstFit (i + 1) rest largest
    else (none, largest)

def exactFit : ℕ → List Resource → Option Found × Option Found
  | _, [] => (none, none)
  | i, mapp :: rest =>
    if mapp.base ≤ req.upper then
      if req.addr ≥ mapp.base ∧ req.addr - mapp.base < mapp.len then
        if req.len > mapp.len ∨ req.addr - mapp.base > mapp.len - req.len then
          (none, some ⟨i, req.addr, req.remlen mapp req.addr⟩)
        else (some ⟨i, req.addr, req.len⟩, none)
      else exactFit (i + 1) rest
    else (none, none)

/-- The node and the range that the request gets, and the largest range seen. -/
def search (l : List Resource) : Option Found × Option Found :=
  let i := if req.bounded then skipBelow req l else 0
  if req.specified then exactFit req i (l.drop i) else firstFit req i (l.drop i) none

end Search

inductive Rval
  | success | failure | partialReq
  deriving DecidableEq

/-- `ndi_ra_alloc`: the return value, the base and the length, and the list after it. -/
def ndiRaAlloc (req : Request) (l : List Resource) : Rval × BitVec 64 × BitVec 64 × List Resource :=
  if req.alignSize ∧ isnotPow2 req.len then (.failure, 0, 0, l)
  else
    match search req l with
    | (some f, _) => (.success, f.base, f.len, adjustLink l f.index f.base f.len)
    | (none, some f) =>
      if req.partialOk then (.partialReq, f.base, f.len, adjustLink l f.index f.base f.len)
      else (.failure, 0, 0, l)
    | (none, none) => (.failure, 0, 0, l)

end Sol8.Io.Busra
