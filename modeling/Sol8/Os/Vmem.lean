import Sol8.Lib.Cursor
import Sol8.Lib.Run
import Sol8.Lib.Tiling

/-! Arenas of the vmem allocator (`os/vmem.c`).

Addresses are words of `w` bits. In a segment they are kept as numbers, the end as one from 1 to
`2 ^ w`: the code compares ends as `vs_end - 1`, so that an end of 0 is the top of the address space.
The arena list and each freelist are lists of segment structures, without the anchor `vm_seg0` and
the freelist heads. A panic has no result. -/

namespace Sol8.Os.Vmem

open Sol8.Lib Sol8.Lib.Tiling Function

structure Params where
  w : ℕ
  /-- `vm_quantum` is `2 ^ vm_qshift` -/
  qshift : ℕ
  qshift_lt : qshift < w
  /-- `vm_source_alloc` and `vm_source_free` are set -/
  sourceAlloc : Bool
  sourceFree : Bool
  /-- `vm_quantum` of the source -/
  sourceQuantum : BitVec w

def Params.quantum (prm : Params) : ℕ := 2 ^ prm.qshift

section Words

variable {w : ℕ}

def p2nphase (x align : BitVec w) : BitVec w := -x &&& (align - 1)
def p2roundup (x align : BitVec w) : BitVec w := -(-x &&& -align)
def p2phaseup (x align phase : BitVec w) : BitVec w := phase - ((phase - x) &&& -align)
def P2cross (x y align : BitVec w) : Prop := x ^^^ y > align - 1

instance (x y align : BitVec w) : Decidable (P2cross x y align) := inferInstanceAs (Decidable (_ > _))

/-- A word that is the end of a range, as a number. -/
def endNat (x : BitVec w) : ℕ := (x - 1).toNat + 1

end Words

def highbit (x : ℕ) : ℕ := if x = 0 then 0 else Nat.log2 x + 1

/-- `VMEM_ALLOC` is in use, `VMEM_SPAN` a marker. -/
structure Seg extends Entry where
  vsImport : Bool

structure Arena where
  seg : ℕ → Seg
  arena : List ℕ
  segfree : List ℕ
  freelist : ℕ → List ℕ
  freemap : ℕ
  hashTable : ℕ → List ℕ
  hashMask : ℕ
  hashShift : ℕ
  memInuse : ℕ
  alloc : ℕ
  free : ℕ

def insertAfter (p x : ℕ) : List ℕ → List ℕ
  | [] => []
  | y :: ys => if y = p then y :: x :: ys else y :: insertAfter p x ys

namespace Arena

variable (prm : Params) (s : Arena)

def hashIndex (shift mask addr : ℕ) : ℕ :=
  let a := BitVec.ofNat prm.w addr
  (((a + (a >>> shift) + (a >>> (shift <<< 1))) >>> prm.qshift) &&& BitVec.ofNat prm.w mask).toNat

def setStop (x stop : ℕ) : Arena :=
  { s with seg := update s.seg x { s.seg x with stop := stop } }

def flistOf (x : ℕ) : ℕ := ((List.range prm.w).find? fun n => x ∈ s.freelist n).getD 0

def vmemFreelistInsert (x : ℕ) : Arena :=
  let n := highbit (s.seg x).size - 1
  { s with
    seg := update s.seg x { s.seg x with kind := .free }
    freemap := s.freemap ||| 2 ^ n
    freelist := update s.freelist n (x :: s.freelist n) }

/-- The heads of the freelists have `vs_start` 0 and the size of their freelist. -/
def vmemFreelistDelete (x : ℕ) : Arena :=
  let n := s.flistOf prm x
  let knext := (Cursor.after x (s.freelist n)).head?
  let kprev := (Cursor.before x (s.freelist n)).getLast?
  { s with
    freemap :=
      if knext.elim 0 (fun y => (s.seg y).start) = 0 ∧ kprev.elim 0 (fun y => (s.seg y).start) = 0 then
        s.freemap ^^^ kprev.elim (2 ^ n) fun y => (s.seg y).size
      else s.freemap
    freelist := update s.freelist n ((s.freelist n).erase x) }

def vmemHashInsert (x : ℕ) : Arena :=
  let h := hashIndex prm s.hashShift s.hashMask (s.seg x).start
  { s with
    seg := update s.seg x { s.seg x with kind := .used }
    hashTable := update s.hashTable h (x :: s.hashTable h)
    alloc := s.alloc + 1
    memInuse := s.memInuse + (s.seg x).size }

/-- The segment taken off its hash chain. -/
def vmemHashDelete (addr size : ℕ) : Option (Arena × ℕ) :=
  let h := hashIndex prm s.hashShift s.hashMask addr
  match (s.hashTable h).find? fun x => (s.seg x).start = addr with
  | none => none
  | some x =>
    if (s.seg x).size ≠ size then none
    else some ({ s with
      hashTable := update s.hashTable h ((s.hashTable h).erase x)
      free := s.free + 1
      memInuse := s.memInuse - size }, x)

/-- `vprev` is none for the anchor. -/
def vmemSegCreate (vprev : Option ℕ) (start stop : ℕ) (kind : Kind) : Option (Arena × ℕ) :=
  match s.segfree with
  | [] => none
  | x :: segfree => some ({ s with
      seg := update s.seg x ⟨⟨start, stop, kind⟩, false⟩
      arena := vprev.elim (x :: s.arena) fun p => insertAfter p x s.arena
      segfree := segfree }, x)

def vmemSegDestroy (x : ℕ) : Arena :=
  { s with arena := s.arena.erase x, segfree := x :: s.segfree }

/-- Type of the neighbours on the arena list; the anchor counts as a span. -/
def anextKind (x : ℕ) : Kind := (Cursor.after x s.arena).head?.elim .marker fun y => (s.seg y).kind
def aprevKind (x : ℕ) : Kind := (Cursor.before x s.arena).getLast?.elim .marker fun y => (s.seg y).kind

def vmemSpanCreate (vaddr size : BitVec prm.w) (vsImport : Bool) : Option (Arena × ℕ) := do
  let start := vaddr
  let stop := start + size
  if (start ||| stop) &&& (BitVec.ofNat prm.w prm.quantum - 1) ≠ 0 then none
  else
    let (s, span) ← s.vmemSegCreate s.arena.getLast? start.toNat (endNat stop) .marker
    let (s, newseg) ← s.vmemSegCreate (some span) start.toNat (endNat stop) .free
    let s := s.vmemFreelistInsert newseg
    some ({ s with seg := update s.seg newseg { s.seg newseg with vsImport := vsImport } }, newseg)

/-- The first part of `vmem_seg_alloc`: what is after the allocation is a free segment of its own. -/
def splitAfter (x p2end : ℕ) : Option Arena :=
  if (s.seg x).stop ≠ p2end then
    ((s.setStop x p2end).vmemSegCreate (some x) p2end (s.seg x).stop .free).map fun r =>
      r.1.vmemFreelistInsert r.2
  else some s

/-- The second part: what is before the allocation stays free, and the allocation is a segment of its
own. -/
def splitBefore (x start stop : ℕ) : Option (Arena × ℕ) :=
  if (s.seg x).start ≠ start then
    ((s.setStop x start).vmemSegCreate (some x) start stop .used).map fun r =>
      (r.1.vmemFreelistInsert x, r.2)
  else some (s, x)

def vmemSegAlloc (x start stop : ℕ) : Option Arena :=
  let vs := s.seg x
  if start < vs.start ∨ stop - 1 > vs.stop - 1 ∨ start - 1 ≥ stop - 1 ∨ vs.kind ≠ .free then none
  else do
    let s ← s.splitAfter x (roundUp prm.quantum stop)
    let (s, x) ← s.splitBefore x start stop
    some ((s.setStop x stop).vmemHashInsert prm x)

/-- The segment before `x` on the arena list is its span marker. -/
def vmemSpanDestroy (x : ℕ) : Arena :=
  let span := (Cursor.before x s.arena).getLast?
  let s := s.vmemSegDestroy x
  span.elim s fun y => s.vmemSegDestroy y

/-- The first part of `vmem_xfree` after the lookup: coalesce with the next segment. -/
def coalesceNext (x : ℕ) : Arena :=
  match (Cursor.after x s.arena).head? with
  | none => s
  | some vnext =>
    if (s.seg vnext).kind = .free then
      ((s.vmemFreelistDelete prm vnext).setStop x (s.seg vnext).stop).vmemSegDestroy vnext
    else s

/-- The second part: coalesce with the previous segment, which takes the place of `x`. -/
def coalescePrev (x : ℕ) : Arena × ℕ :=
  match (Cursor.before x s.arena).getLast? with
  | none => (s, x)
  | some vprev =>
    if (s.seg vprev).kind = .free then
      (((s.vmemFreelistDelete prm vprev).setStop vprev (s.seg x).stop).vmemSegDestroy x, vprev)
    else (s, x)

/-- The last part: return the span to its source if all of it is free. -/
def release (x : ℕ) : Arena :=
  if (s.seg x).vsImport = true ∧ prm.sourceFree = true ∧ s.aprevKind x = .marker ∧ s.anextKind x = .marker then
    s.vmemSpanDestroy x
  else s.vmemFreelistInsert x

def vmemXfree (vaddr size : ℕ) : Option Arena :=
  match s.vmemHashDelete prm vaddr size with
  | none => none
  | some (s₁, x) =>
    let s₂ := (s₁.setStop x (roundUp prm.quantum (s₁.seg x).stop)).coalesceNext prm x
    let r := s₂.coalescePrev prm x
    some (r.1.release prm r.2)

end Arena

structure Request (w : ℕ) where
  size : BitVec w
  align : BitVec w
  phase : BitVec w
  nocross : BitVec w
  minaddr : BitVec w
  maxaddr : BitVec w
  bestfit : Bool

def Request.asize (prm : Params) (r : Request prm.w) : BitVec prm.w :=
  p2roundup (r.size + r.phase) (if r.align > prm.sourceQuantum then r.align else prm.sourceQuantum)

namespace Arena

variable (prm : Params) (s : Arena) (r : Request prm.w)

/-- The address at which a free segment could satisfy the request. -/
def fit (x : ℕ) : Option (BitVec prm.w) :=
  let vsStart := BitVec.ofNat prm.w (s.seg x).start
  let vsEnd := BitVec.ofNat prm.w (s.seg x).stop
  if vsEnd - 1 < r.minaddr then none
  else if vsStart > r.maxaddr - 1 then none
  else
    let start := if vsStart > r.minaddr then vsStart else r.minaddr
    let stop := (if vsEnd - 1 < r.maxaddr - 1 then vsEnd - 1 else r.maxaddr - 1) + 1
    let taddr := p2phaseup start r.align r.phase
    let taddr :=
      if P2cross taddr (taddr + r.size - 1) r.nocross then
        taddr + p2roundup (p2nphase taddr r.nocross) r.align
      else taddr
    if (taddr - start) + r.size > stop - start then none else some taddr

def scan (best : Option (ℕ × BitVec prm.w)) : List ℕ → Option (ℕ × BitVec prm.w)
  | [] => best
  | x :: xs =>
    match s.fit prm r x with
    | none => scan best xs
    | some addr =>
      if best.any fun b => (s.seg x).size ≥ (s.seg b.1).size then scan best xs
      else if ¬ r.bestfit ∨ (s.seg x).size = r.size.toNat then some (x, addr)
      else scan (some (x, addr)) xs

/-- The search for `vbest`, on the first freelist to look at and then on those in the bitmap. -/
def search : Option (ℕ × BitVec prm.w) :=
  let flist := highbit r.size.toNat
  let flist :=
    if r.size &&& (r.size - 1) = 0 ∨ s.freemap >>> flist = 0 ∨ flist = prm.w ∨ r.bestfit then flist - 1
    else flist
  (flist :: (List.range prm.w).filter fun n => flist < n ∧ s.freemap.testBit n).findSome? fun n =>
    s.scan prm r none (s.freelist n)

/-- One pass of `vmem_xalloc`; `imported` is what `vm_source_alloc` returns if it is called. The
arena stays as it is when there is nothing to allocate from. -/
def vmemXalloc (imported : Option (BitVec prm.w)) : Option Arena :=
  if r.size = 0 then none
  else if (r.align ||| r.phase ||| r.nocross) &&& (BitVec.ofNat prm.w prm.quantum - 1) ≠ 0 then none
  else if r.nocross ≠ 0 ∧ (r.align > r.nocross ∨ p2roundup (r.phase + r.size) r.align > r.nocross) then
    none
  else
    match s.search prm r with
    | some (x, addr) =>
      (s.vmemFreelistDelete prm x).vmemSegAlloc prm x addr.toNat (endNat (addr + r.size))
    | none =>
      if prm.sourceAlloc ∧ r.nocross = 0 ∧ r.minaddr = 0 ∧ r.maxaddr = 0 then
        match imported with
        | none => some s
        | some vaddr =>
          match s.vmemSpanCreate prm vaddr (r.asize prm) true with
          | none => none
          | some (s, x) =>
            let addr := p2phaseup (BitVec.ofNat prm.w (s.seg x).start) r.align r.phase
            (s.vmemFreelistDelete prm x).vmemSegAlloc prm x addr.toNat (endNat (addr + r.size))
      else some s

/-- `table` holds the new chains; `ok` is whether there was memory for it. -/
def vmemHashRescale (ok : Bool) : Arena :=
  let nseg := s.alloc - s.free
  let newSize := max 64 (1 <<< (highbit (3 * nseg + 4) - 2))
  let oldSize := s.hashMask + 1
  if oldSize >>> 1 ≤ newSize ∧ newSize ≤ oldSize <<< 1 ∨ ok = false then s
  else
    let mask := newSize - 1
    let shift := highbit mask
    { s with
      hashMask := mask
      hashShift := shift
      hashTable := ((List.range oldSize).flatMap s.hashTable).foldl
        (fun table x =>
          let h := hashIndex prm shift mask (s.seg x).start
          update table h (x :: table h)) fun _ => [] }

def vmemAdd (vaddr size : BitVec prm.w) : Option Arena :=
  if vaddr = 0 ∨ size = 0 then none
  else (s.vmemSpanCreate prm vaddr size false).map Prod.fst

def vmemCreate : Arena :=
  ⟨fun _ => ⟨⟨0, 0, .marker⟩, false⟩, [], [], fun _ => [], 0, fun _ => [], 63, 6, 0, 0, 0⟩

end Arena

inductive Event (prm : Params)
  /-- `vmem_populate` gets new segment structures -/
  | populate (xs : List ℕ)
  | add (vaddr size : BitVec prm.w)
  | xalloc (r : Request prm.w) (imported : Option (BitVec prm.w))
  | xfree (vaddr size : ℕ)
  | rescale (ok : Bool)

def Arena.exec (prm : Params) (s : Arena) : Event prm → Option Arena
  | .populate xs =>
    if xs.Nodup ∧ ∀ x ∈ xs, x ∉ s.arena ∧ x ∉ s.segfree then some { s with segfree := xs ++ s.segfree }
    else none
  | .add vaddr size => s.vmemAdd prm vaddr size
  | .xalloc r imported => s.vmemXalloc prm r imported
  | .xfree vaddr size => s.vmemXfree prm vaddr size
  | .rescale ok => some (s.vmemHashRescale prm ok)

end Sol8.Os.Vmem
