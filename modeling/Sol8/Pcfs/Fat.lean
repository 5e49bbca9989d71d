import Mathlib

/-! The file allocation table of `pcfs` (`fs/pcfs/pc_alloc.c`) and `pc_truncate` (`fs/pcfs/pc_node.c`). A call that
panics gives `none`. -/

namespace Sol8.Pcfs

open Function

inductive FatKind
  | fat12
  | fat16
  | fat32
deriving DecidableEq, Repr

structure Volume where
  kind : FatKind
  clsize : ℕ
  ncluster : ℕ
  rdirstart : ℕ
  /-- `pcfs_clsize` is an `int`, and `pc_blkoff` masks with `clsize - 1`. -/
  clsize_pow : ∃ k < 31, clsize = 2 ^ k
  small : ncluster * clsize < 2 ^ 31

inductive Errno
  | eio
  | enospc
  | efbig
deriving DecidableEq, Repr

inductive Vtype
  | reg
  | dir
deriving DecidableEq, Repr

/-- `fsinfo_native.fs_free_clusters` is a `uint32_t`. -/
structure Fs where
  fatp : ℕ → UInt8
  nxfrecls : ℕ
  freeClusters : ℕ

/-- `pcnode`: `pc_size` is an `int`. -/
structure Pcnode where
  size : ℤ
  scluster : ℕ
  type : Vtype
  inval : Bool

def pcfFreecluster : ℕ := 0x00
def pcfErrorcluster : ℕ := 0x01
def pcfFirstcluster : ℕ := 2
def pcf12bcluster : ℕ := 0xFF0
def pcfRescluster : ℕ := 0xFFF0
def pcfLastcluster : ℕ := 0xFFF8
def pcfLastcluster32 : ℕ := 0xFFFFFF8
def pcfLastclustermark : ℕ := 0xFFFF
def pcfLastclustermark32 : ℕ := 0xFFFFFFF
def fsinfoUnknown : ℕ := 2 ^ 32 - 1

def toInt (x : ℤ) : ℤ := Int.bmod x (2 ^ 32)

def howmany (x y : ℤ) : ℤ := (toInt (x + (y - 1))).tdiv y

namespace Volume

variable (v : Volume)

def pcValidcl (cn : ℕ) : Bool := decide (pcfFirstcluster ≤ cn) && decide (cn < v.ncluster + pcfFirstcluster)

def isLast (cn : ℕ) : Bool :=
  match v.kind with
  | .fat32 => decide (pcfLastcluster32 ≤ cn)
  | _ => decide (pcfLastcluster ≤ cn)

def lastMark : ℕ :=
  match v.kind with
  | .fat32 => pcfLastclustermark32
  | _ => pcfLastclustermark

def entry (fatp : ℕ → UInt8) (cn : ℕ) : ℕ :=
  match v.kind with
  | .fat32 =>
    let fp := cn <<< 2
    (fatp fp).toNat + ((fatp (fp + 1)).toNat <<< 8) + ((fatp (fp + 2)).toNat <<< 16) + ((fatp (fp + 3)).toNat <<< 24)
  | .fat16 =>
    let fp := cn <<< 1
    (fatp fp).toNat + ((fatp (fp + 1)).toNat <<< 8)
  | .fat12 =>
    let fp := cn + (cn >>> 1)
    let e := if cn % 2 = 1 then (((fatp fp).toNat &&& 0xf0) >>> 4) + ((fatp (fp + 1)).toNat <<< 4)
      else (fatp fp).toNat + (((fatp (fp + 1)).toNat &&& 0x0f) <<< 8)
    if pcf12bcluster ≤ e then e ||| pcfRescluster else e

def store (fatp : ℕ → UInt8) (cn ncn : ℕ) : ℕ → UInt8 :=
  match v.kind with
  | .fat32 =>
    let fp := cn <<< 2
    update (update (update (update fatp fp (.ofNat ncn)) (fp + 1) (.ofNat (ncn >>> 8))) (fp + 2) (.ofNat (ncn >>> 16)))
      (fp + 3) (.ofNat (ncn >>> 24))
  | .fat16 =>
    let fp := cn <<< 1
    update (update fatp fp (.ofNat ncn)) (fp + 1) (.ofNat (ncn >>> 8))
  | .fat12 =>
    let fp := cn + (cn >>> 1)
    if cn % 2 = 1 then
      update (update fatp fp (.ofNat (((fatp fp).toNat &&& 0x0f) ||| ((ncn <<< 4) &&& 0xf0)))) (fp + 1)
        (.ofNat ((ncn >>> 4) &&& 0xff))
    else
      update (update fatp fp (.ofNat (ncn &&& 0xff))) (fp + 1)
        (.ofNat (((fatp (fp + 1)).toNat &&& 0xf0) ||| ((ncn >>> 8) &&& 0x0f)))

def pcGetcluster (fs : Fs) (cn : ℕ) : Option ℕ := if v.pcValidcl cn then some (v.entry fs.fatp cn) else none

def pcSetcluster (fs : Fs) (cn ncn : ℕ) : Option Fs :=
  if v.pcValidcl cn then
    let fs := { fs with fatp := v.store fs.fatp cn ncn }
    if ncn = pcfFreecluster then
      let fs := { fs with nxfrecls := pcfFirstcluster }
      if v.kind = .fat32 ∧ fs.freeClusters ≠ fsinfoUnknown then
        some { fs with freeClusters := (fs.freeClusters + 1) % 2 ^ 32 }
      else some fs
    else some fs
  else none

def pcAllocLoop (fs : Fs) : ℕ → ℕ → Option (Fs × ℕ)
  | 0, _ => some (fs, pcfFreecluster)
  | n + 1, cn => do
    let e ← v.pcGetcluster fs cn
    if e = pcfFreecluster then
      let fs ← v.pcSetcluster fs cn v.lastMark
      let fs := if v.kind = .fat32 ∧ fs.freeClusters ≠ fsinfoUnknown then
        { fs with freeClusters := (fs.freeClusters + (2 ^ 32 - 1)) % 2 ^ 32 } else fs
      some ({ fs with nxfrecls := cn + 1 }, cn)
    else pcAllocLoop fs n (cn + 1)

def pcAlloccluster (fs : Fs) : Option (Fs × ℕ) :=
  v.pcAllocLoop fs (v.ncluster + pcfFirstcluster - fs.nxfrecls) fs.nxfrecls

/-- The number of clusters of a chain; `none` if the walk does not end within the given number of steps. -/
def pcFileclsize (fs : Fs) : ℕ → ℕ → Option ℕ
  | 0, _ => none
  | n + 1, cn =>
    if v.pcValidcl cn then do
      let ncn ← v.pcGetcluster fs cn
      let k ← pcFileclsize fs n ncn
      some (k + 1)
    else some 0

/-- The loop of `pc_balloc`; the last cluster on success. -/
def pcBallocLoop : ℕ → Fs → ℕ → Option (Fs × Except Errno ℕ)
  | 0, fs, cn => some (fs, .ok cn)
  | lcn + 1, fs, cn => do
    let ncn ← v.pcGetcluster fs cn
    if v.isLast ncn then
      let (fs, ncn) ← v.pcAlloccluster fs
      if ncn = pcfFreecluster then some (fs, .error .enospc)
      else if ncn = pcfErrorcluster then some (fs, .error .eio)
      else
        let fs ← v.pcSetcluster fs cn ncn
        pcBallocLoop lcn fs ncn
    else if !v.pcValidcl ncn then some (fs, .error .eio)
    else pcBallocLoop lcn fs ncn

/-- The first cluster of a file that is not empty. -/
def startCluster (pcp : Pcnode) : ℕ := if v.kind = .fat32 ∧ pcp.scluster = 0 then v.rdirstart else pcp.scluster

def pcBalloc (fs : Fs) (pcp : Pcnode) (lcn : ℤ) : Option (Fs × Pcnode × Except Errno ℕ) :=
  if lcn < 0 then some (fs, pcp, .error .efbig)
  else if (v.ncluster : ℤ) ≤ lcn then some (fs, pcp, .error .enospc)
  else if (pcp.type = .reg ∧ pcp.size = 0) ∨ (pcp.type = .dir ∧ lcn = 0) then do
    let (fs, cn) ← v.pcAlloccluster fs
    if cn = pcfFreecluster then some (fs, pcp, .error .enospc)
    else if cn = pcfErrorcluster then some (fs, pcp, .error .eio)
    else
      let (fs, r) ← v.pcBallocLoop lcn.toNat fs cn
      some (fs, { pcp with scluster := cn }, r)
  else if !v.pcValidcl (v.startCluster pcp) then some (fs, pcp, .error .eio)
  else do
    let (fs, r) ← v.pcBallocLoop lcn.toNat fs (v.startCluster pcp)
    some (fs, pcp, r)

def pcBfreeLoop (type : Vtype) : ℕ → Fs → ℕ → ℕ → Option (Fs × Except Errno Unit)
  | 0, fs, _, _ => some (fs, .ok ())
  | n + 1, fs, cn, skipcl =>
    if !v.pcValidcl cn then some (fs, .error .eio)
    else do
      let ncn ← v.pcGetcluster fs cn
      let fs ← if skipcl = 0 then v.pcSetcluster fs cn pcfFreecluster
        else if skipcl - 1 = 0 then v.pcSetcluster fs cn v.lastMark
        else some fs
      if v.isLast ncn ∧ type = .dir then some (fs, .ok ())
      else pcBfreeLoop type n fs ncn (skipcl - 1)

def pcBfree (fs : Fs) (pcp : Pcnode) (skipcl : ℕ) : Option (Fs × Pcnode × Except Errno Unit) :=
  if pcp.size = 0 ∧ pcp.type = .reg then some (fs, pcp, .ok ())
  else
    let n : ℤ := if pcp.type = .reg then howmany pcp.size v.clsize else v.ncluster
    if pcp.type = .reg ∧ (v.ncluster : ℤ) < n then some (fs, pcp, .error .eio)
    else do
      -- the loop counts an int down to 0
      let (fs, r) ← v.pcBfreeLoop pcp.type (n % 2 ^ 32).toNat fs (v.startCluster pcp) skipcl
      some (fs, if skipcl = 0 then { pcp with scluster := v.lastMark } else pcp, r)

def pcTruncate (fs : Fs) (pcp : Pcnode) (length : ℤ) : Option (Fs × Pcnode × Except Errno Unit) :=
  if pcp.inval then some (fs, pcp, .error .eio)
  else if pcp.type = .dir then v.pcBfree fs pcp 0
  else if pcp.size < length then
    -- the comparison is unsigned
    let llcn := howmany length v.clsize % 2 ^ 32
    if howmany pcp.size v.clsize % 2 ^ 32 < llcn then do
      let (fs, pcp, r) ← v.pcBalloc fs pcp ((llcn - 1) % 2 ^ 32)
      match r with
      | .error e =>
        let n ← v.pcFileclsize fs (v.ncluster + 1) pcp.scluster
        some (fs, { pcp with size := toInt (v.clsize * n) }, .error e)
      | .ok _ => some (fs, { pcp with size := length }, .ok ())
    else some (fs, { pcp with size := length }, .ok ())
  else if length < pcp.size then do
    let (fs, pcp, r) ← v.pcBfree fs pcp (howmany length v.clsize % 2 ^ 32).toNat
    some (fs, { pcp with size := length }, r)
  else some (fs, pcp, .ok ())

end Volume

end Sol8.Pcfs
