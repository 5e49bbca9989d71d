import Mathlib

/-! Allocation in the cylinder groups of a UFS file system: the maps of free fragments and used inodes, the
summaries kept beside them, and the functions that take fragments, blocks and inodes and give fragments and
blocks back. -/

namespace Sol8.Ufs

open Function

/-- `uchar_t []` -/
abbrev Map := ℕ → BitVec 8

def nbby : ℕ := 8

def howmany (x y : ℕ) : ℕ := (x + (y - 1)) / y

def setbit (a : Map) (i : ℕ) : Map := update a (i / nbby) (a (i / nbby) ||| 1#8 <<< (i % nbby))

def clrbit (a : Map) (i : ℕ) : Map := update a (i / nbby) (a (i / nbby) &&& ~~~(1#8 <<< (i % nbby)))

def isset (a : Map) (i : ℕ) : Bool := a (i / nbby) &&& 1#8 <<< (i % nbby) ≠ 0

def isclr (a : Map) (i : ℕ) : Bool := !isset a i

/-! Bit patterns for identifying fragments in the block map, used as `(map & around) == inside`. -/

def around : List ℕ := [0x3, 0x7, 0xf, 0x1f, 0x3f, 0x7f, 0xff, 0x1ff, 0x3ff]

def inside : List ℕ := [0x0, 0x2, 0x6, 0xe, 0x1e, 0x3e, 0x7e, 0xfe, 0x1fe]

/-! For a byte of the block map: which sizes of fragments it has. -/

def fragtbl124 : List ℕ := [
  0x00, 0x16, 0x16, 0x2a, 0x16, 0x16, 0x26, 0x4e, 0x16, 0x16, 0x16, 0x3e, 0x2a, 0x3e, 0x4e, 0x8a,
  0x16, 0x16, 0x16, 0x3e, 0x16, 0x16, 0x36, 0x5e, 0x16, 0x16, 0x16, 0x3e, 0x3e, 0x3e, 0x5e, 0x9e,
  0x16, 0x16, 0x16, 0x3e, 0x16, 0x16, 0x36, 0x5e, 0x16, 0x16, 0x16, 0x3e, 0x3e, 0x3e, 0x5e, 0x9e,
  0x2a, 0x3e, 0x3e, 0x2a, 0x3e, 0x3e, 0x2e, 0x6e, 0x3e, 0x3e, 0x3e, 0x3e, 0x2a, 0x3e, 0x6e, 0xaa,
  0x16, 0x16, 0x16, 0x3e, 0x16, 0x16, 0x36, 0x5e, 0x16, 0x16, 0x16, 0x3e, 0x3e, 0x3e, 0x5e, 0x9e,
  0x16, 0x16, 0x16, 0x3e, 0x16, 0x16, 0x36, 0x5e, 0x16, 0x16, 0x16, 0x3e, 0x3e, 0x3e, 0x5e, 0x9e,
  0x26, 0x36, 0x36, 0x2e, 0x36, 0x36, 0x26, 0x6e, 0x36, 0x36, 0x36, 0x3e, 0x2e, 0x3e, 0x6e, 0xae,
  0x4e, 0x5e, 0x5e, 0x6e, 0x5e, 0x5e, 0x6e, 0x4e, 0x5e, 0x5e, 0x5e, 0x7e, 0x6e, 0x7e, 0x4e, 0xce,
  0x16, 0x16, 0x16, 0x3e, 0x16, 0x16, 0x36, 0x5e, 0x16, 0x16, 0x16, 0x3e, 0x3e, 0x3e, 0x5e, 0x9e,
  0x16, 0x16, 0x16, 0x3e, 0x16, 0x16, 0x36, 0x5e, 0x16, 0x16, 0x16, 0x3e, 0x3e, 0x3e, 0x5e, 0x9e,
  0x16, 0x16, 0x16, 0x3e, 0x16, 0x16, 0x36, 0x5e, 0x16, 0x16, 0x16, 0x3e, 0x3e, 0x3e, 0x5e, 0x9e,
  0x3e, 0x3e, 0x3e, 0x3e, 0x3e, 0x3e, 0x3e, 0x7e, 0x3e, 0x3e, 0x3e, 0x3e, 0x3e, 0x3e, 0x7e, 0xbe,
  0x2a, 0x3e, 0x3e, 0x2a, 0x3e, 0x3e, 0x2e, 0x6e, 0x3e, 0x3e, 0x3e, 0x3e, 0x2a, 0x3e, 0x6e, 0xaa,
  0x3e, 0x3e, 0x3e, 0x3e, 0x3e, 0x3e, 0x3e, 0x7e, 0x3e, 0x3e, 0x3e, 0x3e, 0x3e, 0x3e, 0x7e, 0xbe,
  0x4e, 0x5e, 0x5e, 0x6e, 0x5e, 0x5e, 0x6e, 0x4e, 0x5e, 0x5e, 0x5e, 0x7e, 0x6e, 0x7e, 0x4e, 0xce,
  0x8a, 0x9e, 0x9e, 0xaa, 0x9e, 0x9e, 0xae, 0xce, 0x9e, 0x9e, 0x9e, 0xbe, 0xaa, 0xbe, 0xce, 0x8a]

def fragtbl8 : List ℕ := [
  0x00, 0x01, 0x01, 0x02, 0x01, 0x01, 0x02, 0x04, 0x01, 0x01, 0x01, 0x03, 0x02, 0x03, 0x04, 0x08,
  0x01, 0x01, 0x01, 0x03, 0x01, 0x01, 0x03, 0x05, 0x02, 0x03, 0x03, 0x02, 0x04, 0x05, 0x08, 0x10,
  0x01, 0x01, 0x01, 0x03, 0x01, 0x01, 0x03, 0x05, 0x01, 0x01, 0x01, 0x03, 0x03, 0x03, 0x05, 0x09,
  0x02, 0x03, 0x03, 0x02, 0x03, 0x03, 0x02, 0x06, 0x04, 0x05, 0x05, 0x06, 0x08, 0x09, 0x10, 0x20,
  0x01, 0x01, 0x01, 0x03, 0x01, 0x01, 0x03, 0x05, 0x01, 0x01, 0x01, 0x03, 0x03, 0x03, 0x05, 0x09,
  0x01, 0x01, 0x01, 0x03, 0x01, 0x01, 0x03, 0x05, 0x03, 0x03, 0x03, 0x03, 0x05, 0x05, 0x09, 0x11,
  0x02, 0x03, 0x03, 0x02, 0x03, 0x03, 0x02, 0x06, 0x03, 0x03, 0x03, 0x03, 0x02, 0x03, 0x06, 0x0a,
  0x04, 0x05, 0x05, 0x06, 0x05, 0x05, 0x06, 0x04, 0x08, 0x09, 0x09, 0x0a, 0x10, 0x11, 0x20, 0x40,
  0x01, 0x01, 0x01, 0x03, 0x01, 0x01, 0x03, 0x05, 0x01, 0x01, 0x01, 0x03, 0x03, 0x03, 0x05, 0x09,
  0x01, 0x01, 0x01, 0x03, 0x01, 0x01, 0x03, 0x05, 0x03, 0x03, 0x03, 0x03, 0x05, 0x05, 0x09, 0x11,
  0x01, 0x01, 0x01, 0x03, 0x01, 0x01, 0x03, 0x05, 0x01, 0x01, 0x01, 0x03, 0x03, 0x03, 0x05, 0x09,
  0x03, 0x03, 0x03, 0x03, 0x03, 0x03, 0x03, 0x07, 0x05, 0x05, 0x05, 0x07, 0x09, 0x09, 0x11, 0x21,
  0x02, 0x03, 0x03, 0x02, 0x03, 0x03, 0x02, 0x06, 0x03, 0x03, 0x03, 0x03, 0x02, 0x03, 0x06, 0x0a,
  0x03, 0x03, 0x03, 0x03, 0x03, 0x03, 0x03, 0x07, 0x02, 0x03, 0x03, 0x02, 0x06, 0x07, 0x0a, 0x12,
  0x04, 0x05, 0x05, 0x06, 0x05, 0x05, 0x06, 0x04, 0x05, 0x05, 0x05, 0x07, 0x06, 0x07, 0x04, 0x0c,
  0x08, 0x09, 0x09, 0x0a, 0x09, 0x09, 0x0a, 0x0c, 0x10, 0x11, 0x11, 0x12, 0x20, 0x21, 0x40, 0x80]

def fragtbl (frag : ℕ) : List ℕ := if frag = 8 then fragtbl8 else fragtbl124

/-- The sizes of a file system, in fragments; a block has `frag` of them. Groups are whole cylinders, and so are the
cycles of the position tables. -/
structure Layout where
  frag : ℕ
  fpg : ℕ
  /-- inodes per group -/
  ipg : ℕ
  ncg : ℕ
  /-- sectors per fragment, per cylinder and per track -/
  nspf : ℕ
  spc : ℕ
  nsect : ℕ
  /-- rotational positions, and cylinders per cycle in the position tables if there are any -/
  nrpos : ℕ
  cpc : ℕ
  frag_eq : frag = 1 ∨ frag = 2 ∨ frag = 4 ∨ frag = 8
  frag_dvd : frag ∣ fpg
  fpg_pos : 0 < fpg
  ipg_dvd : nbby ∣ ipg
  ipg_pos : 0 < ipg
  nspf_pos : 0 < nspf
  spc_pos : 0 < spc
  nsect_pos : 0 < nsect
  spc_dvd : spc ∣ fpg * nspf
  nspb_dvd : nspf * frag ∣ cpc * spc

namespace Layout

variable (fs : Layout)

def dtog (d : ℕ) : ℕ := d / fs.fpg

def dtogd (d : ℕ) : ℕ := d % fs.fpg

def fragnum (fsb : ℕ) : ℕ := fsb % fs.frag

def blknum (fsb : ℕ) : ℕ := fsb - fsb % fs.frag

def fragstoblks (frags : ℕ) : ℕ := frags / fs.frag

def blkstofrags (blks : ℕ) : ℕ := blks * fs.frag

def nspb : ℕ := fs.nspf * fs.frag

def cbtocylno (bno : ℕ) : ℕ := bno * fs.nspf / fs.spc

def cbtorpos (bno : ℕ) : ℕ := (bno * fs.nspf % fs.spc % fs.nsect % fs.nsect) * fs.nrpos / fs.nsect

def blkmap (map : Map) (loc : ℕ) : ℕ := ((map (loc / nbby)).toNat >>> (loc % nbby)) &&& (0xff >>> (nbby - fs.frag))

/-- Block `i` is on cylinder `c` at position `r`. -/
def At (i c r : ℕ) : Prop := fs.cbtocylno (fs.blkstofrags i) = c ∧ fs.cbtorpos (fs.blkstofrags i) = r

def cycle : ℕ := fs.cpc * fs.spc / fs.nspb

end Layout

/-- A file system. The tables chain the blocks of a cycle that are on one cylinder at one position. -/
structure Fs extends Layout where
  postbl : ℕ → ℕ → Option ℕ
  rotbl : ℕ → ℕ
  first : ∀ c < cpc, ∀ r, match postbl c r with
    | none => ∀ i < toLayout.cycle, ¬ toLayout.At i c r
    | some j => j < toLayout.cycle ∧ toLayout.At j c r ∧ ∀ i < j, ¬ toLayout.At i c r
  next : ∀ i < toLayout.cycle, ∀ c r, toLayout.At i c r →
    (rotbl i = 0 → ∀ j, i < j → j < toLayout.cycle → ¬ toLayout.At j c r) ∧
    (rotbl i ≠ 0 → i + rotbl i < toLayout.cycle ∧ toLayout.At (i + rotbl i) c r ∧
      ∀ j, i < j → j < i + rotbl i → ¬ toLayout.At j c r)

/-! Block operations. -/

def isblock (fs : Fs) (cp : Map) (h : ℕ) : Bool :=
  match fs.frag with
  | 8 => cp h = 0xff
  | 4 => let mask := 0x0f#8 <<< ((h &&& 0x1) <<< 2); cp (h >>> 1) &&& mask = mask
  | 2 => let mask := 0x03#8 <<< ((h &&& 0x3) <<< 1); cp (h >>> 2) &&& mask = mask
  | 1 => let mask := 0x01#8 <<< (h &&& 0x7); cp (h >>> 3) &&& mask = mask
  | _ => false

/-- Take a block out of the map. -/
def clrblock (fs : Fs) (cp : Map) (h : ℕ) : Map :=
  match fs.frag with
  | 8 => update cp h 0
  | 4 => update cp (h >>> 1) (cp (h >>> 1) &&& ~~~(0x0f#8 <<< ((h &&& 0x1) <<< 2)))
  | 2 => update cp (h >>> 2) (cp (h >>> 2) &&& ~~~(0x03#8 <<< ((h &&& 0x3) <<< 1)))
  | 1 => update cp (h >>> 3) (cp (h >>> 3) &&& ~~~(0x01#8 <<< (h &&& 0x7)))
  | _ => cp

def isclrblock (fs : Fs) (cp : Map) (h : ℕ) : Bool :=
  match fs.frag with
  | 8 => cp h = 0
  | 4 => cp (h >>> 1) = cp (h >>> 1) &&& ~~~(0x0f#8 <<< ((h &&& 0x1) <<< 2))
  | 2 => cp (h >>> 2) = cp (h >>> 2) &&& ~~~(0x03#8 <<< ((h &&& 0x3) <<< 1))
  | 1 => cp (h >>> 3) = cp (h >>> 3) &&& ~~~(0x01#8 <<< (h &&& 0x7))
  | _ => false

/-- Put a block into the map. -/
def setblock (fs : Fs) (cp : Map) (h : ℕ) : Map :=
  match fs.frag with
  | 8 => update cp h 0xff
  | 4 => update cp (h >>> 1) (cp (h >>> 1) ||| 0x0f#8 <<< ((h &&& 0x1) <<< 2))
  | 2 => update cp (h >>> 2) (cp (h >>> 2) ||| 0x03#8 <<< ((h &&& 0x3) <<< 1))
  | 1 => update cp (h >>> 3) (cp (h >>> 3) ||| 0x01#8 <<< (h &&& 0x7))
  | _ => cp

/-! Fragments. -/

/-- The runs that the loop of `fragacct` over `pos` counts. The first argument bounds its rounds. -/
def acct (frag fragmap siz : ℕ) : ℕ → ℕ → ℕ → ℕ → ℕ
  | 0, _, _, _ => 0
  | n + 1, pos, field, subfield =>
    if pos ≤ frag then
      if fragmap &&& field = subfield then
        acct frag fragmap siz n (pos + siz + 1) (field <<< siz <<< 1) (subfield <<< siz <<< 1) + 1
      else acct frag fragmap siz n (pos + 1) (field <<< 1) (subfield <<< 1)
    else 0

/-- Update the frsum fields to reflect addition or deletion of some frags. -/
def fragacct (fs : Fs) (fragmap : ℕ) (fraglist : ℕ → ℤ) (cnt : ℤ) : ℕ → ℤ := fun siz =>
  let inblk := (fragtbl fs.frag).getD fragmap 0 <<< 1
  if siz < 1 ∨ fs.frag ≤ siz ∨ inblk &&& (1 <<< (siz + fs.frag % nbby)) = 0 then fraglist siz
  else fraglist siz + cnt * acct fs.frag (fragmap <<< 1) siz fs.frag siz (around.getD siz 0) (inside.getD siz 0)

/-- `scanc`: how much is left of the string when a byte is found whose entry in the table has the bit. -/
def scanc (table : List ℕ) (mask : ℕ) (cp : Map) : ℕ → ℕ → ℕ
  | 0, _ => 0
  | len + 1, i => if table.getD (cp i).toNat 0 &&& mask ≠ 0 then len + 1 else scanc table mask cp len (i + 1)

/-- `skpc`: how much is left of the string when a byte other than `c` is found. -/
def skpc (c : BitVec 8) (cp : Map) : ℕ → ℕ → ℕ
  | 0, _ => 0
  | len + 1, i => if cp i = c then skpc c cp len (i + 1) else len + 1

/-- The first of `n` positions from `i` on with the property, or the one behind them. -/
def position (p : ℕ → Bool) : ℕ → ℕ → ℕ
  | 0, i => i
  | n + 1, i => if p i then i else position p n (i + 1)

structure Csum where
  ndir : ℤ
  nbfree : ℤ
  nifree : ℤ
  nffree : ℤ
deriving DecidableEq, Repr

def Csum.add (c d : Csum) : Csum := ⟨c.ndir + d.ndir, c.nbfree + d.nbfree, c.nifree + d.nifree, c.nffree + d.nffree⟩

structure Cg where
  cs : Csum
  /-- position of last used block, fragment and inode -/
  rotor : ℕ
  frotor : ℕ
  irotor : ℕ
  /-- counts of available frags -/
  frsum : ℕ → ℤ
  /-- free blocks per cylinder, and per cylinder and rotational position -/
  blktot : ℕ → ℤ
  blks : ℕ → ℕ → ℤ
  blksfree : Map
  inosused : Map

/-- The groups of a file system with `fs_cs` and `fs_cstotal`. -/
structure Vol where
  cg : ℕ → Cg
  cs : ℕ → Csum
  cstotal : Csum

/-- A change of the summary of a group, made in the group, in `fs_cs` and in `fs_cstotal`. -/
def Vol.account (v : Vol) (cg : ℕ) (d : Csum) : Vol where
  cg := update v.cg cg { v.cg cg with cs := (v.cg cg).cs.add d }
  cs := update v.cs cg ((v.cs cg).add d)
  cstotal := v.cstotal.add d

def Vol.setCg (v : Vol) (cg : ℕ) (cgp : Cg) : Vol := { v with cg := update v.cg cg cgp }

section Mapsearch

variable (fs : Fs) (map : Map) (allocsiz : ℕ)

/-- The loop of `mapsearch` over `pos`: where it stops, and whether it got it. -/
def sift (blk : ℕ) : ℕ → ℕ → ℕ → ℕ → ℕ × Bool
  | 0, pos, _, _ => (pos, false)
  | n + 1, pos, field, subfield =>
    if blk &&& field = subfield then (pos, true) else sift blk n (pos + 1) (field <<< 1) (subfield <<< 1)

def siftBlks : ℕ → ℕ → ℕ → ℕ
  | 0, bno, pos => bno + pos
  | n + 1, bno, _ =>
    let r := sift (fs.blkmap map bno <<< 1) (fs.frag - allocsiz + 1) 0 (around.getD allocsiz 0) (inside.getD allocsiz 0)
    if r.2 then bno + r.1 else siftBlks n (bno + fs.frag) r.1

/-- The two scans of `mapsearch`, from `first` up to `last`. The position of the byte with the last match,
and the fragment. `iscancel` says which blocks are being converted from metadata. -/
def searchLoop (iscancel : ℕ → Bool) (cfrag start : ℕ) : ℕ → ℕ → ℕ → Bool → ℕ → ℕ × Option ℕ
  | 0, _, _, _, frotor => (frotor, none)
  | n + 1, first, last, secondtime, frotor =>
    if first < last then
      let loc := scanc (fragtbl fs.frag) (1 <<< (allocsiz - 1 + fs.frag % nbby)) map (last - first) first
      let nextHalf (frotor : ℕ) :=
        if secondtime then (frotor, none) else searchLoop iscancel cfrag start n 0 (start + 1) true frotor
      if loc ≠ 0 then
        let frotor := (last - loc) * nbby
        let bno := siftBlks fs map allocsiz (nbby / fs.frag) frotor 0
        if !iscancel (cfrag + bno) then (frotor, some bno)
        else if last - loc + 1 < last then searchLoop iscancel cfrag start n (last - loc + 1) last secondtime frotor
        else nextHalf frotor
      else nextHalf frotor
    else (frotor, none)

end Mapsearch

/-- Find a block of the specified size in the specified cylinder group. `none` is -1. -/
def mapsearch (fs : Fs) (iscancel : ℕ → Bool) (cgx : ℕ) (cgp : Cg) (bpref allocsiz : ℕ) : Cg × Option ℕ :=
  let start := if bpref ≠ 0 then fs.dtogd bpref / nbby else cgp.frotor / nbby
  let r := searchLoop fs cgp.blksfree allocsiz iscancel (cgx * fs.fpg) start (2 * howmany fs.fpg nbby + 1) start
    (howmany fs.fpg nbby) false cgp.frotor
  ({ cgp with frotor := r.1 }, r.2)

/-- The walk along the blocks of a cylinder at one rotational position. -/
def rotWalk (fs : Fs) (map : Map) (bno : ℕ) : ℕ → ℕ → Option ℕ
  | 0, _ => none
  | n + 1, i =>
    if isblock fs map (bno + i) then some (fs.blkstofrags (bno + i))
    else
      let delta := fs.rotbl i
      if delta = 0 ∨ delta + i > fs.fragstoblks fs.fpg then none else rotWalk fs map bno n (i + delta)

/-- What `alloccgblk` does about a preference: it has a block (and another preference), searches from a
place, or gives up. -/
inductive Pick
  | gotit (bno bpref : ℕ)
  | norot (bpref : ℕ)
  | fault
deriving DecidableEq, Repr

def pick (fs : Fs) (cgp : Cg) (bpref : ℕ) : Pick :=
  if bpref = 0 then .norot cgp.rotor
  else
    let bpref := fs.dtogd (fs.blknum bpref)
    if isblock fs cgp.blksfree (fs.fragstoblks bpref) then .gotit bpref bpref
    else
      let cylno := fs.cbtocylno bpref
      if cgp.blktot cylno = 0 then .norot bpref
      else if fs.cpc = 0 then .norot (howmany (fs.spc * cylno) fs.nspf)
      else
        let cylbp := cgp.blks cylno
        let pos := fs.cbtorpos bpref
        let i := position (fun i => cylbp i > 0) (fs.nrpos - pos) pos
        let i := if i = fs.nrpos then position (fun i => cylbp i > 0) pos 0 else i
        if cylbp i > 0 then
          let pos := cylno % fs.cpc
          let bno := (cylno - pos) * fs.spc / fs.nspb
          match fs.postbl pos i with
          | none => .fault
          | some i =>
            match rotWalk fs cgp.blksfree bno (fs.fragstoblks fs.fpg + 1) i with
            | some bno => .gotit bno bpref
            | none => .fault
        else .norot bpref

/-- The block at `bno` is taken out of the map and of the summaries. -/
def takeBlk (fs : Fs) (v : Vol) (cgx bno : ℕ) : Vol :=
  let cgp := v.cg cgx
  let cylno := fs.cbtocylno bno
  let rpos := fs.cbtorpos bno
  (v.setCg cgx { cgp with
    blksfree := clrblock fs cgp.blksfree (fs.fragstoblks bno)
    blks := update cgp.blks cylno (update (cgp.blks cylno) rpos (cgp.blks cylno rpos - 1))
    blktot := update cgp.blktot cylno (cgp.blktot cylno - 1) }).account cgx ⟨0, -1, 0, 0⟩

/-- The next available block of the group, from `bpref` on. `mapsearch` finds none that is being converted. -/
def norotBlk (fs : Fs) (iscancel : ℕ → Bool) (v : Vol) (cgx bpref : ℕ) : Vol × ℕ :=
  let r := mapsearch fs iscancel cgx (v.cg cgx) bpref fs.frag
  match r.2 with
  | none => (v.setCg cgx r.1, 0)
  | some bno => (takeBlk fs (v.setCg cgx { r.1 with rotor := bno }) cgx bno, cgx * fs.fpg + bno)

/-- Allocate a block in a cylinder group. 0 if there is none. -/
def alloccgblk (fs : Fs) (iscancel : ℕ → Bool) (v : Vol) (cgx bpref : ℕ) : Vol × ℕ :=
  match pick fs (v.cg cgx) bpref with
  | .fault => (v, 0)
  | .norot bpref => norotBlk fs iscancel v cgx bpref
  | .gotit bno bpref =>
    if iscancel (cgx * fs.fpg + bno) then norotBlk fs iscancel v cgx bpref
    else (takeBlk fs v cgx bno, cgx * fs.fpg + bno)

def clrbits (map : Map) (bno : ℕ) : ℕ → Map
  | 0 => map
  | n + 1 => clrbit (clrbits map bno n) (bno + n)

def setbits (map : Map) (bno : ℕ) : ℕ → Map
  | 0 => map
  | n + 1 => setbit (setbits map bno n) (bno + n)

/-- Fragments out of a run of free ones of size `allocsiz`. -/
def takeFrags (v : Vol) (cgx bno frags allocsiz : ℕ) : Vol :=
  let cgp := v.cg cgx
  let frsum := update cgp.frsum allocsiz (cgp.frsum allocsiz - 1)
  let frsum := if frags ≠ allocsiz then update frsum (allocsiz - frags) (frsum (allocsiz - frags) + 1) else frsum
  (v.setCg cgx { cgp with blksfree := clrbits cgp.blksfree bno frags, frsum }).account cgx ⟨0, 0, 0, -frags⟩

/-- The fragments of a new block that are not needed. -/
def giveRest (fs : Fs) (v : Vol) (cgx bpref frags : ℕ) : Vol :=
  let cgp := v.cg cgx
  let i := fs.frag - frags
  (v.setCg cgx { cgp with
    blksfree := setbits cgp.blksfree (bpref + frags) i
    frsum := update cgp.frsum i (cgp.frsum i + 1) }).account cgx ⟨0, 0, 0, i⟩

def breakBlk (fs : Fs) (iscancel : ℕ → Bool) (v : Vol) (cgx bpref frags : ℕ) : Vol × ℕ :=
  if (v.cg cgx).cs.nbfree = 0 then (v, 0)
  else
    let r := alloccgblk fs iscancel v cgx bpref
    if r.2 = 0 then r else (giveRest fs r.1 cgx (fs.dtogd r.2) frags, r.2)

/-- Allocate `frags` fragments, or a block, in a group. -/
def alloccg (fs : Fs) (iscancel : ℕ → Bool) (frags : ℕ) (v : Vol) (cgx bpref : ℕ) : Vol × ℕ :=
  if (v.cs cgx).nbfree = 0 ∧ frags = fs.frag then (v, 0)
  else if (v.cg cgx).cs.nbfree = 0 ∧ frags = fs.frag then (v, 0)
  else if frags = fs.frag then alloccgblk fs iscancel v cgx bpref
  else
    let allocsiz := position (fun k => (v.cg cgx).frsum k ≠ 0) (fs.frag - frags) frags
    if allocsiz = fs.frag then breakBlk fs iscancel v cgx bpref frags
    else
      let r := mapsearch fs iscancel cgx (v.cg cgx) bpref allocsiz
      let v := v.setCg cgx r.1
      match r.2 with
      | none => breakBlk fs iscancel v cgx bpref frags
      | some bno => (takeFrags v cgx bno frags allocsiz, cgx * fs.fpg + bno)

/-- Extend the fragments at `bprev` from `osize` to `nsize`, if those behind them are free. -/
def fragextend (fs : Fs) (iscancel : ℕ → Bool) (v : Vol) (cgx bprev osize nsize : ℕ) : Vol × ℕ :=
  if (v.cs cgx).nffree < (nsize - osize : ℕ) then (v, 0)
  else
    let frags := nsize
    let bbase := fs.fragnum bprev
    if fs.fragnum (bprev + frags - 1) < bbase then (v, 0)
    else if iscancel (fs.blknum bprev) then (v, 0)
    else
      let cgp := v.cg cgx
      let bno := fs.dtogd bprev
      if position (fun i => isclr cgp.blksfree (bno + i)) (frags - osize) osize ≠ frags then (v, 0)
      else
        let i := position (fun i => isclr cgp.blksfree (bno + i)) (fs.frag - bbase - frags) frags
        let j := i - osize
        let frsum := update cgp.frsum j (cgp.frsum j - 1)
        let frsum := if i ≠ frags then update frsum (i - frags) (frsum (i - frags) + 1) else frsum
        let n := frags - osize
        ((v.setCg cgx { cgp with blksfree := clrbits cgp.blksfree (bno + osize) n, frsum }).account cgx ⟨0, 0, 0, -n⟩,
          bprev)

def gainBlk (fs : Fs) (v : Vol) (cgx bno : ℕ) : Vol :=
  let cgp := v.cg cgx
  let cylno := fs.cbtocylno bno
  let rpos := fs.cbtorpos bno
  (v.setCg cgx { cgp with
    blks := update cgp.blks cylno (update (cgp.blks cylno) rpos (cgp.blks cylno rpos + 1))
    blktot := update cgp.blktot cylno (cgp.blktot cylno + 1) }).account cgx ⟨0, 1, 0, 0⟩

/-- The fragments are set one by one, up to the first one that is free already. -/
def freeFrags (map : Map) (bno : ℕ) : ℕ → ℕ → Map × Bool
  | 0, _ => (map, true)
  | n + 1, i => if isset map (bno + i) then (map, false) else freeFrags (setbit map (bno + i)) bno n (i + 1)

/-- Free a block or fragment. Whether it was without a fault. -/
def free (fs : Fs) (v : Vol) (bno size : ℕ) : Vol × Bool :=
  if fs.frag < size then (v, false)
  else
    let cgx := fs.dtog bno
    let cgp := v.cg cgx
    let bno := fs.dtogd bno
    if size = fs.frag then
      let blkno := fs.fragstoblks bno
      if !isclrblock fs cgp.blksfree blkno then (v, false)
      else (gainBlk fs (v.setCg cgx { cgp with blksfree := setblock fs cgp.blksfree blkno }) cgx bno, true)
    else
      let bbase := bno - fs.fragnum bno
      let frsum := fragacct fs (fs.blkmap cgp.blksfree bbase) cgp.frsum (-1)
      let r := freeFrags cgp.blksfree bno size 0
      if !r.2 then (v.setCg cgx { cgp with blksfree := r.1, frsum }, false)
      else
        let frsum := fragacct fs (fs.blkmap r.1 bbase) frsum 1
        let v := (v.setCg cgx { cgp with blksfree := r.1, frsum }).account cgx ⟨0, 0, 0, size⟩
        if isblock fs r.1 (fs.fragstoblks bbase) then
          (gainBlk fs (v.account cgx ⟨0, 0, 0, -fs.frag⟩) cgx bbase, true)
        else (v, true)

def takeIno (v : Vol) (cgx ipref : ℕ) (dir : Bool) : Vol :=
  let cgp := v.cg cgx
  (v.setCg cgx { cgp with inosused := setbit cgp.inosused ipref }).account cgx ⟨if dir then 1 else 0, 0, -1, 0⟩

/-- Allocate an inode in a group: the one asked for, or the next one from `cg_irotor` on. -/
def ialloccg (fs : Fs) (dir : Bool) (v : Vol) (cgx ipref : ℕ) : Vol × ℕ :=
  let cgp := v.cg cgx
  let iused := cgp.inosused
  if (v.cs cgx).nifree = 0 then (v, 0)
  else if cgp.cs.nifree = 0 then (v, 0)
  else if ipref ≠ 0 ∧ isclr iused (ipref % fs.ipg) = true then
    (takeIno v cgx (ipref % fs.ipg) dir, cgx * fs.ipg + ipref % fs.ipg)
  else
    -- the byte: from the one of the rotor on, and then from the first one on
    let start := cgp.irotor / nbby
    let len := howmany (fs.ipg - cgp.irotor) nbby
    let loc := skpc 0xff iused len start
    let i := if loc ≠ 0 then some (start + len - loc)
      else
        let loc := skpc 0xff iused (start + 1) 0
        if loc ≠ 0 then some (start + 1 - loc) else none
    match i with
    | none => (v, 0)
    | some i =>
      let bit := position (fun bit => (iused i &&& 1#8 <<< bit) = 0) nbby 0
      if bit = nbby then (v, 0)
      else
        let ipref := i * nbby + bit
        (takeIno (v.setCg cgx { cgp with irotor := ipref }) cgx ipref dir, cgx * fs.ipg + ipref)

section Hashalloc

variable (ncg : ℕ) (allocator : Vol → ℕ → ℕ → Vol × ℕ)

def rehash : ℕ → ℕ → ℕ → Vol → Vol × ℕ
  | 0, _, _, v => (v, 0)
  | n + 1, i, cg, v =>
    if i < ncg then
      let cg := if ncg ≤ cg + i then cg + i - ncg else cg + i
      let r := allocator v cg 0
      if r.2 ≠ 0 then r else rehash n (i * 2) cg r.1
    else (v, 0)

def brute : ℕ → ℕ → Vol → Vol × ℕ
  | 0, _, v => (v, 0)
  | n + 1, cg, v =>
    let r := allocator v cg 0
    if r.2 ≠ 0 then r else brute n (if cg + 1 = ncg then 0 else cg + 1) r.1

/-- Implement the cylinder overflow algorithm. -/
def hashalloc (v : Vol) (cg pref : ℕ) : Vol × ℕ :=
  let r := allocator v cg pref
  if r.2 ≠ 0 then r
  else
    let r := rehash ncg allocator ncg 1 cg r.1
    if r.2 ≠ 0 then r else brute ncg allocator (ncg - 2) ((cg + 2) % ncg) r.1

end Hashalloc

end Sol8.Ufs
