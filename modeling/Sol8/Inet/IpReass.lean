import Sol8.Lib.Ranges

/-! Reassembly of IP datagrams: `ip_reassemble` and the part of `ip_rput_local` that queues the fragments
of one datagram. Fragments that come in order are linked to the end of the queue. When one does not, the
queue is marked with the offsets of its blocks, and from then on `ip_reassemble` puts each new piece
where it belongs, clips what is covered, and counts the holes. -/

namespace Sol8.Inet.IpReass

variable {α β : Type}

/-- A message block. `bytes` are those from `b_rptr` to `b_wptr`; `start` and `stop` are what
`IP_REASS_START` and `IP_REASS_END` keep in `b_next` and `b_prev`. -/
structure Mblk (α β : Type) where
  addr : α
  bytes : List β
  start : ℕ
  stop : ℕ
deriving DecidableEq, Repr

namespace Mblk

/-- The block without its bytes before offset `s`: `b_rptr` moves up. -/
def trim (mp : Mblk α β) (s : ℕ) : Mblk α β := { mp with start := s, bytes := mp.bytes.drop (s - mp.start) }

/-- The block without its bytes from offset `e` on: `b_wptr` moves down. -/
def cut (mp : Mblk α β) (e : ℕ) : Mblk α β :=
  { mp with stop := e, bytes := mp.bytes.take (mp.bytes.length - (mp.stop - e)) }

end Mblk

structure Ipf (α β : Type) where
  /-- the blocks from `ipf_mp->b_cont` on -/
  cont : List (Mblk α β)
  tailMp : Option α
  holeCnt : ℤ
  /-- `ipf_end`: where the blocks in order end, or 0 -/
  endOffset : ℕ
  nfHdrLen : ℕ
deriving DecidableEq, Repr

/-- Blocks that were queued in order get their offsets. The first one has the header as well. -/
def mark (nfHdrLen : ℕ) : ℕ → List (Mblk α β) → List (Mblk α β)
  | _, [] => []
  | offset, mp1 :: rest =>
    let stop := offset + mp1.bytes.length - if offset = 0 then nfHdrLen else 0
    { mp1 with start := offset, stop := stop } :: mark nfHdrLen stop rest

/-- The queue as a hard case: with one hole, at the end. -/
def Ipf.harden (ipf : Ipf α β) : Ipf α β :=
  if ipf.endOffset ≠ 0 then
    { ipf with cont := mark ipf.nfHdrLen 0 ipf.cont, holeCnt := 1, endOffset := 0 }
  else ipf

/-- "Did we cover another hole?", asked when `mp1` is clipped out. -/
def coversHole (more : Bool) (stop : ℕ) (mp1 : Mblk α β) (rest : List (Mblk α β)) : Bool :=
  (rest.head?.any fun next => mp1.stop ≠ next.start && next.start ≤ stop) || !more

/-- The check for overlap of the new piece with the blocks behind it. The blocks from the piece on, the
tail and the count of holes after it. -/
def overlap (more : Bool) (mp : Mblk α β) : List (Mblk α β) → Option α → ℤ → List (Mblk α β) × Option α × ℤ
  | [], tail, holes => ([mp], tail, holes)
  | mp1 :: rest, tail, holes =>
    if mp1.start < mp.stop then
      if mp.stop < mp1.stop then (mp.cut mp1.start :: mp1 :: rest, tail, holes)
      else
        overlap more mp rest (if rest.isEmpty then some mp.addr else tail)
          (if coversHole more mp.stop mp1 rest then holes - 1 else holes)
    else (mp :: mp1 :: rest, tail, holes)

def front (more : Bool) (mp : Mblk α β) (offset : ℕ) (cont : List (Mblk α β)) (tail : Option α) (holes : ℤ) :
    List (Mblk α β) × Option α × ℤ :=
  let holes :=
    if mp.start = 0 then if offset ≤ mp.stop then holes - 1 else holes
    else if mp.stop < offset then holes + 1 else holes
  overlap more mp cont tail holes

/-- The walk of a piece that starts between the start of the head and the end of the tail. `none` if it
follows a null pointer. -/
def middle (more : Bool) (mp : Mblk α β) (tail : Option α) (holes : ℤ) :
    List (Mblk α β) → Option (List (Mblk α β) × Option α × ℤ)
  | [] => some ([], tail, holes)
  | mp1 :: rest =>
    -- nothing new
    if mp.start < mp1.stop ∧ mp.stop ≤ mp1.stop then some (mp1 :: rest, tail, holes)
    else
      let trimmed := if mp.start < mp1.stop then mp.trim mp1.stop else mp
      match rest with
      | [] =>
        if mp.start < mp1.stop then some ([mp1, trimmed], some mp.addr, if more then holes else holes - 1) else none
      | next :: rest =>
        if next.start ≤ trimmed.start then
          (middle more trimmed tail holes (next :: rest)).map fun (l, r) => (mp1 :: l, r)
        else
          let holes := if mp1.stop < trimmed.start then holes + 1 else holes
          if next.start ≤ trimmed.stop then
            let (l, r) := overlap more trimmed (next :: rest) tail (holes - 1)
            some (mp1 :: l, r)
          else some (mp1 :: trimmed :: next :: rest, tail, holes)

/-- `ipf_tail_mp->b_cont = mp`. -/
def linkAfter [DecidableEq α] (tail : α) (mp : Mblk α β) : List (Mblk α β) → List (Mblk α β)
  | [] => []
  | mp1 :: rest => if mp1.addr = tail then [mp1, mp] else mp1 :: linkAfter tail mp rest

/-- The queue with these blocks, tail and count of holes. -/
def Ipf.setQueue (ipf : Ipf α β) (r : List (Mblk α β) × Option α × ℤ) : Ipf α β :=
  { ipf with cont := r.1, tailMp := r.2.1, holeCnt := r.2.2 }

/-- A new piece that has its offsets, with another one behind it in the message or not. -/
def Ipf.insert [DecidableEq α] (ipf : Ipf α β) (mp : Mblk α β) (more nextMp : Bool) : Option (Ipf α β) :=
  match ipf.tailMp with
  | none =>
    let holes := if mp.start = 0 || !more then if nextMp then 2 else 1 else 2
    some (ipf.setQueue ([mp], some mp.addr, holes))
  | some tail =>
    (ipf.cont.find? fun mp1 => mp1.addr = tail).bind fun tailMp =>
    -- at or beyond the tail
    if tailMp.stop ≤ mp.start then
      let holes :=
        if more then if mp.start ≠ tailMp.stop then ipf.holeCnt + 1 else ipf.holeCnt
        else if mp.start = tailMp.stop && !nextMp then ipf.holeCnt - 1 else ipf.holeCnt
      some (ipf.setQueue (linkAfter tail mp ipf.cont, some mp.addr, holes))
    else
      ipf.cont.head?.bind fun mp1 =>
      let queued :=
        if mp.start < mp1.start then some (front more mp mp1.start ipf.cont ipf.tailMp ipf.holeCnt)
        else middle more mp ipf.tailMp ipf.holeCnt ipf.cont
      queued.map ipf.setQueue

def Ipf.pieces [DecidableEq α] (more : Bool) : ℕ → List (Mblk α β) → Ipf α β → Option (Ipf α β)
  | _, [], ipf => some ipf
  | start, mp :: next, ipf =>
    let stop := start + mp.bytes.length - if start = 0 then ipf.nfHdrLen else 0
    -- empty pieces are freed
    if start = stop then pieces more stop next ipf
    else (ipf.insert { mp with start, stop } more (!next.isEmpty)).bind (pieces more stop next)

/-- `ip_reassemble`: the queue with the new message, and whether the datagram is complete. -/
def ipReassemble [DecidableEq α] (mps : List (Mblk α β)) (ipf : Ipf α β) (start : ℕ) (more : Bool) :
    Option (Ipf α β × Bool) :=
  (ipf.harden.pieces more start mps).map fun ipf =>
    if ipf.holeCnt ≠ 0 then (ipf, false)
    else ({ ipf with cont := ipf.cont.map fun mp => { mp with start := 0, stop := 0 } }, true)

/-- A fragment that comes in, in one block: the IP header and what follows it. -/
structure Frag (α β : Type) where
  addr : α
  offset : ℕ
  more : Bool
  hdr : List β
  data : List β
deriving DecidableEq, Repr

def Frag.stop (f : Frag α β) : ℕ := f.offset + f.data.length

/-- The block of the fragment. Unless it is the first piece, the header is stripped. -/
def Frag.mblk (f : Frag α β) : Mblk α β where
  addr := f.addr
  bytes := if f.offset = 0 then f.hdr ++ f.data else f.data
  start := 0
  stop := 0

/-- A new queue, with what `allocb` leaves in the count of holes. -/
def newIpf (junk : ℤ) : Ipf α β where
  cont := []
  tailMp := none
  holeCnt := junk
  endOffset := 0
  nfHdrLen := 0

/-- The length of the header is that of the first fragment. -/
def Ipf.noteHdr (ipf : Ipf α β) (f : Frag α β) : Ipf α β :=
  if f.offset = 0 then { ipf with nfHdrLen := f.hdr.length } else ipf

/-- The hard cases. The bytes of the datagram when it is complete; the queue is then gone. -/
def hard [DecidableEq α] (ipf : Ipf α β) (f : Frag α β) : Option (Option (Ipf α β) × Option (List β)) :=
  (ipReassemble [f.mblk] (ipf.noteHdr f) f.offset f.more).map fun (ipf, done) =>
    if done then (none, some (ipf.cont.flatMap Mblk.bytes)) else (some ipf, none)

/-- A fragment of the datagram in `ip_rput_local`. -/
def fragmented [DecidableEq α] (junk : ℤ) (ipf : Option (Ipf α β)) (f : Frag α β) :
    Option (Option (Ipf α β) × Option (List β)) :=
  if f.data.length = 0 then some (ipf, none)
  else
    match ipf with
    | none =>
      if f.offset = 0 then
        some (some { (newIpf junk : Ipf α β) with
          cont := [f.mblk]
          tailMp := some f.addr
          endOffset := f.stop
          nfHdrLen := f.hdr.length }, none)
      else
        -- what `ip_reassemble` returns here is ignored
        (ipReassemble [f.mblk] (newIpf junk) f.offset f.more).map fun (ipf, _) => (some ipf, none)
    | some ipf =>
      if f.offset ≠ 0 ∧ ipf.endOffset = f.offset then
        -- it fits at the end
        ipf.tailMp.map fun tail =>
          let cont := linkAfter tail f.mblk ipf.cont
          if f.more then (some { ipf with cont, tailMp := some f.addr, endOffset := f.stop }, none)
          else (none, some (cont.flatMap Mblk.bytes))
      else hard ipf f

end Sol8.Inet.IpReass
