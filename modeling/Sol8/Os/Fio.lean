import Sol8.Lib.InfixTree
import Sol8.Lib.Run

/-! The table of file descriptors of a process (`os/fio.c`): finding, reserving and freeing descriptors in the
implicit tree of allocation counts, growing the table, and copying it in a fork. -/

namespace Sol8.Os.Fio

open Function Sol8.Lib.InfixTree

variable {F : Type}

structure UfEntry (F : Type) where
  file : Option F
  /-- right subtree allocs -/
  alloc : ℤ
  flag : ℤ
  /-- file is allocated -/
  busy : ℤ
deriving DecidableEq, Repr

def UfEntry.zero : UfEntry F := ⟨none, 0, 0, 0⟩

structure UfInfo (F : Type) where
  nfiles : ℕ
  list : ℕ → UfEntry F

namespace UfInfo

variable (t : UfInfo F)

/-- The descent of `fd_find` from the root of a subtree that is not full. The first argument bounds its rounds. -/
def descend : ℕ → ℕ → ℕ → ℤ → ℕ
  | 0, fd, _, _ => fd
  | n + 1, fd, size, ralloc =>
    if size ≠ 0 then
      let ralloc := ralloc + (t.list (fd + size)).alloc
      if (t.list fd).alloc = ralloc + size then descend n (fd + size) (size >>> 1) 0
      else descend n fd (size >>> 1) ralloc
    else fd

def ascend : ℕ → ℕ → Option ℕ
  | 0, _ => none
  | n + 1, fd =>
    if fd < t.nfiles then
      let size := fd ^^^ (fd ||| (fd + 1))
      if (t.list fd).alloc = size then ascend n (fd ||| (fd + 1))
      else some (t.descend (size >>> 1) fd (size >>> 1) 0)
    else none

/-- The smallest available descriptor from `minfd` on; `none` is -1. -/
def fdFind (minfd : ℕ) : Option ℕ := t.ascend (t.nfiles + 1) minfd

def reserveLoop (incr : ℤ) : ℕ → ℕ → (ℕ → UfEntry F) → ℕ → UfEntry F
  | 0, _, list => list
  | n + 1, pfd, list =>
    let list := update list pfd { list pfd with alloc := (list pfd).alloc + incr }
    match pfd &&& (pfd + 1) with
    | 0 => list
    | p + 1 => reserveLoop incr n p list

/-- Allocate or free a descriptor. -/
def fdReserve (fd : ℕ) (incr : ℤ) : UfInfo F :=
  let list := reserveLoop incr (fd + 1) fd t.list
  { t with list := update list fd { list fd with busy := (list fd).busy + incr } }

/-- The loop of `flist_grow` over `newcnt`. -/
def newcnt (maxfd : ℕ) : ℕ → ℕ → ℕ
  | 0, cnt => cnt
  | n + 1, cnt => if cnt ≤ maxfd then newcnt maxfd n (cnt <<< 1 ||| 1) else cnt

/-- Increase the size of the table to accommodate at least `maxfd`. -/
def flistGrow (maxfd : ℕ) : UfInfo F :=
  let cnt := newcnt maxfd (maxfd + 1) 1
  if cnt ≤ t.nfiles then t
  else
    { nfiles := cnt
      list := fun i => if i < t.nfiles then t.list i else .zero }

/-- The loop of `flist_fork`, from descriptor `fd` on, over the table of the child. -/
def forkLoop : ℕ → ℕ → UfInfo F → UfInfo F
  | 0, _, c => c
  | n + 1, fd, c =>
    let c := { c with list := update c.list fd (t.list fd) }
    if (t.list fd).file = none ∧ (t.list fd).busy ≠ 0 then forkLoop n (fd + 1) (c.fdReserve fd (-1))
    else forkLoop n (fd + 1) c

/-- Duplicate all descriptors across a fork: the table of the child. -/
def flistFork : UfInfo F := t.forkLoop t.nfiles 0 ⟨t.nfiles, fun _ => .zero⟩

/-- Allocate a descriptor from `start` on and below the limit; `none` is -1. The first argument bounds the rounds
of the loop. -/
def ufallocLoop (filelimit start : ℕ) : ℕ → UfInfo F → Option (UfInfo F × Option ℕ)
  | 0, _ => none
  | n + 1, t =>
    match t.fdFind start with
    | some fd => if fd < filelimit then some (t.fdReserve fd 1, some fd) else some (t, none)
    | none => ufallocLoop filelimit start n (t.flistGrow (max start t.nfiles))

/-- Two rounds are enough. -/
def ufalloc (filelimit start : ℕ) : Option (UfInfo F × Option ℕ) := ufallocLoop filelimit start 2 t

def setf (fd : ℕ) (fp : Option F) : UfInfo F :=
  let t := if fp = none then t.fdReserve fd (-1) else t
  { t with list := update t.list fd { t.list fd with file := fp } }

inductive Close (F : Type)
  /-- it returns, with an error or with the new file in a free descriptor -/
  | done
  /-- it waits for the `setf` of a descriptor that is being set up -/
  | wait
  /-- a file is to be closed; then `setf` follows -/
  | detached (fp : F)
deriving DecidableEq, Repr

/-- `closeandsetf`, up to its `closef`. -/
def closeandsetf (fd : ℕ) (newfp : Option F) : UfInfo F × Close F :=
  if t.nfiles ≤ fd ∧ newfp = none then (t, .done)
  else
    let t := if t.nfiles ≤ fd then t.flistGrow fd else t
    let ufp := t.list fd
    match newfp, ufp.file with
    | _, some fp => ({ t with list := update t.list fd { ufp with file := none, flag := 0 } }, .detached fp)
    | none, none => (t, .done)
    | some newfp, none =>
      if ufp.busy ≠ 0 then (t, .wait)
      else
        let t := t.fdReserve fd 1
        ({ t with list := update t.list fd { t.list fd with file := some newfp } }, .done)

end UfInfo

end Sol8.Os.Fio
