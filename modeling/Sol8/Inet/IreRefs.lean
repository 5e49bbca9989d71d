import Sol8.Lib.Hlist
import Sol8.Lib.Run

/-! References to routes (`inet/ip_ire.c`, `inet/ip.h`): entries are put on the chain of a bucket under its lock, found
under its lock, and visited by walkers that hold the bucket but not its lock. A step makes one access to what is read
without the lock, which is the links, `ire_bucket` and `ire_refcnt`; a part of a call that holds the lock and makes no
such access is one step. -/

namespace Sol8.Inet.IreRefs

open Function Sol8.Lib

/-- What does not change while an entry is in use: the bucket of its address, its address, and `ire_match_args` for the
entry and one that may be the same route. -/
structure Fields (I B A : Type) where
  home : I → B
  addr : I → A
  agree : I → I → Bool

/-- Where a call of `ire_delete` returns to. -/
inductive Caller (I B : Type)
  | holder
  | walker (b : B) (i : I)
deriving DecidableEq

inductive Pc (I B : Type)
  | idle
  /-- `ire_add`, before the lock is held -/
  | addEnter (i : I)
  | adding (i : I)
  /-- before `*irep = ire` -/
  | linking (i : I) (irep : Cell B I)
  /-- before the store of `ire_bucket` -/
  | linked (i : I)
  /-- before `ire_refcnt` is read, and before it is stored -/
  | bucketed (i : I)
  | counting (i : I) (refcnt : ℕ)
  | addExit (i : I)
  /-- with the reference to an entry that agrees -/
  | addDup (i : I)
  /-- a lookup, with the lock held -/
  | looking (b : B)
  | lookExit (b : B)
  /-- a walk, after `IRB_REFHOLD` -/
  | walkStart (b : B)
  | walking (b : B) (ire : Option I)
  /-- `ire_delete`, before `ire_bucket` is read -/
  | del (k : Caller I B) (i : I)
  | discard (k : Caller I B) (i : I)
  | delEnter (k : Caller I B) (i : I) (irb : B)
  | delUnlink (k : Caller I B) (i : I) (irb : B)
  | delClear (k : Caller I B) (i : I) (irb : B)
  | delRefrele (k : Caller I B) (i : I)
  /-- `ire_unlink`, in its loop -/
  | unlinking (irb : B) (ire ireList : Option I)
  | unlinkOut (irb : B) (i : I) (ire1 ireList : Option I)
  | unlinkClear (irb : B) (i : I) (ire1 ireList : Option I)
  | unlinkPush (irb : B) (i : I) (ire1 ireList : Option I)
  | cleanup (ire : Option I)
  | cleanNull (i : I) (ireNext : Option I)
  | cleanRefrele (i : I) (ireNext : Option I)
deriving DecidableEq

/-- What happens to entries: an entry is put on its chain, it is taken off while threads hold the bucket, the reference
of the table is dropped, or the last reference is. -/
inductive Mark (T I : Type)
  | inserted (i : I)
  | unlinked (i : I) (walkers : List T)
  | dropped (i : I)
  | inactive (i : I)
deriving DecidableEq

structure World (T I B : Type) where
  /-- `irb_ire`, `ire_next` and `ire_ptpn` -/
  links : Hlists B I
  /-- `irb_lock` -/
  writer : B → Option T
  readers : B → List T
  irbRefcnt : B → ℕ
  irbCondemned : B → Bool
  ireBucket : I → Option B
  ireCondemned : I → Bool
  ireRefcnt : I → ℕ
  /-- the entries that have been made, which bound every loop over a chain under its lock -/
  heap : List I
  /-- who holds a bucket, and who holds a reference to an entry -/
  holders : B → List T
  refs : List (T × I)
  pc : T → Pc I B
  trace : List (Mark T I)

inductive Event (T I B : Type)
  /-- `ire_create` and the call of `ire_add` -/
  | add (t : T) (i : I)
  | lookup (t : T) (b : B)
  /-- the entry that a lookup finds -/
  | found (t : T) (i : Option I)
  /-- `IRB_REFHOLD` -/
  | walk (t : T) (b : B)
  /-- a walker calls `ire_delete` for the entry it visits -/
  | visit (t : T)
  /-- a thread that has a reference to an entry calls `ire_delete`, or makes another reference, or drops one -/
  | delete (t : T) (i : I)
  | refhold (t : T) (i : I)
  | refrele (t : T) (i : I)
  /-- a thread goes on -/
  | step (t : T)

section Model

variable {T I B A : Type} [DecidableEq T] [DecidableEq I] [DecidableEq B] [DecidableEq A]

def Caller.pc : Caller I B → Pc I B
  | .holder => .idle
  | .walker b i => .walking b (some i)

def World.goto (w : World T I B) (t : T) (pc : Pc I B) : World T I B := { w with pc := update w.pc t pc }

def World.mark (w : World T I B) (m : Mark T I) : World T I B := { w with trace := w.trace ++ [m] }

def ireRefhold (w : World T I B) (t : T) (i : I) : World T I B :=
  { w with ireRefcnt := update w.ireRefcnt i ((w.ireRefcnt i + 1) % 2 ^ 32), refs := (t, i) :: w.refs }

def ireRefrele (w : World T I B) (i : I) : World T I B :=
  let refcnt := (w.ireRefcnt i + (2 ^ 32 - 1)) % 2 ^ 32
  let w := { w with ireRefcnt := update w.ireRefcnt i refcnt }
  if refcnt = 0 then w.mark (.inactive i) else w

def World.free (w : World T I B) (b : B) : Bool := w.writer b == none && w.readers b == []

def duplicate (f : Fields I B A) (w : World T I B) (i : I) : Option I :=
  w.links.find (fun j => !w.ireCondemned j && f.agree i j) w.heap.length (w.links.head (f.home i))

/-- Where a new entry goes: behind the last one with its address, or else at the end of the chain. -/
def place (f : Fields I B A) (w : World T I B) (i : I) : Cell B I :=
  let irep := w.links.walk (fun j => f.addr i != f.addr j) w.heap.length (.head (f.home i))
  w.links.walk (fun j => f.addr i == f.addr j) w.heap.length irep

def ireAdd (f : Fields I B A) (w : World T I B) (t : T) (i : I) : World T I B :=
  match duplicate f w i with
  | some j => (ireRefhold w t j).goto t (.addDup i)
  | none =>
    let irep := place f w i
    { w with links := w.links.prepare irep i }.goto t (.linking i irep)

/-- `ire_delete` with the lock held, up to the store that takes the entry off its chain. -/
def ireDelete (w : World T I B) (t : T) (k : Caller I B) (i : I) (irb : B) : World T I B :=
  if w.links.back i = none then w.goto t k.pc
  else if w.irbRefcnt irb ≠ 0 then
    { w with
      ireCondemned := update w.ireCondemned i true
      irbCondemned := update w.irbCondemned irb true }.goto t k.pc
  else { w with writer := update w.writer irb (some t) }.goto t (.delUnlink k i irb)

/-- `IRB_REFRELE`, up to the loop of `ire_unlink`. -/
def irbRefrele (w : World T I B) (t : T) (b : B) : World T I B :=
  let refcnt := (w.irbRefcnt b + (2 ^ 32 - 1)) % 2 ^ 32
  let w := { w with
    irbRefcnt := update w.irbRefcnt b refcnt
    holders := update w.holders b ((w.holders b).erase t) }
  if refcnt = 0 ∧ w.irbCondemned b = true then
    { w with writer := update w.writer b (some t) }.goto t (.unlinking b (w.links.head b) none)
  else w.goto t .idle

def takeOff (w : World T I B) (i : I) (b : B) : World T I B :=
  { w with links := w.links.detach i }.mark (.unlinked i (w.holders b))

def drop (w : World T I B) (i : I) : World T I B := ireRefrele (w.mark (.dropped i)) i

def World.setNext (w : World T I B) (i : I) (v : Option I) : World T I B :=
  { w with links := { w.links with next := update w.links.next i v } }

def World.unlock (w : World T I B) (b : B) : World T I B := { w with writer := update w.writer b none }

def goOn (f : Fields I B A) (w : World T I B) (t : T) : Pc I B → Option (World T I B)
  | .idle => none
  | .looking _ => none
  | .addEnter i =>
    if w.free (f.home i) then some ({ w with writer := update w.writer (f.home i) (some t) }.goto t (.adding i))
    else none
  | .adding i => some (ireAdd f w t i)
  | .linking i irep => some (({ w with links := w.links.write (some i) irep }.mark (.inserted i)).goto t (.linked i))
  | .linked i => some ({ w with ireBucket := update w.ireBucket i (some (f.home i)) }.goto t (.bucketed i))
  | .bucketed i => some (w.goto t (.counting i (w.ireRefcnt i)))
  | .counting i refcnt =>
    some ({ w with
      ireRefcnt := update w.ireRefcnt i ((refcnt + 1) % 2 ^ 32)
      refs := (t, i) :: w.refs }.goto t (.addExit i))
  | .addExit i => some ((w.unlock (f.home i)).goto t .idle)
  | .addDup i => some ((w.unlock (f.home i)).goto t (.del .holder i))
  | .lookExit b => some ({ w with readers := update w.readers b ((w.readers b).erase t) }.goto t .idle)
  | .walkStart b => some (w.goto t (.walking b (w.links.head b)))
  | .walking b (some i) => some (w.goto t (.walking b (w.links.next i)))
  | .walking b none => if w.free b then some (irbRefrele w t b) else none
  | .del k i =>
    match w.ireBucket i with
    | none => some (w.goto t (.discard k i))
    | some irb => some (w.goto t (.delEnter k i irb))
  | .discard k i => some ((ireRefrele w i).goto t k.pc)
  | .delEnter k i irb => if w.free irb then some (ireDelete w t k i irb) else none
  | .delUnlink k i irb => some ((takeOff w i irb).goto t (.delClear k i irb))
  | .delClear k i irb =>
    some (({ w with
      links := w.links.clear i
      ireCondemned := update w.ireCondemned i true }.unlock irb).goto t (.delRefrele k i))
  | .delRefrele k i => some ((drop w i).goto t k.pc)
  | .unlinking irb (some i) ireList =>
    some (w.goto t (if w.ireCondemned i then .unlinkOut irb i (w.links.next i) ireList
      else .unlinking irb (w.links.next i) ireList))
  | .unlinking irb none ireList =>
    some (({ w with irbCondemned := update w.irbCondemned irb false }.unlock irb).goto t (.cleanup ireList))
  | .unlinkOut irb i ire1 ireList => some ((takeOff w i irb).goto t (.unlinkClear irb i ire1 ireList))
  | .unlinkClear irb i ire1 ireList =>
    some ({ w with links := w.links.clear i }.goto t (.unlinkPush irb i ire1 ireList))
  | .unlinkPush irb i ire1 ireList => some ((w.setNext i ireList).goto t (.unlinking irb ire1 (some i)))
  | .cleanup none => some (w.goto t .idle)
  | .cleanup (some i) => some (w.goto t (.cleanNull i (w.links.next i)))
  | .cleanNull i ireNext => some ((w.setNext i none).goto t (.cleanRefrele i ireNext))
  | .cleanRefrele i ireNext => some ((drop w i).goto t (.cleanup ireNext))

def World.live (w : World T I B) (b : B) (i : I) : Bool :=
  !w.ireCondemned i && w.links.find (fun j => decide (j = i)) w.heap.length (w.links.head b) == some i

/-- The end of the search, with the reference to what is found. -/
def lookFound (w : World T I B) (t : T) (b : B) : Option I → Option (World T I B)
  | none => some (w.goto t (.lookExit b))
  | some i => if w.live b i then some ((ireRefhold w t i).goto t (.lookExit b)) else none

def exec (f : Fields I B A) (w : World T I B) : Event T I B → Option (World T I B)
  | .add t i =>
    if w.pc t = .idle ∧ i ∉ w.heap then
      some ({ w with
        heap := i :: w.heap
        links := w.links.clear i
        ireBucket := update w.ireBucket i none
        ireCondemned := update w.ireCondemned i false
        ireRefcnt := update w.ireRefcnt i 1 }.goto t (.addEnter i))
    else none
  | .lookup t b =>
    if w.pc t = .idle ∧ w.writer b = none then
      some ({ w with readers := update w.readers b (t :: w.readers b) }.goto t (.looking b))
    else none
  | .found t i =>
    match w.pc t with
    | .looking b => lookFound w t b i
    | _ => none
  | .walk t b =>
    if w.pc t = .idle ∧ w.free b then
      some ({ w with
        irbRefcnt := update w.irbRefcnt b ((w.irbRefcnt b + 1) % 2 ^ 32)
        holders := update w.holders b (t :: w.holders b) }.goto t (.walkStart b))
    else none
  | .visit t =>
    match w.pc t with
    | .walking b (some i) => some (w.goto t (.del (.walker b i) i))
    | _ => none
  | .delete t i => if w.pc t = .idle ∧ (t, i) ∈ w.refs then some (w.goto t (.del .holder i)) else none
  | .refhold t i => if w.pc t = .idle ∧ (t, i) ∈ w.refs then some (ireRefhold w t i) else none
  | .refrele t i =>
    if w.pc t = .idle ∧ (t, i) ∈ w.refs then some (ireRefrele { w with refs := w.refs.erase (t, i) } i) else none
  | .step t => goOn f w t (w.pc t)

end Model

end Sol8.Inet.IreRefs
