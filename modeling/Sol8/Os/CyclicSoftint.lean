import Sol8.Lib.Run

/-! Expiry and soft interrupts of the cyclics of one CPU (`os/cyclic.c`).

A soft interrupt runs in steps: one load or store of shared data, one call of a handler, one
compare-and-swap. Between two steps the CPU may run `cyclic_expire`, which is at a higher level, and
the cross calls that resize the arrays and add or remove a cyclic. The soft interrupts of the two
levels interleave in any way. Pointers to arrays of cyclics are numbers. -/

namespace Sol8.Os.CyclicSoftint

open Function Sol8.Lib

/-- The soft levels, `CY_LOW_LEVEL` and `CY_LOCK_LEVEL`. -/
inductive Level
  | low | lock
  deriving DecidableEq

/-- `handler` is `cy_handler` with `cy_arg`. -/
structure Cyclic (κ : Type) where
  level : Level
  pend : ℕ
  handler : κ
  /-- `CYF_FREE` -/
  free : Bool

structure PcBuffer where
  buf : ℕ → ℕ
  prodndx : ℕ
  consndx : ℕ
  sizemask : ℕ

structure SoftBuf where
  hard : Bool
  soft : Bool
  buf : Bool → PcBuffer

inductive CypState
  | online | expanding | removing
  deriving DecidableEq

/-- The thread that resizes or removes: before its cross call, and after it. -/
inductive Modifier
  | idle | expand | expandWait | remove (ndx : ℕ) | removeWait (ndx : ℕ)
  deriving DecidableEq

inductive Pc
  /-- none is running -/
  | idle
  /-- load `cyp_cyclics` -/
  | load
  /-- load `cys_soft` -/
  | top
  /-- load `cypc_consndx` and `cypc_sizemask`, which no one else changes -/
  | fill
  /-- compare `consndx` with `cypc_prodndx` -/
  | test
  /-- load the index in the buffer -/
  | pick
  /-- load `cy_handler` and `cy_arg` -/
  | fetch
  | call
  /-- load `cy_pend` -/
  | reread
  /-- compare `cyp_state` with `CYS_REMOVING` -/
  | stateTest
  /-- load `cyp_rpend` -/
  | removePend
  /-- call the handler in `cyclic_remove_pend` -/
  | removeCall
  /-- let the remove operation complete -/
  | removePost
  /-- load `cyp_cyclics` after a resize -/
  | reload
  /-- load the index in the buffer again -/
  | repick
  /-- compare and swap `cy_pend` -/
  | cas
  /-- store `cypc_consndx` -/
  | advance
  /-- compare `soft` with `cys_hard` -/
  | check
  /-- compare `cyp_cyclics` with `cyclics` -/
  | grow
  /-- load `cyp_cyclics` -/
  | growLoad
  /-- load `cys_hard` -/
  | switchLoad
  /-- store `cys_soft` -/
  | switchStore
  /-- load `cyp_modify_levels` -/
  | bump
  /-- compare and swap `cyp_modify_levels` -/
  | bumpCas
  /-- let the resize operation complete -/
  | kick
  /-- post to the next lower level -/
  | postDown
  deriving DecidableEq

structure Frame (κ : Type) where
  pc : Pc
  cyclics : ℕ
  soft : Bool
  consndx : ℕ
  sizemask : ℕ
  resized : Bool
  /-- the array and the index that `cyclic` points to -/
  cyclic : ℕ × ℕ
  handler : κ
  /-- `pend`, and in `cyclic_remove_pend` the calls to make -/
  pend : ℕ
  hard : Bool
  lev : ℕ

/-- What belongs to one soft level; `posted` is whether the backend has a soft interrupt to deliver. -/
structure LevelState (κ : Type) where
  softbuf : SoftBuf
  frame : Frame κ
  posted : Bool

/-- The rest of `cyc_cpu_t`, the memory, and the counts of what happened. -/
structure Shared (κ : Type) where
  mem : ℕ → ℕ → Cyclic κ
  cyclics : ℕ
  size : ℕ
  cypState : CypState
  rpend : ℕ
  modifyLevels : ℕ
  modifyWait : ℕ
  modifier : Modifier
  expires : κ → ℕ
  calls : κ → ℕ

structure State (κ : Type) where
  shared : Shared κ
  lev : Level → LevelState κ

variable {κ : Type} [DecidableEq κ]

namespace Shared

variable (c : Shared κ)

def cur (i : ℕ) : Cyclic κ := c.mem c.cyclics i

def setPend (g i pend : ℕ) : Shared κ :=
  { c with mem := update c.mem g (update (c.mem g) i { c.mem g i with pend := pend }) }

def called (k : κ) : Shared κ := { c with calls := update c.calls k (c.calls k + 1) }

end Shared

/-- `cy_pend` after one more expiry; it is kept at `UINT32_MAX`. -/
def bumpPend (pend : ℕ) : ℕ := if (pend + 1) % 2 ^ 32 = 0 then 2 ^ 32 - 1 else (pend + 1) % 2 ^ 32

def SoftBuf.enqueue (sb : SoftBuf) (ndx : ℕ) : SoftBuf :=
  let pc := sb.buf sb.hard
  let pc' := { pc with buf := update pc.buf (pc.prodndx &&& pc.sizemask) ndx, prodndx := pc.prodndx + 1 }
  { sb with buf := update sb.buf sb.hard pc' }

def State.cyclicExpire (s : State κ) (ndx : ℕ) : State κ :=
  let c := s.shared
  let cy := c.cur ndx
  let v := s.lev cy.level
  let c' := c.setPend c.cyclics ndx (if cy.pend = 0 then 1 else bumpPend cy.pend)
  let softbuf := if cy.pend = 0 then v.softbuf.enqueue ndx else v.softbuf
  ⟨{ c' with expires := update c.expires cy.handler (c.expires cy.handler + 1) },
    update s.lev cy.level { v with softbuf := softbuf, posted := true }⟩

/-- `cyclic_add_xcall` with the index that it takes off the free list. -/
def State.cyclicAddXcall (s : State κ) (ndx : ℕ) (level : Level) (handler : κ) : State κ :=
  let c := s.shared
  let cy := { c.cur ndx with level := level, handler := handler, free := false }
  { s with shared := { c with mem := update c.mem c.cyclics (update (c.mem c.cyclics) ndx cy) } }

/-- `cyclic_expand` up to the cross call. -/
def State.cyclicExpand (s : State κ) : State κ :=
  let setUp (sb : SoftBuf) : SoftBuf :=
    let pc := { sb.buf (!sb.hard) with prodndx := 0, consndx := 0, sizemask := 2 * s.shared.size - 1 }
    { sb with buf := update sb.buf (!sb.hard) pc }
  ⟨{ s.shared with cypState := .expanding, modifyLevels := 0, modifier := .expand },
    fun l => { s.lev l with softbuf := setUp (s.lev l).softbuf }⟩

def State.cyclicExpandXcall (s : State κ) : State κ :=
  let c := s.shared
  let new := c.cyclics + 1
  let newCyclics (i : ℕ) : Cyclic κ :=
    if i < c.size then c.cur i else { c.mem new i with pend := 0, free := true }
  let oldCyclics (i : ℕ) : Cyclic κ := if i < c.size then { c.cur i with pend := 0 } else c.cur i
  ⟨{ c with
      mem := update (update c.mem c.cyclics oldCyclics) new newCyclics
      cyclics := new
      size := 2 * c.size
      modifier := .expandWait },
    fun l =>
      let v := s.lev l
      { v with
        softbuf := { v.softbuf with hard := !v.softbuf.hard }
        posted := v.posted || l = .lock }⟩

def State.cyclicRemoveXcall (s : State κ) (ndx : ℕ) : State κ :=
  let c := s.shared
  let cy := c.cur ndx
  { s with shared := { c with
      rpend := if cy.pend ≠ 0 then cy.pend else c.rpend
      mem := update c.mem c.cyclics (update (c.mem c.cyclics) ndx { cy with pend := 0, free := true })
      modifier := .removeWait ndx } }

/-! ### The steps of `cyclic_softint` -/

section Softint

variable (l : Level) (c : Shared κ) (v : LevelState κ)

def LevelState.goto (pc : Pc) : LevelState κ := { v with frame := { v.frame with pc := pc } }

def LevelState.pcbuf : PcBuffer := v.softbuf.buf v.frame.soft

/-- One step; the last component is whether it posts to the low level. -/
def softintStep : Option (Shared κ × LevelState κ × Bool) :=
  let f := v.frame
  let cyclic := c.mem f.cyclic.1 f.cyclic.2
  let slot := v.pcbuf.buf (f.consndx &&& f.sizemask)
  match f.pc with
  | .idle => none
  | .load => some (c, { v with frame := { f with cyclics := c.cyclics, pc := .top } }, false)
  | .top => some (c, { v with frame := { f with soft := v.softbuf.soft, pc := .fill } }, false)
  | .fill => some (c, { v with frame := { f with
      consndx := v.pcbuf.consndx, sizemask := v.pcbuf.sizemask, pc := .test } }, false)
  | .test => some (c, v.goto (if f.consndx ≠ v.pcbuf.prodndx then .pick else .check), false)
  | .pick => some (c, { v with frame := { f with cyclic := (f.cyclics, slot), pc := .fetch } }, false)
  | .fetch => some (c, { v with frame := { f with handler := cyclic.handler, pc := .call } }, false)
  | .call => some (c.called f.handler, v.goto .reread, false)
  | .reread => some (c, { v with frame := { f with
      pend := cyclic.pend, pc := if cyclic.pend = 0 then .stateTest else .cas } }, false)
  | .stateTest => some (c, v.goto (if c.cypState = .removing then .removePend else .reload), false)
  | .removePend => some (c, { v with frame := { f with
      handler := cyclic.handler, pend := (c.rpend + (2 ^ 32 - 1)) % 2 ^ 32, pc := .removeCall } }, false)
  | .removeCall =>
    if f.pend = 0 then some (c, v.goto .removePost, false)
    else some (c.called f.handler, { v with frame := { f with pend := f.pend - 1 } }, false)
  | .removePost => some ({ c with modifyWait := c.modifyWait + 1 }, v.goto .advance, false)
  | .reload => some (c, { v with frame := { f with cyclics := c.cyclics, pc := .repick } }, false)
  | .repick => some (c, { v with frame := { f with cyclic := (f.cyclics, slot), pc := .reread } }, false)
  | .cas =>
    if cyclic.pend = f.pend then
      -- `npend > 0` is a test of an int
      some (c.setPend f.cyclic.1 f.cyclic.2 (f.pend - 1),
        v.goto (if 0 < f.pend - 1 ∧ f.pend - 1 < 2 ^ 31 then .call else .advance), false)
    else some (c, v.goto .reread, false)
  | .advance =>
    let pc := { v.pcbuf with consndx := f.consndx + 1 }
    some (c, { v with
      softbuf := { v.softbuf with buf := update v.softbuf.buf f.soft pc }
      frame := { f with consndx := f.consndx + 1, pc := .test } }, false)
  | .check => some (c, v.goto (if f.soft ≠ v.softbuf.hard then .grow
      else if f.resized then .bump else .idle), false)
  | .grow => some (c, v.goto (if c.cyclics ≠ f.cyclics then .growLoad else .switchLoad), false)
  | .growLoad => some (c, { v with frame := { f with cyclics := c.cyclics, pc := .switchLoad } }, false)
  | .switchLoad => some (c, { v with frame := { f with hard := v.softbuf.hard, pc := .switchStore } }, false)
  | .switchStore => some (c, { v with
      softbuf := { v.softbuf with soft := f.hard }
      frame := { f with resized := true, pc := .top } }, false)
  | .bump => some (c, { v with frame := { f with lev := c.modifyLevels, pc := .bumpCas } }, false)
  | .bumpCas =>
    if c.modifyLevels = f.lev then
      some ({ c with modifyLevels := f.lev + 1 },
        v.goto (if f.lev + 1 = 2 then .kick else if l ≠ .low then .postDown else .idle), false)
    else some (c, v.goto .bump, false)
  | .kick => some ({ c with modifyWait := c.modifyWait + 1 }, v.goto .idle, false)
  | .postDown => some (c, v.goto .idle, true)

end Softint

/-! ### Runs -/

inductive Event (κ : Type)
  | expire (ndx : ℕ)
  | add (ndx : ℕ) (level : Level) (handler : κ)
  | expand
  | expandXcall
  /-- the rest of `cyclic_expand` -/
  | expandDone
  | remove (ndx : ℕ)
  | removeXcall
  /-- the rest of `cyclic_remove_here` -/
  | removeDone
  /-- the backend delivers a soft interrupt, perhaps one that was not posted -/
  | softint (l : Level)
  | step (l : Level)

/-- The operations on a CPU; adding, removing and resizing are done under `cpu_lock`. -/
def State.exec (s : State κ) : Event κ → Option (State κ)
  | .expire ndx => if (s.shared.cur ndx).free then none else some (s.cyclicExpire ndx)
  | .add ndx level handler =>
    if s.shared.modifier = .idle ∧ ndx < s.shared.size ∧ (s.shared.cur ndx).free then
      some (s.cyclicAddXcall ndx level handler)
    else none
  | .expand => if s.shared.modifier = .idle then some s.cyclicExpand else none
  | .expandXcall => if s.shared.modifier = .expand then some s.cyclicExpandXcall else none
  | .expandDone =>
    if s.shared.modifier = .expandWait ∧ 0 < s.shared.modifyWait then
      some { s with shared := { s.shared with
        modifyWait := s.shared.modifyWait - 1, cypState := .online, modifier := .idle } }
    else none
  | .remove ndx =>
    if s.shared.modifier = .idle ∧ ¬ (s.shared.cur ndx).free then
      some { s with shared := { s.shared with cypState := .removing, modifier := .remove ndx } }
    else none
  | .removeXcall =>
    match s.shared.modifier with
    | .remove ndx => some (s.cyclicRemoveXcall ndx)
    | _ => none
  | .removeDone =>
    match s.shared.modifier with
    | .removeWait _ =>
      -- `sema_p` only if there is something to wait for
      if s.shared.rpend ≠ 0 ∧ s.shared.modifyWait = 0 then none
      else some { s with shared := { s.shared with
        modifyWait := if s.shared.rpend ≠ 0 then s.shared.modifyWait - 1 else s.shared.modifyWait
        rpend := 0, cypState := .online, modifier := .idle } }
    | _ => none
  | .softint l =>
    let v := s.lev l
    if v.frame.pc = .idle then
      some { s with lev := update s.lev l { v with
        frame := { v.frame with pc := .load, resized := false }, posted := false } }
    else none
  | .step l =>
    (softintStep l s.shared (s.lev l)).map fun (c, v, post) =>
      let lev := update s.lev l v
      ⟨c, if post then update lev .low { lev .low with posted := true } else lev⟩

end Sol8.Os.CyclicSoftint
