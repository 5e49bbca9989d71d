import Sol8.Lib.Ring
import Sol8.Os.CyclicSoftint

/-! What holds between two steps of the soft interrupts (`os/cyclic.c`).

Each cyclic is owed calls of its handler: its pend count, or what a removal has left of it. A soft
interrupt that has called a handler and not yet decremented the pend count is one call ahead. -/

namespace Sol8.Os.CyclicSoftint

open Function Sol8.Lib LevelState

variable {κ : Type} {s s' : State κ} {c c' : Shared κ} {v v' : LevelState κ} {w w' : ℕ → ℕ} {l : Level} {i : ℕ}

/-! ### Where a soft interrupt is -/

namespace Pc

/-- The handler was called, and the pend count not yet decremented. -/
def called : Pc → Bool
  | .reread | .stateTest | .removePend | .reload | .repick | .cas => true
  | _ => false

/-- `cyclic` is the entry at `consndx`. -/
def fetched : Pc → Bool
  | .fetch | .call => true
  | pc => pc.called

/-- The entry at `consndx` is still owed calls. -/
def onEntry (pc : Pc) : Bool := pc = .pick || pc.fetched

/-- The entry at `consndx` is dealt with. -/
def dead : Pc → Bool
  | .removeCall | .removePost | .advance => true
  | _ => false

/-- The other buffer is in use, and this one is empty. -/
def past : Pc → Bool
  | .grow | .growLoad | .switchLoad | .switchStore => true
  | _ => false

/-- The buffers will not be looked at again. -/
def ended : Pc → Bool
  | .idle | .bump | .bumpCas | .kick | .postDown => true
  | _ => false

/-- The local variables that `cyclic_softint` sets in turn. -/
def reading (pc : Pc) : Bool := pc = .test || pc.onEntry || pc.dead
def hasSoft (pc : Pc) : Bool := pc = .fill || pc = .check || pc.past || pc.reading
def hasArray (pc : Pc) : Bool := pc = .top || pc.hasSoft

/-- A resize that was seen is not yet reported. -/
def reports : Pc → Bool
  | .idle | .kick | .postDown => false
  | _ => true

end Pc

/-! ### The invariant

`w i` is how many more calls the cyclic at index `i` is owed. -/

def PcBuffer.entries (b : PcBuffer) (n : ℕ) : List ℕ := Ring.slice b.buf b.sizemask (b.consndx + n) b.prodndx

namespace LevelState

def softPart (v : LevelState κ) : List ℕ :=
  (v.softbuf.buf v.softbuf.soft).entries (if v.frame.pc.dead then 1 else 0)

/-- The buffer that `cyclic_expire` writes to, if it is not the one above. -/
def hardPart (v : LevelState κ) : List ℕ :=
  if v.softbuf.soft = v.softbuf.hard then [] else (v.softbuf.buf v.softbuf.hard).entries 0

def live (v : LevelState κ) : List ℕ := v.softPart ++ v.hardPart

def seen (v : LevelState κ) : ℕ :=
  if v.softbuf.soft ≠ v.softbuf.hard ∨ v.frame.resized ∧ v.frame.pc.reports then 0 else 1

def kicks (v : LevelState κ) : ℕ := if v.frame.pc = .kick then 1 else 0

end LevelState

/-- The cached array is the current one, or the one that a resize has emptied. -/
def ArrayOk (c : Shared κ) (v : LevelState κ) : Prop :=
  v.frame.cyclics = c.cyclics ∨ c.modifier = .expandWait ∧ v.softbuf.soft ≠ v.softbuf.hard ∧
    ∀ i, (c.mem v.frame.cyclics i).pend = 0 ∧
      ((c.cur i).free = false → (c.mem v.frame.cyclics i).handler = (c.cur i).handler)

structure FrameOk (c : Shared κ) (v : LevelState κ) (w : ℕ → ℕ) (l : Level) : Prop where
  array : v.frame.pc.hasArray → ArrayOk c v
  soft : v.frame.pc.hasSoft → v.frame.soft = v.softbuf.soft
  cons : v.frame.pc.reading → v.frame.consndx = (v.softbuf.buf v.softbuf.soft).consndx ∧
    v.frame.sizemask = (v.softbuf.buf v.softbuf.soft).sizemask
  entry : v.frame.pc.onEntry ∨ v.frame.pc.dead →
    (v.softbuf.buf v.softbuf.soft).consndx < (v.softbuf.buf v.softbuf.soft).prodndx
  fetched : v.frame.pc.fetched → v.frame.cyclic.2 =
    (v.softbuf.buf v.softbuf.soft).buf (v.frame.consndx &&& v.frame.sizemask)
  cyclic : v.frame.pc.fetched → v.frame.pc ≠ .repick → v.frame.cyclic.1 = v.frame.cyclics
  handler : v.frame.pc = .call ∨ v.frame.pc.called → v.frame.handler = (c.cur v.frame.cyclic.2).handler
  cas : v.frame.pc = .cas → v.frame.pend ≠ 0
  stateTest : v.frame.pc = .stateTest → c.modifier = .removeWait v.frame.cyclic.2 ∨ v.frame.cyclics ≠ c.cyclics
  removePend : v.frame.pc = .removePend → c.modifier = .removeWait v.frame.cyclic.2
  removing : v.frame.pc = .removeCall ∨ v.frame.pc = .removePost →
    c.modifier = .removeWait v.frame.cyclic.2 ∧ c.modifyWait = 0 ∧ c.rpend ≠ 0 ∧ (c.cur v.frame.cyclic.2).level = l
  removeCall : v.frame.pc = .removeCall → w v.frame.cyclic.2 = v.frame.pend ∧
    v.frame.handler = (c.cur v.frame.cyclic.2).handler
  removePost : v.frame.pc = .removePost → w v.frame.cyclic.2 = 0
  past : v.frame.pc.past → v.softbuf.soft ≠ v.softbuf.hard ∧ v.softPart = []
  switch : v.frame.pc = .switchLoad ∨ v.frame.pc = .switchStore → v.frame.cyclics = c.cyclics
  store : v.frame.pc = .switchStore → v.frame.hard = v.softbuf.hard
  check : v.frame.pc = .check →
    if v.softbuf.soft = v.softbuf.hard then v.live ≠ [] → v.posted = true else v.softPart = []
  ended : v.frame.pc.ended → v.live ≠ [] → v.posted = true
  resized : v.frame.resized = true → v.frame.pc.reports → c.modifier = .expandWait ∧ v.softbuf.soft = v.softbuf.hard
  bump : v.frame.pc = .bump ∨ v.frame.pc = .bumpCas → v.frame.resized = true
  kick : v.frame.pc = .kick → c.modifier = .expandWait

/-- The cyclic at an index is on the CPU, or removed and still owed calls. -/
def Held (c : Shared κ) (w : ℕ → ℕ) (i : ℕ) : Prop := (c.cur i).free = false ∨ w i ≠ 0

def LevelState.ahead (v : LevelState κ) (i : ℕ) : ℕ :=
  if v.frame.pc.called ∧ v.frame.cyclic.2 = i then 1 else 0

structure LevelOk (c : Shared κ) (v : LevelState κ) (w : ℕ → ℕ) (l : Level) : Prop where
  frame : FrameOk c v w l
  mask : (v.softbuf.buf v.softbuf.hard).sizemask + 1 = c.size
  cons_le : ∀ b, (v.softbuf.buf b).consndx ≤ (v.softbuf.buf b).prodndx
  agree : v.softbuf.soft ≠ v.softbuf.hard → c.modifier = .expandWait
  fresh : c.modifier = .expand → (v.softbuf.buf (!v.softbuf.hard)).consndx = 0 ∧
    (v.softbuf.buf (!v.softbuf.hard)).prodndx = 0 ∧
    (v.softbuf.buf (!v.softbuf.hard)).sizemask + 1 = 2 * c.size
  nodup : v.live.Nodup
  mem_live : ∀ i, i ∈ v.live ↔ w i ≠ 0 ∧ (c.cur i).level = l ∧ ¬ (v.frame.pc = .removeCall ∧ v.frame.cyclic.2 = i)
  removed : ∀ i, c.modifier = .removeWait i → (c.cur i).level = l → w i ≠ 0 → v.frame.pc = .removeCall ∨ w i = c.rpend
  account : ∀ i, Held c w i → (c.cur i).level = l →
    c.calls (c.cur i).handler + w i = c.expires (c.cur i).handler + v.ahead i

/-- `cyp_state` follows what the thread does. -/
def Modifier.cypState : Modifier → CypState
  | .idle => .online
  | .expand | .expandWait => .expanding
  | .remove _ | .removeWait _ => .removing

structure SharedOk (c : Shared κ) (w : ℕ → ℕ) : Prop where
  size : ∃ k, c.size = 2 ^ k
  range : ∀ i, c.size ≤ i → (c.cur i).free = true
  free : ∀ i, (c.cur i).free = true → (c.cur i).pend = 0
  active : ∀ i, (c.cur i).free = false → w i = (c.cur i).pend
  freed : ∀ i, (c.cur i).free = true → w i ≠ 0 → c.modifier = .removeWait i
  inj : ∀ i j, Held c w i → Held c w j → (c.cur i).handler = (c.cur j).handler → i = j
  gone : ∀ k, (∀ i, Held c w i → (c.cur i).handler ≠ k) → c.calls k = c.expires k
  state : c.cypState = c.modifier.cypState
  remove : ∀ i, c.modifier = .remove i → (c.cur i).free = false
  removeWait : ∀ i, c.modifier = .removeWait i → (c.cur i).free = true ∧ i < c.size
  rpend : (∀ i, c.modifier ≠ .removeWait i) → c.rpend = 0
  small : c.rpend < 2 ^ 31 ∧ ∀ i, (c.cur i).pend < 2 ^ 31

def ModifyOk (c : Shared κ) (w : ℕ → ℕ) (seen kicks : ℕ) : Prop :=
  match c.modifier with
  | .idle | .remove _ => c.modifyWait = 0
  | .expand => c.modifyWait = 0 ∧ c.modifyLevels = 0
  | .expandWait => c.modifyLevels = seen ∧ c.modifyWait + kicks = if c.modifyLevels = 2 then 1 else 0
  | .removeWait i => c.modifyWait = 0 ∨ c.modifyWait = 1 ∧ w i = 0 ∧ c.rpend ≠ 0

structure Inv (s : State κ) (w : ℕ → ℕ) : Prop where
  shared : SharedOk s.shared w
  level : ∀ l, LevelOk s.shared (s.lev l) w l
  modify : ModifyOk s.shared w ((s.lev .low).seen + (s.lev .lock).seen) ((s.lev .low).kicks + (s.lev .lock).kicks)

/-! ### Steps that only load -/

/-- A step that leaves the level as it was, but for where the soft interrupt is. -/
structure Quiet (v v' : LevelState κ) : Prop where
  softbuf : v'.softbuf = v.softbuf
  posted : v'.posted = v.posted
  dead : v.frame.pc.dead = false ∧ v'.frame.pc.dead = false
  called : v'.frame.pc.called = v.frame.pc.called
  cyclic : v.frame.pc.called = true → v'.frame.cyclic.2 = v.frame.cyclic.2
  resized : v'.frame.resized = v.frame.resized
  reports : v'.frame.pc.reports = v.frame.pc.reports ∨ v.frame.resized = false
  kick : v.frame.pc ≠ .kick ∧ v'.frame.pc ≠ .kick

namespace Quiet

theorem seen (h : Quiet v v') : v'.seen = v.seen := by
  simp only [LevelState.seen, h.softbuf, h.resized]
  rcases h.reports with hr | hr
  · rw [hr]
  · simp [hr]

theorem kicks (h : Quiet v v') : v'.kicks = v.kicks := by
  simp [LevelState.kicks, h.kick]

theorem ahead (h : Quiet v v') (i : ℕ) : v'.ahead i = v.ahead i := by
  simp only [LevelState.ahead, h.called]
  by_cases hc : v.frame.pc.called = true
  · rw [h.cyclic hc]
  · simp [hc]

end Quiet

/-- The soft interrupt is elsewhere, perhaps with other buffers, and has the same to handle. -/
theorem LevelOk.rework (h : LevelOk c v w l) (hf : FrameOk c v' w l)
    (hs : (v'.softbuf.buf v'.softbuf.hard).sizemask + 1 = c.size)
    (hc : ∀ b, (v'.softbuf.buf b).consndx ≤ (v'.softbuf.buf b).prodndx)
    (ha : v'.softbuf.soft ≠ v'.softbuf.hard → c.modifier = .expandWait)
    (hr : c.modifier = .expand → (v'.softbuf.buf (!v'.softbuf.hard)).consndx = 0 ∧
      (v'.softbuf.buf (!v'.softbuf.hard)).prodndx = 0 ∧
      (v'.softbuf.buf (!v'.softbuf.hard)).sizemask + 1 = 2 * c.size)
    (hl : v'.live = v.live) (hh : ∀ i, v'.ahead i = v.ahead i)
    (hpc : v.frame.pc = .removeCall → w v.frame.cyclic.2 = 0) (hpc' : v'.frame.pc ≠ .removeCall) :
    LevelOk c v' w l := by
  refine ⟨hf, hs, hc, ha, hr, ?_, ?_, ?_, ?_⟩
  · rw [hl]
    exact h.nodup
  · intro i
    rw [hl, h.mem_live]
    refine and_congr_right fun hw => and_congr_right fun _ => ?_
    refine iff_of_true ?_ fun hp => hpc' hp.1
    rintro ⟨hp, rfl⟩
    exact hw (hpc hp)
  · intro i hm hv hw
    rcases h.removed i hm hv hw with hp | hp
    · have := (h.frame.removing (.inl hp)).1
      rw [hm, Modifier.removeWait.injEq] at this
      exact absurd (hpc hp) (this ▸ hw)
    · exact .inr hp
  · intro i hi hv
    rw [hh]
    exact h.account i hi hv

theorem LevelOk.reframe (h : LevelOk c v w l) (hf : FrameOk c v' w l) (hs : v'.softbuf = v.softbuf)
    (hd : v'.frame.pc.dead = v.frame.pc.dead) (ha : ∀ i, v'.ahead i = v.ahead i)
    (hpc : v.frame.pc = .removeCall → w v.frame.cyclic.2 = 0) (hpc' : v'.frame.pc ≠ .removeCall) :
    LevelOk c v' w l := by
  have hl : v'.live = v.live := by
    simp only [live, softPart, hardPart, hs, hd]
  obtain ⟨sb, f, posted⟩ := v'
  obtain rfl : sb = v.softbuf := hs
  exact h.rework hf h.mask h.cons_le h.agree h.fresh hl ha hpc hpc'

theorem Quiet.levelOk (h : Quiet v v') (hl : LevelOk c v w l) (hf : FrameOk c v' w l) : LevelOk c v' w l := by
  have hr {pc : Pc} (hd : pc.dead = false) : pc ≠ .removeCall := by
    rintro rfl
    cases hd
  exact hl.reframe hf h.softbuf (h.dead.2.trans h.dead.1.symm) h.ahead (fun hp => absurd hp (hr h.dead.1))
    (hr h.dead.2)

section Loads

attribute [local simp] Pc.called Pc.fetched Pc.onEntry Pc.dead Pc.past Pc.ended Pc.reading Pc.hasSoft softPart
  Pc.hasArray Pc.reports ArrayOk goto

section

variable (h : FrameOk c v w l)
include h

theorem FrameOk.base : (v.frame.pc.hasArray → ArrayOk c v) ∧ (v.frame.pc.hasSoft → v.frame.soft = v.softbuf.soft) ∧
    (v.frame.pc.reading → v.frame.consndx = (v.softbuf.buf v.softbuf.soft).consndx ∧
      v.frame.sizemask = (v.softbuf.buf v.softbuf.soft).sizemask) ∧ (v.frame.pc.onEntry ∨ v.frame.pc.dead →
      (v.softbuf.buf v.softbuf.soft).consndx < (v.softbuf.buf v.softbuf.soft).prodndx) ∧
    (v.frame.pc.fetched → v.frame.cyclic.2 = (v.softbuf.buf v.softbuf.soft).buf (v.frame.consndx &&& v.frame.sizemask)) ∧
    (v.frame.pc = .call ∨ v.frame.pc.called → v.frame.handler = (c.cur v.frame.cyclic.2).handler) ∧
    (v.frame.resized = true → v.frame.pc.reports → c.modifier = .expandWait ∧ v.softbuf.soft = v.softbuf.hard) :=
  ⟨h.array, h.soft, h.cons, h.entry, h.fetched, h.handler, h.resized⟩

theorem FrameOk.load (hpc : v.frame.pc = .load) :
    FrameOk c { v with frame := { v.frame with cyclics := c.cyclics, pc := .top } } w l := by
  have hr := h.resized
  constructor <;> simp_all

theorem FrameOk.top (hpc : v.frame.pc = .top) :
    FrameOk c { v with frame := { v.frame with soft := v.softbuf.soft, pc := .fill } } w l := by
  have hb := h.base
  constructor <;> simp_all

theorem FrameOk.fill (hpc : v.frame.pc = .fill) : FrameOk c { v with frame := { v.frame with
      consndx := v.pcbuf.consndx, sizemask := v.pcbuf.sizemask, pc := .test } } w l := by
  have hb := h.base
  constructor <;> simp_all [pcbuf]

theorem FrameOk.test_pick (hpc : v.frame.pc = .test)
    (hlt : (v.softbuf.buf v.softbuf.soft).consndx < (v.softbuf.buf v.softbuf.soft).prodndx) :
    FrameOk c (v.goto .pick) w l := by
  have hb := h.base
  constructor <;> simp_all

theorem FrameOk.test_check (hpc : v.frame.pc = .test)
    (heq : (v.softbuf.buf v.softbuf.soft).prodndx ≤ (v.softbuf.buf v.softbuf.soft).consndx) :
    FrameOk c (v.goto .check) w l := by
  have hb := h.base
  have hp : (v.goto .check).softPart = [] := Ring.slice_eq_nil_iff.mpr heq
  have hl (he : v.softbuf.soft = v.softbuf.hard) : (v.goto .check).live = [] := by
    rw [live, hp, hardPart, if_pos (by exact he), List.append_nil]
  constructor
  all_goals simp_all

theorem FrameOk.pick (hpc : v.frame.pc = .pick) : FrameOk c { v with frame := { v.frame with
      cyclic := (v.frame.cyclics, v.pcbuf.buf (v.frame.consndx &&& v.frame.sizemask)), pc := .fetch } }
      w l := by
  have hb := h.base
  constructor <;> simp_all [pcbuf]

end

theorem Pc.hasArray_of_fetched {pc : Pc} (h : pc.fetched = true) : pc.hasArray = true := by
  cases pc <;> simp_all

section

variable (h : FrameOk c v w l)
include h

theorem FrameOk.handler_eq (hpc : v.frame.pc.fetched = true) (hne : v.frame.pc ≠ .repick)
    (hf : c.modifier = .expandWait → (c.cur v.frame.cyclic.2).free = false) :
    (c.mem v.frame.cyclic.1 v.frame.cyclic.2).handler = (c.cur v.frame.cyclic.2).handler := by
  rw [h.cyclic hpc hne]
  rcases h.array (Pc.hasArray_of_fetched hpc) with ha | ⟨hm, -, ha⟩
  · rw [ha]
    rfl
  · exact (ha _).2 (hf hm)

theorem FrameOk.fetch (hpc : v.frame.pc = .fetch)
    (hf : c.modifier = .expandWait → (c.cur v.frame.cyclic.2).free = false) : FrameOk c { v with frame := { v.frame with
      handler := (c.mem v.frame.cyclic.1 v.frame.cyclic.2).handler, pc := .call } } w l := by
  have hh := h.handler_eq (by simp [hpc]) (by simp [hpc]) hf
  have hb := h.base
  have hc := h.cyclic
  constructor <;> simp_all

theorem FrameOk.reread (hpc : v.frame.pc = .reread)
    (hz : v.frame.cyclics = c.cyclics → (c.cur v.frame.cyclic.2).pend = 0 →
      c.modifier = .removeWait v.frame.cyclic.2) : FrameOk c { v with frame := { v.frame with
      pend := (c.mem v.frame.cyclic.1 v.frame.cyclic.2).pend
      pc := if (c.mem v.frame.cyclic.1 v.frame.cyclic.2).pend = 0 then .stateTest else .cas } } w l := by
  have hb := h.base
  have hc := h.cyclic (by simp [hpc]) (by simp [hpc])
  split_ifs with hp
  · rw [hc] at hp
    have hs : c.modifier = .removeWait v.frame.cyclic.2 ∨ v.frame.cyclics ≠ c.cyclics := by
      by_cases he : v.frame.cyclics = c.cyclics
      · rw [he] at hp
        exact .inl (hz he hp)
      · exact .inr he
    constructor <;> simp_all
  · constructor <;> simp_all

theorem FrameOk.goto_called (hpc : v.frame.pc.called = true)
    (hne : v.frame.pc ≠ .repick) {pc : Pc} (hpc' : pc = .reread ∨ pc = .reload ∨ pc = .removePend)
    (hm : pc = .removePend → c.modifier = .removeWait v.frame.cyclic.2) : FrameOk c (v.goto pc) w l := by
  have hf : v.frame.pc.fetched = true := by
    cases he : v.frame.pc <;> simp_all
  have hn : v.frame.pc.onEntry = true := by simp only [Pc.onEntry, hf, Bool.or_true]
  have hd : v.frame.pc.reading = true := by simp only [Pc.reading, hn, Bool.or_true, Bool.true_or]
  have hs : v.frame.pc.hasSoft = true := by simp only [Pc.hasSoft, hd, Bool.or_true]
  have hp : v.frame.pc.reports = true := by
    cases he : v.frame.pc <;> simp_all
  have h1 := h.array (Pc.hasArray_of_fetched hf)
  have h2 := h.soft hs
  have h3 := h.cons hd
  have h4 := h.entry (.inl hn)
  have h5 := h.fetched hf
  have h6 := h.cyclic hf hne
  have h7 := h.handler (.inr hpc)
  have h8 := fun hr => h.resized hr hp
  rcases hpc' with rfl | rfl | rfl
  all_goals constructor <;> simp_all

theorem FrameOk.stateTest_removing (hpc : v.frame.pc = .stateTest)
    (hs : c.cypState = c.modifier.cypState) (hr : c.cypState = .removing) :
    c.modifier = .removeWait v.frame.cyclic.2 := by
  rcases h.stateTest hpc with hm | hne
  · exact hm
  · rcases h.array (by simp [hpc]) with ha | ⟨hm, -⟩
    · exact absurd ha hne
    · rw [hm, hr] at hs
      cases hs

theorem FrameOk.reload (hpc : v.frame.pc = .reload) :
    FrameOk c { v with frame := { v.frame with cyclics := c.cyclics, pc := .repick } } w l := by
  have hb := h.base
  constructor <;> simp_all

theorem FrameOk.repick (hpc : v.frame.pc = .repick) : FrameOk c { v with frame := { v.frame with
      cyclic := (v.frame.cyclics, v.pcbuf.buf (v.frame.consndx &&& v.frame.sizemask)), pc := .reread } }
      w l := by
  have hb := h.base
  constructor <;> simp_all [pcbuf]

theorem FrameOk.check_grow (hpc : v.frame.pc = .check)
    (hne : v.frame.soft ≠ v.softbuf.hard) : FrameOk c (v.goto .grow) w l := by
  have hb := h.base
  have hc := h.check
  constructor <;> simp_all

theorem FrameOk.check_over (hpc : v.frame.pc = .check) (heq : v.frame.soft = v.softbuf.hard) :
    FrameOk c (v.goto (if v.frame.resized then .bump else .idle)) w l := by
  have hb := h.base
  have hc := h.check
  split_ifs with hr
  all_goals constructor <;>
      simp_all [live, hardPart]

theorem FrameOk.grow (hpc : v.frame.pc = .grow) :
    FrameOk c (v.goto (if c.cyclics ≠ v.frame.cyclics then .growLoad else .switchLoad)) w l := by
  have hb := h.base
  have hp := h.past
  split_ifs with hne
  all_goals constructor <;> simp_all

theorem FrameOk.growLoad (hpc : v.frame.pc = .growLoad) :
    FrameOk c { v with frame := { v.frame with cyclics := c.cyclics, pc := .switchLoad } } w l := by
  have hb := h.base
  have hp := h.past
  constructor <;> simp_all

theorem FrameOk.switchLoad (hpc : v.frame.pc = .switchLoad) :
    FrameOk c { v with frame := { v.frame with hard := v.softbuf.hard, pc := .switchStore } } w l := by
  have hb := h.base
  have hp := h.past
  have hs := h.switch
  constructor <;> simp_all

theorem FrameOk.bump_bumpCas (hpc : v.frame.pc = .bump) (lev : ℕ) :
    FrameOk c { v with frame := { v.frame with lev := lev, pc := .bumpCas } } w l := by
  have hr := h.resized
  have ho := h.ended
  have hb := h.bump
  constructor <;> simp_all [live, hardPart]

theorem FrameOk.bumpCas_bump (hpc : v.frame.pc = .bumpCas) : FrameOk c (v.goto .bump) w l := by
  have hr := h.resized
  have ho := h.ended
  have hb := h.bump
  constructor <;> simp_all [live, hardPart]

end

end Loads

end Sol8.Os.CyclicSoftint
