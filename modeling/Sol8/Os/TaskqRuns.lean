import Sol8.Os.Taskq

/-! Task queues run every task once, and are empty of structures when they are destroyed
(`os/taskq.c`). -/

namespace Sol8.Os.Taskq

open Function Sol8.Lib List Pc

/-! ### What a thread counts for -/

namespace Pc

/-- counted by `tq_active` -/
def active : Pc → ℤ
  | .asleep | .woken => 0
  | _ => 1

/-- counted by `tq_nthreads` -/
def alive : Pc → ℤ
  | .exited => 0
  | _ => 1

/-- has a task structure that is counted by `tq_nalloc` -/
def busy : Pc → ℤ
  | .exec _ | .done _ => 1
  | _ => 0

def holds : Pc → List ℕ
  | .exec t | .done t => [t.addr]
  | .freeing t => [t]
  | _ => []

/-- taken and not yet run -/
def pending : Pc → List ℕ
  | .exec t => [t.num]
  | _ => []

end Pc

def DispatchPc.holds : DispatchPc → List ℕ
  | .allocated t => [t]
  | _ => []

namespace DestroyPc

def closed : DestroyPc → Bool
  | .idle | .asleep | .woken => false
  | _ => true

def stops : DestroyPc → Bool
  | .stopping | .stopWoken | .stopped | .gone => true
  | _ => false

end DestroyPc

variable {ι D W : Type} [Fintype ι] [DecidableEq ι] [Fintype D]

/-! ### The invariant -/

/-- What holds whether or not a waiting thread is to be woken. -/
structure Core (s : State ι D W) : Prop where
  active : s.tq.active = tally active s.pc
  nthreads : s.tq.nthreads = tally alive s.pc
  nalloc : s.tq.nalloc = s.tq.task.length + s.tq.freelist.length + tally busy s.pc
  places : ∀ a, ((s.tq.task.map (·.addr)).count a + s.tq.freelist.count a : ℤ) +
    tally (fun p => (p.holds.count a : ℤ)) s.pc + tally (fun p => (p.holds.count a : ℤ)) s.dispatch = s.heap.count a
  nodup : s.heap.Nodup
  taken : s.taken.map (·.2) ++ s.tq.task.map (·.num) = List.range s.count
  ran : ∀ i, ofThread i s.taken = ofThread i s.ran ++ (s.pc i).pending
  waited : ∀ w n, s.wait w = .done n → ∀ k < n, k ∈ s.ran.map (·.2)
  awake : s.tq.task ≠ [] → Nonempty ι → ∃ i, s.pc i ≠ .asleep
  live : s.tq.live = !s.destroy.stops
  exited : s.tq.live = true → ∀ i, s.pc i ≠ .exited
  noSleep : s.tq.live = false → ∀ i, s.pc i ≠ .asleep
  closed : s.destroy.closed = true → s.tq.task = [] ∧ (∀ d, s.dispatch d = .idle) ∧ ∀ i, (s.pc i).holds = []
  stopped : s.destroy = .stopped ∨ s.destroy = .gone → s.tq.nthreads = 0
  gone : s.destroy = .gone → s.tq.nalloc = 0 ∧ s.heap = []

structure Inv (s : State ι D W) : Prop extends Core s where
  busy : ∀ w, s.wait w = .asleep → s.Busy
  busyDestroy : s.destroy = .asleep → s.Busy
  stopping : s.destroy = .stopping → s.tq.nthreads ≠ 0

variable {s s' : State ι D W} {i : ι} {d : D} {fuel : ℕ} {tq : Tq} {sig : Option ι} {heap : List ℕ} {r : Tq × List ℕ}

theorem Core.broadcastWait (h : Core s) : Inv s.broadcastWait := by
  have hc : s.broadcastWait.destroy.closed = s.destroy.closed := by
    simp only [State.broadcastWait]
    split <;> simp_all [DestroyPc.closed]
  have hs : s.broadcastWait.destroy.stops = s.destroy.stops := by
    simp only [State.broadcastWait]
    split <;> simp_all [DestroyPc.stops]
  have hk {d : DestroyPc} (hd : d = .stopped ∨ d = .gone) (he : s.broadcastWait.destroy = d) : s.destroy = d := by
    simp only [State.broadcastWait] at he
    split at he <;> rcases hd with rfl | rfl <;> simp_all
  refine { h with waited := ?_, live := ?_, closed := ?_, stopped := ?_, gone := ?_, busy := ?_,
                  busyDestroy := ?_, stopping := ?_ }
  · intro w n hw
    simp only [State.broadcastWait] at hw
    split_ifs at hw
    exact h.waited w n hw
  · rw [hs]
    exact h.live
  · rw [hc]
    exact h.closed
  · rintro (hd | hd)
    · exact h.stopped (.inl (hk (.inl rfl) hd))
    · exact h.stopped (.inr (hk (.inr rfl) hd))
  · exact fun hd => h.gone (hk (.inr rfl) hd)
  · intro w hw
    simp only [State.broadcastWait] at hw
    split_ifs at hw
    contradiction
  all_goals
    intro hd
    simp only [State.broadcastWait] at hd
    split at hd <;> simp_all

/-! ### Steps of a service thread -/

theorem Pc.alive_nonneg (p : Pc) : 0 ≤ p.alive := by
  unfold alive
  split <;> decide

theorem Pc.active_nonneg (p : Pc) : 0 ≤ p.active := by
  unfold active
  split <;> decide

theorem Core.not_stopped (h : Core s) (hi : s.pc i ≠ .exited) : s.destroy ≠ .stopped ∧ s.destroy ≠ .gone := by
  have hne (hd : s.destroy = .stopped ∨ s.destroy = .gone) : False := by
    have h0 := eq_zero_of_tally alive_nonneg (h.nthreads.symm.trans (h.stopped hd)) i
    cases hp : s.pc i <;> simp_all [alive]
  exact ⟨fun hd => hne (.inl hd), fun hd => hne (.inr hd)⟩

/-- Thread `i` goes from `p` to `q` and leaves the queue and the heap as `tq` and `heap`. -/
structure Moves (s : State ι D W) (i : ι) (p q : Pc) (tq : Tq) (heap : List ℕ) : Prop where
  pc : s.pc i = p
  ne : p ≠ .exited
  active : tq.active = s.tq.active + q.active - p.active
  nthreads : tq.nthreads = s.tq.nthreads + q.alive - p.alive
  nalloc : tq.nalloc + s.tq.task.length + s.tq.freelist.length + p.busy =
    s.tq.nalloc + tq.task.length + tq.freelist.length + q.busy
  places : ∀ a, (tq.task.map (·.addr)).count a + tq.freelist.count a + q.holds.count a + s.heap.count a =
    (s.tq.task.map (·.addr)).count a + s.tq.freelist.count a + p.holds.count a + heap.count a
  awake : tq.task ≠ [] → q ≠ .asleep
  live : tq.live = s.tq.live
  exit : s.tq.live = true → q ≠ .exited
  sleep : s.tq.live = false → q ≠ .asleep
  closed : s.tq.task = [] → p.holds = [] → tq.task = [] ∧ q.holds = []

theorem Core.thread (h : Core s) {q : Pc} {taken ran : List (ι × ℕ)} (hm : Moves s i (s.pc i) q tq heap)
    (hnp : heap.Nodup) (htk : taken.map (·.2) ++ tq.task.map (·.num) = List.range s.count)
    (hr : ∀ j, ofThread j taken = ofThread j ran ++ (update s.pc i q j).pending)
    (hsub : s.ran.map (·.2) ⊆ ran.map (·.2)) :
    Core { s with tq := tq, pc := update s.pc i q, heap := heap, taken := taken, ran := ran } := by
  obtain ⟨-, hne, ha, hn, hnl, hp, haw, hv, hex, hsl, hcl⟩ := hm
  obtain ⟨hs, hg⟩ := h.not_stopped hne
  refine ⟨?_, ?_, ?_, ?_, hnp, htk, hr, ?_, ?_, hv.trans h.live, ?_, ?_, ?_, ?_, ?_⟩
  · rw [tally_update, ← h.active]
    exact ha
  · rw [tally_update, ← h.nthreads]
    exact hn
  · rw [tally_update]
    have := h.nalloc
    dsimp only
    omega
  · intro a
    rw [tally_update]
    have := h.places a
    have := hp a
    dsimp only
    omega
  · exact fun w n hw k hk => hsub (h.waited w n hw k hk)
  · exact fun ht _ => ⟨i, by simpa using haw ht⟩
  · exact fun hl => (forall_update_iff s.pc fun _ p => p ≠ .exited).mpr ⟨hex (hv ▸ hl), fun j _ => h.exited (hv ▸ hl) j⟩
  · exact fun hl => (forall_update_iff s.pc fun _ p => p ≠ .asleep).mpr ⟨hsl (hv ▸ hl), fun j _ => h.noSleep (hv ▸ hl) j⟩
  · intro hc
    obtain ⟨hts, hds, hh⟩ := h.closed hc
    obtain ⟨ht', hq⟩ := hcl hts (hh i)
    exact ⟨ht', hds, (forall_update_iff s.pc fun _ p => p.holds = []).mpr ⟨hq, fun j _ => hh j⟩⟩
  · exact fun hd => absurd hd (not_or.mpr ⟨hs, hg⟩)
  · exact fun hd => absurd hd hg

theorem Core.inv_of_active (i : ι) (h : Core s) (hi : (s.pc i).active = 1 ∧ s.pc i ≠ .exited) : Inv s := by
  have ha := le_tally active_nonneg s.pc i
  rw [← h.active] at ha
  have hb : s.Busy := .inr (by omega)
  refine { h with busy := fun _ _ => hb, busyDestroy := fun _ => hb, stopping := fun _ => ?_ }
  have hl := le_tally alive_nonneg s.pc i
  have h1 : (s.pc i).alive = 1 := by cases hp : s.pc i <;> simp_all [alive]
  rw [← h.nthreads] at hl
  omega

theorem Core.mem_heap (h : Core s) {a : ℕ} (ha : a ∈ (s.pc i).holds) : a ∈ s.heap := by
  have hc := h.places a
  have hle := le_tally (w := fun p : Pc => (p.holds.count a : ℤ)) (fun _ => Int.natCast_nonneg _) s.pc i
  have hn := tally_nonneg (w := fun p : DispatchPc => (p.holds.count a : ℤ)) (fun _ => Int.natCast_nonneg _) s.dispatch
  have hpos := count_pos_iff.mpr ha
  exact count_pos_iff.mp (by omega)

/-- A thread that neither takes a task nor runs one. -/
theorem Core.move (h : Core s) {q : Pc} (hm : Moves s i (s.pc i) q tq heap) (hnp : heap.Nodup)
    (ht : tq.task = s.tq.task) (hq : q.pending = (s.pc i).pending) :
    Core { s with tq := tq, pc := update s.pc i q, heap := heap } := by
  refine h.thread hm hnp (ht ▸ h.taken) (fun j => ?_) (by simp)
  by_cases hj : j = i
  · subst hj
    rw [update_self, hq]
    exact h.ran j
  · rw [update_of_ne hj]
    exact h.ran j

section Thread

attribute [local simp] active alive busy holds

theorem Inv.loop (h : Inv s) (hp : s.pc i = .start) : Inv (s.loop i) := by
  unfold State.loop
  cases hl : s.tq.live with
  | false =>
    apply Core.broadcastWait
    exact h.move (by constructor <;> simp [hp, hl]) h.nodup rfl (hp ▸ rfl)
  | true =>
    rw [if_pos rfl]
    split
    case h_1 hs =>
      have hc : Core { s with
          tq := { s.tq with active := s.tq.active - 1 }, pc := update s.pc i .asleep } :=
        h.move (by constructor <;> simp [hp, hs, hl]) h.nodup rfl (hp ▸ rfl)
      split_ifs with h0
      · exact hc.broadcastWait
      · exact { hc with busy := fun _ _ => .inr h0, busyDestroy := fun _ => .inr h0, stopping := h.stopping }
    case h_2 t rest hs =>
      have hc : Core { s with
          tq := { s.tq with task := rest }
          pc := update s.pc i (.exec t)
          taken := s.taken ++ [(i, t.num)] } := by
        refine h.thread (by constructor <;> simp [hp, hs, count_cons] <;> intros <;> omega) h.nodup ?_ ?_
          (by simp)
        · simpa [hs] using h.taken
        · intro j
          rw [ofThread_snoc, h.ran j]
          by_cases hj : i = j
          · subst hj
            simp [hp, pending]
          · rw [update_of_ne (Ne.symm hj)]
            simp [hj]
      exact hc.inv_of_active i (by simp)

omit [Fintype ι] [Fintype D] in
theorem State.loop_start (s : State ι D W) (i : ι) : { s with pc := update s.pc i .start }.loop i = s.loop i := by
  simp only [State.loop, update_idem]

theorem Inv.taskqThread (h : Inv s) (hs : s.taskqThread i = some s') : Inv s' := by
  unfold State.taskqThread at hs
  cases hp : s.pc i <;> rw [hp] at hs <;> dsimp only at hs
  case start =>
    cases hs
    exact h.loop hp
  case asleep => cases hs
  case woken =>
    cases hs
    rw [← State.loop_start]
    refine Inv.loop ?_ (update_self ..)
    refine Core.inv_of_active i ?_ (by simp)
    exact h.move (by constructor <;> simp [hp]) h.nodup rfl (hp ▸ rfl)
  case exec t =>
    cases hs
    refine Core.inv_of_active i ?_ (by simp)
    refine h.thread (by constructor <;> simp [hp]) h.nodup h.taken (fun j => ?_) (by simp)
    rw [ofThread_snoc, h.ran j]
    by_cases hj : i = j
    · subst hj
      simp [hp, pending]
    · rw [update_of_ne (Ne.symm hj)]
      simp [hj]
  case done t =>
    unfold Tq.taskFree at hs
    split_ifs at hs with hmin
    · cases hs
      rw [← State.loop_start]
      refine Inv.loop ?_ (update_self ..)
      refine Core.inv_of_active i ?_ (by simp)
      exact h.move (by constructor <;> simp [hp, count_cons] <;> intros <;> omega) h.nodup rfl (hp ▸ rfl)
    · cases hs
      refine Core.inv_of_active i ?_ (by simp)
      exact h.move (by constructor <;> simp [hp]; omega) h.nodup rfl (hp ▸ rfl)
  case freeing t =>
    cases hs
    refine Core.inv_of_active i ?_ (by simp)
    have hmem := h.mem_heap (i := i) (by rw [hp]; exact mem_singleton_self t)
    have hpos := count_pos_iff.mpr hmem
    refine h.move ?_ (h.nodup.erase t) rfl (hp ▸ rfl)
    constructor <;> simp [hp, count_erase, count_singleton]
    intro a
    split_ifs with ha
    · subst ha
      omega
    · rfl
  case exited => cases hs

theorem Inv.wakeThread (h : Inv s) (hp : s.pc i = .asleep) : Inv { s with pc := update s.pc i .woken } := by
  have hc : Core { s with pc := update s.pc i .woken } :=
    h.move (by constructor <;> simp [hp]) h.nodup rfl (hp ▸ rfl)
  exact { hc with busy := h.busy, busyDestroy := h.busyDestroy, stopping := h.stopping }

end Thread

/-! ### Dispatching -/

/-- The queue is not being destroyed while a dispatch is under way. -/
theorem Core.open_of_dispatch (h : Core s) (hd : s.dispatch d ≠ .idle) : s.destroy.closed = false := by
  by_contra hc
  exact hd ((h.closed (by simpa using hc)).2.1 d)

theorem Inv.signal (h : Inv s) (hs : s.CanSignal sig) :
    Inv (s.signalDispatch sig) ∧ (Nonempty ι → ∃ i, (s.signalDispatch sig).pc i ≠ .asleep) := by
  cases sig with
  | none => exact ⟨h, fun ⟨i⟩ => ⟨i, hs i⟩⟩
  | some i => exact ⟨h.wakeThread hs, fun _ => ⟨i, by simp [State.signalDispatch]⟩⟩

omit [Fintype ι] [Fintype D] in
theorem signalDispatch_eq (s : State ι D W) (sig : Option ι) :
    (s.signalDispatch sig).tq = s.tq ∧ (s.signalDispatch sig).dispatch = s.dispatch := by
  cases sig <;> exact ⟨rfl, rfl⟩

section Dispatch

variable [DecidableEq D] {t : ℕ}

section

variable (h : Inv s) (hopen : s.destroy.closed = false)
include h hopen

theorem Inv.setDispatch {q : DispatchPc}
    (hp : ∀ a, q.holds.count a + s.heap.count a = (s.dispatch d).holds.count a + heap.count a)
    (hn : heap.Nodup) : Inv { s with dispatch := update s.dispatch d q, heap := heap } := by
  refine { h with places := ?_, nodup := hn, closed := ?_, gone := ?_ }
  · intro a
    rw [tally_update]
    have := h.places a
    have := hp a
    dsimp only
    omega
  · exact fun hc => absurd (hopen.symm.trans hc) (by simp)
  · intro hd
    rw [show s.destroy = .gone from hd] at hopen
    cases hopen

theorem Inv.enqueue (ha : Nonempty ι → ∃ i, s.pc i ≠ .asleep) {f : List ℕ} {n : ℤ}
    (hn : n + s.tq.freelist.length = s.tq.nalloc + f.length + 1)
    (hp : ∀ a, f.count a + [t].count a = s.tq.freelist.count a + (s.dispatch d).holds.count a) : Inv { s with
      tq := { s.tq with task := s.tq.task ++ [⟨t, s.count⟩], freelist := f, nalloc := n }
      dispatch := update s.dispatch d .idle
      count := s.count + 1 } := by
  have hne : s.tq.task ++ [⟨t, s.count⟩] ≠ [] := by simp
  refine { h with nalloc := ?_, places := ?_, taken := ?_, awake := fun _ => ha, closed := ?_, gone := ?_,
                  busy := fun _ _ => .inl hne, busyDestroy := fun _ => .inl hne }
  · have := h.nalloc
    simp only [length_append, length_singleton]
    omega
  · intro a
    rw [tally_update]
    have := h.places a
    have := hp a
    have hid : DispatchPc.idle.holds.count a = 0 := rfl
    simp only [map_append, count_append, map_singleton, hid]
    omega
  · rw [map_append, ← append_assoc, h.taken, range_succ]
    rfl
  · exact fun hc => absurd (hopen.symm.trans hc) (by simp)
  · intro hd
    rw [show s.destroy = .gone from hd] at hopen
    cases hopen

theorem Inv.dispatchFree (hd : s.dispatch d = .idle)
    (ht : s.tq.taskAlloc = some (t, tq)) (hs : s.CanSignal sig) : Inv ({ s with tq := tq }.enqueue d t sig) := by
  obtain ⟨hw, ha⟩ := h.signal hs
  obtain ⟨hf, hds⟩ := signalDispatch_eq s sig
  unfold Tq.taskAlloc at ht
  split at ht
  · cases ht
  · rename_i t' rest hr
    split_ifs at ht
    cases ht
    have := hw.enqueue (d := d) (t := t) (f := rest) (n := s.tq.nalloc) (by cases sig <;> exact hopen) ha ?_ ?_
    · cases sig <;> exact this
    · rw [hf, hr, length_cons]
      omega
    · intro a
      rw [hf, hds, hr, hd]
      simp [count_cons, DispatchPc.holds]

end

theorem Inv.dispatchAllocated (h : Inv s) (hd : s.dispatch d = .allocated t) (hs : s.CanSignal sig) :
    Inv ({ s with tq := { s.tq with nalloc := s.tq.nalloc + 1 } }.enqueue d t sig) := by
  obtain ⟨hw, ha⟩ := h.signal hs
  have hopen := h.open_of_dispatch (d := d) (by simp [hd])
  obtain ⟨hf, hds⟩ := signalDispatch_eq s sig
  have := hw.enqueue (d := d) (t := t) (f := s.tq.freelist) (n := s.tq.nalloc + 1)
    (by cases sig <;> exact hopen) ha (by rw [hf]; omega) ?_
  · cases sig <;> exact this
  · intro a
    rw [hf, hds, hd]
    rfl

end Dispatch

/-! ### The free list -/

namespace Tq

structure Idle (tq : Tq) (heap : List ℕ) : Prop where
  nalloc : tq.nalloc = tq.freelist.length
  perm : heap.Perm tq.freelist
  nodup : heap.Nodup

/-- The fields that taking and giving back structures does not change. -/
def SameQueue (tq tq' : Tq) : Prop :=
  tq'.task = tq.task ∧ tq'.active = tq.active ∧ tq'.nthreads = tq.nthreads ∧ tq'.live = tq.live ∧
    tq'.minalloc = tq.minalloc

variable {tq : Tq} {heap : List ℕ}

theorem fresh_notMem (heap : List ℕ) : heap.foldr max 0 + 1 ∉ heap := by
  have hle : ∀ {l : List ℕ} {a : ℕ}, a ∈ l → a ≤ l.foldr max 0 := by
    intro l
    induction l with
    | nil => simp
    | cons b l ih =>
      intro a ha
      rcases mem_cons.mp ha with rfl | ha
      · exact le_max_left _ _
      · exact (ih ha).trans (le_max_right _ _)
  exact fun h => absurd (hle h) (by omega)

theorem Idle.recycle (h : Idle tq heap) :
    Idle (tq.recycle heap).1 (tq.recycle heap).2 ∧ SameQueue tq (tq.recycle heap).1 := by
  obtain ⟨hn, hp, hnd⟩ := h
  unfold Tq.recycle
  cases ht : tq.taskAlloc with
  | some p =>
    obtain ⟨t, tq'⟩ := p
    unfold Tq.taskAlloc at ht
    split at ht
    · cases ht
    · rename_i t' rest hf
      split_ifs at ht
      cases ht
      rw [hf] at hn hp
      dsimp only [Tq.taskFree]
      split_ifs with hmin
      · exact ⟨⟨hn, hp, hnd⟩, rfl, rfl, rfl, rfl, rfl⟩
      · refine ⟨⟨?_, ?_, hnd.erase t⟩, rfl, rfl, rfl, rfl, rfl⟩
        · rw [hn, length_cons]
          push_cast
          omega
        · have := hp.erase t
          rwa [erase_cons_head] at this
  | none =>
    dsimp only [Tq.taskFree]
    split_ifs with hmin
    · refine ⟨⟨?_, hp.cons _, nodup_cons.mpr ⟨fresh_notMem heap, hnd⟩⟩, rfl, rfl, rfl, rfl, rfl⟩
      dsimp only
      rw [hn, length_cons]
      push_cast
      omega
    · rw [erase_cons_head]
      exact ⟨⟨by dsimp only; omega, hp, hnd⟩, rfl, rfl, rfl, rfl, rfl⟩

theorem Idle.prepopulate (n : ℕ) (h : Idle tq heap) :
    Idle (Tq.prepopulate n (tq, heap)).1 (Tq.prepopulate n (tq, heap)).2 ∧
      SameQueue tq (Tq.prepopulate n (tq, heap)).1 := by
  induction n generalizing tq heap with
  | zero => exact ⟨h, rfl, rfl, rfl, rfl, rfl⟩
  | succ n ih =>
    obtain ⟨hd, h₁, h2, h3, h4, h5⟩ := h.recycle
    obtain ⟨hi', h1', h2', h3', h4', h5'⟩ := ih hd
    exact ⟨hi', h1'.trans h₁, h2'.trans h2, h3'.trans h3, h4'.trans h4, h5'.trans h5⟩

theorem Idle.of_destroyLoop (h : Idle tq heap) (hr : Tq.destroyLoop fuel (tq, heap) = some r) :
    r.1.nalloc = 0 ∧ r.1.freelist = [] ∧ r.2 = [] ∧ SameQueue tq r.1 := by
  induction fuel generalizing tq heap with
  | zero => cases hr
  | succ fuel ih =>
    unfold Tq.destroyLoop at hr
    by_cases h0 : tq.nalloc = 0
    · rw [if_pos h0] at hr
      cases hr
      have hnil : tq.freelist = [] := length_eq_zero_iff.mp (by have := h.nalloc; omega)
      refine ⟨h0, hnil, ?_, rfl, rfl, rfl, rfl, rfl⟩
      have := h.perm
      rw [hnil] at this
      exact this.eq_nil
    · rw [if_neg h0] at hr
      obtain ⟨hd, h₁, h2, h3, h4, h5⟩ := h.recycle
      obtain ⟨hn, hf, hh, h1', h2', h3', h4', h5'⟩ := ih hd hr
      exact ⟨hn, hf, hh, h1'.trans h₁, h2'.trans h2, h3'.trans h3, h4'.trans h4, h5'.trans h5⟩

end Tq

/-! ### Waiting and destroying -/

/-- When no thread is active and the queue is empty, every task has run. -/
theorem Core.all_ran (h : Core s) (hd : ¬ s.Busy) :
    s.tq.task = [] ∧ (∀ i, (s.pc i).holds = []) ∧ ∀ k < s.count, k ∈ s.ran.map (·.2) := by
  simp only [State.Busy, not_or, not_not] at hd
  obtain ⟨hs, ha⟩ := hd
  have hpc (i : ι) : (s.pc i).active = 0 := eq_zero_of_tally active_nonneg (h.active.symm.trans ha) i
  refine ⟨hs, fun i => ?_, fun k hk => ?_⟩
  · have := hpc i
    cases hp : s.pc i <;> simp_all [Pc.active, Pc.holds]
  · have ht := h.taken
    rw [hs, map_nil, append_nil] at ht
    have hmem : k ∈ s.taken.map (·.2) := ht ▸ mem_range.mpr hk
    obtain ⟨⟨i, n⟩, hin, rfl⟩ := mem_map.mp hmem
    have hr := h.ran i
    have hn : (s.pc i).pending = [] := by
      have := hpc i
      cases hp : s.pc i <;> simp_all [Pc.active, Pc.pending]
    rw [hn, append_nil] at hr
    refine mem_map.mpr ⟨(i, n), ?_, rfl⟩
    rw [← mem_ofThread, ← hr, mem_ofThread]
    exact hin

theorem Inv.wait [DecidableEq W] (h : Inv s) (w : W) :
    Inv { s with wait := update s.wait w (if s.Busy then .asleep else .done s.count) } := by
  refine { h with waited := ?_, busy := ?_ }
  · intro w' n hw
    dsimp only at hw
    by_cases he : w' = w
    · subst he
      rw [update_self] at hw
      split_ifs at hw with hb
      cases hw
      exact (h.all_ran hb).2.2
    · rw [update_of_ne he] at hw
      exact h.waited w' n hw
  · intro w' hw
    dsimp only at hw
    by_cases he : w' = w
    · subst he
      rw [update_self] at hw
      split_ifs at hw with hb
      exact hb
    · rw [update_of_ne he] at hw
      exact h.busy w' hw

theorem Inv.wakeWait [DecidableEq W] (h : Inv s) (w : W) : Inv { s with wait := update s.wait w .woken } := by
  refine { h with waited := ?_, busy := ?_ }
  · intro w' n hw
    by_cases he : w' = w
    · subst he
      simp at hw
    · exact h.waited w' n (by simpa [he] using hw)
  · intro w' hw
    by_cases he : w' = w
    · subst he
      simp at hw
    · exact h.busy w' (by simpa [he] using hw)

theorem Inv.destroyWait (h : Inv s) (hd : s.destroy = .idle ∨ s.destroy = .woken)
    (hid : ¬ s.Busy → ∀ d, s.dispatch d = .idle) : Inv { s with destroy := if s.Busy then .asleep else .waited } := by
  have hl : s.tq.live = true := by
    rw [h.live]
    rcases hd with hd | hd <;> rw [hd] <;> rfl
  split_ifs with hb
  · exact { h with
      live := hl
      closed := by simp [DestroyPc.closed]
      stopped := by simp
      gone := by simp
      busyDestroy := fun _ => hb
      stopping := by simp }
  · obtain ⟨ht, hh, -⟩ := h.all_ran hb
    exact { h with
      live := hl
      closed := fun _ => ⟨ht, hid hb, hh⟩
      stopped := by simp
      gone := by simp
      busyDestroy := by simp
      stopping := by simp }

theorem Inv.wakeDestroy (h : Inv s) {q : DestroyPc} (hq : q = .woken ∨ q = .stopWoken)
    (hc : q.closed = s.destroy.closed) (hs : q.stops = s.destroy.stops) : Inv { s with destroy := q } :=
  { h with
    live := by
      rw [hs]
      exact h.live
    closed := by
      rw [hc]
      exact h.closed
    stopped := by rcases hq with rfl | rfl <;> simp
    gone := by rcases hq with rfl | rfl <;> simp
    busyDestroy := by rcases hq with rfl | rfl <;> simp
    stopping := by rcases hq with rfl | rfl <;> simp }

theorem Inv.checkThreads (h : Inv s) (hs : s.tq.live = false)
    (hc : s.tq.task = [] ∧ (∀ d, s.dispatch d = .idle) ∧ ∀ i, (s.pc i).holds = []) :
    Inv { s with destroy := if s.tq.nthreads ≠ 0 then .stopping else .stopped } := by
  split_ifs with hn
  · exact { h with
      live := hs
      closed := fun _ => hc
      stopped := by simp
      gone := by simp
      busyDestroy := by simp
      stopping := fun _ => hn }
  · exact { h with
      live := hs
      closed := fun _ => hc
      stopped := fun _ => not_not.mp hn
      gone := by simp
      busyDestroy := by simp
      stopping := by simp }

omit [DecidableEq ι] [Fintype D] in
theorem tally_broadcastDispatch (w : Pc → ℤ) (hw : w .woken = w .asleep) :
    tally w s.broadcastDispatch.pc = tally w s.pc := by
  refine Finset.sum_congr rfl fun i _ => ?_
  simp only [State.broadcastDispatch]
  split_ifs with hp
  · rw [hp, hw]
  · rfl

theorem Inv.stop (h : Inv s) (hd : s.destroy = .waited) :
    Inv { { s with tq := { s.tq with live := false } }.broadcastDispatch with
      destroy := if s.tq.nthreads ≠ 0 then .stopping else .stopped } := by
  obtain ⟨hs, hds, hh⟩ := h.closed (hd ▸ rfl)
  have hpc (i : ι) : (s.broadcastDispatch.pc i).pending = (s.pc i).pending ∧
      (s.broadcastDispatch.pc i).holds = (s.pc i).holds ∧ s.broadcastDispatch.pc i ≠ .asleep := by
    simp only [State.broadcastDispatch]
    split_ifs with hp
    · rw [hp]
      exact ⟨rfl, rfl, by simp⟩
    · exact ⟨rfl, rfl, hp⟩
  have hh' (i : ι) : (s.broadcastDispatch.pc i).holds = [] := (hpc i).2.1.trans (hh i)
  have hm : Inv { { s with tq := { s.tq with live := false } }.broadcastDispatch with
      destroy := .stopWoken } := by
    refine ⟨⟨?_, ?_, ?_, ?_, h.nodup, h.taken, ?_, h.waited, ?_, rfl, ?_, ?_, ?_, ?_, ?_⟩, h.busy, ?_, ?_⟩
    · exact h.active.trans (tally_broadcastDispatch active rfl).symm
    · exact h.nthreads.trans (tally_broadcastDispatch alive rfl).symm
    · exact h.nalloc.trans (congrArg _ (tally_broadcastDispatch Pc.busy rfl).symm)
    · intro a
      have := tally_broadcastDispatch (s := s) (fun p => (p.holds.count a : ℤ)) rfl
      exact (congrArg (fun n => _ + n + _) this).trans (h.places a)
    · intro i
      exact (h.ran i).trans (congrArg _ (hpc i).1.symm)
    · exact fun ht => absurd hs ht
    · exact fun hl => nomatch hl
    · exact fun _ i => (hpc i).2.2
    · exact fun _ => ⟨hs, hds, hh'⟩
    all_goals simp
  exact hm.checkThreads rfl ⟨hs, hds, hh'⟩

theorem Core.tally_of_closed (h : Core s) (hc : s.destroy.closed = true) :
    tally busy s.pc = 0 ∧ ∀ a, tally (fun p => (p.holds.count a : ℤ)) s.pc = 0 ∧
      tally (fun p => (p.holds.count a : ℤ)) s.dispatch = 0 := by
  obtain ⟨-, hd, hh⟩ := h.closed hc
  refine ⟨tally_eq_zero fun i => ?_, fun a => ⟨tally_eq_zero fun i => ?_, tally_eq_zero fun d => ?_⟩⟩
  · have := hh i
    cases hp : s.pc i <;> simp_all [holds, busy]
  · simp [hh i]
  · simp [hd d, DispatchPc.holds]

theorem Core.idle (h : Core s) (hd : s.destroy = .stopped) : Tq.Idle { s.tq with minalloc := 0 } s.heap := by
  have hc : s.destroy.closed = true := by
    rw [hd]
    rfl
  obtain ⟨hb, hn⟩ := h.tally_of_closed hc
  have ht := (h.closed hc).1
  refine ⟨?_, ?_, h.nodup⟩
  · have := h.nalloc
    rw [ht, hb] at this
    simpa using this
  · rw [perm_iff_count]
    intro a
    have := h.places a
    rw [ht, (hn a).1, (hn a).2] at this
    simp only [map_nil, count_nil] at this
    dsimp only
    omega

theorem Inv.destroyLoop (h : Inv s) (hd : s.destroy = .stopped)
    (hr : Tq.destroyLoop fuel ({ s.tq with minalloc := 0 }, s.heap) = some r) :
    Inv { s with tq := r.1, heap := r.2, destroy := .gone } := by
  have hc : s.destroy.closed = true := by
    rw [hd]
    rfl
  obtain ⟨hn, hf, hh, hs, ha, hnt, hv, -⟩ := (h.idle hd).of_destroyLoop hr
  obtain ⟨hb, hcn⟩ := h.tally_of_closed hc
  obtain ⟨hnil, hds, hhl⟩ := h.closed hc
  have hn' : r.1.task = [] := hs.trans hnil
  have hdd : r.1.live = false := by
    rw [show r.1.live = s.tq.live from hv, h.live, hd]
    rfl
  refine ⟨⟨ha.trans h.active, hnt.trans h.nthreads, ?_, ?_, ?_, ?_, h.ran, h.waited, ?_, hdd, ?_, ?_,
    ?_, ?_, fun _ => ⟨hn, hh⟩⟩, ?_, by simp, by simp⟩
  · rw [hn, hn', hf, hb]
    rfl
  · intro a
    rw [(hcn a).1, (hcn a).2, hn', hf, hh]
    rfl
  · rw [hh]
    exact nodup_nil
  · have := h.taken
    rw [hnil] at this
    rw [hn']
    exact this
  · exact fun ht => absurd hn' ht
  · exact fun hl => absurd (hdd.symm.trans hl) (by simp)
  · intro _
    exact h.noSleep (by rw [h.live, hd]; rfl)
  · exact fun _ => ⟨hn', hds, hhl⟩
  · exact fun _ => hnt.trans (h.stopped (.inl hd))
  · intro w hw
    have := h.busy w hw
    simpa only [State.Busy, show r.1.task = s.tq.task from hs, show r.1.active = s.tq.active from ha] using this

/-! ### Runs -/

section Runs

variable [DecidableEq D] [DecidableEq W]

/-- Dispatches are over when `taskq_destroy` has waited for the tasks. -/
def State.Allowed (s : State ι D W) : Event ι D W → Prop
  | .dispatch .. => s.destroy.closed = false
  | .destroyWait => ¬ s.Busy → ∀ d, s.dispatch d = .idle
  | _ => True

def Step (s s' : State ι D W) : Prop := ∃ e, s.Allowed e ∧ s.exec e = some s'

def Start (s : State ι D W) : Prop := ∃ minalloc maxalloc prepopulate, s = taskqCreate minalloc maxalloc prepopulate

omit [DecidableEq D] [DecidableEq W] in
theorem inv_of_start (h : Start s) : Inv s := by
  obtain ⟨minalloc, maxalloc, prepopulate, rfl⟩ := h
  have hc (w : Pc → ℤ) (hw : w .start = 1) : tally w (fun _ : ι => start) = Fintype.card ι := by
    simp [tally, hw]
  have hz (w : Pc → ℤ) (hw : w .start = 0) : tally w (fun _ : ι => start) = 0 := tally_eq_zero fun _ => hw
  set tq : Tq := ⟨[], [], 0, minalloc, maxalloc, Fintype.card ι, Fintype.card ι, true⟩ with hq
  set r := if prepopulate then Tq.prepopulate minalloc.toNat (tq, []) else (tq, []) with hr
  have hd : Tq.Idle r.1 r.2 ∧ Tq.SameQueue tq r.1 := by
    have h0 : Tq.Idle tq [] := ⟨rfl, .nil, nodup_nil⟩
    rw [hr]
    split_ifs
    · exact h0.prepopulate _
    · exact ⟨h0, rfl, rfl, rfl, rfl, rfl⟩
  obtain ⟨⟨hn, hp, hnd⟩, hs, ha, hnt, hl, -⟩ := hd
  change Inv (⟨r.1, fun _ => .start, fun _ => .idle, fun _ => .idle, .idle, r.2, 0, [], []⟩ : State ι D W)
  refine ⟨⟨?_, ?_, ?_, ?_, hnd, ?_, ?_, by simp, ?_, hl, by simp, by simp, ?_, by simp, by simp⟩, by simp, by simp,
    by simp⟩
  · exact ha.trans (hc _ rfl).symm
  · exact hnt.trans (hc _ rfl).symm
  · dsimp only
    rw [hz _ rfl, hs, hn]
    simp [hq]
  · intro a
    dsimp only
    rw [hz _ rfl, hs, hp.count_eq]
    simp [hq, tally, DispatchPc.holds]
  · dsimp only
    rw [hs]
    rfl
  · exact fun _ => rfl
  · exact fun ht => absurd hs ht
  · simp [DestroyPc.closed]

theorem Inv.exec (h : Inv s) {e : Event ι D W} (ha : s.Allowed e) (he : s.exec e = some s') : Inv s' := by
  cases e with simp only [State.exec] at he
  | thread i => exact h.taskqThread he
  | wakeThread i =>
    split_ifs at he with hp
    cases he
    exact h.wakeThread hp
  | dispatch d nosleep sig =>
    obtain ⟨hd, he⟩ := Option.ite_none_right_eq_some.mp he
    split at he
    · rename_i t tq ht
      split_ifs at he with hs
      cases he
      exact h.dispatchFree ha hd ht hs
    · cases he
      exact h.setDispatch ha (by simp [hd, DispatchPc.holds]) h.nodup
  | throttle d =>
    split at he
    · rename_i nosleep hd
      cases he
      have hopen := h.open_of_dispatch (d := d) (by simp [hd])
      refine h.setDispatch hopen (fun a => ?_) h.nodup
      split_ifs <;> simp [hd, DispatchPc.holds]
    · cases he
  | allocate d t =>
    split at he
    · rename_i nosleep t hd
      have hopen := h.open_of_dispatch (d := d) (by simp [hd])
      split_ifs at he with hmem
      cases he
      refine h.setDispatch hopen (fun a => ?_) (nodup_cons.mpr ⟨hmem, h.nodup⟩)
      simp [hd, DispatchPc.holds, count_cons, Nat.add_comm]
    · rename_i hd
      have hopen := h.open_of_dispatch (d := d) (by simp [hd])
      cases he
      exact h.setDispatch hopen (by simp [hd, DispatchPc.holds]) h.nodup
    · cases he
  | dispatchAllocated d sig =>
    split at he
    · rename_i t hd
      split_ifs at he with hs
      cases he
      exact h.dispatchAllocated hd hs
    · cases he
  | wait w =>
    obtain ⟨-, ⟨⟩⟩ := Option.ite_none_left_eq_some.mp he
    exact h.wait w
  | wakeWait w =>
    split_ifs at he with hw
    cases he
    exact h.wakeWait w
  | destroyWait =>
    obtain ⟨hd, ⟨⟩⟩ := Option.ite_none_right_eq_some.mp he
    exact h.destroyWait hd ha
  | destroyStop =>
    split at he
    · rename_i hd
      cases he
      exact h.stop hd
    · rename_i hd
      cases he
      have hl : s.tq.live = false := by
        rw [h.live, hd]
        rfl
      exact h.checkThreads hl (h.closed (hd ▸ rfl))
    · cases he
  | wakeDestroy =>
    split at he
    · rename_i hd
      cases he
      exact h.wakeDestroy (by simp) (hd ▸ rfl) (hd ▸ rfl)
    · rename_i hd
      cases he
      exact h.wakeDestroy (by simp) (hd ▸ rfl) (hd ▸ rfl)
    · cases he
  | destroyLoop fuel =>
    split_ifs at he with hd
    obtain ⟨r, hr, rfl⟩ := Option.map_eq_some_iff.mp he
    exact h.destroyLoop hd hr

theorem inv_of_reachable (h : Reachable Start Step s) : Inv s := by
  refine h.invariant (fun s hs => inv_of_start hs) ?_
  rintro s s' hs ⟨e, ha, he⟩
  exact hs.exec ha he

structure Correct (s : State ι D W) : Prop where
  /-- tasks leave the queue in the order of their dispatch, each taken by one thread -/
  taken : s.taken.map (·.2) ++ s.tq.task.map (·.num) = List.range s.count
  ran : ∀ i, ofThread i s.taken = ofThread i s.ran ++ (s.pc i).pending
  once : (s.ran.map (·.2)).Nodup
  order : Subsingleton ι → s.ran.map (·.2) <+: List.range s.count
  /-- the queue is not left alone -/
  awake : s.tq.task ≠ [] → Nonempty ι → ∃ i, s.pc i ≠ .asleep
  waited : ∀ w n, s.wait w = .done n → ∀ k < n, k ∈ s.ran.map (·.2)
  busy : ∀ w, s.wait w = .asleep → s.Busy
  nalloc : s.tq.nalloc = s.tq.task.length + s.tq.freelist.length + tally Pc.busy s.pc
  /-- each structure that the allocator has handed out is in one place -/
  nodup : s.heap.Nodup
  places : ∀ a, ((s.tq.task.map (·.addr)).count a + s.tq.freelist.count a : ℤ) +
    tally (fun p => (p.holds.count a : ℤ)) s.pc + tally (fun p => (p.holds.count a : ℤ)) s.dispatch = s.heap.count a
  /-- the last loop of `taskq_destroy` ends -/
  destroyEnds : s.destroy = .stopped → ∃ fuel s', s.exec (.destroyLoop fuel) = some s'
  gone : s.destroy = .gone → s.tq.nalloc = 0 ∧ s.heap = []

instance (s : State ι D W) : ∀ e, Decidable (s.Allowed e)
  | .dispatch .. => inferInstanceAs (Decidable (_ = false))
  | .destroyWait => inferInstanceAs (Decidable (¬ s.Busy → ∀ d, s.dispatch d = .idle))
  | .thread _ | .wakeThread _ | .throttle _ | .allocate .. | .dispatchAllocated .. | .wait _ | .wakeWait _
  | .destroyStop | .wakeDestroy | .destroyLoop _ => inferInstanceAs (Decidable True)

end Runs

/-- Two threads, one task, a wait for it, and the end of the queue. -/
def smallRun : List (Event (Fin 2) Unit Unit) :=
  [.dispatch () false none, .throttle (), .allocate () (some 7), .dispatchAllocated () none, .thread 1,
    .thread 0, .wait (), .thread 1, .thread 1, .wait (), .destroyWait, .destroyStop, .thread 0, .thread 1,
    .destroyStop, .destroyLoop 2]

end Sol8.Os.Taskq
