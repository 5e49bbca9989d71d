import Sol8.Os.CyclicHeap

/-! What a call of `cyclic_fire` does to each cyclic and to the interrupt source (`os/cyclic.c`), and for what time the
source is programmed after any sequence of operations on a CPU. -/

namespace Sol8.Os.CyclicHeap

open Function Sol8.Lib Sol8.Lib.BinaryHeap

variable {cpu cpu' : CycCpu} {now exp : ℤ} {fired : List ℕ} {rounds : ℕ}

/-- The loop of `cyclic_fire` to its end: the cyclics that `cyclic_expire` is called on and the time that is passed to
`cyb_reprogram`. No result when the rounds do not suffice. -/
def fireTrace (now : ℤ) : (rounds : ℕ) → CycCpu → Option (CycCpu × List ℕ × ℤ)
  | 0, _ => none
  | rounds + 1, cpu =>
    match fireRound now cpu with
    | none => some (cpu, [], (cpu.cyclics (cpu.heap 0)).expire)
    | some cpu' => (fireTrace now rounds cpu').map fun r => (r.1, cpu.heap 0 :: r.2.1, r.2.2)

/-- `cyclic_fire`. A call while there are no cyclics is spurious, and the interrupt source is left alone. -/
def cyclicFireTrace (now : ℤ) (rounds : ℕ) (cpu : CycCpu) : Option (CycCpu × List ℕ × Option ℤ) :=
  if cpu.nelems = 0 then some (cpu, [], none)
  else (fireTrace now rounds cpu).map fun r => (r.1, r.2.1, some r.2.2)

def Live (cpu : CycCpu) (ndx : ℕ) : Prop := ∃ i < cpu.nelems, cpu.heap i = ndx

def Earliest (cpu : CycCpu) (exp : ℤ) : Prop :=
  (∃ ndx, Live cpu ndx ∧ exp = (cpu.cyclics ndx).expire) ∧ ∀ ndx, Live cpu ndx → exp ≤ (cpu.cyclics ndx).expire

theorem Inv.earliest (h : Inv cpu) (hn : 0 < cpu.nelems) : Earliest cpu (cpu.cyclics (cpu.heap 0)).expire := by
  refine ⟨⟨_, ⟨0, hn, rfl⟩, rfl⟩, ?_⟩
  rintro _ ⟨i, hi, rfl⟩
  exact h.ordered.root_le hi

structure Fired (now : ℤ) (cpu cpu' : CycCpu) (fired : List ℕ) : Prop where
  live : ∀ ndx, Live cpu' ndx ↔ Live cpu ndx
  future : ∀ ndx, Live cpu' ndx → now < (cpu'.cyclics ndx).expire
  phase : ∀ ndx, (cpu.cyclics ndx).interval ∣ (cpu'.cyclics ndx).expire - (cpu.cyclics ndx).expire
  untouched : ∀ ndx, now < (cpu.cyclics ndx).expire → cpu'.cyclics ndx = cpu.cyclics ndx
  due : ∀ ndx, Live cpu ndx → (ndx ∈ fired ↔ (cpu.cyclics ndx).expire ≤ now)
  /-- one call for each interval that has elapsed, if the cyclic is not more than a second late -/
  count : ∀ ndx, Live cpu ndx → (cpu.cyclics ndx).expire ≤ now →
    now - ((cpu.cyclics ndx).expire + (cpu.cyclics ndx).interval) ≤ nanosec →
    (fired.count ndx : ℤ) = (now - (cpu.cyclics ndx).expire) / (cpu.cyclics ndx).interval + 1

theorem dvd_nextExpire (now : ℤ) (c : Cyclic) : c.interval ∣ nextExpire now c - c.expire := by
  unfold nextExpire
  dsimp only
  split_ifs with hl
  · exact ⟨(now - (c.expire + c.interval)).tdiv c.interval + 2, by ring⟩
  · exact ⟨1, by ring⟩

theorem live_fireRound (h : Inv cpu) (hf : fireRound now cpu = some cpu') (ndx : ℕ) : Live cpu' ndx ↔ Live cpu ndx := by
  obtain ⟨-, hn, -, -, hr, -⟩ := fireRound_spec h hf
  rw [Live, hn]
  exact Set.ext_iff.mp hr.image_Iio ndx

theorem Fired.cons {cpu1 : CycCpu} (h : Inv cpu) (hn : 0 < cpu.nelems) (hf : fireRound now cpu = some cpu1)
    (hr : Fired now cpu1 cpu' fired) : Fired now cpu cpu' (cpu.heap 0 :: fired) := by
  have hv := live_fireRound h hf
  obtain ⟨hd, -, -, hcy, -, -⟩ := fireRound_spec h hf
  obtain ⟨r, ht⟩ : ∃ r, r = cpu.heap 0 := ⟨_, rfl⟩
  have hpos := h.interval_pos 0 hn
  rw [← ht] at hd hcy hpos ⊢
  have hs : cpu1.cyclics r = { cpu.cyclics r with expire := nextExpire now (cpu.cyclics r) } := by
    rw [hcy, update_self]
  have ho : ∀ ndx, ndx ≠ r → cpu1.cyclics ndx = cpu.cyclics ndx := fun ndx hne => by rw [hcy, update_of_ne hne]
  refine ⟨fun ndx => (hr.live ndx).trans (hv ndx), hr.future, fun ndx => ?_, fun ndx hlt => ?_, fun ndx hl => ?_,
    fun ndx hl hle hla => ?_⟩
  · have hdvd := hr.phase ndx
    by_cases hne : ndx = r
    · subst hne
      rw [hs] at hdvd
      have hsum := dvd_add hdvd (dvd_nextExpire now (cpu.cyclics ndx))
      rwa [sub_add_sub_cancel] at hsum
    · rwa [ho ndx hne] at hdvd
  · have hne : ndx ≠ r := by
      rintro rfl
      omega
    rw [hr.untouched ndx (by rwa [ho ndx hne]), ho ndx hne]
  · by_cases hne : ndx = r
    · subst hne
      exact iff_of_true List.mem_cons_self hd
    · rw [List.mem_cons, or_iff_right hne, hr.due ndx ((hv ndx).mpr hl), ho ndx hne]
  · by_cases hne : ndx = r
    · subst hne
      have hnx : nextExpire now (cpu.cyclics ndx) = (cpu.cyclics ndx).expire + (cpu.cyclics ndx).interval :=
        if_neg (not_lt.mpr hla)
      have hl1 := (hv ndx).mpr hl
      have hd1 := hr.due ndx hl1
      have hc := hr.count ndx hl1
      rw [hs, hnx] at hd1 hc
      rw [List.count_cons_self]
      by_cases ha : (cpu.cyclics ndx).expire + (cpu.cyclics ndx).interval ≤ now
      · have hdv := Int.sub_ediv_of_dvd (now - (cpu.cyclics ndx).expire) (dvd_refl (cpu.cyclics ndx).interval)
        rw [Int.ediv_self hpos.ne', sub_sub] at hdv
        rw [Nat.cast_add, hc ha (by dsimp only; omega), hdv]
        omega
      · rw [List.count_eq_zero.mpr fun hmem => ha (hd1.mp hmem), Int.ediv_eq_zero_of_lt (by omega) (by omega)]
        rfl
    · rw [List.count_cons_of_ne (Ne.symm hne)]
      have hc := hr.count ndx ((hv ndx).mpr hl)
      rw [ho ndx hne] at hc
      exact hc hle hla

theorem fired_nil (ha : ∀ ndx, Live cpu ndx → now < (cpu.cyclics ndx).expire) : Fired now cpu cpu [] where
  live _ := Iff.rfl
  future := ha
  phase ndx := by
    rw [sub_self]
    exact dvd_zero _
  untouched _ _ := rfl
  due ndx hl := iff_of_false List.not_mem_nil (not_le.mpr (ha ndx hl))
  count ndx hl hle := absurd hle (not_le.mpr (ha ndx hl))

/-- What the loop has done when it has ended. -/
theorem fireTrace_spec (h : Inv cpu) (hn : 0 < cpu.nelems) (hrn : fireTrace now rounds cpu = some (cpu', fired, exp)) :
    Inv cpu' ∧ cpu'.nelems = cpu.nelems ∧ exp = (cpu'.cyclics (cpu'.heap 0)).expire ∧
      fireLoop now rounds cpu = cpu' ∧ Fired now cpu cpu' fired := by
  induction rounds generalizing cpu fired with
  | zero => cases hrn
  | succ rounds ih =>
    rw [fireTrace] at hrn
    rw [fireLoop]
    cases hf : fireRound now cpu with
    | none =>
      have ht : now < (cpu.cyclics (cpu.heap 0)).expire := by
        by_contra hle
        rw [fireRound, if_neg (by exact hle)] at hf
        cases hf
      have ha : Fired now cpu cpu [] := fired_nil fun ndx hl => ht.trans_le ((h.earliest hn).2 ndx hl)
      rw [hf] at hrn
      cases hrn
      exact ⟨h, rfl, rfl, rfl, ha⟩
    | some cpu1 =>
      rw [hf] at hrn
      obtain ⟨⟨_, _, _⟩, hr, he⟩ := Option.map_eq_some_iff.mp hrn
      cases he
      obtain ⟨h1, hn1⟩ := h.fireRound hn hf
      obtain ⟨h', hnl, hex, hp, hfr⟩ := ih h1 (hn1 ▸ hn) hr
      exact ⟨h', hnl.trans hn1, hex, hp, hfr.cons h hn hf⟩

theorem fireTrace_isSome (hn : fireRound now (fireLoop now rounds cpu) = none) :
    (fireTrace now (rounds + 1) cpu).isSome := by
  induction rounds generalizing cpu with
  | zero =>
    rw [fireLoop] at hn
    rw [fireTrace, hn]
    rfl
  | succ rounds ih =>
    rw [fireLoop] at hn
    rw [fireTrace]
    cases hf : fireRound now cpu with
    | none => rfl
    | some cpu1 =>
      rw [hf] at hn
      rw [Option.isSome_map]
      exact ih hn

/-- `cyclic_fire` ends, leaves nothing overdue, keeps the phase of each cyclic and programs the interrupt source for the
earliest one. -/
theorem cyclicFire_keeps_phase (h : Inv cpu) (now : ℤ) : ∃ rounds cpu' fired exp,
    cyclicFireTrace now rounds cpu = some (cpu', fired, exp) ∧ cyclicFire now rounds cpu = cpu' ∧
      Fired now cpu cpu' fired ∧ (0 < cpu.nelems → ∃ e, exp = some e ∧ Earliest cpu' e) := by
  rcases Nat.eq_zero_or_pos cpu.nelems with h0 | hn
  · exact ⟨0, cpu, [], none, if_pos h0, if_pos h0, fired_nil fun ndx ⟨i, hi, _⟩ => by omega, fun hn => by omega⟩
  · obtain ⟨rounds, hen⟩ := fireLoop_ends now h hn
    obtain ⟨⟨cpu', fired, exp⟩, hr⟩ := Option.isSome_iff_exists.mp (fireTrace_isSome hen)
    obtain ⟨h', hnl, rfl, hl, hf⟩ := fireTrace_spec h hn hr
    refine ⟨rounds + 1, cpu', fired, _, ?_, ?_, hf, fun _ => ⟨_, rfl, h'.earliest (hnl ▸ hn)⟩⟩
    · rw [cyclicFireTrace, if_neg hn.ne', hr]
      rfl
    · rw [cyclicFire, if_neg hn.ne']
      exact hl

theorem cyclicFire_keeps_phase_twoAdded : Inv twoAdded ∧ ∃ rounds cpu' fired exp,
    cyclicFireTrace 505 rounds twoAdded = some (cpu', fired, exp) ∧ cyclicFire 505 rounds twoAdded = cpu' ∧
      Fired 505 twoAdded cpu' fired ∧ (0 < twoAdded.nelems → ∃ e, exp = some e ∧ Earliest cpu' e) :=
  ⟨inv_twoAdded, cyclicFire_keeps_phase inv_twoAdded 505⟩

/-! ### The interrupt source -/

/-- The heap of a CPU with its backend: the last time passed to `cyb_reprogram`, and whether the backend is enabled. -/
structure Timer where
  cpu : CycCpu
  armed : Option ℤ
  enabled : Bool

namespace Timer

def configure : Timer := ⟨cyclicConfigure, none, false⟩

/-- `cyclic_add_here` with `cyclic_add_xcall`, which reprograms when its upheap has reached the root. -/
def add (t : Timer) (cytWhen cytInterval now : ℤ) (flags : AddFlags) : Timer :=
  let cpu := if t.cpu.nelems = t.cpu.size then cyclicExpand t.cpu else t.cpu
  let cpu' := cyclicAddXcall cpu cytWhen cytInterval now flags
  { cpu := cpu'
    armed := if (cyclicUpheap cpu'.cyclics cpu.heap cpu.nelems).1 then
        some (cpu'.cyclics (cpu.heap cpu.nelems)).expire
      else t.armed
    enabled := if cpu.nelems = 0 then true else t.enabled }

/-- `cyclic_remove_xcall`, which reprograms when it has removed the root or its upheap has reached it. -/
def remove (t : Timer) (ndx : ℕ) : Option Timer := do
  let i ← findNdx t.cpu.heap ndx t.cpu.nelems
  let cpu' ← cyclicRemoveXcall t.cpu ndx
  let nelems := t.cpu.nelems - 1
  let heap := update (update t.cpu.heap i (t.cpu.heap nelems)) nelems ndx
  some { cpu := cpu'
         armed := if i ≠ nelems ∧ (i = 0 ∨ (cyclicUpheap cpu'.cyclics heap i).1) then
             some (cpu'.cyclics (cpu'.heap 0)).expire
           else t.armed
         enabled := if nelems = 0 then false else t.enabled }

def fire (t : Timer) (now : ℤ) (rounds : ℕ) : Option Timer :=
  (cyclicFireTrace now rounds t.cpu).map fun r => { t with cpu := r.1, armed := r.2.2.or t.armed }

inductive Step (t : Timer) : Timer → Prop
  | add (cytWhen cytInterval now : ℤ) (flags : AddFlags) : 0 ≤ cytWhen → 0 < cytInterval →
      Step t (t.add cytWhen cytInterval now flags)
  | remove (ndx : ℕ) (t' : Timer) : t.remove ndx = some t' → Step t t'
  | fire (now : ℤ) (rounds : ℕ) (t' : Timer) : t.fire now rounds = some t' → Step t t'

/-- The source is programmed for the root, and the backend is enabled while there are cyclics. -/
structure Armed (t : Timer) : Prop where
  inv : Inv t.cpu
  root : 0 < t.cpu.nelems → t.armed = some (t.cpu.cyclics (t.cpu.heap 0)).expire
  enabled : t.enabled = true ↔ 0 < t.cpu.nelems

end Timer

section Roots

variable {cyclics : ℕ → Cyclic} {heap : ℕ → ℕ} {n j : ℕ}

theorem cyclicUpheap_root (cyclics : ℕ → Cyclic) (heap : ℕ → ℕ) (j : ℕ) :
    (cyclicUpheap cyclics heap j).2 0 = if (cyclicUpheap cyclics heap j).1 then heap j else heap 0 := by
  fun_induction cyclicUpheap cyclics heap j with
  | case1 heap => rfl
  | case2 heap j hj hle => rfl
  | case3 heap j hj hlt ih =>
    rw [cycHeapParent_eq] at ih ⊢
    rw [ih, exchange_eq, swapAt_left]
    by_cases hp : parent j = 0
    · rw [hp, cyclicUpheap, dif_pos rfl, if_pos rfl, if_pos rfl]
    · rw [swapAt_of_ne heap (Ne.symm hp) (Ne.symm hj)]

theorem cyclicDownheap_of_lt {k : ℕ} (hk : k < j) : cyclicDownheap cyclics n heap j k = heap k := by
  fun_induction cyclicDownheap cyclics n heap j with
  | case1 | case2 | case4 => rfl
  | case3 heap j hf hg hlt ih =>
    have hr := cycHeapRight_eq j
    unfold right at hr
    rw [ih (by omega), exchange_eq, swapAt_of_ne heap (by omega) (by omega)]
  | case5 heap j hf hg hlt ih =>
    have hl := cycHeapLeft_eq j
    unfold left at hl
    rw [ih (by omega), exchange_eq, swapAt_of_ne heap (by omega) (by omega)]

theorem cyclicRemoveXcall_root (h : Inv cpu) {ndx i : ℕ} (hi : findNdx cpu.heap ndx cpu.nelems = some i)
    (hm : cyclicRemoveXcall cpu ndx = some cpu') :
    cpu'.nelems = cpu.nelems - 1 ∧ (0 < cpu.nelems - 1 → ¬ (i ≠ cpu.nelems - 1 ∧ (i = 0 ∨ (cyclicUpheap cpu'.cyclics
      (update (update cpu.heap i (cpu.heap (cpu.nelems - 1))) (cpu.nelems - 1) ndx) i).1)) →
        cpu'.cyclics (cpu'.heap 0) = cpu.cyclics (cpu.heap 0)) := by
  obtain ⟨hlt, rfl⟩ := findNdx_some hi
  have hle := h.nelems_le
  -- another cyclic than the root is removed
  have hc : i ≠ 0 → ∀ c, update cpu.cyclics (cpu.heap i) c (cpu.heap 0) = cpu.cyclics (cpu.heap 0) := fun h0 c =>
    update_of_ne (fun e => h0 (h.perm.injOn (Set.mem_Iio.mpr (by omega)) (Set.mem_Iio.mpr (by omega)) e.symm)) ..
  unfold cyclicRemoveXcall at hm
  rw [hi] at hm
  dsimp only at hm
  split_ifs at hm with hl ht hu
  all_goals
    cases hm
    refine ⟨rfl, fun hpos hn => ?_⟩
  · exact hc (by omega) _
  · exact absurd ⟨hl, .inl ht⟩ hn
  all_goals
    have hf := Bool.eq_false_iff.mpr fun hr => hn ⟨hl, .inr hr⟩
    dsimp only at hf ⊢
    have hz := cyclicUpheap_root (update cpu.cyclics (cpu.heap i) { cpu.cyclics (cpu.heap i) with flags := cyfFree })
      (update (update cpu.heap i (cpu.heap (cpu.nelems - 1))) (cpu.nelems - 1) (cpu.heap i)) i
    rw [hf, if_neg Bool.false_ne_true, update_of_ne (by omega), update_of_ne (Ne.symm ht)] at hz
  · rw [cyclicDownheap_of_lt (Nat.pos_of_ne_zero ht), hz]
    exact hc ht _
  · rw [hz]
    exact hc ht _

end Roots

namespace Timer

variable {t t' : Timer}

theorem Armed.add (h : Armed t) {cytWhen cytInterval : ℤ} (hpos : 0 < cytInterval) (now : ℤ) (flags : AddFlags) :
    Armed (t.add cytWhen cytInterval now flags) := by
  have hin : Inv (cyclicAddHere t.cpu cytWhen cytInterval now flags) := h.inv.cyclicAddHere hpos now flags
  have hs := h.inv.size_pos
  obtain ⟨cpu, hc⟩ : ∃ cpu, cpu = if t.cpu.nelems = t.cpu.size then cyclicExpand t.cpu else t.cpu := ⟨_, rfl⟩
  -- the arrays are expanded or not; the root is the same
  have ho : cpu.nelems = t.cpu.nelems ∧ cpu.cyclics (cpu.heap 0) = t.cpu.cyclics (t.cpu.heap 0) := by
    rw [hc]
    split_ifs
    · refine ⟨rfl, ?_⟩
      have hh : (cyclicExpand t.cpu).heap 0 = t.cpu.heap 0 := if_pos hs
      rw [hh]
      exact if_pos (h.inv.perm.mapsTo hs)
    · exact ⟨rfl, rfl⟩
  have hp : Set.InjOn cpu.heap (Set.Iio (cpu.nelems + 1)) := by
    rw [hc]
    split_ifs with hf
    · refine h.inv.cyclicExpand.perm.injOn.mono (Set.Iio_subset_Iio ?_)
      change t.cpu.nelems + 1 ≤ t.cpu.size <<< 1
      omega
    · exact h.inv.perm.injOn.mono (Set.Iio_subset_Iio (lt_of_le_of_ne h.inv.nelems_le hf))
  rw [cyclicAddHere, ← hc] at hin
  rw [Timer.add, ← hc]
  refine ⟨hin, fun _ => ?_, iff_of_true ?_ (Nat.succ_pos _)⟩
  · obtain ⟨cpu', hc'⟩ : ∃ cpu', cpu' = cyclicAddXcall cpu cytWhen cytInterval now flags := ⟨_, rfl⟩
    have ht : cpu'.heap 0 = if (cyclicUpheap cpu'.cyclics cpu.heap cpu.nelems).1 then cpu.heap cpu.nelems
        else cpu.heap 0 := by
      rw [hc']
      exact cyclicUpheap_root ..
    dsimp only
    rw [← hc', ht]
    split_ifs with hr
    · rfl
    · have h0 : cpu.nelems ≠ 0 := by
        intro h0
        rw [h0, cyclicUpheap] at hr
        exact hr rfl
      have hne : cpu.heap 0 ≠ cpu.heap cpu.nelems := fun e =>
        h0 (hp (Set.mem_Iio.mpr (by omega)) (Set.mem_Iio.mpr (by omega)) e).symm
      rw [h.root (by omega), ← ho.2, hc']
      exact congrArg (fun c : Cyclic => some c.expire) (update_of_ne hne ..).symm
  · dsimp only
    split_ifs with h0
    · rfl
    · exact h.enabled.mpr (by omega)

theorem Armed.remove (h : Armed t) {ndx : ℕ} (hm : t.remove ndx = some t') : Armed t' := by
  obtain ⟨i, hi, hm⟩ := Option.bind_eq_some_iff.mp hm
  obtain ⟨cpu', hc, hm⟩ := Option.bind_eq_some_iff.mp hm
  cases hm
  obtain ⟨hn, hr⟩ := cyclicRemoveXcall_root h.inv hi hc
  refine ⟨h.inv.cyclicRemoveXcall hc, fun hpos => ?_, ?_⟩
  · dsimp only at hpos ⊢
    split_ifs with hre
    · rfl
    · rw [hr (by omega) hre]
      exact h.root (by omega)
  · dsimp only
    split_ifs with h0
    · exact iff_of_false (by simp) (by omega)
    · rw [h.enabled]
      omega

theorem Armed.fire (h : Armed t) {now : ℤ} {rounds : ℕ} (hf : t.fire now rounds = some t') : Armed t' := by
  rw [Timer.fire, cyclicFireTrace] at hf
  split_ifs at hf with h0
  · cases hf
    exact h
  · rw [Option.map_map] at hf
    obtain ⟨⟨cpu', fired, exp⟩, hr, rfl⟩ := Option.map_eq_some_iff.mp hf
    obtain ⟨hin, hn, hex, -⟩ := fireTrace_spec h.inv (Nat.pos_of_ne_zero h0) hr
    refine ⟨hin, fun _ => congrArg some hex, ?_⟩
    change t.enabled = true ↔ 0 < cpu'.nelems
    rw [hn]
    exact h.enabled

/-- The interrupt source is programmed for the earliest cyclic in every state that the operations reach, and the backend is
enabled exactly while there are cyclics. -/
theorem armed_of_reachable (ht : Reachable (· = configure) Step t) :
    (0 < t.cpu.nelems → ∃ e, t.armed = some e ∧ Earliest t.cpu e) ∧ (t.enabled = true ↔ 0 < t.cpu.nelems) := by
  have h : Armed t := by
    refine ht.invariant (fun _ h0 => ?_) fun s s' h hs => ?_
    · rw [h0]
      exact ⟨inv_cyclicConfigure, fun hpos => absurd hpos (lt_irrefl 0), by decide⟩
    · cases hs with
      | add cytWhen cytInterval now flags _ hpos => exact h.add hpos now flags
      | remove ndx _ hr => exact h.remove hr
      | fire now rounds _ hf => exact h.fire hf
  exact ⟨fun hpos => ⟨_, h.root hpos, h.inv.earliest hpos⟩, h.enabled⟩

/-- The cyclic that is added second expires first. -/
theorem armed_of_reachable_twoAdded : ∃ t : Timer, t.cpu = twoAdded ∧ Reachable (· = configure) Step t ∧
    (0 < t.cpu.nelems → ∃ e, t.armed = some e ∧ Earliest t.cpu e) ∧ (t.enabled = true ↔ 0 < t.cpu.nelems) := by
  have h0 : Reachable (· = configure) Step configure := .start rfl
  have hr := (h0.next (.add 500 10 0 .none (by decide) (by decide))).next (.add 300 10 0 .cpuBound (by decide) (by decide))
  exact ⟨_, rfl, hr, armed_of_reachable hr⟩

end Timer

end Sol8.Os.CyclicHeap
