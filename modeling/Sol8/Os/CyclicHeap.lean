import Sol8.Lib.BinaryHeap
import Sol8.Lib.Run

/-! The heap of cyclics of one CPU (`os/cyclic.c`).

`cyp_heap` is a heap of the live cyclics by expiration time, and its unused tail is the free list.
The array of cyclics is indexed by `cyc_index_t`; of a cyclic only the fields that decide its place
are kept. Times are integers of any size. -/

namespace Sol8.Os.CyclicHeap

open Function Sol8.Lib Sol8.Lib.BinaryHeap

variable {cpu cpu' : CycCpu} {now : ℤ} {ndx : ℕ} {c : Cyclic}

def nanosec : ℤ := 1000000000

def cyfFree : BitVec 16 := 1
def cyfCpuBound : BitVec 16 := 2

structure Cyclic where
  expire : ℤ
  interval : ℤ
  flags : BitVec 16

def Cyclic.Free (c : Cyclic) : Prop := c.flags &&& cyfFree ≠ 0

instance (c : Cyclic) : Decidable c.Free := inferInstanceAs (Decidable (_ ≠ _))

structure CycCpu where
  heap : ℕ → ℕ
  cyclics : ℕ → Cyclic
  nelems : ℕ
  size : ℕ

def cycHeapParent (ndx : ℕ) : ℕ := (ndx - 1) >>> 1
def cycHeapRight (ndx : ℕ) : ℕ := (ndx + 1) <<< 1
def cycHeapLeft (ndx : ℕ) : ℕ := ((ndx + 1) <<< 1) - 1

theorem cycHeapParent_eq (i : ℕ) : cycHeapParent i = parent i := by
  rw [cycHeapParent, parent, Nat.shiftRight_eq_div_pow]

theorem cycHeapLeft_eq (i : ℕ) : cycHeapLeft i = left i := by
  rw [cycHeapLeft, left]
  omega

theorem cycHeapRight_eq (i : ℕ) : cycHeapRight i = right i := by
  rw [cycHeapRight, right]
  omega

/-- Writing the elements at two positions of the array back crosswise. -/
def exchange (heap : ℕ → ℕ) (i j : ℕ) : ℕ → ℕ :=
  update (update heap i (heap j)) j (heap i)

theorem exchange_eq (heap : ℕ → ℕ) (i j : ℕ) : exchange heap i j = swapAt heap i j := by
  funext k
  by_cases hj : k = j
  · subst hj
    simp [exchange]
  · by_cases hi : k = i
    · subst hi
      simp [exchange, hj]
    · rw [swapAt_of_ne heap hi hj]
      simp [exchange, hi, hj]

/-- `cyclic_upheap`, with whether it reached the root. -/
def cyclicUpheap (cyclics : ℕ → Cyclic) (heap : ℕ → ℕ) (heapCurrent : ℕ) : Bool × (ℕ → ℕ) :=
  if _h : heapCurrent = 0 then (true, heap)
  else if (cyclics (heap heapCurrent)).expire ≥ (cyclics (heap (cycHeapParent heapCurrent))).expire then (false, heap)
  else
    cyclicUpheap cyclics (exchange heap (cycHeapParent heapCurrent) heapCurrent) (cycHeapParent heapCurrent)
termination_by heapCurrent
decreasing_by
  exact parent_lt _h

def cyclicDownheap (cyclics : ℕ → Cyclic) (nelems : ℕ) (heap : ℕ → ℕ) (heapMe : ℕ) : ℕ → ℕ :=
  if cycHeapLeft heapMe ≥ nelems then heap
  else if cycHeapRight heapMe < nelems ∧ (cyclics (heap (cycHeapRight heapMe))).expire <
      (cyclics (heap (cycHeapLeft heapMe))).expire then
    if (cyclics (heap heapMe)).expire ≤ (cyclics (heap (cycHeapRight heapMe))).expire then heap
    else
      cyclicDownheap cyclics nelems (exchange heap (cycHeapRight heapMe) heapMe) (cycHeapRight heapMe)
  else if (cyclics (heap heapMe)).expire ≤ (cyclics (heap (cycHeapLeft heapMe))).expire then heap
  else cyclicDownheap cyclics nelems (exchange heap (cycHeapLeft heapMe) heapMe) (cycHeapLeft heapMe)
termination_by nelems - heapMe
decreasing_by
  all_goals
    have hl := cycHeapLeft_eq heapMe
    have hr := cycHeapRight_eq heapMe
    unfold left at hl
    unfold right at hr
    omega

/-! ### The two sifts -/

section Sift

variable {cyclics : ℕ → Cyclic} {heap : ℕ → ℕ} {n j : ℕ}

def key (cyclics : ℕ → Cyclic) (heap : ℕ → ℕ) (i : ℕ) : ℤ :=
  (cyclics (heap i)).expire

theorem key_exchange (cyclics : ℕ → Cyclic) (heap : ℕ → ℕ) (i j : ℕ) :
    key cyclics (exchange heap i j) = swapAt (key cyclics heap) i j := by
  rw [exchange_eq]
  rfl

theorem cyclicUpheap_of_fitsAbove (hj : 0 < j) (h : FitsAbove (key cyclics heap) j) :
    cyclicUpheap cyclics heap j = (false, heap) := by
  have hle : (cyclics (heap j)).expire ≥ (cyclics (heap (cycHeapParent j))).expire := by
    exact h hj
  rw [cyclicUpheap, dif_neg (by omega), if_pos hle]

/-- Sifting up closes a hole that fits below and rearranges the heap. -/
theorem cyclicUpheap_spec (hn : j < n) (h : Hole (key cyclics heap) n j) (hb : FitsBelow (key cyclics heap) n j) :
    Ordered (key cyclics (cyclicUpheap cyclics heap j).2) n ∧ Rearranged n heap (cyclicUpheap cyclics heap j).2 ∧
    ∀ k, j < k → (cyclicUpheap cyclics heap j).2 k = heap k := by
  fun_induction cyclicUpheap cyclics heap j with
  | case1 heap => exact ⟨h.close hb fun h0 => absurd h0 (lt_irrefl 0), .refl n heap, fun _ _ => rfl⟩
  | case2 heap j hj hle =>
    exact ⟨h.close hb fun _ => hle, .refl n heap, fun _ _ => rfl⟩
  | case3 heap j hj hlt ih =>
    rw [cycHeapParent_eq] at hlt ih ⊢
    have hp := parent_lt hj
    obtain ⟨h', hb'⟩ := h.up (by omega) hn (not_le.mp hlt)
    rw [swapAt_comm, ← key_exchange] at h' hb'
    obtain ⟨ho, hr, hk⟩ := ih (by omega) h' hb'
    refine ⟨ho, .trans ?_ hr, fun k hk' => ?_⟩
    · rw [exchange_eq]
      exact rearranged_swapAt heap (by omega) hn
    · rw [hk k (by omega), exchange_eq, swapAt_of_ne heap (by omega) (by omega)]

/-- A key that goes up leaves its parent's element behind. -/
theorem cyclicUpheap_self_of_lt (hj : 0 < j) (hn : j < n) (h : Hole (key cyclics heap) n j)
    (hlt : key cyclics heap j < key cyclics heap (parent j)) : (cyclicUpheap cyclics heap j).2 j = heap (parent j) := by
  have hp := parent_lt (show j ≠ 0 by omega)
  have hlt' : ¬ (cyclics (heap j)).expire ≥ (cyclics (heap (cycHeapParent j))).expire := by
    exact not_le.mpr hlt
  obtain ⟨h', hb'⟩ := h.up hj hn hlt
  rw [swapAt_comm, ← key_exchange] at h' hb'
  rw [cyclicUpheap, dif_neg (by omega), if_neg hlt', cycHeapParent_eq,
    (cyclicUpheap_spec (by omega) h' hb').2.2 j hp, exchange_eq, swapAt_right]

/-- The step down of a hole to the child with the earlier expiration time. -/
theorem exchange_down {c : ℕ} (h : Hole (key cyclics heap) n j) (hc : c < n) (hj : c = left j ∨ c = right j)
    (hmin : ∀ i, 0 < i → i < n → parent i = j → key cyclics heap c ≤ key cyclics heap i)
    (hlt : key cyclics heap c < key cyclics heap j) :
    Hole (key cyclics (exchange heap c j)) n c ∧ FitsAbove (key cyclics (exchange heap c j)) c ∧
      Rearranged n heap (exchange heap c j) := by
  have hp : 0 < c ∧ parent c = j := by
    rcases hj with rfl | rfl
    · exact ⟨by unfold left; omega, parent_left j⟩
    · exact ⟨by unfold right; omega, parent_right j⟩
  have hjc : j < c := hp.2 ▸ parent_lt (by omega)
  rw [key_exchange, exchange_eq, swapAt_comm, swapAt_comm heap]
  obtain ⟨h', ha'⟩ := h.down hp.1 hc hp.2 hmin hlt
  exact ⟨h', ha', rearranged_swapAt heap (by omega) hc⟩

/-- Sifting down closes a hole that fits above and rearranges the heap. -/
theorem cyclicDownheap_spec (h : Hole (key cyclics heap) n j) (ha : FitsAbove (key cyclics heap) j) :
    Ordered (key cyclics (cyclicDownheap cyclics n heap j)) n ∧
    Rearranged n heap (cyclicDownheap cyclics n heap j) := by
  fun_induction cyclicDownheap cyclics n heap j with
  | case1 heap j hl =>
    rw [cycHeapLeft_eq] at hl
    refine ⟨h.close (forall_children (fun hin => absurd hin (not_lt.mpr hl)) fun hin => ?_) ha, .refl n heap⟩
    unfold left at hl
    unfold right at hin
    omega
  | case2 heap j hl hg hle =>
    exact ⟨h.close (forall_children (fun _ => hle.trans hg.2.le) fun _ => hle) ha, .refl n heap⟩
  | case3 heap j hl hg hlt ih =>
    obtain ⟨h', ha', hr⟩ := exchange_down h hg.1 (.inr rfl)
      (forall_children (P := (_ ≤ key cyclics heap ·)) (fun _ => hg.2.le) fun _ => le_rfl) (not_le.mp hlt)
    obtain ⟨ho, hr'⟩ := ih h' ha'
    exact ⟨ho, hr.trans hr'⟩
  | case4 heap j hl hg hle =>
    exact ⟨h.close (forall_children (fun _ => hle) fun hin => hle.trans (not_lt.mp fun hlt => hg ⟨hin, hlt⟩)) ha,
      .refl n heap⟩
  | case5 heap j hl hg hlt ih =>
    obtain ⟨h', ha', hr⟩ := exchange_down h (not_le.mp hl) (.inl rfl)
      (forall_children (P := (_ ≤ key cyclics heap ·)) (fun _ => le_rfl) fun hin => not_lt.mp fun hlt => hg ⟨hin, hlt⟩)
      (not_le.mp hlt)
    obtain ⟨ho, hr'⟩ := ih h' ha'
    exact ⟨ho, hr.trans hr'⟩

end Sift

/-! ### The operations -/

def cyclicConfigure : CycCpu := ⟨fun _ => 0, fun _ => ⟨0, 0, cyfFree⟩, 0, 1⟩

/-- `cyclic_expand` with its cross call: both arrays are copied to arrays of twice the size. -/
def cyclicExpand (cpu : CycCpu) : CycCpu :=
  { cpu with
    heap := fun i => if i < cpu.size then cpu.heap i else i
    cyclics := fun i => if i < cpu.size then cpu.cyclics i else ⟨0, 0, cyfFree⟩
    size := cpu.size <<< 1 }

/-- What the callers of `cyclic_add_here` pass as the flags. -/
inductive AddFlags
  | none
  | cpuBound

def AddFlags.toBits : AddFlags → BitVec 16
  | .none => 0
  | .cpuBound => cyfCpuBound

def cyclicAddXcall (cpu : CycCpu) (cytWhen cytInterval now : ℤ) (flags : AddFlags) : CycCpu :=
  let ndx := cpu.heap cpu.nelems
  let expire := if cytWhen = 0 then (now.tdiv cytInterval + 1) * cytInterval else cytWhen
  let cyclics := update cpu.cyclics ndx ⟨expire, cytInterval, flags.toBits⟩
  { cpu with
    heap := (cyclicUpheap cyclics cpu.heap cpu.nelems).2
    cyclics := cyclics
    nelems := cpu.nelems + 1 }

/-- `cyclic_add_here`: the arrays are expanded first when they are full. -/
def cyclicAddHere (cpu : CycCpu) (cytWhen cytInterval now : ℤ) (flags : AddFlags) : CycCpu :=
  let cpu := if cpu.nelems = cpu.size then cyclicExpand cpu else cpu
  cyclicAddXcall cpu cytWhen cytInterval now flags

/-- The search of `cyclic_remove_xcall` among the first `n` positions. -/
def findNdx (heap : ℕ → ℕ) (ndx : ℕ) (n : ℕ) : Option ℕ :=
  (List.range n).find? fun i => heap i = ndx

/-- `cyclic_remove_xcall`; no result when it panics. -/
def cyclicRemoveXcall (cpu : CycCpu) (ndx : ℕ) : Option CycCpu :=
  let cyclics := update cpu.cyclics ndx { cpu.cyclics ndx with flags := cyfFree }
  match findNdx cpu.heap ndx cpu.nelems with
  | none => none
  | some i =>
    let nelems := cpu.nelems - 1
    if i = nelems then some { cpu with cyclics := cyclics, nelems := nelems }
    else
      let last := cpu.heap nelems
      let heap := update (update cpu.heap i last) nelems ndx
      if i = 0 then
        some { cpu with cyclics := cyclics, nelems := nelems,
                        heap := cyclicDownheap cyclics nelems heap 0 }
      else
        let up := cyclicUpheap cyclics heap i
        if up.1 = false ∧ up.2 i = last then
          some { cpu with cyclics := cyclics, nelems := nelems,
                          heap := cyclicDownheap cyclics nelems up.2 i }
        else some { cpu with cyclics := cyclics, nelems := nelems, heap := up.2 }

/-- The expiration time after a firing: an interval later, or on the next interval boundary when
that lies in the distant past. -/
def nextExpire (now : ℤ) (cyclic : Cyclic) : ℤ :=
  let exp := cyclic.expire + cyclic.interval
  if now - exp > nanosec then exp + ((now - exp).tdiv cyclic.interval + 1) * cyclic.interval else exp

/-- One round of the loop of `cyclic_fire`; no result when the root is not in the past. -/
def fireRound (now : ℤ) (cpu : CycCpu) : Option CycCpu :=
  let ndx := cpu.heap 0
  let cyclic := cpu.cyclics ndx
  if cyclic.expire > now then none
  else
    let cyclics := update cpu.cyclics ndx { cyclic with expire := nextExpire now cyclic }
    some { cpu with cyclics := cyclics, heap := cyclicDownheap cyclics cpu.nelems cpu.heap 0 }

/-- The loop of `cyclic_fire`, for at most `rounds` rounds. -/
def fireLoop (now : ℤ) : (rounds : ℕ) → CycCpu → CycCpu
  | 0, cpu => cpu
  | rounds + 1, cpu =>
    match fireRound now cpu with
    | none => cpu
    | some cpu' => fireLoop now rounds cpu'

def cyclicFire (now : ℤ) (rounds : ℕ) (cpu : CycCpu) : CycCpu :=
  if cpu.nelems = 0 then cpu else fireLoop now rounds cpu

/-! ### The invariant -/

/-- The heap array is a permutation of the indices, its live part holds exactly the cyclics that
are not free, and no cyclic expires before its parent. -/
structure HeapOk (cpu : CycCpu) : Prop where
  perm : Set.BijOn cpu.heap (Set.Iio cpu.size) (Set.Iio cpu.size)
  live : cpu.heap '' Set.Iio cpu.nelems = {ndx | ndx < cpu.size ∧ ¬ (cpu.cyclics ndx).Free}
  ordered : ∀ i, 0 < i → i < cpu.nelems →
    (cpu.cyclics (cpu.heap (cycHeapParent i))).expire ≤ (cpu.cyclics (cpu.heap i)).expire

theorem free_cyfFree (expire interval : ℤ) : (Cyclic.mk expire interval cyfFree).Free := by
  simp [Cyclic.Free, cyfFree]

theorem not_free_toBits (expire interval : ℤ) (flags : AddFlags) : ¬ (Cyclic.mk expire interval flags.toBits).Free := by
  cases flags <;> simp [Cyclic.Free, cyfFree, AddFlags.toBits, cyfCpuBound]

/-- All but the order: the array is a permutation, its live part holds the cyclics that are not
free, and those have an interval. -/
structure Stocked (cpu : CycCpu) : Prop where
  size_pos : 0 < cpu.size
  nelems_le : cpu.nelems ≤ cpu.size
  perm : Set.BijOn cpu.heap (Set.Iio cpu.size) (Set.Iio cpu.size)
  live : ∀ i < cpu.size, (i < cpu.nelems ↔ ¬ (cpu.cyclics (cpu.heap i)).Free)
  interval_pos : ∀ i < cpu.nelems, 0 < (cpu.cyclics (cpu.heap i)).interval

structure Inv (cpu : CycCpu) : Prop extends Stocked cpu where
  ordered : Ordered (key cpu.cyclics cpu.heap) cpu.nelems

theorem Inv.heapOk (h : Inv cpu) : HeapOk cpu := by
  refine ⟨h.perm, ?_, fun i hi hin => ?_⟩
  · ext ndx
    constructor
    · rintro ⟨i, hi, rfl⟩
      have hi' : i < cpu.size := lt_of_lt_of_le hi h.nelems_le
      exact ⟨h.perm.mapsTo hi', (h.live i hi').mp hi⟩
    · rintro ⟨hlt, hf⟩
      obtain ⟨i, hi, rfl⟩ := h.perm.surjOn hlt
      exact ⟨i, (h.live i hi).mpr hf, rfl⟩
  · exact h.ordered i hi hin

theorem Stocked.rearrange (h : Stocked cpu) {he' : ℕ → ℕ}
    (hr : Rearranged cpu.nelems cpu.heap he') (ho : Ordered (key cpu.cyclics he') cpu.nelems) :
    Inv { cpu with heap := he' } := by
  have hf : ∀ i < cpu.nelems, ∃ k < cpu.nelems, cpu.heap k = he' i := fun i hi => by
    have hmem : he' i ∈ cpu.heap '' Set.Iio cpu.nelems := hr.image_Iio ▸ ⟨i, hi, rfl⟩
    exact hmem
  refine ⟨⟨h.size_pos, h.nelems_le, hr.bijOn h.nelems_le h.perm, fun i hi => ?_, fun i hi => ?_⟩, ho⟩
  · by_cases hin : i < cpu.nelems
    · obtain ⟨k, hk, hki⟩ := hf i hin
      have hl := (h.live k (hk.trans_le h.nelems_le)).mp hk
      rw [hki] at hl
      exact iff_of_true hin hl
    · have hl := h.live i hi
      rwa [← hr.apply_of_le (not_lt.mp hin)] at hl
  · obtain ⟨k, hk, hki⟩ := hf i hi
    have hpos := h.interval_pos k hk
    rwa [hki] at hpos

theorem inv_cyclicConfigure : Inv cyclicConfigure := by
  have hm : ∀ i, ¬ i < cyclicConfigure.nelems := fun i => Nat.not_lt_zero i
  refine ⟨⟨by decide, by decide, ?_, fun i _ => ?_, fun i hi => absurd hi (hm i)⟩,
    fun i _ hi => absurd hi (hm i)⟩
  · have hz : ∀ i ∈ Set.Iio cyclicConfigure.size, i = 0 := fun i hi => Nat.lt_one_iff.mp hi
    refine ⟨fun i _ => Nat.one_pos, fun i hi j hj _ => ?_, fun i hi => ⟨i, hi, ?_⟩⟩
    · rw [hz i hi, hz j hj]
    · rw [hz i hi]
      rfl
  · exact iff_of_false (hm i) (not_not.mpr (free_cyfFree 0 0))

theorem Inv.cyclicExpand (h : Inv cpu) : Inv (cyclicExpand cpu) := by
  have hle := h.nelems_le
  have hpos := h.size_pos
  have hs : (CyclicHeap.cyclicExpand cpu).size = 2 * cpu.size := by
    rw [CyclicHeap.cyclicExpand, Nat.shiftLeft_eq, pow_one, Nat.mul_comm]
  have ho : ∀ i < cpu.size, (CyclicHeap.cyclicExpand cpu).heap i = cpu.heap i := fun i hi => if_pos hi
  have hn : ∀ i, ¬ i < cpu.size → (CyclicHeap.cyclicExpand cpu).heap i = i := fun i hi => if_neg hi
  have hc : ∀ i < cpu.size, (CyclicHeap.cyclicExpand cpu).cyclics (cpu.heap i) =
      cpu.cyclics (cpu.heap i) := fun i hi => if_pos (h.perm.mapsTo hi)
  refine ⟨⟨by omega, by rw [hs]; exact hle.trans (by omega), ?_, fun i hi => ?_, fun i hi => ?_⟩, fun i hi hin => ?_⟩
  · rw [hs]
    have hm : ∀ i < cpu.size, cpu.heap i < cpu.size := fun i hi => h.perm.mapsTo hi
    refine ⟨fun i hi => ?_, fun i hi j hj hij => ?_, fun k hk => ?_⟩
    · rw [Set.mem_Iio] at hi ⊢
      by_cases hio : i < cpu.size
      · have := hm i hio
        rw [ho i hio]
        omega
      · rwa [hn i hio]
    · by_cases hio : i < cpu.size <;> by_cases hjo : j < cpu.size
      · rw [ho i hio, ho j hjo] at hij
        exact h.perm.injOn hio hjo hij
      · have := hm i hio
        rw [ho i hio, hn j hjo] at hij
        omega
      · have := hm j hjo
        rw [hn i hio, ho j hjo] at hij
        omega
      · rwa [hn i hio, hn j hjo] at hij
    · by_cases hko : k < cpu.size
      · obtain ⟨i, hi, rfl⟩ := h.perm.surjOn hko
        have hi' : i < cpu.size := hi
        exact ⟨i, Set.mem_Iio.mpr (by omega), ho i hi⟩
      · exact ⟨k, hk, hn k hko⟩
  · by_cases hio : i < cpu.size
    · rw [ho i hio, hc i hio]
      exact h.live i hio
    · rw [hn i hio]
      refine iff_of_false (fun hin => hio (lt_of_lt_of_le hin hle)) (not_not.mpr ?_)
      have hz : (CyclicHeap.cyclicExpand cpu).cyclics i = ⟨0, 0, cyfFree⟩ := if_neg hio
      rw [hz]
      exact free_cyfFree 0 0
  · have hio : i < cpu.size := lt_of_lt_of_le hi hle
    rw [ho i hio, hc i hio]
    exact h.interval_pos i hi
  · have hio : i < cpu.size := lt_of_lt_of_le hin hle
    have hp : parent i < cpu.size := (parent_lt (by omega)).trans hio
    rw [key, key, ho i hio, ho _ hp, hc i hio, hc _ hp]
    exact h.ordered i hi hin

theorem Inv.cyclicAddXcall (h : Inv cpu) (hm : cpu.nelems < cpu.size)
    {cytWhen cytInterval : ℤ} (hpos : 0 < cytInterval) (now : ℤ) (flags : AddFlags) :
    Inv (cyclicAddXcall cpu cytWhen cytInterval now flags) := by
  unfold CyclicHeap.cyclicAddXcall
  dsimp only
  generalize (if cytWhen = 0 then _ else _) = expire
  generalize hc : update cpu.cyclics (cpu.heap cpu.nelems) _ = cyclics
  have hs : cyclics (cpu.heap cpu.nelems) = ⟨expire, cytInterval, flags.toBits⟩ := by
    rw [← hc, update_self]
  have ht : ∀ i < cpu.size, i ≠ cpu.nelems → cyclics (cpu.heap i) = cpu.cyclics (cpu.heap i) :=
    fun i hi hne => by
      rw [← hc, update_of_ne fun he => hne (h.perm.injOn hi hm he)]
  have hst : Stocked ⟨cpu.heap, cyclics, cpu.nelems + 1, cpu.size⟩ := by
    refine ⟨h.size_pos, hm, h.perm, fun i hi => ?_, fun i hi => ?_⟩
    · by_cases hie : i = cpu.nelems
      · subst hie
        dsimp only
        rw [hs]
        exact iff_of_true (Nat.lt_succ_self _) (not_free_toBits _ _ _)
      · have := h.live i hi
        dsimp only
        rw [ht i hi hie, ← this]
        omega
    · by_cases hie : i = cpu.nelems
      · subst hie
        dsimp only
        rwa [hs]
      · have hin : i < cpu.nelems := by
          simp only at hi
          omega
        dsimp only
        rw [ht i (by omega) hie]
        exact h.interval_pos i hin
  -- the new last position is a leaf, so only its parent can be out of order
  have hl : ∀ i, 0 < i → i < cpu.nelems + 1 → parent i ≠ cpu.nelems := fun i hi hin => by
    have := parent_lt (show i ≠ 0 by omega)
    omega
  have hk : ∀ i < cpu.nelems, key cyclics cpu.heap i = key cpu.cyclics cpu.heap i :=
    fun i hi => congrArg Cyclic.expire (ht i (by omega) (by omega))
  have hh : Hole (key cyclics cpu.heap) (cpu.nelems + 1) cpu.nelems := by
    refine ⟨fun i hi hin hne _ => ?_, fun i hi hin hp => absurd hp (hl i hi hin)⟩
    have hpi := parent_lt (show i ≠ 0 by omega)
    rw [hk i (by omega), hk _ (by omega)]
    exact h.ordered i hi (by omega)
  obtain ⟨ho, hr, -⟩ := cyclicUpheap_spec (Nat.lt_succ_self _) hh fun i hi hin hp => absurd hp (hl i hi hin)
  exact hst.rearrange hr ho

theorem Inv.cyclicAddHere (h : Inv cpu) {cytWhen cytInterval : ℤ}
    (hpos : 0 < cytInterval) (now : ℤ) (flags : AddFlags) : Inv (cyclicAddHere cpu cytWhen cytInterval now flags) := by
  unfold CyclicHeap.cyclicAddHere
  dsimp only
  split_ifs with hf
  · have hs : (CyclicHeap.cyclicExpand cpu).size = cpu.size <<< 1 := rfl
    have hn : (CyclicHeap.cyclicExpand cpu).nelems = cpu.nelems := rfl
    have := h.size_pos
    rw [Nat.shiftLeft_eq, pow_one] at hs
    exact h.cyclicExpand.cyclicAddXcall (by omega) hpos now flags
  · exact h.cyclicAddXcall (lt_of_le_of_ne h.nelems_le hf) hpos now flags

theorem Stocked.update (h : Stocked cpu) {k : ℕ} (hk : k < cpu.nelems) (hf : ¬ c.Free) (hpos : 0 < c.interval) :
    Stocked { cpu with cyclics := update cpu.cyclics (cpu.heap k) c } := by
  have ho : ∀ i < cpu.size, i ≠ k →
      Function.update cpu.cyclics (cpu.heap k) c (cpu.heap i) = cpu.cyclics (cpu.heap i) :=
    fun i hi hne => update_of_ne (fun he => hne (h.perm.injOn hi (hk.trans_le h.nelems_le) he)) _ _
  refine ⟨h.size_pos, h.nelems_le, h.perm, fun i hi => ?_, fun i hi => ?_⟩
  · by_cases hik : i = k
    · subst hik
      dsimp only
      rw [update_self]
      exact iff_of_true hk hf
    · dsimp only
      rw [ho i hi hik]
      exact h.live i hi
  · by_cases hik : i = k
    · subst hik
      dsimp only
      rwa [update_self]
    · dsimp only
      rw [ho i (hi.trans_le h.nelems_le) hik]
      exact h.interval_pos i hi

/-- Firing changes the expiration time of the root only and sifts it down. -/
theorem fireRound_spec (h : Inv cpu) (hf : fireRound now cpu = some cpu') :
    (cpu.cyclics (cpu.heap 0)).expire ≤ now ∧ cpu'.nelems = cpu.nelems ∧ cpu'.size = cpu.size ∧
    cpu'.cyclics = update cpu.cyclics (cpu.heap 0)
      { cpu.cyclics (cpu.heap 0) with expire := nextExpire now (cpu.cyclics (cpu.heap 0)) } ∧
    Rearranged cpu.nelems cpu.heap cpu'.heap ∧
    Ordered (key cpu'.cyclics cpu'.heap) cpu.nelems := by
  unfold fireRound at hf
  dsimp only at hf
  split_ifs at hf with hex
  cases hf
  generalize ({ cpu.cyclics (cpu.heap 0) with expire := nextExpire now _ } : Cyclic) = c
  have hh : Hole (key (update cpu.cyclics (cpu.heap 0) c) cpu.heap) cpu.nelems 0 :=
    h.ordered.hole fun i hi hne => congrArg Cyclic.expire (update_of_ne (fun he =>
      hne (h.perm.injOn (hi.trans_le h.nelems_le) h.size_pos he)) _ _)
  obtain ⟨ho, hr⟩ := cyclicDownheap_spec hh fun h0 => absurd h0 (lt_irrefl 0)
  exact ⟨not_lt.mp hex, rfl, rfl, rfl, hr, ho⟩

theorem Inv.fireRound (h : Inv cpu) (hn : 0 < cpu.nelems)
    (hf : fireRound now cpu = some cpu') : Inv cpu' ∧ cpu'.nelems = cpu.nelems := by
  obtain ⟨-, hl, hsz, hc, hr, ho⟩ := fireRound_spec h hf
  have hs := h.toStocked.update hn
    (c := { cpu.cyclics (cpu.heap 0) with expire := nextExpire now (cpu.cyclics (cpu.heap 0)) })
    ((h.live 0 h.size_pos).mp hn) (h.interval_pos 0 hn)
  rw [← hc] at hs
  have hin := hs.rearrange hr ho
  cases cpu'
  dsimp only at hl hsz
  subst hl hsz
  exact ⟨hin, rfl⟩

theorem Inv.cyclicFire (h : Inv cpu) (now : ℤ) (rounds : ℕ) : Inv (cyclicFire now rounds cpu) := by
  unfold CyclicHeap.cyclicFire
  split_ifs with h0
  · exact h
  · have hn : 0 < cpu.nelems := Nat.pos_of_ne_zero h0
    clear h0
    induction rounds generalizing cpu with
    | zero => exact h
    | succ rounds ih =>
      rw [fireLoop]
      cases hf : CyclicHeap.fireRound now cpu with
      | none => exact h
      | some cpu' =>
        obtain ⟨h', hn'⟩ := h.fireRound hn hf
        exact ih h' (hn' ▸ hn)

theorem findNdx_some {heap : ℕ → ℕ} {n i : ℕ} (h : findNdx heap ndx n = some i) : i < n ∧ heap i = ndx := by
  have h1 := List.mem_of_find?_eq_some h
  have h2 := List.find?_some h
  exact ⟨List.mem_range.mp h1, by simpa using h2⟩

/-- Removing a cyclic puts it at the head of the free list; the last element takes its place. -/
theorem Inv.cyclicRemoveXcall (h : Inv cpu) (hrm : cyclicRemoveXcall cpu ndx = some cpu') : Inv cpu' := by
  unfold CyclicHeap.cyclicRemoveXcall at hrm
  dsimp only at hrm
  generalize hc : update cpu.cyclics ndx _ = cyclics at hrm
  cases hf : findNdx cpu.heap ndx cpu.nelems with
  | none =>
    rw [hf] at hrm
    cases hrm
  | some i =>
    rw [hf] at hrm
    dsimp only at hrm
    obtain ⟨hin, rfl⟩ := findNdx_some hf
    have hl : (cyclics (cpu.heap i)).Free := by
      rw [← hc, update_self]
      exact free_cyfFree _ _
    have ht : ∀ k < cpu.size, k ≠ i → cyclics (cpu.heap k) = cpu.cyclics (cpu.heap k) :=
      fun k hk hne => by
        rw [← hc, update_of_ne fun he => hne (h.perm.injOn hk (hin.trans_le h.nelems_le) he)]
    -- exchanged with the last element, the removed cyclic heads the free list
    have hp : update (update cpu.heap i (cpu.heap (cpu.nelems - 1)))
        (cpu.nelems - 1) (cpu.heap i) = swapAt cpu.heap i (cpu.nelems - 1) := exchange_eq _ _ _
    rw [hp] at hrm
    obtain ⟨m, hm⟩ : ∃ m, cpu.nelems = m + 1 := ⟨cpu.nelems - 1, by omega⟩
    rw [hm, Nat.add_sub_cancel] at hrm
    have hsz : m < cpu.size := by
      have := h.nelems_le
      omega
    have hs : Stocked ⟨swapAt cpu.heap i m, cyclics, m, cpu.size⟩ := by
      refine ⟨h.size_pos, by simp only; omega, ?_, fun k hk => ?_, fun k hk => ?_⟩
      · exact (rearranged_swapAt cpu.heap hin (by omega)).bijOn h.nelems_le h.perm
      · dsimp only at hk ⊢
        by_cases hkm : k = m
        · rw [hkm, swapAt_right]
          exact iff_of_false (lt_irrefl m) (not_not.mpr hl)
        · by_cases hki : k = i
          · rw [hki, swapAt_left, ht m hsz (by omega)]
            exact iff_of_true (by omega) ((h.live m hsz).mp (by omega))
          · rw [swapAt_of_ne _ hki hkm, ht k hk hki, ← h.live k hk]
            omega
      · dsimp only at hk ⊢
        by_cases hki : k = i
        · rw [hki, swapAt_left, ht m hsz (by omega)]
          exact h.interval_pos m (by omega)
        · rw [swapAt_of_ne _ hki (by omega), ht k (by omega) hki]
          exact h.interval_pos k (by omega)
    have hky : ∀ k < m, k ≠ i → key cyclics (swapAt cpu.heap i m) k = key cpu.cyclics cpu.heap k :=
      fun k hk hne => by
        rw [key, swapAt_of_ne _ hne (by omega), ht k (by omega) hne, key]
    have hor : Ordered (key cpu.cyclics cpu.heap) m := fun k hk hkm => h.ordered k hk (by omega)
    have hh : Hole (key cyclics (swapAt cpu.heap i m)) m i := hor.hole hky
    split_ifs at hrm with h1 h2 h3
    · cases hrm
      subst h1
      rw [swapAt_self] at hs hky
      refine ⟨hs, fun k hk hkm => ?_⟩
      have hpk := parent_lt (show k ≠ 0 by omega)
      dsimp only at hkm ⊢
      rw [hky k hkm (by omega), hky _ (by omega) (by omega)]
      exact hor k hk hkm
    · cases hrm
      subst h2
      obtain ⟨ho, hr⟩ := cyclicDownheap_spec hh fun h0 => absurd h0 (lt_irrefl 0)
      exact hs.rearrange hr ho
    all_goals
      have hi0 : 0 < i := by omega
      have hpi := parent_lt h2
      by_cases hlt : key cyclics (swapAt cpu.heap i m) i < key cyclics (swapAt cpu.heap i m) (parent i)
    · -- the sift went up, so the element at `i` is no longer the last one
      have hu := cyclicUpheap_self_of_lt hi0 (by omega) hh hlt
      rw [swapAt_of_ne _ (by omega) (by omega)] at hu
      have := h.perm.injOn (show parent i ∈ Set.Iio _ by rw [Set.mem_Iio]; omega) hsz (hu.symm.trans h3.2)
      omega
    · cases hrm
      have ha : FitsAbove (key cyclics (swapAt cpu.heap i m)) i := fun _ => not_lt.mp hlt
      rw [cyclicUpheap_of_fitsAbove hi0 ha]
      obtain ⟨ho, hr⟩ := cyclicDownheap_spec hh ha
      exact hs.rearrange hr ho
    · cases hrm
      obtain ⟨ho, hr, -⟩ := cyclicUpheap_spec (by omega) hh (hh.fitsBelow_of_lt hi0 hlt)
      exact hs.rearrange hr ho
    · rw [cyclicUpheap_of_fitsAbove hi0 fun _ => not_lt.mp hlt] at h3
      exact absurd ⟨rfl, swapAt_left _ _ _⟩ h3

theorem cyclicRemoveXcall_isSome (h : Inv cpu) (hlt : ndx < cpu.size)
    (hl : ¬ (cpu.cyclics ndx).Free) : (cyclicRemoveXcall cpu ndx).isSome := by
  obtain ⟨i, hi, rfl⟩ := h.perm.surjOn hlt
  have hin : i < cpu.nelems := (h.live i hi).mpr hl
  have hf : (findNdx cpu.heap (cpu.heap i) cpu.nelems).isSome := by
    rw [findNdx, List.find?_isSome]
    exact ⟨i, List.mem_range.mpr hin, by simp⟩
  obtain ⟨k, hk⟩ := Option.isSome_iff_exists.mp hf
  unfold cyclicRemoveXcall
  rw [hk]
  dsimp only
  split_ifs <;> rfl

/-! ### Firing ends -/

/-- How far the live cyclics are behind `now`. -/
def lag (now : ℤ) (cpu : CycCpu) : ℕ :=
  ∑ i ∈ Finset.range cpu.nelems, (now + 1 - key cpu.cyclics cpu.heap i).toNat

theorem lt_nextExpire (now : ℤ) (h : 0 < c.interval) : c.expire < nextExpire now c := by
  unfold nextExpire
  dsimp only
  split_ifs with hl
  · have hd : 0 ≤ (now - (c.expire + c.interval)).tdiv c.interval :=
      Int.tdiv_nonneg (le_trans (by decide) hl.le) h.le
    nlinarith
  · omega

theorem lag_fireRound (h : Inv cpu) (hn : 0 < cpu.nelems)
    (hf : fireRound now cpu = some cpu') : lag now cpu' < lag now cpu := by
  obtain ⟨hex, hl, -, hc, hr, -⟩ := fireRound_spec h hf
  have hlt := lt_nextExpire now (h.interval_pos 0 hn)
  have ht : (cpu'.cyclics (cpu.heap 0)).expire = nextExpire now (cpu.cyclics (cpu.heap 0)) := by
    rw [hc, update_self]
  have ho : ∀ i < cpu.nelems, i ≠ 0 → cpu'.cyclics (cpu.heap i) = cpu.cyclics (cpu.heap i) :=
    fun i hi hne => by
      rw [hc, update_of_ne fun he =>
        hne (h.perm.injOn (hi.trans_le h.nelems_le) h.size_pos he)]
  have hsum := hr.sum_range fun ndx => (now + 1 - (cpu'.cyclics ndx).expire).toNat
  calc lag now cpu' = ∑ i ∈ Finset.range cpu.nelems,
        (now + 1 - (cpu'.cyclics (cpu.heap i)).expire).toNat := by rw [lag, hl]; exact hsum
    _ < lag now cpu := by
      refine Finset.sum_lt_sum (fun i hi => ?_) ⟨0, Finset.mem_range.mpr hn, ?_⟩
      · by_cases h0 : i = 0
        · subst h0
          rw [key]
          omega
        · rw [ho i (Finset.mem_range.mp hi) h0]
          exact le_rfl
      · rw [key]
        omega

theorem fireLoop_ends (now : ℤ) (h : Inv cpu) (hn : 0 < cpu.nelems) :
    ∃ rounds, fireRound now (fireLoop now rounds cpu) = none := by
  induction hl : lag now cpu using Nat.strong_induction_on generalizing cpu with
  | _ k ih =>
    cases hf : fireRound now cpu with
    | none => exact ⟨0, hf⟩
    | some cpu' =>
      obtain ⟨h', hn'⟩ := h.fireRound hn hf
      obtain ⟨rounds, hr⟩ := ih _ (hl ▸ lag_fireRound h hn hf) h' (hn' ▸ hn) rfl
      refine ⟨rounds + 1, ?_⟩
      rwa [fireLoop, hf]

/-! ### Runs -/

/-- One operation on the CPU. Adding is asked for with a positive interval, and only a live cyclic
is removed. -/
inductive Step (cpu : CycCpu) : CycCpu → Prop
  | add (cytWhen cytInterval now : ℤ) (flags : AddFlags) : 0 ≤ cytWhen → 0 < cytInterval →
      Step cpu (cyclicAddHere cpu cytWhen cytInterval now flags)
  | remove (ndx : ℕ) (cpu' : CycCpu) : cyclicRemoveXcall cpu ndx = some cpu' → Step cpu cpu'
  | fire (now : ℤ) (rounds : ℕ) : Step cpu (cyclicFire now rounds cpu)

theorem Inv.step (h : Inv cpu) (hs : Step cpu cpu') : Inv cpu' := by
  cases hs with
  | add cytWhen cytInterval now flags _ hpos => exact h.cyclicAddHere hpos now flags
  | remove ndx _ hr => exact h.cyclicRemoveXcall hr
  | fire now rounds => exact h.cyclicFire now rounds

/-- The heap and the free list are in order in every state that the operations reach. -/
theorem heapOk_of_reachable (cpu : CycCpu) (h : Reachable (· = cyclicConfigure) Step cpu) : HeapOk cpu := by
  have hin : Inv cpu := by
    refine h.invariant (fun cpu h0 => ?_) fun _ _ hi hs => hi.step hs
    rw [h0]
    exact inv_cyclicConfigure
  exact hin.heapOk

def twoAdded : CycCpu :=
  cyclicAddHere (cyclicAddHere cyclicConfigure 500 10 0 .none) 300 10 0 .cpuBound

theorem inv_twoAdded : Inv twoAdded :=
  (inv_cyclicConfigure.cyclicAddHere (by decide) 0 .none).cyclicAddHere (by decide) 0 .cpuBound

theorem isSome_twoAdded : (cyclicRemoveXcall twoAdded 0).isSome :=
  cyclicRemoveXcall_isSome inv_twoAdded (by decide) (by decide)

theorem heapOk_of_reachable_twoAdded : twoAdded.nelems = 2 ∧ twoAdded.size = 2 ∧ HeapOk twoAdded := by
  refine ⟨rfl, rfl, heapOk_of_reachable twoAdded ?_⟩
  have h0 : Reachable (· = cyclicConfigure) Step cyclicConfigure := .start rfl
  exact (h0.next (.add 500 10 0 .none (by decide) (by decide))).next (.add 300 10 0 .cpuBound (by decide) (by decide))

end Sol8.Os.CyclicHeap
