import Sol8.Os.Fio

/-! Every node of the tree of descriptors counts the busy descriptors of its right subtree, so that `fd_find` and
`ufalloc` return the smallest descriptor that is free. -/

namespace Sol8.Os.Fio

open Function Sol8.Lib Sol8.Lib.InfixTree Nat

variable {F : Type} {t t' c : UfInfo F} {fd i j k n minfd size : ℕ} {ralloc incr : ℤ}

namespace UfInfo

variable {start : ℕ}

/-- Whether a descriptor is busy, as a number. -/
def busy (t : UfInfo F) (i : ℕ) : ℤ := (t.list i).busy

/-- The table is a full tree, and each node counts the busy descriptors of its right subtree with itself. -/
structure Wf (t : UfInfo F) : Prop where
  full : ∃ n, t.nfiles + 1 = 2 ^ n
  busy : ∀ i < t.nfiles, t.busy i = 0 ∨ t.busy i = 1
  alloc : ∀ i < t.nfiles, (t.list i).alloc = count t.busy i (csize i)

theorem Wf.subtree_le (h : t.Wf) (hi : i < t.nfiles) : i + csize i ≤ t.nfiles := by
  obtain ⟨n, hn⟩ := h.full
  have := add_csize_lt (show i + 1 < 2 ^ n by omega)
  omega

/-- A node whose count is its size has a full right subtree. -/
theorem Wf.alloc_eq_iff (h : t.Wf) (hi : i < t.nfiles) :
    (t.list i).alloc = csize i ↔ ∀ j, i ≤ j → j < i + csize i → t.busy j = 1 := by
  have hle := h.subtree_le hi
  rw [h.alloc i hi]
  exact count_eq_iff fun j _ hj => h.busy j (by omega)

/-! ### Finding -/

def Least (t : UfInfo F) (minfd fd : ℕ) : Prop :=
  minfd ≤ fd ∧ fd < t.nfiles ∧ t.busy fd = 0 ∧ ∀ j, minfd ≤ j → j < fd → t.busy j = 1

/-- The descent keeps to a left part of the subtree that is not full, knowing how much of the rest is busy. -/
theorem Wf.descend_spec (h : t.Wf) (hmin : minfd ≤ fd) (hd : fd < t.nfiles) (hs : 2 ^ k ≤ csize fd)
    (hb : ∀ j, minfd ≤ j → j < fd → t.busy j = 1) (hr : (t.list fd).alloc = count t.busy fd (2 ^ k) + ralloc)
    (hf : count t.busy fd (2 ^ k) ≠ (2 ^ k : ℕ)) (hn : k ≤ n) :
    t.Least minfd (t.descend n fd (2 ^ k >>> 1) ralloc) := by
  induction k generalizing fd ralloc n with
  | zero =>
    have ht : t.descend n fd (2 ^ 0 >>> 1) ralloc = fd := by
      cases n with
      | zero => rfl
      | succ n => exact if_neg (not_not_intro rfl)
    have ho : InfixTree.count t.busy fd (2 ^ 0) = t.busy fd := by simp [InfixTree.count]
    rw [ho] at hf
    rw [ht]
    exact ⟨hmin, hd, (h.busy fd hd).resolve_right hf, hb⟩
  | succ k ih =>
    obtain ⟨n, rfl⟩ : ∃ n', n = n' + 1 := ⟨n - 1, by omega⟩
    have hh : 2 ^ (k + 1) >>> 1 = 2 ^ k := by rw [Nat.shiftRight_eq_div_pow, Nat.pow_succ, Nat.mul_div_cancel _ (by decide)]
    have hpow : (2 : ℕ) ^ (k + 1) = 2 ^ k + 2 ^ k := by rw [pow_succ, mul_two]
    have hpos := Nat.two_pow_pos k
    have hle := h.subtree_le hd
    have hc := csize_add hs
    have ha := h.alloc (fd + 2 ^ k) (by omega)
    rw [hc] at ha
    rw [hpow, InfixTree.count_add] at hr hf
    have hbs : ∀ j, fd ≤ j → j < fd + 2 ^ k → t.busy j = 0 ∨ t.busy j = 1 := fun j _ hj => h.busy j (by omega)
    rw [hh, descend, if_pos (ne_of_gt hpos)]
    by_cases hl : count t.busy fd (2 ^ k) = (2 ^ k : ℕ)
    · -- the left part is full
      rw [if_pos (by omega)]
      refine ih (by omega) (by omega) (le_of_eq hc.symm) ?_ (by omega) (by omega) (by omega)
      intro j h₁ h2
      by_cases hj : j < fd
      · exact hb j h₁ hj
      · exact (count_eq_iff hbs).mp hl j (by omega) h2
    · rw [if_neg (by omega)]
      exact ih hmin hd (by omega) hb (by omega) hl (by omega)

theorem Wf.ascend_spec (h : t.Wf) (hmin : minfd ≤ fd) (hb : ∀ j, minfd ≤ j → j < fd → t.busy j = 1)
    (hn : t.nfiles < fd + n) : (∃ r, t.ascend n fd = some r ∧ t.Least minfd r) ∨
      (t.ascend n fd = none ∧ ∀ j, minfd ≤ j → j < t.nfiles → t.busy j = 1) := by
  induction n generalizing fd with
  | zero => exact .inr ⟨rfl, fun j h₁ h2 => hb j h₁ (by omega)⟩
  | succ n ih =>
    rw [ascend]
    by_cases hd : fd < t.nfiles
    · rw [if_pos hd, ← csize]
      by_cases hf : (t.list fd).alloc = csize fd
      · rw [if_pos hf, or_succ]
        have hpos := csize_pos fd
        refine ih (by omega) (fun j h₁ h2 => ?_) (by omega)
        by_cases hj : j < fd
        · exact hb j h₁ hj
        · exact (h.alloc_eq_iff hd).mp hf j (by omega) h2
      · rw [if_neg hf]
        obtain ⟨k, hk, -⟩ := exists_csize fd
        have hl : k ≤ 2 ^ k >>> 1 := by
          rw [shiftRight_eq_div_pow]
          cases k with
          | zero => exact zero_le _
          | succ k =>
            rw [Nat.pow_succ, Nat.mul_div_cancel _ (by decide)]
            exact Nat.lt_two_pow_self
        refine .inl ⟨_, rfl, ?_⟩
        rw [hk] at hf ⊢
        have ha := h.alloc fd hd
        rw [hk] at ha
        exact h.descend_spec hmin hd (le_of_eq hk.symm) hb (by omega) (ha ▸ hf) hl
    · rw [if_neg hd]
      exact .inr ⟨rfl, fun j h₁ h2 => hb j h₁ (by omega)⟩

theorem Wf.fdFind_spec (h : t.Wf) (minfd : ℕ) : (∃ r, t.fdFind minfd = some r ∧ t.Least minfd r) ∨
    (t.fdFind minfd = none ∧ ∀ j, minfd ≤ j → j < t.nfiles → t.busy j = 1) :=
  h.ascend_spec (le_refl minfd) (fun j h₁ h2 => absurd h₁ (by omega)) (by omega)

/-! ### Reserving -/

/-- The loop adds to the counts of the nodes that have the descriptor in their right subtrees. -/
theorem reserveLoop_spec {list : ℕ → UfEntry F} (hn : fd < n) : reserveLoop incr n fd list =
    fun j => { list j with alloc := (list j).alloc + if Covers j fd then incr else 0 } := by
  induction n generalizing fd list with
  | zero => omega
  | succ n ih =>
    have hand := and_succ fd
    have hpos := csize_pos fd
    have hs := covers_self fd
    rw [reserveLoop]
    split
    case h_1 h0 =>
      funext j
      by_cases hj : j = fd
      · rw [hj, update_self, if_pos hs]
      · have ho : ¬ Covers j fd := fun hc => by
          obtain rfl | ⟨p, hp, -⟩ := covers_iff.mp hc
          · exact hj rfl
          · omega
        rw [update_of_ne hj, if_neg ho, Int.add_zero]
    case h_2 p hp =>
      rw [ih (by omega)]
      funext j
      have hc : Covers j fd ↔ j = fd ∨ Covers j p := by
        rw [covers_iff]
        refine or_congr_right ⟨?_, fun h => ⟨p, hp, h⟩⟩
        rintro ⟨q, hq, h⟩
        rwa [show p = q by omega]
      by_cases hj : j = fd
      · have ho : ¬ Covers fd p := fun h => by
          have := h.1
          omega
        rw [hj, update_self, if_neg ho, if_pos hs, Int.add_zero]
      · simp only [update_of_ne hj, hc, hj, false_or]

theorem fdReserve_list : (t.fdReserve fd incr).list = fun j =>
    { t.list j with
      alloc := (t.list j).alloc + if Covers j fd then incr else 0
      busy := (t.list j).busy + if j = fd then incr else 0 } := by
  rw [fdReserve, reserveLoop_spec (lt_succ_self fd)]
  funext j
  by_cases hj : j = fd
  · subst hj
    simp
  · simp [hj]

theorem fdReserve_busy : (t.fdReserve fd incr).busy = update t.busy fd (t.busy fd + incr) := by
  funext j
  rw [busy, fdReserve_list]
  by_cases hj : j = fd
  all_goals simp [hj, busy]

theorem Wf.fdReserve (h : t.Wf) (hb : t.busy fd + incr = 0 ∨ t.busy fd + incr = 1) : (t.fdReserve fd incr).Wf where
  full := h.full
  busy i hi := by
    rw [fdReserve_busy]
    by_cases hj : i = fd
    · rw [hj, update_self]
      exact hb
    · rw [update_of_ne hj]
      exact h.busy i hi
  alloc i hi := by
    rw [fdReserve_busy, count_update, ← h.alloc i hi, fdReserve_list]
    rfl

theorem Wf.congr (h : t.Wf) (hn : t'.nfiles = t.nfiles) (ha : ∀ i, (t'.list i).alloc = (t.list i).alloc)
    (hs : ∀ i, (t'.list i).busy = (t.list i).busy) : t'.Wf := by
  have hb : t'.busy = t.busy := funext hs
  refine ⟨hn ▸ h.full, fun i hi => ?_, fun i hi => ?_⟩
  · rw [hb]
    exact h.busy i (hn ▸ hi)
  · rw [hb, ha]
    exact h.alloc i (hn ▸ hi)

/-! ### Growing -/

theorem shiftLeft_or_one (n : ℕ) : n <<< 1 ||| 1 = 2 * n + 1 := by
  have h : n <<< 1 ||| 1 = Nat.bit false n ||| Nat.bit true 0 := by simp [shiftLeft_eq, bit_val, mul_comm]
  rw [h, lor_bit, or_zero]
  rfl

theorem newcnt_spec (maxfd : ℕ) {cnt : ℕ} (hc : ∃ k, cnt + 1 = 2 ^ k) (hn : maxfd < cnt + n) :
    maxfd < newcnt maxfd n cnt ∧ ∃ k, newcnt maxfd n cnt + 1 = 2 ^ k := by
  induction n generalizing cnt with
  | zero => exact ⟨hn, hc⟩
  | succ n ih =>
    rw [newcnt, shiftLeft_or_one]
    split_ifs with hle
    · obtain ⟨k, hk⟩ := hc
      refine ih ⟨k + 1, ?_⟩ (by omega)
      omega
    · exact ⟨by omega, hc⟩

theorem Wf.flistGrow_spec (h : t.Wf) (maxfd : ℕ) : (t.flistGrow maxfd).Wf ∧ maxfd < (t.flistGrow maxfd).nfiles ∧
    t.nfiles ≤ (t.flistGrow maxfd).nfiles ∧ ∀ i < (t.flistGrow maxfd).nfiles,
      (t.flistGrow maxfd).list i = if i < t.nfiles then t.list i else .zero := by
  obtain ⟨hlt, hf⟩ := newcnt_spec maxfd (n := maxfd + 1) ⟨1, rfl⟩ (by omega)
  rw [flistGrow]
  generalize newcnt maxfd (maxfd + 1) 1 = cnt at hlt hf
  by_cases hle : cnt ≤ t.nfiles
  · rw [if_pos hle]
    exact ⟨h, by omega, le_refl _, fun i hi => (if_pos hi).symm⟩
  rw [if_neg hle]
  refine ⟨⟨hf, fun i hi => ?_, fun i hi => ?_⟩, hlt, by dsimp only; omega, fun i hi => rfl⟩
  · by_cases ho : i < t.nfiles
    · simpa only [UfInfo.busy, if_pos ho] using h.busy i ho
    · simp only [UfInfo.busy, if_neg ho]
      exact .inl rfl
  · by_cases ho : i < t.nfiles
    · -- an old subtree lies within the old table
      have hsub := h.subtree_le ho
      dsimp only
      rw [if_pos ho, h.alloc i ho]
      refine count_congr fun j h₁ h2 => ?_
      simp only [UfInfo.busy, if_pos (show j < t.nfiles by omega)]
    · dsimp only
      rw [if_neg ho]
      refine (Finset.sum_eq_zero fun j hj => ?_).symm
      have := (Finset.mem_Ico.mp hj).1
      simp only [UfInfo.busy, if_neg (show ¬ j < t.nfiles by omega)]
      rfl

/-! ### Forking -/

/-- A descriptor of the child is busy if it has a file. -/
def kept (t : UfInfo F) (i : ℕ) : ℤ := if (t.list i).file = none then 0 else t.busy i

/-- The marks that the counts of the child reflect when the descriptors below `fd` have been copied. -/
def mixed (t : UfInfo F) (fd i : ℕ) : ℤ := if i < fd then t.kept i else t.busy i

structure Copied (t : UfInfo F) (fd : ℕ) (c : UfInfo F) : Prop where
  nfiles : c.nfiles = t.nfiles
  file : ∀ i < fd, (c.list i).file = (t.list i).file
  busy : ∀ i < fd, c.busy i = t.kept i
  alloc : ∀ i < fd, (c.list i).alloc = count (t.mixed fd) i (csize i)

theorem Copied.next (hc : t.Copied fd c) (h : t.Wf) (hd : fd < t.nfiles) :
    let c' : UfInfo F := { c with list := update c.list fd (t.list fd) }
    ((t.list fd).file = none ∧ (t.list fd).busy ≠ 0 → t.Copied (fd + 1) (c'.fdReserve fd (-1))) ∧
    (¬ ((t.list fd).file = none ∧ (t.list fd).busy ≠ 0) → t.Copied (fd + 1) c') := by
  intro c'
  have hs : c'.list fd = t.list fd := update_self ..
  have ho (i : ℕ) (hi : i ≠ fd) : c'.list i = c.list i := update_of_ne hi ..
  have ha (i : ℕ) (hi : i < fd + 1) : (c'.list i).alloc = count (t.mixed fd) i (csize i) := by
    by_cases he : i = fd
    · rw [he, hs, h.alloc fd hd]
      exact count_congr fun j hj _ => (if_neg (by omega)).symm
    · rw [ho i he, hc.alloc i (by omega)]
  have hf (i : ℕ) (hi : i < fd + 1) : (c'.list i).file = (t.list i).file := by
    by_cases he : i = fd
    · rw [he, hs]
    · rw [ho i he, hc.file i (by omega)]
  have hmx (i : ℕ) (hi : i ≠ fd) : t.mixed (fd + 1) i = t.mixed fd i := by
    simp only [mixed, show i < fd + 1 ↔ i < fd by omega]
  have hm : t.mixed fd fd = t.busy fd := if_neg (by omega)
  have hm' : t.mixed (fd + 1) fd = t.kept fd := if_pos (by omega)
  constructor
  · rintro ⟨hn, hbs⟩
    have hon : t.busy fd = 1 := (h.busy fd hd).resolve_left hbs
    have hk : t.kept fd = 0 := if_pos hn
    have hw : t.mixed (fd + 1) = update (t.mixed fd) fd (t.mixed fd fd + -1) := by
      funext i
      by_cases he : i = fd
      · rw [he, update_self, hm, hm', hon, hk]
        rfl
      · rw [update_of_ne he, hmx i he]
    refine ⟨hc.nfiles, fun i hi => ?_, fun i hi => ?_, fun i hi => ?_⟩
    · rw [fdReserve_list]
      exact hf i hi
    · rw [fdReserve_busy]
      by_cases he : i = fd
      · rw [he, update_self, UfInfo.busy, hs, hk]
        exact congrArg (· + -1) hon
      · rw [update_of_ne he, UfInfo.busy, ho i he]
        exact hc.busy i (by omega)
    · rw [fdReserve_list, hw, count_update]
      dsimp only
      rw [ha i hi]
      rfl
  · intro hno
    have hk : t.kept fd = t.busy fd := by
      unfold kept
      split
      case isTrue hn => exact (not_not.mp fun hb => hno ⟨hn, Ne.symm hb⟩)
      case isFalse => rfl
    have hw : t.mixed (fd + 1) = t.mixed fd := by
      funext i
      by_cases he : i = fd
      · rw [he, hm, hm', hk]
      · exact hmx i he
    refine ⟨hc.nfiles, hf, fun i hi => ?_, fun i hi => ?_⟩
    · by_cases he : i = fd
      · rw [he, UfInfo.busy, hs, hk]
        rfl
      · rw [UfInfo.busy, ho i he]
        exact hc.busy i (by omega)
    · rw [hw]
      exact ha i hi

theorem Copied.forkLoop (hc : t.Copied fd c) (h : t.Wf) (hn : fd + n = t.nfiles) :
    t.Copied t.nfiles (t.forkLoop n fd c) := by
  induction n generalizing fd c with
  | zero =>
    rw [← hn]
    exact hc
  | succ n ih =>
    obtain ⟨hf, hk⟩ := hc.next h (by omega)
    rw [UfInfo.forkLoop]
    split
    case isTrue hnn => exact ih (hf hnn) (by omega)
    case isFalse hs => exact ih (hk hs) (by omega)

/-- The table of the child has the files of the parent; descriptors without one are free. -/
theorem Wf.flistFork_spec (h : t.Wf) : t.flistFork.Wf ∧ t.flistFork.nfiles = t.nfiles ∧
    (∀ i < t.nfiles, (t.flistFork.list i).file = (t.list i).file) ∧ ∀ i < t.nfiles, t.flistFork.busy i = t.kept i := by
  have hc : t.Copied t.nfiles t.flistFork := by
    have hz : t.Copied 0 ⟨t.nfiles, fun _ => .zero⟩ := by
      refine ⟨rfl, ?_, ?_, ?_⟩
      all_goals exact fun i hi => absurd hi (not_lt_zero i)
    exact hz.forkLoop h (zero_add _)
  refine ⟨⟨hc.nfiles ▸ h.full, fun i hi => ?_, fun i hi => ?_⟩, hc.nfiles, hc.file, hc.busy⟩
  · rw [hc.nfiles] at hi
    rw [hc.busy i hi, kept]
    split
    · exact .inl rfl
    · exact h.busy i hi
  · rw [hc.nfiles] at hi
    have hsub := h.subtree_le hi
    rw [hc.alloc i hi]
    refine count_congr fun j _ hj => ?_
    rw [hc.busy j (by omega)]
    exact if_pos (by omega)

/-! ### Allocating -/

def Busy (t : UfInfo F) (i : ℕ) : Prop := i < t.nfiles ∧ t.busy i = 1

def Allocated (t : UfInfo F) (filelimit start : ℕ) (t' : UfInfo F) : Option ℕ → Prop
  | some fd => start ≤ fd ∧ fd < filelimit ∧ ¬ t.Busy fd ∧ (∀ j, start ≤ j → j < fd → t.Busy j) ∧
    ∀ j, t'.Busy j ↔ t.Busy j ∨ j = fd
  | none => (∀ j, start ≤ j → j < filelimit → t.Busy j) ∧ ∀ j, t'.Busy j ↔ t.Busy j

theorem Allocated.congr {filelimit : ℕ} {t1 : UfInfo F} {r : Option ℕ} (h : t1.Allocated filelimit start t' r)
    (hb : ∀ j, t1.Busy j ↔ t.Busy j) : t.Allocated filelimit start t' r := by
  cases r with
  | none => simpa only [Allocated, hb] using h
  | some fd => simpa only [Allocated, hb] using h

theorem Least.not_busy (h : t.Least start fd) : ¬ t.Busy fd := fun hb => by
  have := hb.2
  rw [h.2.2.1] at this
  exact absurd this (by decide)

section

variable (h : t.Wf)
include h

theorem Wf.found (filelimit : ℕ) (hl : t.Least start fd) :
    let r := if fd < filelimit then (t.fdReserve fd 1, some fd) else (t, none)
    r.1.Wf ∧ t.Allocated filelimit start r.1 r.2 := by
  obtain ⟨hle, hlt, hf, hb⟩ := id hl
  intro r
  by_cases hm : fd < filelimit
  · have hr : r = (t.fdReserve fd 1, some fd) := if_pos hm
    rw [hr]
    refine ⟨h.fdReserve (.inr (by rw [hf]; rfl)), hle, hm, hl.not_busy, fun j h₁ h2 => ⟨by omega, hb j h₁ h2⟩,
      fun j => ?_⟩
    rw [Busy, fdReserve_busy]
    by_cases hj : j = fd
    · rw [hj, update_self, hf]
      exact ⟨fun _ => .inr rfl, fun _ => ⟨hlt, rfl⟩⟩
    · rw [update_of_ne hj]
      exact ⟨.inl, fun h => h.resolve_right hj⟩
  · have hr : r = (t, none) := if_neg hm
    rw [hr]
    exact ⟨h, fun j h₁ h2 => ⟨by omega, hb j h₁ (by omega)⟩, fun j => Iff.rfl⟩

theorem Wf.flistGrow_busy (maxfd : ℕ) (j : ℕ) : (t.flistGrow maxfd).Busy j ↔ t.Busy j := by
  obtain ⟨-, -, hle, hl⟩ := h.flistGrow_spec maxfd
  constructor
  · rintro ⟨hj, hb⟩
    rw [UfInfo.busy, hl j hj] at hb
    split at hb
    case isTrue ho => exact ⟨ho, hb⟩
    case isFalse => exact absurd hb (by simp [UfEntry.zero])
  · rintro ⟨hj, hb⟩
    refine ⟨by omega, ?_⟩
    rw [UfInfo.busy, hl j (by omega), if_pos hj]
    exact hb

/-- `ufalloc` returns the smallest free descriptor from `start` on below the limit, if there is one. -/
theorem Wf.ufalloc_spec (filelimit start : ℕ) :
    ∃ t' r, t.ufalloc filelimit start = some (t', r) ∧ t'.Wf ∧ t.Allocated filelimit start t' r := by
  rw [ufalloc, ufallocLoop]
  rcases h.fdFind_spec start with ⟨fd, hf, hl⟩ | ⟨hf, hal⟩
  · rw [hf]
    dsimp only
    rw [← apply_ite some]
    exact ⟨_, _, rfl, h.found filelimit hl⟩
  · -- the table is full from `start` on
    rw [hf, ufallocLoop]
    obtain ⟨h', hlt, hle, hls⟩ := h.flistGrow_spec (max start t.nfiles)
    have hs := h.flistGrow_busy (max start t.nfiles)
    rcases h'.fdFind_spec start with ⟨fd, hf', hl⟩ | ⟨-, ha'⟩
    · rw [hf']
      dsimp only
      rw [← apply_ite some]
      obtain ⟨hw, ha⟩ := h'.found filelimit hl
      exact ⟨_, _, rfl, hw, ha.congr hs⟩
    · have hn := ha' (max start t.nfiles) (by omega) hlt
      have hb := ((hs _).mp ⟨hlt, hn⟩).1
      omega

/-! ### Runs -/

theorem Wf.setEntry {e : UfEntry F} (ha : e.alloc = (t.list fd).alloc)
    (hb : e.busy = (t.list fd).busy) : Wf { t with list := update t.list fd e } := by
  have hl (i : ℕ) : update t.list fd e i = if i = fd then e else t.list i := update_apply ..
  refine h.congr rfl (fun i => ?_) (fun i => ?_)
  all_goals
    by_cases hi : i = fd
    · subst hi
      simp only [hl, if_true, ha, hb]
    · simp only [hl, if_neg hi]

theorem Wf.setf (hb : t.busy fd = 1) (fp : Option F) : (t.setf fd fp).Wf := by
  unfold UfInfo.setf
  split
  · exact (h.fdReserve (.inl (by rw [hb]; rfl))).setEntry rfl rfl
  · exact h.setEntry rfl rfl

theorem Wf.closeandsetf (fd : ℕ) (newfp : Option F) : (t.closeandsetf fd newfp).1.Wf := by
  unfold UfInfo.closeandsetf
  split
  · exact h
  case isFalse hin =>
    have h' : (if t.nfiles ≤ fd then t.flistGrow fd else t).Wf ∧
        fd < (if t.nfiles ≤ fd then t.flistGrow fd else t).nfiles := by
      obtain ⟨hw, hlt, -⟩ := h.flistGrow_spec fd
      split
      · exact ⟨hw, hlt⟩
      · exact ⟨h, by omega⟩
    generalize (if t.nfiles ≤ fd then t.flistGrow fd else t) = t' at h'
    obtain ⟨hw, hlt⟩ := h'
    dsimp only
    split
    · exact hw.setEntry rfl rfl
    · exact hw
    · split
      · exact hw
      case isFalse hf =>
        have h0 : t'.busy fd = 0 := not_not.mp hf
        exact (hw.fdReserve (.inr (by rw [h0]; rfl))).setEntry rfl rfl

end

end UfInfo

inductive Event (F : Type)
  | ufalloc (filelimit start : ℕ)
  | setf (fd : ℕ) (fp : Option F)
  /-- `closeandsetf` up to `closef`; the `setf` at its end is an event of its own -/
  | closeandsetf (fd : ℕ) (newfp : Option F)
  | flistGrow (maxfd : ℕ)
  /-- the run goes on with the table of the child -/
  | flistFork
deriving DecidableEq, Repr

/-- `setf` is called for a busy descriptor. -/
def Event.Allowed (t : UfInfo F) : Event F → Prop
  | setf fd _ => fd < t.nfiles ∧ t.busy fd = 1
  | _ => True

def Event.exec (t : UfInfo F) : Event F → Option (UfInfo F)
  | ufalloc filelimit start => (t.ufalloc filelimit start).map Prod.fst
  | setf fd fp => some (t.setf fd fp)
  | closeandsetf fd newfp => some (t.closeandsetf fd newfp).1
  | flistGrow maxfd => some (t.flistGrow maxfd)
  | flistFork => some t.flistFork

def Step (t t' : UfInfo F) : Prop := ∃ e : Event F, e.Allowed t ∧ e.exec t = some t'

theorem Step.wf (h : t.Wf) (hs : Step t t') : t'.Wf := by
  obtain ⟨e, ha, he⟩ := hs
  cases e with
  | ufalloc filelimit start =>
    obtain ⟨t1, r, heq, hw, -⟩ := h.ufalloc_spec filelimit start
    rw [Event.exec, heq] at he
    exact Option.some.inj he ▸ hw
  | setf fd fp => exact Option.some.inj he ▸ h.setf ha.2 fp
  | closeandsetf fd newfp => exact Option.some.inj he ▸ h.closeandsetf fd newfp
  | flistGrow maxfd => exact Option.some.inj he ▸ (h.flistGrow_spec maxfd).1
  | flistFork => exact Option.some.inj he ▸ h.flistFork_spec.1

/-- In every sequence of steps each node counts the busy descriptors of its right subtree, `fd_find` returns
the smallest descriptor that is not busy, and `ufalloc` the smallest free one below the limit. -/
theorem descriptors_exact {t₀ : UfInfo F} (h : t₀.Wf) (hr : Reachable (· = t₀) Step t) :
    (∀ i < t.nfiles, (t.list i).alloc = count t.busy i (csize i)) ∧ (∀ start, match t.fdFind start with
      | some fd => t.Least start fd
      | none => ∀ j, start ≤ j → j < t.nfiles → t.busy j = 1) ∧
    ∀ filelimit start, ∃ t' r, t.ufalloc filelimit start = some (t', r) ∧ t.Allocated filelimit start t' r := by
  have hw : t.Wf := by
    refine hr.invariant ?_ fun t t' ht hs => hs.wf ht
    rintro t rfl
    exact h
  refine ⟨hw.alloc, fun start => ?_, fun filelimit start => ?_⟩
  · rcases hw.fdFind_spec start with ⟨fd, hf, hl⟩ | ⟨hf, hal⟩
    · rw [hf]
      exact hl
    · rw [hf]
      exact hal
  · obtain ⟨t', r, heq, -, ha⟩ := hw.ufalloc_spec filelimit start
    exact ⟨t', r, heq, ha⟩

def noFiles : UfInfo Unit := ⟨0, fun _ => .zero⟩

theorem noFiles_wf : noFiles.Wf :=
  ⟨⟨0, rfl⟩, fun i hi => absurd hi (not_lt_zero i), fun i hi => absurd hi (not_lt_zero i)⟩

/-- Three descriptors, the second of which is freed. -/
def someFiles : UfInfo Unit :=
  let t := (Event.exec noFiles (.ufalloc 256 0)).getD noFiles
  let t := (Event.exec t (.ufalloc 256 0)).getD noFiles
  let t := (Event.exec t (.ufalloc 256 0)).getD noFiles
  t.setf 1 none

theorem someFiles_reachable : Reachable (· = noFiles) Step someFiles := by
  refine .next (.next (.next (.next (.start rfl) ⟨.ufalloc 256 0, trivial, rfl⟩) ⟨.ufalloc 256 0, trivial, rfl⟩)
    ⟨.ufalloc 256 0, trivial, rfl⟩) ⟨.setf 1 none, ⟨by decide, by decide⟩, rfl⟩

theorem descriptors_exact_someFiles : someFiles.fdFind 0 = some 1 ∧ someFiles.Least 0 1 ∧
    ∃ t' r, someFiles.ufalloc 256 0 = some (t', r) ∧ someFiles.Allocated 256 0 t' r := by
  obtain ⟨-, hf, ha⟩ := descriptors_exact noFiles_wf someFiles_reachable
  have h1 : someFiles.fdFind 0 = some 1 := by decide
  have h := hf 0
  exact ⟨h1, h, ha 256 0⟩

end Sol8.Os.Fio
