import Sol8.Ufs.CgSearch

/-! The summaries of a cylinder group say what its map says. Every change to the map is a change to one
block, so that each summary changes by what the block contributes to it. -/

namespace Sol8.Ufs

open Function Sol8.Lib.BitRuns

variable {fs : Fs} {cgp cgp' : Cg} {a a' : Map} {f f' : ℕ → Bool} {b c i j k l m pos bno : ℕ} {s : ℤ} {cylno : ℕ}
  {frsum : ℕ → ℤ} {rpos : ℕ}

def nblk (fs : Fs) : ℕ := fs.fpg / fs.frag

def total (fs : Fs) (a : Map) (g : ℕ → (ℕ → Bool) → ℤ) : ℤ := ∑ b ∈ Finset.range (nblk fs), g b (blk fs a b)

/-- 1 for a block that is wholly free. -/
def whole (fs : Fs) (f : ℕ → Bool) : ℤ := if Full f fs.frag then 1 else 0

/-- The free fragments of a block that is not wholly free. -/
def loose (fs : Fs) (f : ℕ → Bool) : ℤ := if Full f fs.frag then 0 else weight f fs.frag

/-- The summaries of a group are right: wholly free blocks, free fragments in other blocks, maximal runs of free
fragments of each size below that of a block, and free blocks per cylinder and per position. Bits behind
the last fragment are clear, and the search for fragments starts within the map. -/
structure Cg.Consistent (fs : Fs) (cgp : Cg) : Prop where
  spare : ∀ i, fs.fpg ≤ i → i / nbby < mapBytes fs → isset cgp.blksfree i = false
  frotor : cgp.frotor / nbby < mapBytes fs
  nbfree : cgp.cs.nbfree = total fs cgp.blksfree fun _ f => whole fs f
  nffree : cgp.cs.nffree = total fs cgp.blksfree fun _ f => loose fs f
  frsum : ∀ k, 0 < k → k < fs.frag → cgp.frsum k = total fs cgp.blksfree fun _ f => runs f fs.frag k
  blktot : ∀ c, cgp.blktot c = total fs cgp.blksfree fun b f => if fs.cbtocylno (b * fs.frag) = c then whole fs f else 0
  blks : ∀ c r, cgp.blks c r = total fs cgp.blksfree fun b f =>
    if fs.cbtocylno (b * fs.frag) = c ∧ fs.cbtorpos (b * fs.frag) = r then whole fs f else 0

theorem blk_congr (ho : ∀ i, i / fs.frag ≠ b → isset a' i = isset a i) (hc : c ≠ b) : blk fs a' c = blk fs a c := by
  funext j
  unfold blk
  by_cases hj : j < fs.frag
  · rw [ho]
    rw [Nat.mul_comm, Nat.mul_add_div frag_pos, Nat.div_eq_of_lt hj]
    exact hc
  · simp [hj]

theorem total_change {g : ℕ → (ℕ → Bool) → ℤ} (hb : b < nblk fs) (ho : ∀ i, i / fs.frag ≠ b → isset a' i = isset a i) :
    total fs a' g = total fs a g + (g b (blk fs a' b) - g b (blk fs a b)) := by
  have hmem := Finset.mem_range.mpr hb
  have hr : ∑ c ∈ (Finset.range (nblk fs)).erase b, g c (blk fs a' c) =
      ∑ c ∈ (Finset.range (nblk fs)).erase b, g c (blk fs a c) :=
    Finset.sum_congr rfl fun c hc => by rw [blk_congr ho (Finset.ne_of_mem_erase hc)]
  unfold total
  rw [← Finset.add_sum_erase _ _ hmem, ← Finset.add_sum_erase _ (fun c => g c (blk fs a c)) hmem]
  omega

theorem fpg_eq : fs.fpg = nblk fs * fs.frag := (Nat.div_mul_cancel fs.frag_dvd).symm

theorem div_frag_lt_nblk : i / fs.frag < nblk fs ↔ i < fs.fpg := by
  rw [Nat.div_lt_iff_lt_mul frag_pos, fpg_eq]

theorem Cg.Consistent.change (h : cgp.Consistent fs) (hb : b < nblk fs)
    (ho : ∀ i, i / fs.frag ≠ b → isset cgp'.blksfree i = isset cgp.blksfree i)
    (hf : blk fs cgp.blksfree b = f) (hf' : blk fs cgp'.blksfree b = f') (ht : cgp'.frotor = cgp.frotor)
    (hn : cgp'.cs.nbfree = cgp.cs.nbfree + (whole fs f' - whole fs f))
    (hnf : cgp'.cs.nffree = cgp.cs.nffree + (loose fs f' - loose fs f))
    (hr : ∀ k, 0 < k → k < fs.frag → cgp'.frsum k = cgp.frsum k + (runs f' fs.frag k - runs f fs.frag k))
    (hbt : ∀ c, cgp'.blktot c = cgp.blktot c + if fs.cbtocylno (b * fs.frag) = c then whole fs f' - whole fs f else 0)
    (hs : ∀ c r, cgp'.blks c r = cgp.blks c r +
      if fs.cbtocylno (b * fs.frag) = c ∧ fs.cbtorpos (b * fs.frag) = r then whole fs f' - whole fs f else 0) :
    cgp'.Consistent fs where
  spare i hi hi' := by
    rw [ho, h.spare i hi hi']
    intro he
    rw [← he, div_frag_lt_nblk] at hb
    omega
  frotor := ht ▸ h.frotor
  nbfree := by rw [hn, h.nbfree, total_change hb ho, hf, hf']
  nffree := by rw [hnf, h.nffree, total_change hb ho, hf, hf']
  frsum k hk hkf := by rw [hr k hk hkf, h.frsum k hk hkf, total_change hb ho, hf, hf']
  blktot c := by
    rw [hbt, h.blktot, total_change hb ho, hf, hf']
    split <;> rfl
  blks c r := by
    rw [hs, h.blks, total_change hb ho, hf, hf']
    split <;> rfl

/-- Only fragments of a block change hands that is whole neither before nor after. -/
theorem Cg.Consistent.pieces (h : cgp.Consistent fs) (hb : b < nblk fs)
    (ho : ∀ i, i / fs.frag ≠ b → isset a' i = isset cgp.blksfree i) (hf : blk fs cgp.blksfree b = f)
    (hf' : blk fs a' b = f') (hn : ¬ Full f fs.frag) (hn' : ¬ Full f' fs.frag)
    (hr : ∀ k, 0 < k → k < fs.frag → frsum k = cgp.frsum k + (runs f' fs.frag k - runs f fs.frag k))
    (hs : s = weight f' fs.frag - weight f fs.frag) :
    Cg.Consistent fs { cgp with blksfree := a', frsum, cs := cgp.cs.add ⟨0, 0, 0, s⟩ } := by
  have hw : whole fs f' - whole fs f = 0 := by rw [whole, whole, if_neg hn, if_neg hn']; rfl
  refine h.change hb ho hf hf' rfl ?_ ?_ hr ?_ ?_
  · rw [hw]
    rfl
  · rw [loose, loose, if_neg hn, if_neg hn', ← hs]
    rfl
  · simp [hw]
  · simp [hw]

theorem update_add {t : ℕ → ℤ} : update t c (t c + s) i = t i + if c = i then s else 0 := by
  by_cases hc : c = i
  · rw [if_pos hc, hc, update_self]
  · rw [if_neg hc, update_of_ne (Ne.symm hc), Int.add_zero]

theorem Cg.Consistent.wholes (h : cgp.Consistent fs) (hb : b < nblk fs)
    (ho : ∀ i, i / fs.frag ≠ b → isset a' i = isset cgp.blksfree i) (hf : blk fs cgp.blksfree b = f)
    (hf' : blk fs a' b = f')
    (hfr : ∀ k, 0 < k → k < fs.frag → frsum k = cgp.frsum k + (runs f' fs.frag k - runs f fs.frag k)) {t : ℤ}
    (hs : s = whole fs f' - whole fs f) (ht : t = loose fs f' - loose fs f)
    (hcy : fs.cbtocylno (b * fs.frag) = cylno) (hr : fs.cbtorpos (b * fs.frag) = rpos) : Cg.Consistent fs { cgp with
      blksfree := a'
      frsum := frsum
      blks := update cgp.blks cylno (update (cgp.blks cylno) rpos (cgp.blks cylno rpos + s))
      blktot := update cgp.blktot cylno (cgp.blktot cylno + s)
      cs := cgp.cs.add ⟨0, s, 0, t⟩ } := by
  refine h.change hb ho hf hf' rfl ?_ ?_ hfr ?_ ?_
  · rw [← hs]
    rfl
  · rw [← ht]
    rfl
  · intro c
    rw [← hs, hcy]
    exact update_add
  · intro c r
    rw [← hs, hcy, hr]
    dsimp only
    by_cases hc : cylno = c
    · subst hc
      rw [update_self, update_add]
      simp only [true_and]
    · rw [update_of_ne (Ne.symm hc), if_neg fun h => hc h.1, Int.add_zero]

/-! What the operations on the map do to a block. -/

theorem blkno_eq (hj : j < fs.frag) : (b * fs.frag + j) / fs.frag = b := by
  rw [Nat.mul_comm, Nat.mul_add_div frag_pos, Nat.div_eq_of_lt hj, Nat.add_zero]

@[simp] theorem blk_clrblock : blk fs (clrblock fs a b) b = fun _ => false := by
  funext j
  by_cases hj : j < fs.frag
  · simp [blk, blkno_eq hj]
  · simp [blk, hj]

@[simp] theorem blk_setblock : blk fs (setblock fs a b) b = fun j => decide (j < fs.frag) := by
  funext j
  by_cases hj : j < fs.frag
  · simp [blk, blkno_eq hj, hj]
  · simp [blk, hj]

theorem blk_clrbits : blk fs (clrbits a (b * fs.frag + pos) m) b = clear (blk fs a b) pos m := by
  funext j
  unfold blk
  rw [isset_clrbits]
  unfold clear
  simp [Nat.add_assoc, Bool.and_assoc]

theorem isset_clrbits_of_ne (hpos : pos + m ≤ fs.frag) (hi : i / fs.frag ≠ b) :
    isset (clrbits a (b * fs.frag + pos) m) i = isset a i := by
  rw [isset_clrbits, clear_of_not_mem]
  rintro ⟨h1, h2⟩
  refine hi ?_
  obtain ⟨j, rfl⟩ := Nat.exists_eq_add_of_le (show b * fs.frag ≤ i by omega)
  exact blkno_eq (by omega)

section Values

theorem whole_of_full (h : Full f fs.frag) : whole fs f = 1 := if_pos h

theorem whole_of_not_full (h : ¬ Full f fs.frag) : whole fs f = 0 := if_neg h

theorem loose_of_full (h : Full f fs.frag) : loose fs f = 0 := if_pos h

theorem loose_of_not_full (h : ¬ Full f fs.frag) : loose fs f = weight f fs.frag := if_neg h

theorem not_full_of_false (hj : j < fs.frag) (h : f j = false) : ¬ Full f fs.frag := by
  intro hf
  rw [hf j hj] at h
  exact absurd h (by decide)

theorem values_of_empty (h : ∀ j < fs.frag, f j = false) :
    whole fs f = 0 ∧ loose fs f = 0 ∧ ∀ k, runs f fs.frag k = 0 := by
  have hn : ¬ Full f fs.frag := not_full_of_false frag_pos (h 0 frag_pos)
  refine ⟨whole_of_not_full hn, ?_, fun k => runs_eq_zero_of_empty h⟩
  rw [loose_of_not_full hn, weight_eq_zero_of_empty h]
  rfl

end Values

/-! The operations on a group. -/

section

variable (h : cgp.Consistent fs) (hb : b < nblk fs)
include h hb

theorem Cg.Consistent.takeBlk (hf : Full (blk fs cgp.blksfree b) fs.frag)
    (hc : fs.cbtocylno (b * fs.frag) = cylno) (hp : fs.cbtorpos (b * fs.frag) = rpos) : Cg.Consistent fs { cgp with
      blksfree := clrblock fs cgp.blksfree b
      blks := update cgp.blks cylno (update (cgp.blks cylno) rpos (cgp.blks cylno rpos - 1))
      blktot := update cgp.blktot cylno (cgp.blktot cylno - 1)
      cs := cgp.cs.add ⟨0, -1, 0, 0⟩ } := by
  obtain ⟨hw, hl, hr⟩ := values_of_empty (show ∀ j < fs.frag, (fun _ => false) j = false from fun _ _ => rfl)
  refine h.wholes hb (fun i hi => by simp [hi]) rfl blk_clrblock (fun k _ hk => ?_) ?_ ?_ hc hp
  · rw [hr, hf.runs_eq_zero hk]
    omega
  · rw [hw, whole_of_full hf]
    rfl
  · rw [hl, loose_of_full hf]
    rfl

theorem Cg.Consistent.freeBlk (hm : ∀ j < fs.frag, blk fs cgp.blksfree b j = false)
    (hc : fs.cbtocylno (b * fs.frag) = cylno) (hp : fs.cbtorpos (b * fs.frag) = rpos) : Cg.Consistent fs { cgp with
      blksfree := setblock fs cgp.blksfree b
      blks := update cgp.blks cylno (update (cgp.blks cylno) rpos (cgp.blks cylno rpos + 1))
      blktot := update cgp.blktot cylno (cgp.blktot cylno + 1)
      cs := cgp.cs.add ⟨0, 1, 0, 0⟩ } := by
  obtain ⟨hw, hl, hr⟩ := values_of_empty hm
  have hf : Full (fun j => decide (j < fs.frag)) fs.frag := fun j hj => decide_eq_true hj
  refine h.wholes hb (fun i hi => by simp [hi]) rfl blk_setblock (fun k _ hk => ?_) ?_ ?_ hc hp
  · rw [hr, hf.runs_eq_zero hk]
    omega
  · rw [hw, whole_of_full hf]
    rfl
  · rw [hl, loose_of_full hf]
    rfl

theorem Cg.Consistent.takeFrags (hk : k < fs.frag)
    (hr : IsRun (blk fs cgp.blksfree b) fs.frag pos k) (hm : 0 < m) (hmk : m ≤ k) (frsum : ℕ → ℤ)
    (hfr : ∀ l, frsum l = cgp.frsum l + ((if m < k ∧ l = k - m then 1 else 0 : ℕ) - (if l = k then 1 else 0 : ℕ))) :
    Cg.Consistent fs { cgp with
      blksfree := clrbits cgp.blksfree (b * fs.frag + pos) m
      frsum := frsum
      cs := cgp.cs.add ⟨0, 0, 0, -m⟩ } := by
  have hpos : pos + k ≤ fs.frag := hr.2.1
  have hn : ¬ Full (blk fs cgp.blksfree b) fs.frag := fun hf => by
    have := hr.full_iff.mp hf
    omega
  have hn' : ¬ Full (clear (blk fs cgp.blksfree b) pos m) fs.frag :=
    not_full_of_false (j := pos) (by omega) (clear_of_mem (Nat.le_refl _) (by omega))
  refine h.pieces hb (fun i => isset_clrbits_of_ne (by omega)) rfl blk_clrbits hn hn' (fun l hl hlf => ?_) ?_
  · have := runs_clear hr hm hmk (l := l)
    rw [hfr]
    omega
  · have := weight_clear (f := blk fs cgp.blksfree b) (fun j h1 h2 => hr.get h1 (by omega))
      (show pos + m ≤ fs.frag by omega)
    omega

end

theorem blk_setbits (h : ∀ j < fs.frag, blk fs a b j = false) :
    blk fs (setbits a (b * fs.frag + m) (fs.frag - m)) b = fun j => decide (m ≤ j) && decide (j < fs.frag) := by
  funext j
  by_cases hj : j < fs.frag
  · have h0 := h j hj
    rw [blk, decide_eq_true hj, Bool.true_and] at h0
    have hn : b * fs.frag + j < b * fs.frag + m + (fs.frag - m) ↔ j < fs.frag ∨ j < m := by omega
    rw [blk, isset_setbits, h0]
    simp [hn, hj]
  · simp [blk, hj]

theorem freeFrags_spec (a : Map) (bno pos : ℕ) (hc : ∀ j, pos ≤ j → j < pos + m → isset a (bno + j) = false) :
    ∃ a', freeFrags a bno m pos = (a', true) ∧
      ∀ j, isset a' j = (isset a j || (decide (bno + pos ≤ j) && decide (j < bno + pos + m))) := by
  induction m generalizing a pos with
  | zero =>
    refine ⟨a, rfl, fun j => ?_⟩
    have : ¬ (bno + pos ≤ j ∧ j < bno + pos + 0) := by omega
    rw [← Bool.decide_and, decide_eq_false this, Bool.or_false]
  | succ m ih =>
    rw [freeFrags, if_neg (by rw [hc pos (Nat.le_refl _) (by omega)]; decide)]
    obtain ⟨a', h1, h2⟩ := ih (setbit a (bno + pos)) (pos + 1) fun j hj hm => by
      rw [isset_setbit, hc j (by omega) (by omega), decide_eq_false (by omega)]
      rfl
    refine ⟨a', h1, fun j => ?_⟩
    rw [h2, isset_setbit]
    by_cases hj : j = bno + pos
    · subst hj
      simp
    · have : (bno + (pos + 1) ≤ j ∧ j < bno + (pos + 1) + m) ↔ bno + pos ≤ j ∧ j < bno + pos + (m + 1) := by omega
      simp only [← Bool.decide_and, this, decide_eq_false hj, Bool.false_or]

/-- Fragments are given back: those of a block without them are a part of those with them. -/
theorem blk_gain (hc : ∀ j, pos ≤ j → j < pos + m → isset a (b * fs.frag + j) = false)
    (ha' : ∀ j, isset a' j = (isset a j || (decide (b * fs.frag + pos ≤ j) && decide (j < b * fs.frag + pos + m)))) :
    blk fs a b = clear (blk fs a' b) pos m := by
  funext j
  by_cases hj : j < fs.frag
  · by_cases hmem : pos ≤ j ∧ j < pos + m
    · rw [clear_of_mem hmem.1 hmem.2, blk, hc j hmem.1 hmem.2, Bool.and_false]
    · have : ¬ (b * fs.frag + pos ≤ b * fs.frag + j ∧ b * fs.frag + j < b * fs.frag + pos + m) := by omega
      rw [clear_of_not_mem hmem, blk, blk, ha', ← Bool.decide_and, decide_eq_false this, Bool.or_false]
  · rw [blk_of_frag_le (by omega)]
    exact (clear_eq_false.mpr (.inl (blk_of_frag_le (by omega)))).symm

theorem Cg.Consistent.freeFrags (h : cgp.Consistent fs) (hb : b < nblk fs) (hpos : pos + m ≤ fs.frag) (hm : 0 < m)
    (hc : ∀ j, pos ≤ j → j < pos + m → isset cgp.blksfree (b * fs.frag + j) = false) (ha' : ∀ j, isset a' j =
      (isset cgp.blksfree j || (decide (b * fs.frag + pos ≤ j) && decide (j < b * fs.frag + pos + m))))
    (hfr : ∀ k, 0 < k → k < fs.frag → frsum k = cgp.frsum k +
      (runs (blk fs a' b) fs.frag k - runs (blk fs cgp.blksfree b) fs.frag k))
    (hcy : fs.cbtocylno (b * fs.frag) = cylno) (hr : fs.cbtorpos (b * fs.frag) = rpos) :
    (isblock fs a' b = false → Cg.Consistent fs { cgp with blksfree := a', frsum, cs := cgp.cs.add ⟨0, 0, 0, m⟩ }) ∧
    (isblock fs a' b = true → Cg.Consistent fs { cgp with
      blksfree := a'
      frsum := frsum
      blks := update cgp.blks cylno (update (cgp.blks cylno) rpos (cgp.blks cylno rpos + 1))
      blktot := update cgp.blktot cylno (cgp.blktot cylno + 1)
      cs := cgp.cs.add ⟨0, 1, 0, m - fs.frag⟩ }) := by
  have ho : ∀ i, i / fs.frag ≠ b → isset a' i = isset cgp.blksfree i := fun i hi => by
    have hne : ¬ (b * fs.frag + pos ≤ i ∧ i < b * fs.frag + pos + m) := by
      rintro ⟨h1, h2⟩
      obtain ⟨j, rfl⟩ := Nat.exists_eq_add_of_le (show b * fs.frag ≤ i by omega)
      exact hi (blkno_eq (by omega))
    rw [ha', ← Bool.decide_and, decide_eq_false hne, Bool.or_false]
  have hs : ∀ j, pos ≤ j → j < pos + m → blk fs a' b j = true := fun j h1 h2 => by
    have hmem : b * fs.frag + pos ≤ b * fs.frag + j ∧ b * fs.frag + j < b * fs.frag + pos + m := by omega
    rw [blk, ha', ← Bool.decide_and, decide_eq_true hmem, decide_eq_true (show j < fs.frag by omega), Bool.or_true]
    rfl
  have hg := blk_gain hc ha'
  have hw := weight_clear hs hpos
  rw [← hg] at hw
  have hn : ¬ Full (blk fs cgp.blksfree b) fs.frag := by
    rw [hg]
    exact not_full_of_false (j := pos) (by omega) (clear_of_mem (Nat.le_refl _) (by omega))
  constructor
  · intro hl
    have hn' : ¬ Full (blk fs a' b) fs.frag := fun hf => by
      rw [isblock_iff_full.mpr hf] at hl
      exact absurd hl (by decide)
    refine h.pieces hb ho rfl rfl hn hn' hfr ?_
    omega
  · intro hl
    have hfl := isblock_iff_full.mp hl
    refine h.wholes hb ho rfl rfl hfr ?_ ?_ hcy hr
    · rw [whole_of_full hfl, whole_of_not_full hn]
      rfl
    · rw [hfl.weight_eq] at hw
      rw [loose_of_full hfl, loose_of_not_full hn]
      omega

theorem Cg.Consistent.giveRest (h : cgp.Consistent fs) (hb : b < nblk fs)
    (hem : ∀ j < fs.frag, blk fs cgp.blksfree b j = false) (hm : 0 < m) (hf : m < fs.frag) :
    Cg.Consistent fs { cgp with
      blksfree := setbits cgp.blksfree (b * fs.frag + m) (fs.frag - m)
      frsum := update cgp.frsum (fs.frag - m) (cgp.frsum (fs.frag - m) + 1)
      cs := cgp.cs.add ⟨0, 0, 0, (fs.frag - m : ℕ)⟩ } := by
  have hbk := blk_setbits (m := m) hem
  generalize hf' : (fun j => decide (m ≤ j) && decide (j < fs.frag)) = f' at hbk
  have hget (j : ℕ) : f' j = true ↔ m ≤ j ∧ j < fs.frag := by simp [← hf']
  have hg (j : ℕ) : f' j = false ↔ ¬ (m ≤ j ∧ j < fs.frag) := by rw [← hget, Bool.not_eq_true]
  have hr : IsRun f' fs.frag m (fs.frag - m) :=
    ⟨by omega, by omega, fun j hj => (hget _).mpr (by omega), fun _ => (hg _).mpr (by omega),
      fun hlt => (hg _).mpr (by omega)⟩
  have hc : ∀ j < fs.frag, clear f' m (fs.frag - m) j = false := fun j hj => by
    rw [clear_eq_false, hg]
    omega
  refine (h.freeFrags hb (by omega) (by omega) (fun j h1 h2 => ?_) (fun _ => isset_setbits ..)
    (fun l hl hlf => ?_) rfl rfl).1 ?_
  · have h0 := hem j (by omega)
    rwa [blk, decide_eq_true (by omega), Bool.true_and] at h0
  · have := runs_clear hr (by omega) (Nat.le_refl _) (l := l)
    rw [runs_eq_zero_of_empty hc, if_neg (show ¬ (fs.frag - m < fs.frag - m ∧ _) from fun h => Nat.lt_irrefl _ h.1)]
      at this
    rw [hbk, runs_eq_zero_of_empty hem, update_add]
    by_cases he : fs.frag - m = l
    · rw [if_pos he.symm] at this
      omega
    · rw [if_neg (Ne.symm he)] at this
      omega
  · rw [Bool.eq_false_iff, ne_eq, isblock_iff_full, hbk]
    exact not_full_of_false frag_pos ((hg 0).mpr (by omega))

end Sol8.Ufs
