import Sol8.Ufs.CgInv

/-! The position tables lead to the free blocks that the summaries of a cylinder promise. The tables
describe the first cycle of cylinders; the others look the same. -/

namespace Sol8.Ufs

open Sol8.Lib.BitRuns Nat

variable {fs : Fs} {cgp : Cg} {a : Map} {b c i j n r bno bpref cylno : ℕ}

namespace Layout

variable {l : Layout}

theorem nspb_pos (hf : 0 < l.frag) : 0 < l.nspb := mul_pos l.nspf_pos hf

theorem blkstofrags_mul_nspf : l.blkstofrags i * l.nspf = i * l.nspb := by
  rw [blkstofrags, nspb, mul_assoc, mul_comm l.frag]

/-- The block that a cycle starts with. -/
def base (l : Layout) (cylno : ℕ) : ℕ := (cylno - cylno % l.cpc) * l.spc / l.nspb

theorem base_mul_nspb : l.base cylno * l.nspb = (cylno - cylno % l.cpc) * l.spc := by
  refine Nat.div_mul_cancel ?_
  have hc : l.cpc ∣ cylno - cylno % l.cpc := dvd_sub_mod cylno
  exact dvd_trans l.nspb_dvd (mul_dvd_mul_right hc l.spc)

theorem at_base_add : l.At (l.base cylno + j) cylno r ↔ l.At j (cylno % l.cpc) r := by
  have hle : cylno % l.cpc ≤ cylno := mod_le _ _
  have hm : l.blkstofrags (l.base cylno + j) * l.nspf = j * l.nspb + l.spc * (cylno - cylno % l.cpc) := by
    rw [blkstofrags_mul_nspf, add_mul, base_mul_nspb, add_comm, mul_comm l.spc]
  unfold At cbtocylno cbtorpos
  rw [hm, blkstofrags_mul_nspf, add_mul_div_left _ _ l.spc_pos, add_mul_mod_self_left]
  omega

theorem lt_cycle (hf : 0 < l.frag) (h : l.At j c r) (hc : c < l.cpc) : j < l.cycle := by
  have hm : l.cycle * l.nspb = l.cpc * l.spc := Nat.div_mul_cancel l.nspb_dvd
  have hcy := h.1
  rw [← Nat.mul_lt_mul_right (nspb_pos hf), hm]
  rw [cbtocylno, blkstofrags_mul_nspf] at hcy
  rw [← Nat.div_lt_iff_lt_mul l.spc_pos, hcy]
  exact hc

theorem At.base_le (hf : 0 < l.frag) (h : l.At b cylno r) : l.base cylno ≤ b := by
  have hc : cylno * l.spc ≤ b * l.nspb := by
    rw [← h.1, cbtocylno, blkstofrags_mul_nspf]
    exact div_mul_le_self _ _
  refine le_of_mul_le_mul_right ?_ (nspb_pos hf)
  rw [base_mul_nspb]
  exact le_trans (mul_le_mul_right _ (sub_le _ _)) hc

theorem At.blkstofrags_lt (h : l.At b (l.cbtocylno i) r) (hi : i < l.fpg) : l.blkstofrags b < l.fpg := by
  obtain ⟨q, hq⟩ := l.spc_dvd
  have hc : l.cbtocylno i < q := by
    rw [cbtocylno, div_lt_iff_lt_mul l.spc_pos, mul_comm q, ← hq]
    exact mul_lt_mul_of_pos_right hi l.nspf_pos
  rw [← h.1, cbtocylno, div_lt_iff_lt_mul l.spc_pos, mul_comm q, ← hq] at hc
  exact Nat.lt_of_mul_lt_mul_right hc

end Layout

/-- The walk finds a free block on the cylinder at the position if there is one from `i` on. -/
theorem rotWalk_spec (hi : i < fs.cycle) (hat : fs.At i c r) (hn : nblk fs < i + n)
    (hin : ∀ j, fs.At j c r → bno + j < nblk fs)
    (hf : ∃ j, i ≤ j ∧ j < fs.cycle ∧ fs.At j c r ∧ isblock fs a (bno + j) = true) :
    ∃ j, fs.At j c r ∧ isblock fs a (bno + j) = true ∧ rotWalk fs a bno n i = some (fs.blkstofrags (bno + j)) := by
  induction n generalizing i with
  | zero =>
    have := hin i hat
    omega
  | succ n ih =>
    rw [rotWalk]
    by_cases hl : isblock fs a (bno + i) = true
    · exact ⟨i, hat, hl, if_pos hl⟩
    · obtain ⟨j, hij, hj, ha, hb⟩ := hf
      have hne : i ≠ j := fun he => hl (he ▸ hb)
      obtain ⟨hz, hnx⟩ := fs.next i hi c r hat
      have hd : fs.rotbl i ≠ 0 := fun h0 => hz h0 j (by omega) hj ha
      obtain ⟨hlt, ha', hg⟩ := hnx hd
      have hc : ¬ (fs.rotbl i = 0 ∨ fs.rotbl i + i > fs.fragstoblks fs.fpg) := by
        have := hin _ ha'
        have hnb : fs.fragstoblks fs.fpg = nblk fs := rfl
        omega
      have hle : i + fs.rotbl i ≤ j := by
        by_contra hlt
        exact hg j (by omega) (by omega) ha
      rw [if_neg hl, if_neg hc]
      exact ih hlt ha' (by omega) ⟨j, hle, hj, ha, hb⟩

theorem exists_of_total_ne_zero {g : ℕ → (ℕ → Bool) → ℤ} (h : total fs a g ≠ 0) : ∃ b < nblk fs, g b (blk fs a b) ≠ 0 := by
  obtain ⟨b, hb, hne⟩ := Finset.exists_ne_zero_of_sum_ne_zero h
  exact ⟨b, Finset.mem_range.mp hb, hne⟩

theorem full_of_whole_ne_zero {f : ℕ → Bool} (h : whole fs f ≠ 0) : Full f fs.frag := by
  by_contra hn
  exact h (whole_of_not_full hn)

/-- `alloccgblk` has a block that is free, or searches for one: the tables do not fail. -/
theorem pick_spec (h : cgp.Consistent fs) (bpref : ℕ) : (∃ b bpref', pick fs cgp bpref = .gotit (b * fs.frag) bpref' ∧ b < nblk fs ∧
    Full (blk fs cgp.blksfree b) fs.frag) ∨ ∃ bpref', pick fs cgp bpref = .norot bpref' := by
  unfold pick
  split
  · exact .inr ⟨_, rfl⟩
  generalize hp : fs.dtogd (fs.blknum bpref) = bp
  have hlt : bp < fs.fpg := hp ▸ mod_lt _ fs.fpg_pos
  dsimp only
  split
  case isTrue hl =>
    have hdvd : fs.frag ∣ bp := by
      rw [← hp]
      exact (dvd_mod_iff fs.frag_dvd).mpr (dvd_sub_mod bpref)
    have hm : bp / fs.frag * fs.frag = bp := Nat.div_mul_cancel hdvd
    exact .inl ⟨bp / fs.frag, bp, by rw [hm], div_frag_lt_nblk.mpr hlt, isblock_iff_full.mp hl⟩
  split
  · exact .inr ⟨_, rfl⟩
  split
  · exact .inr ⟨_, rfl⟩
  case isFalse hcp =>
    generalize (if _ = fs.nrpos then _ else _) = r
    generalize hc : fs.cbtocylno bp = cylno
    split
    case isFalse => exact .inr ⟨_, rfl⟩
    case isTrue hpos =>
      -- a free block on the cylinder at the position, and its place in the cycle
      have hne : total fs cgp.blksfree _ ≠ 0 := h.blks cylno r ▸ (Int.ne_of_gt hpos)
      obtain ⟨b, hb, hb0⟩ := exists_of_total_ne_zero hne
      have hat : fs.At b cylno r := by
        by_contra ho
        exact hb0 (if_neg ho)
      have hfl : Full (blk fs cgp.blksfree b) fs.frag := full_of_whole_ne_zero fun h0 => hb0 ((if_pos hat).trans h0)
      obtain ⟨j, rfl⟩ := Nat.exists_eq_add_of_le (hat.base_le frag_pos)
      rw [Layout.at_base_add] at hat
      have hmod : cylno % fs.cpc < fs.cpc := mod_lt _ (pos_of_ne_zero hcp)
      have hj := Layout.lt_cycle frag_pos hat hmod
      have hin (i : ℕ) (hi : fs.At i (cylno % fs.cpc) r) : fs.base cylno + i < nblk fs := by
        rw [← Layout.at_base_add, ← hc] at hi
        have := hi.blkstofrags_lt hlt
        rw [hc] at this
        rwa [← div_frag_lt_nblk, Layout.blkstofrags, Nat.mul_div_cancel _ frag_pos] at this
      have hf := fs.first _ hmod r
      split
      case h_1 hn =>
        rw [hn] at hf
        exact absurd hat (hf j hj)
      case h_2 i hs =>
        rw [hs] at hf
        obtain ⟨hi, ha, hmin⟩ := hf
        have hij : i ≤ j := by
          by_contra hlt
          exact hmin j (by omega) hat
        obtain ⟨j', ha', hl, hw⟩ := rotWalk_spec hi ha (n := nblk fs + 1) (by omega) hin
          ⟨j, hij, hj, hat, isblock_iff_full.mpr hfl⟩
        refine .inl ⟨fs.base cylno + j', bp, ?_, hin j' ha', isblock_iff_full.mp hl⟩
        rw [show rotWalk fs cgp.blksfree ((cylno - cylno % fs.cpc) * fs.spc / fs.nspb) (fs.fragstoblks fs.fpg + 1) i = _
          from hw]
        rfl

end Sol8.Ufs
