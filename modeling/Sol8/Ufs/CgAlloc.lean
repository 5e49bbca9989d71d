import Sol8.Ufs.CgRot

/-! What `alloccg`, `alloccgblk`, `fragextend` and `free` do to a consistent file system. -/

namespace Sol8.Ufs

open Function Sol8.Lib.BitRuns Nat Vol

variable {fs : Fs} {v v' v'' : Vol} {cgp g g' : Cg} {d e : Csum} {b c k m n cgx bno bpref : ℕ} {iscancel : ℕ → Bool}
  {r : Vol × ℕ} {i : ℕ} {p : ℕ → Bool}

instance : Add Csum := ⟨Csum.add⟩

instance : Zero Csum := ⟨⟨0, 0, 0, 0⟩⟩

theorem Csum.add_def : d + e = ⟨d.ndir + e.ndir, d.nbfree + e.nbfree, d.nifree + e.nifree, d.nffree + e.nffree⟩ := rfl

theorem Csum.zero_def : (0 : Csum) = ⟨0, 0, 0, 0⟩ := rfl

instance : AddCommMonoid Csum where
  add_assoc _ _ _ := by simp only [Csum.add_def, Int.add_assoc]
  zero_add _ := by simp only [Csum.add_def, Csum.zero_def, Int.zero_add]
  add_zero _ := by simp only [Csum.add_def, Csum.zero_def, Int.add_zero]
  add_comm _ _ := by simp only [Csum.add_def, Int.add_comm]
  nsmul := nsmulRec

/-- The groups are consistent, and `fs_cs` and `fs_cstotal` have the same totals. -/
structure Vol.Consistent (fs : Fs) (v : Vol) : Prop where
  groups : ∀ c < fs.ncg, (v.cg c).Consistent fs
  cs : ∀ c < fs.ncg, v.cs c = (v.cg c).cs
  cstotal : v.cstotal = ∑ c ∈ Finset.range fs.ncg, v.cs c

/-- A group has become `g` with its summary changed by `d`. -/
def Vol.post (v : Vol) (cgx : ℕ) (g : Cg) (d : Csum) : Vol where
  cg := update v.cg cgx { g with cs := (v.cg cgx).cs + d }
  cs := update v.cs cgx (v.cs cgx + d)
  cstotal := v.cstotal + d

namespace Vol

@[simp] theorem post_cg : (v.post cgx g d).cg cgx = { g with cs := (v.cg cgx).cs + d } := update_self ..

theorem post_cg_of_ne (hc : c ≠ cgx) : (v.post cgx g d).cg c = v.cg c := update_of_ne hc ..

@[simp] theorem setCg_cg : (v.setCg cgx g).cg cgx = g := update_self ..

theorem setCg_cg_of_ne (hc : c ≠ cgx) : (v.setCg cgx g).cg c = v.cg c := update_of_ne hc ..

theorem setCg_eq_post (hg : g.cs = (v.cg cgx).cs) : v.setCg cgx g = v.post cgx g 0 := by
  simp only [setCg, post, add_zero, ← hg, update_eq_self]

@[simp] theorem post_account : (v.post cgx g d).account cgx e = v.post cgx g (d + e) := by
  simp only [account, post, update_self, update_idem, ← add_assoc]
  rfl

@[simp] theorem post_post : (v.post cgx g d).post cgx g' e = v.post cgx g' (d + e) := by
  simp only [post, update_self, update_idem, ← add_assoc]

theorem setCg_account (hg : g.cs = (v.cg cgx).cs) : (v.setCg cgx g).account cgx d = v.post cgx g d := by
  rw [setCg_eq_post hg, post_account, zero_add]

theorem Consistent.post (h : v.Consistent fs) (hc : cgx < fs.ncg)
    (hg : Cg.Consistent fs { g with cs := (v.cg cgx).cs + d }) : (v.post cgx g d).Consistent fs where
  groups c hn := by
    by_cases he : c = cgx
    · rw [he, post_cg]
      exact hg
    · rw [post_cg_of_ne he]
      exact h.groups c hn
  cs c hn := by
    by_cases he : c = cgx
    · rw [he, post_cg, Vol.post]
      dsimp only
      rw [update_self, h.cs cgx hc]
    · rw [post_cg_of_ne he, Vol.post]
      dsimp only
      rw [update_of_ne he, h.cs c hn]
  cstotal := by
    have hmem := Finset.mem_range.mpr hc
    rw [Vol.post]
    rw [Finset.sum_update_of_mem hmem, h.cstotal, ← Finset.add_sum_erase _ _ hmem, Finset.sdiff_singleton_eq_erase,
      add_right_comm]

theorem Consistent.setCg (h : v.Consistent fs) (hc : cgx < fs.ncg) (hs : g.cs = (v.cg cgx).cs)
    (hg : g.Consistent fs) : (v.setCg cgx g).Consistent fs := by
  rw [setCg_eq_post hs]
  refine h.post hc ?_
  rw [add_zero, ← hs]
  exact hg

end Vol

/-- `m` fragments of one block from `bno` on, all of them free, have been taken out of a group. -/
structure Taken (fs : Fs) (v v' : Vol) (cgx bno m : ℕ) : Prop where
  lt : bno < fs.fpg
  one : bno % fs.frag + m ≤ fs.frag
  free : ∀ j, bno ≤ j → j < bno + m → isset (v.cg cgx).blksfree j = true
  map : ∀ j, isset (v'.cg cgx).blksfree j = clear (isset (v.cg cgx).blksfree) bno m j
  others : ∀ c, c ≠ cgx → v'.cg c = v.cg c

/-- The file system after an allocation is consistent, and what it returns, if anything, has been taken. -/
def Allocated (fs : Fs) (v : Vol) (cgx m : ℕ) (r : Vol × ℕ) : Prop :=
  r.1.Consistent fs ∧ (r.2 ≠ 0 → ∃ bno, r.2 = cgx * fs.fpg + bno ∧ Taken fs v r.1 cgx bno m)

theorem Allocated.congr (h : Allocated fs v' cgx m r) (hp : (v'.cg cgx).blksfree = (v.cg cgx).blksfree)
    (ho : ∀ c, c ≠ cgx → v'.cg c = v.cg c) : Allocated fs v cgx m r := by
  refine ⟨h.1, fun hr => ?_⟩
  obtain ⟨bno, he, ht⟩ := h.2 hr
  exact ⟨bno, he, ht.lt, ht.one, hp ▸ ht.free, hp ▸ ht.map, fun c hc => (ht.others c hc).trans (ho c hc)⟩

theorem isset_of_blk (h : blk fs (v.cg cgx).blksfree b n = true) : isset (v.cg cgx).blksfree (b * fs.frag + n) = true := by
  rw [blk, Bool.and_eq_true] at h
  exact h.2

theorem takeBlk_spec (h : v.Consistent fs) (hc : cgx < fs.ncg) (hb : b < nblk fs)
    (hl : Full (blk fs (v.cg cgx).blksfree b) fs.frag) :
    Allocated fs v cgx fs.frag (takeBlk fs v cgx (b * fs.frag), cgx * fs.fpg + b * fs.frag) := by
  have hbl : fs.fragstoblks (b * fs.frag) = b := Nat.mul_div_cancel _ frag_pos
  rw [takeBlk, hbl, setCg_account]
  swap
  · rfl
  refine ⟨h.post hc ((h.groups cgx hc).takeBlk hb hl rfl rfl), fun _ => ⟨_, rfl, ?_⟩⟩
  refine ⟨div_frag_lt_nblk.mp (by rwa [Nat.mul_div_cancel _ frag_pos]), by simp, fun j h1 h2 => ?_, fun j => ?_,
    fun c hc => post_cg_of_ne hc⟩
  · obtain ⟨j, rfl⟩ := Nat.exists_eq_add_of_le h1
    exact isset_of_blk (hl j (by omega))
  · rw [post_cg]
    rw [isset_clrblock, clear, Bool.and_comm, ← Bool.decide_and]
    have hif : j / fs.frag = b ↔ b * fs.frag ≤ j ∧ j < b * fs.frag + fs.frag := by
      have hf : 0 < fs.frag := frag_pos
      rw [Nat.div_eq_iff hf]
      omega
    simp only [ne_eq, hif, decide_not]

theorem Cg.Consistent.run_lt (h : cgp.Consistent fs) (hrun : Run fs cgp.blksfree bno k)
    (hlt : bno / nbby < mapBytes fs) : bno < fs.fpg := by
  by_contra hge
  have hb := hrun.get (Nat.le_refl _) (Nat.lt_add_of_pos_right hrun.1)
  rw [blk, Bool.and_eq_true, mul_comm, div_add_mod, h.spare bno (by omega) hlt] at hb
  exact absurd hb.2 (by decide)

theorem Cg.Consistent.setFrotor (h : cgp.Consistent fs) {frotor rotor : ℕ} (hlt : frotor / nbby < mapBytes fs) :
    Cg.Consistent fs { cgp with frotor, rotor } := { h with frotor := hlt }

theorem norotBlk_spec (h : v.Consistent fs) (hc : cgx < fs.ncg) :
    Allocated fs v cgx fs.frag (norotBlk fs iscancel v cgx bpref) := by
  have hg := h.groups cgx hc
  obtain ⟨frotor, o, hs, hf, hrun⟩ := mapsearch_sound iscancel cgx bpref frag_pos (le_refl fs.frag) hg.frotor
  rw [norotBlk, hs]
  cases o with
  | none => exact ⟨h.setCg hc rfl (hg.setFrotor hf), fun h0 => absurd rfl h0⟩
  | some bno =>
    obtain ⟨hr, hlt, -⟩ := hrun bno rfl
    have hpos := hr.2.1
    have hl : bno / fs.frag * fs.frag = bno := Nat.div_mul_cancel (Nat.dvd_of_mod_eq_zero (by omega))
    have hv : (v.setCg cgx { v.cg cgx with frotor, rotor := bno }).Consistent fs := h.setCg hc rfl (hg.setFrotor hf)
    have ht := takeBlk_spec (b := bno / fs.frag) hv hc (div_frag_lt_nblk.mpr (hg.run_lt hr hlt))
      (by rw [setCg_cg]; exact hr.full_iff.mpr rfl)
    rw [hl] at ht
    exact ht.congr (by rw [setCg_cg]) fun c hc => setCg_cg_of_ne hc

theorem alloccgblk_spec (iscancel : ℕ → Bool) (bpref : ℕ) (h : v.Consistent fs) (hc : cgx < fs.ncg) :
    Allocated fs v cgx fs.frag (alloccgblk fs iscancel v cgx bpref) := by
  unfold alloccgblk
  rcases pick_spec (h.groups cgx hc) bpref with ⟨b, bpref', hp, hb, hf⟩ | ⟨bpref', hp⟩
  · rw [hp]
    dsimp only
    split
    · exact norotBlk_spec h hc
    · exact takeBlk_spec h hc hb hf
  · rw [hp]
    exact norotBlk_spec h hc

theorem position_le : i ≤ position p n i ∧ position p n i ≤ i + n := by
  induction n generalizing i with
  | zero => exact ⟨le_refl _, le_refl _⟩
  | succ n ih =>
    rw [position]
    split
    · omega
    · have := ih (i := i + 1)
      omega

theorem position_spec : (∀ j, i ≤ j → j < position p n i → p j = false) ∧
    (position p n i < i + n → p (position p n i) = true) := by
  induction n generalizing i with
  | zero => exact ⟨fun j h1 h2 => absurd h2 (by rw [position]; omega), fun h => absurd h (by rw [position]; omega)⟩
  | succ n ih =>
    rw [position]
    split
    case isTrue hp => exact ⟨fun j h1 h2 => by omega, fun _ => hp⟩
    case isFalse hp =>
      obtain ⟨h1, h2⟩ := ih (i := i + 1)
      refine ⟨fun j hj hlt => ?_, fun h => h2 (by omega)⟩
      by_cases he : j = i
      · rw [he]
        exact Bool.eq_false_iff.mpr hp
      · exact h1 j (by omega) hlt

section

variable (h : v.Consistent fs) (hc : cgx < fs.ncg) (hrun : Run fs (v.cg cgx).blksfree bno k) (hlt : bno < fs.fpg)
  (hk : k < fs.frag) (hm : 0 < m) (hmk : m ≤ k)
include h hc hrun hlt hk hm hmk

/-- Fragments from the beginning of a run, with the summaries of runs as `takeFrags` and `fragextend` change them. -/
theorem post_takeFrags {frsum : ℕ → ℤ} (hf : frsum = let frsum := update (v.cg cgx).frsum k ((v.cg cgx).frsum k - 1)
      if m ≠ k then update frsum (k - m) (frsum (k - m) + 1) else frsum) :
    let v' := v.post cgx { v.cg cgx with blksfree := clrbits (v.cg cgx).blksfree bno m, frsum } ⟨0, 0, 0, -m⟩
    v'.Consistent fs ∧ Taken fs v v' cgx bno m := by
  have hpos : bno % fs.frag + k ≤ fs.frag := hrun.2.1
  have hl : bno / fs.frag * fs.frag + bno % fs.frag = bno := by rw [mul_comm, div_add_mod]
  have hg := (h.groups cgx hc).takeFrags (div_frag_lt_nblk.mpr hlt) hk hrun hm hmk frsum fun l => by
    rw [hf, Int.sub_eq_add_neg]
    by_cases he : m = k
    · rw [if_neg (not_not_intro he), update_add, if_neg (show ¬ (m < k ∧ l = k - m) by omega)]
      simp only [eq_comm (a := k)]
      split <;> omega
    · rw [if_pos he, update_add, update_add]
      simp only [eq_comm (b := l), show m < k by omega, true_and]
      split <;> split <;> omega
  rw [hl] at hg
  refine ⟨h.post hc hg, hlt, by omega, fun j h1 h2 => ?_, fun j => ?_, fun c hc => post_cg_of_ne hc⟩
  · have := hrun.get (j := bno % fs.frag + (j - bno)) (by omega) (by omega)
    have := isset_of_blk this
    rwa [show bno / fs.frag * fs.frag + (bno % fs.frag + (j - bno)) = j by omega] at this
  · rw [post_cg]
    exact isset_clrbits

theorem takeFrags_spec : Allocated fs v cgx m (takeFrags v cgx bno m k, cgx * fs.fpg + bno) := by
  rw [takeFrags, setCg_account]
  swap
  · rfl
  obtain ⟨h1, h2⟩ := post_takeFrags h hc hrun hlt hk hm hmk rfl
  exact ⟨h1, fun _ => ⟨bno, rfl, h2⟩⟩

end

theorem giveRest_spec (h : v'.Consistent fs) (hc : cgx < fs.ncg) (ht : Taken fs v v' cgx bno fs.frag) (hm : 0 < m)
    (hf : m < fs.frag) : (giveRest fs v' cgx bno m).Consistent fs ∧ Taken fs v (giveRest fs v' cgx bno m) cgx bno m := by
  have ho := ht.one
  have hl : bno / fs.frag * fs.frag = bno := Nat.div_mul_cancel (Nat.dvd_of_mod_eq_zero (by omega))
  have hem : ∀ j < fs.frag, blk fs (v'.cg cgx).blksfree (bno / fs.frag) j = false := fun j hj => by
    rw [blk, ht.map, clear_of_mem (by omega) (by omega), Bool.and_false]
  have hg := (h.groups cgx hc).giveRest (div_frag_lt_nblk.mpr ht.lt) hem hm hf
  rw [hl] at hg
  rw [giveRest, setCg_account]
  swap
  · rfl
  refine ⟨h.post hc hg, ht.lt, by omega, fun j h1 h2 => ht.free j h1 (by omega), fun j => ?_, fun c hc => ?_⟩
  · rw [post_cg]
    rw [isset_setbits, ht.map]
    by_cases hj : bno + m ≤ j ∧ j < bno + m + (fs.frag - m)
    · rw [← Bool.decide_and, decide_eq_true hj, Bool.or_true, clear_of_not_mem (by omega), ht.free j (by omega) (by omega)]
    · rw [← Bool.decide_and, decide_eq_false hj, Bool.or_false]
      by_cases hlt : bno ≤ j ∧ j < bno + m
      · rw [clear_of_mem hlt.1 hlt.2, clear_of_mem hlt.1 (by omega)]
      · rw [clear_of_not_mem hlt, clear_of_not_mem (by omega)]
  · rw [post_cg_of_ne hc, ht.others c hc]

theorem breakBlk_spec (h : v.Consistent fs) (hc : cgx < fs.ncg) (hm : 0 < m) (hf : m < fs.frag) :
    Allocated fs v cgx m (breakBlk fs iscancel v cgx bpref m) := by
  unfold breakBlk
  split
  · exact ⟨h, fun h0 => absurd rfl h0⟩
  obtain ⟨h1, h2⟩ := alloccgblk_spec iscancel bpref h hc
  dsimp only
  split
  case isTrue h0 => exact ⟨h1, fun hne => absurd h0 hne⟩
  case isFalse h0 =>
    obtain ⟨bno, he, ht⟩ := h2 h0
    have hb : fs.dtogd (alloccgblk fs iscancel v cgx bpref).2 = bno := by
      rw [he, Layout.dtogd, mul_comm, mul_add_mod, mod_eq_of_lt ht.lt]
    rw [hb]
    obtain ⟨hv, ht'⟩ := giveRest_spec h1 hc ht hm hf
    exact ⟨hv, fun _ => ⟨bno, he, ht'⟩⟩

theorem alloccg_spec (h : v.Consistent fs) (hc : cgx < fs.ncg) (hm : 0 < m) (hmf : m ≤ fs.frag) :
    Allocated fs v cgx m (alloccg fs iscancel m v cgx bpref) := by
  unfold alloccg
  split
  · exact ⟨h, fun h0 => absurd rfl h0⟩
  split
  · exact ⟨h, fun h0 => absurd rfl h0⟩
  split
  case isTrue he =>
    rw [he]
    exact alloccgblk_spec iscancel bpref h hc
  case isFalse hne =>
    generalize hk : position _ (fs.frag - m) m = k
    have hle := position_le (p := fun k => decide ((v.cg cgx).frsum k ≠ 0)) (n := fs.frag - m) (i := m)
    dsimp only
    split
    · exact breakBlk_spec h hc hm (by omega)
    case isFalse hkf =>
      have hg := h.groups cgx hc
      obtain ⟨frotor, o, hs, hf, hrun⟩ := mapsearch_sound iscancel cgx bpref
        (show 0 < k by omega) (show k ≤ fs.frag by omega) hg.frotor
      have hv : (v.setCg cgx { v.cg cgx with frotor }).Consistent fs := h.setCg hc rfl (hg.setFrotor hf)
      have ho (c : ℕ) (hc : c ≠ cgx) : (v.setCg cgx { v.cg cgx with frotor }).cg c = v.cg c := setCg_cg_of_ne hc
      rw [hs]
      cases o with
      | none => exact (breakBlk_spec hv hc hm (by omega)).congr (by rw [setCg_cg]) ho
      | some bno =>
        obtain ⟨hr, hlt, -⟩ := hrun bno rfl
        refine Allocated.congr (takeFrags_spec hv hc (k := k) ?_ (hg.run_lt hr hlt) (by omega) hm (by omega))
          (by rw [setCg_cg]) ho
        rw [setCg_cg]
        exact hr

/-- The fragments from `bno` on are in use and lie in one block. -/
structure InUse (fs : Fs) (v : Vol) (bno m : ℕ) : Prop where
  lt : fs.dtog bno < fs.ncg
  pos : 0 < m
  one : fs.fragnum bno + m ≤ fs.frag
  used : ∀ j < m, isset (v.cg (fs.dtog bno)).blksfree (fs.dtogd bno + j) = false

theorem dtogd_mod_frag : fs.dtogd bno % fs.frag = fs.fragnum bno := mod_mod_of_dvd _ fs.frag_dvd

theorem dtogd_lt : fs.dtogd bno < fs.fpg := mod_lt _ fs.fpg_pos

theorem fragnum_add (hm : 0 < m) (hmf : m ≤ fs.frag) (h : fs.fragnum bno ≤ fs.fragnum (bno + m - 1)) :
    fs.fragnum bno + m ≤ fs.frag := by
  unfold Layout.fragnum at h ⊢
  rcases fs.frag_eq with hf | hf | hf | hf <;> (rw [hf] at h hmf ⊢; omega)

theorem run_behind {a : Map} {osize nsize : ℕ} (hos : 0 < osize) (hn : osize < nsize)
    (ho : bno % fs.frag + nsize ≤ fs.frag) (hu : isset a (bno + (osize - 1)) = false)
    (hf : ∀ j, osize ≤ j → j < nsize → isset a (bno + j) = true)
    (hi : position (fun i => isclr a (bno + i)) (fs.frag - bno % fs.frag - nsize) nsize = i) :
    Run fs a (bno + osize) (i - osize) ∧ nsize ≤ i ∧ bno % fs.frag + i ≤ fs.frag := by
  have hle := position_le (p := fun i => isclr a (bno + i)) (n := fs.frag - bno % fs.frag - nsize) (i := nsize)
  have hs := position_spec (p := fun i => isclr a (bno + i)) (n := fs.frag - bno % fs.frag - nsize) (i := nsize)
  rw [hi] at hle hs
  have hl : bno / fs.frag * fs.frag + bno % fs.frag = bno := by rw [mul_comm, div_add_mod]
  have hb {j : ℕ} (hj : j < fs.frag - bno % fs.frag) : blk fs a (bno / fs.frag) (bno % fs.frag + j) = isset a (bno + j) := by
    rw [blk, decide_eq_true (by omega), Bool.true_and, ← add_assoc, hl]
  have hpos : bno % fs.frag + osize < fs.frag := by omega
  refine ⟨?_, hle.1, by omega⟩
  rw [← hl, add_assoc, run_iff hpos]
  refine ⟨by omega, by omega, fun j hj => ?_, fun _ => ?_, fun hlt => ?_⟩
  · rw [add_assoc, hb (by omega)]
    by_cases hlt : osize + j < nsize
    · exact hf _ (by omega) hlt
    · have := hs.1 (osize + j) (by omega) (by omega)
      rwa [isclr, Bool.not_eq_false'] at this
  · rw [show bno % fs.frag + osize - 1 = bno % fs.frag + (osize - 1) by omega, hb (by omega)]
    exact hu
  · rw [show bno % fs.frag + osize + (i - osize) = bno % fs.frag + i by omega, hb (by omega)]
    have := hs.2 (by omega)
    rwa [isclr, Bool.not_eq_true'] at this

theorem fragextend_spec (h : v.Consistent fs) {osize nsize : ℕ} (hu : InUse fs v bno osize) (hs : osize < nsize)
    (hns : nsize ≤ fs.frag) :
    let r := fragextend fs iscancel v (fs.dtog bno) bno osize nsize
    r.1.Consistent fs ∧
      (r.2 ≠ 0 → r.2 = bno ∧ Taken fs v r.1 (fs.dtog bno) (fs.dtogd bno + osize) (nsize - osize)) := by
  have hn : v.Consistent fs ∧ ((0 : ℕ) ≠ 0 → 0 = bno ∧
      Taken fs v v (fs.dtog bno) (fs.dtogd bno + osize) (nsize - osize)) := ⟨h, fun h0 => absurd rfl h0⟩
  have ho0 := hu.pos
  unfold fragextend
  split
  · exact hn
  dsimp only
  split
  · exact hn
  case isFalse hr =>
    split
    · exact hn
    split
    · exact hn
    case isFalse ha =>
      rw [not_not] at ha
      have ho := fragnum_add (by omega) hns (Nat.le_of_not_lt hr)
      obtain ⟨hf, -⟩ := position_spec (p := fun i => isclr (v.cg (fs.dtog bno)).blksfree (fs.dtogd bno + i))
        (n := nsize - osize) (i := osize)
      rw [ha] at hf
      simp only [isclr, Bool.not_eq_false'] at hf
      rw [← dtogd_mod_frag] at ho ⊢
      generalize hi : position _ (fs.frag - fs.dtogd bno % fs.frag - nsize) nsize = i
      obtain ⟨hrun, hni, hif⟩ := run_behind ho0 hs ho (hu.used (osize - 1) (by omega)) hf hi
      have hlt : fs.dtogd bno + osize < fs.fpg := by
        have hl : fs.dtogd bno / fs.frag * fs.frag + fs.dtogd bno % fs.frag = fs.dtogd bno := by
          rw [mul_comm, div_add_mod]
        rw [← div_frag_lt_nblk, ← hl, add_assoc, blkno_eq (by omega), div_frag_lt_nblk]
        exact dtogd_lt
      have hp := post_takeFrags h hu.lt hrun hlt (by omega) (show 0 < nsize - osize by omega) (by omega) rfl
      have hne : nsize - osize ≠ i - osize ↔ i ≠ nsize := by omega
      have hsub : i - osize - (nsize - osize) = i - nsize := by omega
      simp only [hne, hsub] at hp
      rw [setCg_account]
      swap
      · rfl
      exact ⟨hp.1, fun _ => ⟨rfl, hp.2⟩⟩

structure Given (fs : Fs) (v v' : Vol) (bno m : ℕ) : Prop where
  map : ∀ j, isset (v'.cg (fs.dtog bno)).blksfree j = (isset (v.cg (fs.dtog bno)).blksfree j ||
    (decide (fs.dtogd bno ≤ j) && decide (j < fs.dtogd bno + m)))
  others : ∀ c, c ≠ fs.dtog bno → v'.cg c = v.cg c

theorem gainBlk_post : gainBlk fs (v.post cgx g d) cgx bno = v.post cgx { g with
    blks := update g.blks (fs.cbtocylno bno) (update (g.blks (fs.cbtocylno bno)) (fs.cbtorpos bno)
      (g.blks (fs.cbtocylno bno) (fs.cbtorpos bno) + 1))
    blktot := update g.blktot (fs.cbtocylno bno) (g.blktot (fs.cbtocylno bno) + 1) } (d + ⟨0, 1, 0, 0⟩) := by
  rw [gainBlk, setCg_account, post_post, post_cg]
  · rfl
  rfl

theorem free_blk (h : v.Consistent fs) (hu : InUse fs v bno fs.frag) :
    ∃ v', free fs v bno fs.frag = (v', true) ∧ v'.Consistent fs ∧ Given fs v v' bno fs.frag := by
  have ho := hu.one
  rw [← dtogd_mod_frag] at ho
  have hb : fs.dtogd bno / fs.frag * fs.frag = fs.dtogd bno := Nat.div_mul_cancel (Nat.dvd_of_mod_eq_zero (by omega))
  have hmem (j : ℕ) : j / fs.frag = fs.dtogd bno / fs.frag ↔ fs.dtogd bno ≤ j ∧ j < fs.dtogd bno + fs.frag := by
    have hf : 0 < fs.frag := frag_pos
    rw [Nat.div_eq_iff hf]
    omega
  have hs (j : ℕ) (hj : fs.dtogd bno ≤ j ∧ j < fs.dtogd bno + fs.frag) :
      isset (v.cg (fs.dtog bno)).blksfree j = false := by
    have := hu.used (j - fs.dtogd bno) (by omega)
    rwa [Nat.add_sub_cancel' hj.1] at this
  have hl : isclrblock fs (v.cg (fs.dtog bno)).blksfree (fs.fragstoblks (fs.dtogd bno)) = true :=
    isclrblock_iff.mpr fun j hj => hs j ((hmem j).mp hj)
  have hg := (h.groups _ hu.lt).freeBlk (div_frag_lt_nblk.mpr dtogd_lt) (fun j hj => by
    rw [blk, hb, hs _ (by omega), Bool.and_false]) rfl rfl
  rw [hb] at hg
  unfold free
  rw [if_neg (by omega)]
  dsimp only
  rw [if_pos rfl, hl, setCg_eq_post, gainBlk_post]
  swap
  · rfl
  refine ⟨_, rfl, h.post hu.lt hg, fun j => ?_, fun c hc => post_cg_of_ne hc⟩
  rw [post_cg]
  rw [isset_setblock, Bool.or_comm, ← Bool.decide_and]
  congr 1
  exact decide_eq_decide.mpr (hmem j)

theorem free_frags (h : v.Consistent fs) (hu : InUse fs v bno m) (hm : m ≠ fs.frag) :
    ∃ v', free fs v bno m = (v', true) ∧ v'.Consistent fs ∧ Given fs v v' bno m := by
  have ho := hu.one
  rw [← dtogd_mod_frag] at ho
  have hl : fs.dtogd bno / fs.frag * fs.frag + fs.dtogd bno % fs.frag = fs.dtogd bno := by
    rw [mul_comm, div_add_mod]
  have hb : fs.dtogd bno - fs.fragnum (fs.dtogd bno) = fs.dtogd bno / fs.frag * fs.frag := by
    rw [Layout.fragnum]
    omega
  have hbl : fs.fragstoblks (fs.dtogd bno / fs.frag * fs.frag) = fs.dtogd bno / fs.frag := Nat.mul_div_cancel _ frag_pos
  obtain ⟨a', hf, ha'⟩ := freeFrags_spec (v.cg (fs.dtog bno)).blksfree (fs.dtogd bno) 0 (m := m) fun j _ hj =>
    hu.used j (by omega)
  rw [← hl] at ha'
  have hr (k : ℕ) (hk : 0 < k) (hkf : k < fs.frag) : fragacct fs (fs.blkmap a' (fs.dtogd bno / fs.frag * fs.frag))
        (fragacct fs (fs.blkmap (v.cg (fs.dtog bno)).blksfree (fs.dtogd bno / fs.frag * fs.frag))
          (v.cg (fs.dtog bno)).frsum (-1)) 1 k = (v.cg (fs.dtog bno)).frsum k +
        (runs (blk fs a' (fs.dtogd bno / fs.frag)) fs.frag k -
          runs (blk fs (v.cg (fs.dtog bno)).blksfree (fs.dtogd bno / fs.frag)) fs.frag k) := by
    rw [fragacct_apply hk hkf, fragacct_apply hk hkf]
    omega
  obtain ⟨hp, hw⟩ := (h.groups _ hu.lt).freeFrags (div_frag_lt_nblk.mpr dtogd_lt) ho hu.pos
    (fun j h1 h2 => by
      have := hu.used (j - fs.dtogd bno % fs.frag) (by omega)
      rwa [show fs.dtogd bno + (j - fs.dtogd bno % fs.frag) = fs.dtogd bno / fs.frag * fs.frag + j by omega] at this)
    ha' hr rfl rfl
  rw [hl] at ha'
  unfold free
  rw [if_neg (by omega)]
  dsimp only
  rw [if_neg hm, hb, hbl, hf]
  rw [setCg_account]
  swap
  · rfl
  cases his : isblock fs a' (fs.dtogd bno / fs.frag) with
  | false =>
    refine ⟨_, rfl, h.post hu.lt (hp his), fun j => ?_, fun c hc => post_cg_of_ne hc⟩
    rw [post_cg]
    exact ha' j
  | true =>
    rw [post_account, gainBlk_post]
    refine ⟨_, rfl, h.post hu.lt ?_, fun j => ?_, fun c hc => post_cg_of_ne hc⟩
    · have hsum : (⟨0, 0, 0, m⟩ : Csum) + ⟨0, 0, 0, -fs.frag⟩ + ⟨0, 1, 0, 0⟩ = ⟨0, 1, 0, m - fs.frag⟩ := by
        simp [Csum.add_def, Int.sub_eq_add_neg]
      rw [hsum]
      exact hw his
    · rw [post_cg]
      exact ha' j

theorem free_spec (h : v.Consistent fs) (hu : InUse fs v bno m) :
    ∃ v', free fs v bno m = (v', true) ∧ v'.Consistent fs ∧ Given fs v v' bno m := by
  by_cases hm : m = fs.frag
  · subst hm
    exact free_blk h hu
  · exact free_frags h hu hm

end Sol8.Ufs
