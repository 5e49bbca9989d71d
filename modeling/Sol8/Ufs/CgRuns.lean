import Sol8.Lib.Run
import Sol8.Ufs.CgAlloc

/-! Runs of a file system: in any sequence of allocations, extensions and frees the summaries follow the maps,
and what is allocated was free. -/

namespace Sol8.Ufs

open Function Sol8.Lib Sol8.Lib.BitRuns

variable {fs : Fs} {v v' v₀ : Vol}

inductive Call
  | alloccg (frags cgx bpref : ℕ)
  | alloccgblk (cgx bpref : ℕ)
  | fragextend (bprev osize nsize : ℕ)
  | free (bno size : ℕ)
deriving DecidableEq, Repr

/-- Groups exist and sizes are those of one to all fragments of a block; what is extended or freed is in use. -/
def Call.Allowed (fs : Fs) (v : Vol) : Call → Prop
  | alloccg frags cgx _ => cgx < fs.ncg ∧ 0 < frags ∧ frags ≤ fs.frag
  | alloccgblk cgx _ => cgx < fs.ncg
  | fragextend bprev osize nsize => InUse fs v bprev osize ∧ osize < nsize ∧ nsize ≤ fs.frag
  | free bno size => InUse fs v bno size

/-- The file system after a call and what the call returns. -/
def Call.exec (fs : Fs) (iscancel : ℕ → Bool) (v : Vol) : Call → Vol × ℕ
  | alloccg frags cgx bpref => Ufs.alloccg fs iscancel frags v cgx bpref
  | alloccgblk cgx bpref => Ufs.alloccgblk fs iscancel v cgx bpref
  | fragextend bprev osize nsize => Ufs.fragextend fs iscancel v (fs.dtog bprev) bprev osize nsize
  | free bno size => ((Ufs.free fs v bno size).1, 0)

/-- What a call that returns something other than 0 has taken, and what `free` has given back. -/
def Call.Effect (fs : Fs) (v : Vol) (r : Vol × ℕ) : Call → Prop
  | alloccg frags cgx _ => r.2 ≠ 0 → ∃ bno, r.2 = cgx * fs.fpg + bno ∧ Taken fs v r.1 cgx bno frags
  | alloccgblk cgx _ => r.2 ≠ 0 → ∃ bno, r.2 = cgx * fs.fpg + bno ∧ Taken fs v r.1 cgx bno fs.frag
  | fragextend bprev osize nsize => r.2 ≠ 0 →
    r.2 = bprev ∧ Taken fs v r.1 (fs.dtog bprev) (fs.dtogd bprev + osize) (nsize - osize)
  | free bno size => Given fs v r.1 bno size

def Step (fs : Fs) (v v' : Vol) : Prop := ∃ iscancel, ∃ c : Call, c.Allowed fs v ∧ v' = (c.exec fs iscancel v).1

theorem Call.exec_spec (h : v.Consistent fs) {c : Call} (hc : c.Allowed fs v) (iscancel : ℕ → Bool) :
    (c.exec fs iscancel v).1.Consistent fs ∧ c.Effect fs v (c.exec fs iscancel v) := by
  cases c with
  | alloccg frags cgx bpref => exact alloccg_spec h hc.1 hc.2.1 hc.2.2
  | alloccgblk cgx bpref => exact alloccgblk_spec iscancel bpref h hc
  | fragextend bprev osize nsize => exact fragextend_spec h hc.1 hc.2.1 hc.2.2
  | free bno size =>
    obtain ⟨v', he, h1, h2⟩ := free_spec h hc
    rw [exec, he]
    exact ⟨h1, h2⟩

theorem Reachable.consistent (h : v₀.Consistent fs) (hr : Reachable (· = v₀) (Step fs) v) : v.Consistent fs := by
  refine hr.invariant ?_ ?_
  · rintro v rfl
    exact h
  · rintro v v' hv ⟨iscancel, c, hc, rfl⟩
    exact (Call.exec_spec hv hc iscancel).1

section Small

variable {a : Map}

/-- Two fragments per block, eight blocks on one cylinder, at one position. -/
def smallLayout : Layout where
  frag := 2
  fpg := 16
  ipg := 8
  ncg := 1
  nspf := 1
  spc := 16
  nsect := 8
  nrpos := 1
  cpc := 1
  frag_eq := by decide
  frag_dvd := by decide
  fpg_pos := by decide
  ipg_dvd := by decide
  ipg_pos := by decide
  nspf_pos := by decide
  spc_pos := by decide
  nsect_pos := by decide
  spc_dvd := by decide
  nspb_dvd := by decide

theorem smallLayout_at {i c r : ℕ} : smallLayout.At i c r ↔ i / 8 = c ∧ r = 0 := by
  have h1 : smallLayout.cbtocylno (smallLayout.blkstofrags i) = i * 2 * 1 / 16 := rfl
  have h2 : smallLayout.cbtorpos (smallLayout.blkstofrags i) = (i * 2 * 1 % 16 % 8 % 8) * 1 / 8 := rfl
  rw [Layout.At]
  omega

def smallFs : Fs where
  toLayout := smallLayout
  postbl _ r := if r = 0 then some 0 else none
  rotbl i := if i < 7 then 1 else 0
  first c hc r := by
    have hc0 : c = 0 := Nat.lt_one_iff.mp hc
    split_ifs with hr
    · exact ⟨by decide, smallLayout_at.mpr ⟨hc0.symm, hr⟩, fun i hi => absurd hi (Nat.not_lt_zero i)⟩
    · exact fun i _ hat => hr (smallLayout_at.mp hat).2
  next i hi c r hat := by
    obtain ⟨hc, hr⟩ := smallLayout_at.mp hat
    have hcycle : smallLayout.cycle = 8 := rfl
    simp only [smallLayout_at, hcycle]
    split_ifs with hlt
    · exact ⟨fun h => absurd h (by decide), fun _ => ⟨by omega, by omega, fun j h₁ h₂ => by omega⟩⟩
    · exact ⟨fun _ j h₁ h₂ => by omega, fun h => absurd rfl h⟩

def fullVol : Vol where
  cg _ := {
    cs := 0
    rotor := 0
    frotor := 0
    irotor := 0
    frsum := fun _ => 0
    blktot := fun _ => 0
    blks := fun _ _ => 0
    blksfree := fun _ => 0
    inosused := fun _ => 0xff }
  cs _ := 0
  cstotal := 0

theorem fullVol_consistent (hpos : 0 < mapBytes fs) : fullVol.Consistent fs := by
  have ht (i : ℕ) : isset (fun _ => 0) i = false := by simp [isset_eq]
  have hb (b : ℕ) : ∀ j < fs.frag, blk fs (fun _ => 0) b j = false := fun j _ => by rw [blk, ht, Bool.and_false]
  refine ⟨fun c _ => ⟨fun i _ _ => ht i, ?_, ?_, ?_, ?_, ?_, ?_⟩, fun _ _ => rfl, ?_⟩
  · rw [fullVol, Nat.zero_div]
    exact hpos
  · exact (Finset.sum_eq_zero fun b _ => (values_of_empty (hb b)).1).symm
  · exact (Finset.sum_eq_zero fun b _ => (values_of_empty (hb b)).2.1).symm
  · intro k _ _
    refine (Finset.sum_eq_zero fun b _ => ?_).symm
    exact congrArg _ ((values_of_empty (hb b)).2.2 k)
  · intro c
    refine (Finset.sum_eq_zero fun b _ => ?_).symm
    exact (congrArg (ite _ · _) (values_of_empty (hb b)).1).trans (ite_self 0)
  · intro c r
    refine (Finset.sum_eq_zero fun b _ => ?_).symm
    exact (congrArg (ite _ · _) (values_of_empty (hb b)).1).trans (ite_self 0)
  · exact (Finset.sum_const_zero).symm

/-- A block is freed and one of its fragments is taken. -/
def smallVol : Vol :=
  let v := (Call.exec smallFs (fun _ => false) fullVol (.free 2 2)).1
  (Call.exec smallFs (fun _ => false) v (.alloccg 1 0 0)).1

theorem smallVol_reachable : Reachable (· = fullVol) (Step smallFs) smallVol := by
  refine .next (.next (.start rfl) ⟨fun _ => false, .free 2 2, ?_, rfl⟩) ⟨fun _ => false, .alloccg 1 0 0, ?_, rfl⟩
  · exact ⟨by decide, by decide, by decide, by decide⟩
  · exact ⟨by decide, by decide, by decide⟩

theorem isset_freeFrags {bno n i j : ℕ} (h : isset a j = true) : isset (freeFrags a bno n i).1 j = true := by
  induction n generalizing a i with
  | zero => exact h
  | succ n ih =>
    rw [freeFrags]
    split
    · exact h
    · exact ih (by rw [isset_setbit, h, Bool.or_true])

theorem freeFrags_fault {bno n i : ℕ} (h : ∃ j, i ≤ j ∧ j < i + n ∧ isset a (bno + j) = true) :
    (freeFrags a bno n i).2 = false ∧ isset (freeFrags a bno n i).1 (bno + i) = true := by
  induction n generalizing a i with
  | zero =>
    omega
  | succ n ih =>
    rw [freeFrags]
    split
    case isTrue hs => exact ⟨rfl, hs⟩
    case isFalse hc =>
      obtain ⟨j, h1, h2, hs⟩ := h
      have hne : j ≠ i := by
        rintro rfl
        exact hc hs
      have hr := ih (a := setbit a (bno + i)) (i := i + 1)
        ⟨j, by omega, by omega, by rw [isset_setbit, hs, Bool.or_true]⟩
      exact ⟨hr.1, isset_freeFrags (by simp)⟩

/-- In a block that is free as a whole there is nothing to subtract. -/
theorem fragacct_full {b : ℕ} {l : ℕ → ℤ} {cnt : ℤ} (h : Full (blk fs a b) fs.frag) :
    fragacct fs (fs.blkmap a (b * fs.frag)) l cnt = l := by
  funext k
  by_cases hk : 0 < k ∧ k < fs.frag
  · rw [fragacct_apply hk.1 hk.2, h.runs_eq_zero hk.2]
    simp
  · rw [fragacct, if_pos (by omega)]

/-- A free of fragments some of which are free is rejected. It leaves the volume as it was if it is for a block, or if the
whole block is free; otherwise the runs of the block have been subtracted. -/
theorem free_rejected_iff {bno m : ℕ} (hone : fs.fragnum bno + m ≤ fs.frag)
    (hfree : ∃ j < m, isset (v.cg (fs.dtog bno)).blksfree (fs.dtogd bno + j) = true) :
    (free fs v bno m).2 = false ∧ ((free fs v bno m).1 = v ↔
      m = fs.frag ∨ isblock fs (v.cg (fs.dtog bno)).blksfree (fs.fragstoblks (fs.dtogd bno)) = true) := by
  obtain ⟨j, hj, hs⟩ := hfree
  obtain ⟨b, hb⟩ : ∃ b, b = fs.dtogd bno / fs.frag := ⟨_, rfl⟩
  have hd : fs.dtogd bno = b * fs.frag + fs.fragnum bno := by
    rw [← dtogd_mod_frag, hb, Nat.div_add_mod']
  rw [Layout.fragstoblks, ← hb]
  by_cases hl : m = fs.frag
  · have hc : isclrblock fs (v.cg (fs.dtog bno)).blksfree b = false := by
      rw [Bool.eq_false_iff, Ne, isclrblock_iff]
      intro h
      have hj' : (fs.dtogd bno + j) / fs.frag = b := by
        rw [hd, Nat.add_assoc, blkno_eq (by omega)]
      exact absurd (h _ hj') (by simp [hs])
    have heq : free fs v bno m = (v, false) := by
      simp [free, hl, Layout.fragstoblks, ← hb, hc]
    exact ⟨congrArg Prod.snd heq, fun _ => .inl hl, fun _ => congrArg Prod.fst heq⟩
  · obtain ⟨hft, hf⟩ := freeFrags_fault (i := 0) (n := m) ⟨j, Nat.zero_le _, by omega, hs⟩
    have heq : free fs v bno m = (v.setCg (fs.dtog bno) { v.cg (fs.dtog bno) with
        blksfree := (freeFrags (v.cg (fs.dtog bno)).blksfree (fs.dtogd bno) m 0).1
        frsum := fragacct fs (fs.blkmap (v.cg (fs.dtog bno)).blksfree (b * fs.frag)) (v.cg (fs.dtog bno)).frsum (-1) },
        false) := by
      have hbs : fs.dtogd bno - fs.fragnum (fs.dtogd bno) = b * fs.frag := by
        rw [Layout.fragnum, dtogd_mod_frag, hd, Nat.add_sub_cancel]
      simp [free, hl, hbs, hft, show ¬ fs.frag < m by omega]
    rw [heq]
    refine ⟨rfl, fun h => .inr ?_, fun h => ?_⟩
    · have hg := congrArg (fun v => v.cg (fs.dtog bno)) h
      rw [Vol.setCg_cg] at hg
      have hm := congrArg Cg.blksfree hg
      have hfr := congrArg Cg.frsum hg
      dsimp only at hm hfr
      rw [hm] at hf
      -- the first fragment was free, so its run has been subtracted, unless it is the whole block
      rw [isblock_iff_full]
      by_contra hn
      obtain ⟨i, k, hrn, hk⟩ := exists_isRun (f := blk fs (v.cg (fs.dtog bno)).blksfree b) (n := fs.frag)
        (i := fs.fragnum bno) Nat.one_pos (by omega) fun t ht => by
          rw [show t = 0 by omega, blk, Nat.add_zero, ← hd, ← hf, decide_eq_true (by omega)]
          rfl
      have hle : i + k ≤ fs.frag := hrn.2.1
      have hkf : k < fs.frag := lt_of_le_of_ne (by omega) fun he => hn (hrn.full_iff.mpr he)
      have hr : 0 < runs (blk fs (v.cg (fs.dtog bno)).blksfree b) fs.frag k := runs_pos.mpr ⟨i, hrn⟩
      have := congrFun hfr k
      rw [fragacct_apply (by omega) hkf] at this
      omega
    · have hfl := isblock_iff_full.mp (h.resolve_left hl)
      have hbt := hfl (fs.fragnum bno) (by omega)
      rw [blk, Bool.and_eq_true, ← hd] at hbt
      obtain ⟨n, rfl⟩ : ∃ n, m = n + 1 := ⟨m - 1, by omega⟩
      rw [fragacct_full hfl, freeFrags, Nat.add_zero, if_pos hbt.2]
      exact congrArg (fun cg => { v with cg }) (update_eq_self ..)

/-- Fragment 3 is free, as a run of one, and then it is not in `cg_frsum` any more. -/
theorem free_rejected_changes : smallVol.Consistent smallFs ∧ isset (smallVol.cg 0).blksfree 3 = true ∧
    (free smallFs smallVol 3 1).2 = false ∧ (smallVol.cg 0).frsum 1 = 1 ∧
    ((free smallFs smallVol 3 1).1.cg 0).frsum 1 = 0 ∧ (free smallFs smallVol 3 1).1 ≠ smallVol := by
  have ha : ((free smallFs smallVol 3 1).1.cg 0).frsum 1 = 0 := by decide
  have hb : (smallVol.cg 0).frsum 1 = 1 := by decide
  refine ⟨Reachable.consistent (fullVol_consistent (by decide)) smallVol_reachable, by decide, by decide,
    hb, ha, fun h => ?_⟩
  rw [h] at ha
  exact absurd ha (by decide)

theorem free_rejected_iff_block : (free smallFs smallVol 2 2).2 = false ∧ (free smallFs smallVol 2 2).1 = smallVol := by
  obtain ⟨h, hf⟩ := @free_rejected_iff smallFs smallVol 2 2 (by decide)
    ⟨1, by decide, by decide⟩
  exact ⟨h, hf.mpr (.inl rfl)⟩

end Small

end Sol8.Ufs
