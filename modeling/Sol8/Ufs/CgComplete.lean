import Sol8.Ufs.CgRuns

/-! `hashalloc` gives up only when nothing is free that would do: a group that cannot serve a request holds
nothing of the kind, and every group is asked. -/

namespace Sol8.Ufs

open Function Sol8.Lib.BitRuns Nat

variable {fs : Fs} {v : Vol} {a : Map} {b c k m n cgx bno bpref : ℕ} {cgp : Cg}

section Hashalloc

variable {ncg cg pref i : ℕ} {allocator : Vol → ℕ → ℕ → Vol × ℕ} {P : ℕ → Prop}

/-- A group that is asked and gives nothing stays as it is, and has the property. -/
def Refuses (ncg : ℕ) (allocator : Vol → ℕ → ℕ → Vol × ℕ) (v : Vol) (P : ℕ → Prop) : Prop :=
  ∀ cg < ncg, ∀ pref, (allocator v cg pref).2 = 0 → (allocator v cg pref).1 = v ∧ P cg

section

variable (h : Refuses ncg allocator v P)
include h

theorem rehash_spec (hc : cg < ncg) (h0 : (rehash ncg allocator n i cg v).2 = 0) :
    (rehash ncg allocator n i cg v).1 = v := by
  induction n generalizing i cg with
  | zero => rfl
  | succ n ih =>
    rw [rehash] at h0 ⊢
    by_cases hi : i < ncg
    · rw [if_pos hi] at h0 ⊢
      generalize hc' : (if ncg ≤ cg + i then cg + i - ncg else cg + i) = cg' at h0 ⊢
      have hlt : cg' < ncg := by
        rw [← hc']
        split <;> omega
      by_cases hr : (allocator v cg' 0).2 = 0
      · obtain ⟨hv, -⟩ := h cg' hlt 0 hr
        rw [if_neg (not_not_intro hr), hv] at h0 ⊢
        exact ih hlt h0
      · rw [if_pos hr] at h0
        exact absurd h0 hr
    · rw [if_neg hi]

theorem rehash_next (hg : cg < ncg) (hc : 1 < ncg) (hn : 0 < n)
    (h0 : (rehash ncg allocator n 1 cg v).2 = 0) : P ((cg + 1) % ncg) := by
  obtain ⟨n, rfl⟩ := exists_eq_add_one_of_ne_zero (ne_of_gt hn)
  have hnx : (if ncg ≤ cg + 1 then cg + 1 - ncg else cg + 1) = (cg + 1) % ncg := by
    split
    case isTrue hle =>
      rw [show cg + 1 = ncg by omega, Nat.mod_self, Nat.sub_self]
    case isFalse hlt => rw [mod_eq_of_lt (by omega)]
  rw [rehash, if_pos hc] at h0
  rw [hnx] at h0
  refine (h _ (mod_lt _ (by omega)) 0 ?_).2
  by_contra hr
  rw [if_pos hr] at h0
  exact hr h0

theorem brute_spec (hc : 0 < ncg) (h0 : (brute ncg allocator n (cg % ncg) v).2 = 0) : ∀ j < n, P ((cg + j) % ncg) := by
  induction n generalizing cg with
  | zero => exact fun j hj => absurd hj (not_lt_zero j)
  | succ n ih =>
    have hlt := mod_lt cg hc
    have hn : (if cg % ncg + 1 = ncg then 0 else cg % ncg + 1) = (cg + 1) % ncg := by
      rw [← mod_add_mod]
      split
      case isTrue he => rw [he, mod_self]
      case isFalse hne => rw [mod_eq_of_lt (show cg % ncg + 1 < ncg by omega)]
    rw [brute, hn] at h0
    by_cases hr : (allocator v (cg % ncg) 0).2 = 0
    · obtain ⟨hv, hP⟩ := h _ hlt 0 hr
      rw [if_neg (not_not_intro hr), hv] at h0
      intro j hj
      rcases j with - | j
      · exact hP
      · rw [show cg + (j + 1) = cg + 1 + j by omega]
        exact ih h0 j (by omega)
    · rw [if_pos hr] at h0
      exact absurd h0 hr

theorem hashalloc_spec (hg : cg < ncg) (h0 : (hashalloc ncg allocator v cg pref).2 = 0) : ∀ c < ncg, P c := by
  rw [hashalloc] at h0
  by_cases hr : (allocator v cg pref).2 = 0
  swap
  · rw [if_pos hr] at h0
    exact absurd h0 hr
  obtain ⟨hv, hP⟩ := h cg hg pref hr
  rw [if_neg (not_not_intro hr), hv] at h0
  by_cases hre : (rehash ncg allocator ncg 1 cg v).2 = 0
  swap
  · rw [if_pos hre] at h0
    exact absurd h0 hre
  rw [if_neg (not_not_intro hre), rehash_spec h hg hre] at h0
  have hb := brute_spec h (by omega) h0
  intro c hc
  -- the distance from the first group
  obtain ⟨j, hj, rfl⟩ : ∃ j < ncg, c = (cg + j) % ncg := by
    by_cases hle : cg ≤ c
    · exact ⟨c - cg, by omega, by rw [Nat.add_sub_cancel' hle, Nat.mod_eq_of_lt hc]⟩
    · refine ⟨c + ncg - cg, by omega, ?_⟩
      rw [show cg + (c + ncg - cg) = c + ncg by omega, add_mod_right, mod_eq_of_lt hc]
  rcases j with - | - | j
  · rwa [add_zero, mod_eq_of_lt hg]
  · exact rehash_next h hg hj (by omega) hre
  · rw [show cg + (j + 1 + 1) = cg + 2 + j by omega]
    exact hb j (by omega)

end

end Hashalloc

theorem total_ne_zero {g : ℕ → (ℕ → Bool) → ℤ} (hg : ∀ b f, 0 ≤ g b f) (hb : b < nblk fs) (hpos : 0 < g b (blk fs a b)) :
    total fs a g ≠ 0 := by
  have hle : g b (blk fs a b) ≤ total fs a g :=
    Finset.single_le_sum (f := fun b => g b (blk fs a b)) (fun b _ => hg b _) (Finset.mem_range.mpr hb)
  omega

theorem whole_nonneg {f : ℕ → Bool} : 0 ≤ whole fs f := by
  unfold whole
  split <;> decide

section

variable (h : cgp.Consistent fs)
include h

theorem Cg.Consistent.not_full (h0 : cgp.cs.nbfree = 0) (hb : b < nblk fs) :
    ¬ Full (blk fs cgp.blksfree b) fs.frag := by
  intro hf
  refine total_ne_zero (g := fun _ f => whole fs f) (fun _ _ => whole_nonneg) hb ?_ (h.nbfree ▸ h0)
  rw [whole_of_full hf]
  decide

theorem Cg.Consistent.exists_full (h0 : cgp.cs.nbfree ≠ 0) : ∃ b < nblk fs, Full (blk fs cgp.blksfree b) fs.frag := by
  obtain ⟨b, hb, hne⟩ := exists_of_total_ne_zero (h.nbfree ▸ h0)
  exact ⟨b, hb, full_of_whole_ne_zero hne⟩

theorem Cg.Consistent.not_isRun (hk : 0 < k) (hf : k < fs.frag) (h0 : cgp.frsum k = 0)
    (hb : b < nblk fs) {pos : ℕ} : ¬ IsRun (blk fs cgp.blksfree b) fs.frag pos k := by
  intro hr
  refine total_ne_zero (g := fun _ f => runs f fs.frag k) (fun _ _ => Int.natCast_nonneg _) hb ?_ (h.frsum k hk hf ▸ h0)
  exact Int.natCast_pos.mpr (runs_pos.mpr ⟨pos, hr⟩)

theorem Cg.Consistent.exists_isRun (hk : 0 < k) (hf : k < fs.frag)
    (h0 : cgp.frsum k ≠ 0) : ∃ b < nblk fs, ∃ pos, IsRun (blk fs cgp.blksfree b) fs.frag pos k := by
  obtain ⟨b, hb, hne⟩ := exists_of_total_ne_zero (h.frsum k hk hf ▸ h0)
  exact ⟨b, hb, runs_pos.mp (by omega)⟩

end

/-- A file system in use: block 0 holds the boot program and is never free, inode 0 is no file, `cs_nifree` is
the number of inodes not in use, and the search for inodes starts within the map. -/
structure Vol.Mounted (fs : Fs) (v : Vol) : Prop extends v.Consistent fs where
  boot : isset (v.cg 0).blksfree 0 = false
  ino0 : isset (v.cg 0).inosused 0 = true
  nifree : ∀ c < fs.ncg, (v.cg c).cs.nifree =
    ((Finset.range fs.ipg).filter fun i => isset (v.cg c).inosused i = false).card
  irotor : ∀ c < fs.ncg, (v.cg c).irotor < fs.ipg

/-- A group has no free block, nor `m` free fragments in one. -/
def Lacks (fs : Fs) (v : Vol) (m c : ℕ) : Prop := (∀ b < nblk fs, ¬ Full (blk fs (v.cg c).blksfree b) fs.frag) ∧
  ∀ bno < fs.fpg, bno % fs.frag + m ≤ fs.frag → ¬ ∀ j < m, isset (v.cg c).blksfree (bno + j) = true

/-- Fragments that are free are not where the boot program is. -/
theorem Vol.Mounted.ne_zero (h : v.Mounted fs) (hs : isset (v.cg cgx).blksfree bno = true) : cgx * fs.fpg + bno ≠ 0 := by
  intro h0
  have hpos := fs.fpg_pos
  have hc : cgx = 0 := by
    by_contra hne
    have := mul_pos (pos_of_ne_zero hne) hpos
    omega
  have hb : bno = 0 := by omega
  rw [hc, hb, h.boot] at hs
  exact absurd hs (by decide)

theorem div_nbby_lt (h : bno < fs.fpg) : bno / nbby < mapBytes fs := by
  unfold mapBytes howmany nbby
  omega

theorem run_isset (h : Run fs a bno k) : isset a bno = true := by
  have hb := h.get (Nat.le_refl _) (Nat.lt_add_of_pos_right h.1)
  rw [blk, Bool.and_eq_true, mul_comm, div_add_mod] at hb
  exact hb.2

theorem mapsearch_some (cgx bpref : ℕ) (h : cgp.Consistent fs) (hk : 0 < k) (hf : k ≤ fs.frag)
    (hex : ∃ b < nblk fs, ∃ pos, IsRun (blk fs cgp.blksfree b) fs.frag pos k) : ∃ frotor bno,
      mapsearch fs (fun _ => false) cgx cgp bpref k = ({ cgp with frotor }, some bno) ∧ Run fs cgp.blksfree bno k := by
  obtain ⟨frotor, o, hm, -, hn⟩ := mapsearch_sound (fun _ => false) cgx bpref hk hf h.frotor
  cases o with
  | some bno => exact ⟨frotor, bno, hm, (hn bno rfl).1⟩
  | none =>
    obtain ⟨b, hb, pos, hr⟩ := hex
    have hpos : pos < fs.frag := by
      have := hr.2.1
      omega
    have hlt : b * fs.frag + pos < fs.fpg := by rwa [← div_frag_lt_nblk, blkno_eq hpos]
    exact absurd ((run_iff hpos).mpr hr) (mapsearch_complete hk hf h.frotor (congrArg Prod.snd hm) (div_nbby_lt hlt))

theorem norotBlk_ne_zero (h : v.Mounted fs) (hc : cgx < fs.ncg) (hex : ∃ b < nblk fs, Full (blk fs (v.cg cgx).blksfree b) fs.frag) :
    (norotBlk fs (fun _ => false) v cgx bpref).2 ≠ 0 := by
  obtain ⟨b, hb, hf⟩ := hex
  obtain ⟨frotor, bno, hm, hr⟩ := mapsearch_some cgx bpref (h.groups cgx hc) frag_pos (le_refl fs.frag)
    ⟨b, hb, 0, (full_iff_isRun frag_pos).mp hf⟩
  rw [norotBlk, hm]
  exact h.ne_zero (run_isset hr)

theorem alloccgblk_ne_zero (bpref : ℕ) (h : v.Mounted fs) (hc : cgx < fs.ncg)
    (hex : ∃ b < nblk fs, Full (blk fs (v.cg cgx).blksfree b) fs.frag) :
    (alloccgblk fs (fun _ => false) v cgx bpref).2 ≠ 0 := by
  unfold alloccgblk
  rcases pick_spec (h.groups cgx hc) bpref with ⟨b, bpref', hp, hb, hf⟩ | ⟨bpref', hp⟩
  · rw [hp]
    exact h.ne_zero (isset_of_blk (hf 0 frag_pos))
  · rw [hp]
    exact norotBlk_ne_zero h hc hex

theorem Vol.Consistent.lacks (h : v.Consistent fs) (hc : cgx < fs.ncg) (h0 : (v.cg cgx).cs.nbfree = 0) (hm : 0 < m)
    (hf : ∀ k, m ≤ k → k < fs.frag → (v.cg cgx).frsum k = 0) : Lacks fs v m cgx := by
  have hg := h.groups cgx hc
  refine ⟨fun b hb => hg.not_full h0 hb, fun bno hlt ho hs => ?_⟩
  have hb : bno / fs.frag < nblk fs := div_frag_lt_nblk.mpr hlt
  have hl : bno / fs.frag * fs.frag + bno % fs.frag = bno := by rw [mul_comm, div_add_mod]
  obtain ⟨pos, k, hr, hmk⟩ := exists_isRun hm ho (f := blk fs (v.cg cgx).blksfree (bno / fs.frag)) fun j hj => by
    rw [blk, decide_eq_true (by omega), ← add_assoc, hl]
    exact hs j hj
  have hkf := hr.2.1
  by_cases hk : k = fs.frag
  · exact hg.not_full h0 hb (hr.full_iff.mpr hk)
  · exact hg.not_isRun hr.1 (by omega) (hf k hmk (by omega)) hb hr

theorem breakBlk_refuses (h : v.Mounted fs) (hc : cgx < fs.ncg)
    (h0 : (breakBlk fs (fun _ => false) v cgx bpref m).2 = 0) :
    (breakBlk fs (fun _ => false) v cgx bpref m).1 = v ∧ (v.cg cgx).cs.nbfree = 0 := by
  rw [breakBlk] at h0 ⊢
  by_cases hn : (v.cg cgx).cs.nbfree = 0
  · rw [if_pos hn]
    exact ⟨rfl, hn⟩
  · have hne := alloccgblk_ne_zero bpref h hc ((h.groups cgx hc).exists_full hn)
    rw [if_neg hn] at h0
    rw [if_neg hne] at h0
    exact absurd h0 hne

theorem alloccg_refuses (h : v.Mounted fs) (hm : 0 < m) (hmf : m ≤ fs.frag) :
    Refuses fs.ncg (alloccg fs (fun _ => false) m) v (Lacks fs v m) := by
  intro cgx hc bpref h0
  have hg := h.groups cgx hc
  have hs := h.cs cgx hc
  have hl (hb : (v.cg cgx).cs.nbfree = 0) (hf : m = fs.frag) : Lacks fs v m cgx :=
    h.lacks hc hb hm fun k h1 h2 => by omega
  unfold alloccg at h0 ⊢
  rw [hs] at h0 ⊢
  by_cases hn : (v.cg cgx).cs.nbfree = 0 ∧ m = fs.frag
  · rw [if_pos hn]
    exact ⟨rfl, hl hn.1 hn.2⟩
  rw [if_neg hn, if_neg hn] at h0 ⊢
  by_cases hf : m = fs.frag
  · rw [if_pos hf] at h0
    exact absurd h0 (alloccgblk_ne_zero bpref h hc (hg.exists_full fun hb => hn ⟨hb, hf⟩))
  · rw [if_neg hf] at h0 ⊢
    have hle := position_le (p := fun k => decide ((v.cg cgx).frsum k ≠ 0)) (n := fs.frag - m) (i := m)
    obtain ⟨hz, hh⟩ := position_spec (p := fun k => decide ((v.cg cgx).frsum k ≠ 0)) (n := fs.frag - m) (i := m)
    generalize position _ (fs.frag - m) m = k at h0 hle hz hh ⊢
    by_cases hk : k = fs.frag
    · -- there are no such fragments, and no block
      rw [if_pos hk] at h0 ⊢
      obtain ⟨hv, hb⟩ := breakBlk_refuses h hc h0
      refine ⟨hv, h.lacks hc hb hm fun l h1 h2 => ?_⟩
      simpa using hz l h1 (by omega)
    · -- the summary promises a run
      rw [if_neg hk] at h0
      have hne : (v.cg cgx).frsum k ≠ 0 := by simpa using hh (by omega)
      obtain ⟨frotor, bno, hms, hr⟩ := mapsearch_some cgx bpref hg (by omega) (by omega)
        (hg.exists_isRun (by omega) (by omega) hne)
      rw [hms] at h0
      exact absurd h0 (h.ne_zero (run_isset hr))

section Inodes

variable {i len : ℕ} {x : BitVec 8}

theorem skpc_spec (a : Map) (len i : ℕ) : (skpc 0xff a len i = 0 ∧ ∀ j, i ≤ j → j < i + len → a j = 0xff) ∨
    (skpc 0xff a len i ≠ 0 ∧ a (i + len - skpc 0xff a len i) ≠ 0xff) := by
  induction len generalizing i with
  | zero => exact .inl ⟨rfl, fun j h1 h2 => by omega⟩
  | succ len ih =>
    rw [skpc]
    by_cases hi : a i = 0xff
    · rw [if_pos hi, show i + (len + 1) = i + 1 + len by omega]
      rcases ih (i + 1) with ⟨h1, h2⟩ | h
      · refine .inl ⟨h1, fun j hj hlt => ?_⟩
        by_cases he : j = i
        · rw [he, hi]
        · exact h2 j (by omega) hlt
      · exact .inr h
    · rw [if_neg hi]
      exact .inr ⟨Nat.succ_ne_zero _, by rwa [Nat.add_sub_cancel]⟩

theorem getLsbD_of_and_eq_zero (x : BitVec 8) {k : ℕ} (hk : k < 8) : (x &&& 1#8 <<< k) = 0 ↔ x.getLsbD k = false := by
  have := and_shift_ne_zero x hk
  cases hx : x.getLsbD k <;> simp_all

theorem eq_ff (h : ∀ k < 8, x.getLsbD k = true) : x = 0xff := by
  refine BitVec.eq_of_getLsbD_eq fun k hk => ?_
  rw [h k hk]
  interval_cases k <;> rfl

theorem isset_of_ff (h : a (i / 8) = 0xff) : isset a i = true := by
  rw [isset_eq, h]
  have := mod_lt i (show 0 < 8 by decide)
  interval_cases i % 8 <;> rfl

theorem Vol.Mounted.ino_ne_zero (h : v.Mounted fs) (hc : isset (v.cg cgx).inosused i = false) : cgx * fs.ipg + i ≠ 0 := by
  intro h0
  have hg : cgx = 0 := by
    by_contra hne
    have := mul_pos (pos_of_ne_zero hne) fs.ipg_pos
    omega
  have hi : i = 0 := by omega
  rw [hg, hi, h.ino0] at hc
  exact absurd hc (by decide)

theorem Vol.Mounted.all_used (h : v.Mounted fs) (hc : cgx < fs.ncg) (h0 : (v.cg cgx).cs.nifree = 0) :
    ∀ i < fs.ipg, isset (v.cg cgx).inosused i = true := by
  have hr := h.nifree cgx hc
  rw [h0, eq_comm, Int.natCast_eq_zero, Finset.card_eq_zero, Finset.filter_eq_empty_iff] at hr
  exact fun i hi => Bool.not_eq_false _ ▸ hr (Finset.mem_range.mpr hi)

theorem scan_spec {start : ℕ} {o : Option ℕ} (ho : (if skpc 0xff a len start ≠ 0 then some (start + len - skpc 0xff a len start)
      else if skpc 0xff a (start + 1) 0 ≠ 0 then some (start + 1 - skpc 0xff a (start + 1) 0) else none) = o) :
    (o = none → ∀ j < start + len, a j = 0xff) ∧ ∀ i ∈ o, a i ≠ 0xff := by
  subst ho
  rcases skpc_spec a len start with ⟨h1, ha⟩ | ⟨h1, hne⟩
  · rw [if_neg (not_not_intro h1)]
    rcases skpc_spec a (start + 1) 0 with ⟨h2, ha'⟩ | ⟨h2, hne⟩
    · rw [if_neg (not_not_intro h2)]
      refine ⟨fun _ j hj => ?_, fun i hi => absurd hi (by simp)⟩
      by_cases hle : start ≤ j
      · exact ha j hle hj
      · exact ha' j (zero_le j) (by omega)
    · rw [if_pos h2]
      rw [zero_add] at hne
      exact ⟨fun h => absurd h (by simp), fun i hi => Option.some.inj hi ▸ hne⟩
  · rw [if_pos h1]
    exact ⟨fun h => absurd h (by simp), fun i hi => Option.some.inj hi ▸ hne⟩

theorem ialloccg_refuses (h : v.Mounted fs) (dir : Bool) :
    Refuses fs.ncg (ialloccg fs dir) v fun c => ∀ i < fs.ipg, isset (v.cg c).inosused i = true := by
  intro cgx hc ipref h0
  unfold ialloccg at h0 ⊢
  dsimp only at h0 ⊢
  rw [h.cs cgx hc] at h0 ⊢
  by_cases hn : (v.cg cgx).cs.nifree = 0
  · rw [if_pos hn]
    exact ⟨rfl, h.all_used hc hn⟩
  rw [if_neg hn, if_neg hn] at h0 ⊢
  by_cases hp : ipref ≠ 0 ∧ isclr (v.cg cgx).inosused (ipref % fs.ipg) = true
  · rw [if_pos hp] at h0
    refine absurd h0 (h.ino_ne_zero ?_)
    simpa [isclr] using hp.2
  rw [if_neg hp] at h0 ⊢
  generalize ho : (if skpc _ _ _ _ ≠ 0 then _ else _ : Option ℕ) = o at h0 ⊢
  obtain ⟨hf, hb⟩ := scan_spec ho
  cases o with
  | none =>
    refine ⟨rfl, fun i hi => isset_of_ff (hf rfl (i / 8) ?_)⟩
    have hdvd := fs.ipg_dvd
    unfold howmany nbby at *
    omega
  | some i =>
    exfalso
    dsimp only at h0
    have hle := position_le (p := fun bit => decide ((v.cg cgx).inosused i &&& 1#8 <<< bit = 0)) (n := nbby) (i := 0)
    obtain ⟨hs, hl⟩ := position_spec (p := fun bit => decide ((v.cg cgx).inosused i &&& 1#8 <<< bit = 0))
      (n := nbby) (i := 0)
    generalize position _ nbby 0 = bit at h0 hle hs hl
    have hnb : nbby = 8 := rfl
    by_cases ht : bit = nbby
    · refine hb i rfl (eq_ff fun k hk => ?_)
      have := of_decide_eq_false (hs k (zero_le k) (by omega))
      rwa [getLsbD_of_and_eq_zero _ hk, Bool.not_eq_false] at this
    · rw [if_neg ht] at h0
      refine h.ino_ne_zero ?_ h0
      have := of_decide_eq_true (hl (by omega))
      rw [getLsbD_of_and_eq_zero _ (by omega)] at this
      rw [isset_eq, hnb, show (i * 8 + bit) / 8 = i by omega, show (i * 8 + bit) % 8 = bit by omega]
      exact this

end Inodes

/-- `hashalloc` fails only if no group has a free block or enough free fragments in one block, or an inode that
is not in use. -/
theorem hashalloc_complete (h : v.Mounted fs) {cg : ℕ} (hcg : cg < fs.ncg) (pref : ℕ) :
    (∀ m, 0 < m → m ≤ fs.frag → (hashalloc fs.ncg (alloccg fs (fun _ => false) m) v cg pref).2 = 0 →
      ∀ c < fs.ncg, (∀ b < nblk fs, isblock fs (v.cg c).blksfree b = false) ∧
        ∀ bno < fs.fpg, bno % fs.frag + m ≤ fs.frag → ¬ ∀ j < m, isset (v.cg c).blksfree (bno + j) = true) ∧
    ∀ dir, (hashalloc fs.ncg (ialloccg fs dir) v cg pref).2 = 0 →
      ∀ c < fs.ncg, ∀ i < fs.ipg, isset (v.cg c).inosused i = true := by
  refine ⟨fun m hm hf h0 c hc => ?_, fun dir h0 => hashalloc_spec (ialloccg_refuses h dir) hcg h0⟩
  obtain ⟨hl, hr⟩ := hashalloc_spec (alloccg_refuses h hm hf) hcg h0 c hc
  exact ⟨fun b hb => Bool.eq_false_iff.mpr fun he => hl b hb (isblock_iff_full.mp he), hr⟩

theorem fullVol_mounted : fullVol.Mounted smallFs where
  toConsistent := fullVol_consistent (by decide)
  boot := by decide
  ino0 := by decide
  nifree c _ := by
    have : ∀ i ∈ Finset.range smallFs.ipg, ¬ isset (fullVol.cg c).inosused i = false := fun i _ => by
      rw [isset_of_ff rfl]
      decide
    rw [Finset.filter_false_of_mem this]
    rfl
  irotor _ _ := show 0 < 8 by decide

/-- Where nothing is free, a fragment and an inode are asked for in vain. -/
theorem hashalloc_complete_fullVol : (hashalloc smallFs.ncg (alloccg smallFs (fun _ => false) 1) fullVol 0 5).2 = 0 ∧
      (∀ b < nblk smallFs, isblock smallFs (fullVol.cg 0).blksfree b = false) ∧
      ∀ i < smallFs.ipg, isset (fullVol.cg 0).inosused i = true := by
  obtain ⟨hf, hin⟩ := hashalloc_complete fullVol_mounted (show 0 < smallFs.ncg by decide) 5
  have h0 : (hashalloc smallFs.ncg (alloccg smallFs (fun _ => false) 1) fullVol 0 5).2 = 0 := by decide
  exact ⟨h0, (hf 1 (by decide) (by decide) h0 0 (by decide)).1, hin true (by decide) 0 (by decide)⟩

end Sol8.Ufs
