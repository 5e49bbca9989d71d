import Sol8.Ufs.CgBits

/-! `mapsearch` finds a maximal run of the size it is asked for, whatever place it starts from, if there is one
that is not being converted. -/

namespace Sol8.Ufs

open Sol8.Lib.BitRuns Nat

variable {fs : Fs} {a : Map} {b k n pos first last start cfrag frotor bno : ℕ} {iscancel : ℕ → Bool} {second : Bool}
  {cgp : Cg} {B fuel : ℕ}

/-- There is a maximal run of `k` free fragments at `bno`. -/
def Run (fs : Fs) (a : Map) (bno k : ℕ) : Prop := IsRun (blk fs a (bno / fs.frag)) fs.frag (bno % fs.frag) k

theorem run_iff (hpos : pos < fs.frag) : Run fs a (b * fs.frag + pos) k ↔ IsRun (blk fs a b) fs.frag pos k := by
  have hd : (b * fs.frag + pos) / fs.frag = b := by
    rw [mul_comm, mul_add_div frag_pos, div_eq_of_lt hpos, add_zero]
  have hmod : (b * fs.frag + pos) % fs.frag = pos := by
    rw [mul_comm, mul_add_mod, mod_eq_of_lt hpos]
  rw [Run, hd, hmod]

theorem sift_spec {p : ℕ} (pos : ℕ) (hk : k ≤ 8) {r : ℕ × Bool}
    (hr : sift (p <<< 1) n pos (around.getD k 0 <<< pos) (inside.getD k 0 <<< pos) = r) :
    (r.2 = true ∧ pos ≤ r.1 ∧ r.1 < pos + n ∧ hasPattern p k r.1 = true) ∨
      (r.2 = false ∧ ∀ t, pos ≤ t → t < pos + n → hasPattern p k t = false) := by
  induction n generalizing pos with
  | zero =>
    subst hr
    exact .inr ⟨rfl, fun t h1 h2 => by omega⟩
  | succ n ih =>
    rw [sift] at hr
    split at hr
    case isTrue hp =>
      subst hr
      exact .inl ⟨rfl, le_refl _, by omega, (hasPattern_iff hk).mpr hp⟩
    case isFalse hp =>
      rw [← shiftLeft_add, ← shiftLeft_add] at hr
      rcases ih _ hr with ⟨h1, h2, h3, h4⟩ | ⟨h1, h2⟩
      · exact .inl ⟨h1, by omega, by omega, h4⟩
      · refine .inr ⟨h1, fun t h3 h4 => ?_⟩
        rcases eq_or_lt_of_le h3 with rfl | h3
        · exact Bool.eq_false_iff.mpr fun he => hp ((hasPattern_iff hk).mp he)
        · exact h2 t h3 (by omega)

theorem frag_le_eight : fs.frag ≤ 8 := by
  rcases fs.frag_eq with hf | hf | hf | hf <;> omega

/-- One of the blocks has a run of the size, so it is found. -/
theorem siftBlks_spec (pos : ℕ) (hk : 0 < k) (hf : k ≤ fs.frag)
    (hn : ∃ b', b ≤ b' ∧ b' < b + n ∧ ∃ pos, IsRun (blk fs a b') fs.frag pos k) :
    ∃ b' pos', b ≤ b' ∧ b' < b + n ∧ pos' < fs.frag ∧ siftBlks fs a k n (b * fs.frag) pos = b' * fs.frag + pos' ∧
      IsRun (blk fs a b') fs.frag pos' k := by
  have ht (b pos : ℕ) (hpos : pos + k ≤ fs.frag) :
      hasPattern (fs.blkmap a (b * fs.frag)) k pos = true ↔ IsRun (blk fs a b) fs.frag pos k :=
    hasPattern_iff_isRun hk hpos (fun _ => testBit_blkmap b) fun _ => blk_of_frag_le
  induction n generalizing b pos with
  | zero =>
    omega
  | succ n ih =>
    have h8 : k ≤ 8 := le_trans hf frag_le_eight
    rw [siftBlks]
    generalize hr : sift _ _ _ _ _ = r
    rcases sift_spec 0 h8 hr with ⟨h1, -, h2, h3⟩ | ⟨h1, h2⟩
    · refine ⟨b, r.1, le_refl _, by omega, by omega, by rw [if_pos h1], ?_⟩
      exact (ht b r.1 (by omega)).mp h3
    · rw [if_neg (by simp [h1]), show b * fs.frag + fs.frag = (b + 1) * fs.frag by rw [succ_mul]]
      have hrs : ∃ b', b + 1 ≤ b' ∧ b' < b + 1 + n ∧ ∃ pos, IsRun (blk fs a b') fs.frag pos k := by
        obtain ⟨b', h3, h4, pos', hp⟩ := hn
        refine ⟨b', ?_, by omega, pos', hp⟩
        by_contra hlt
        obtain rfl : b' = b := by omega
        have hle := hp.2.1
        rw [← ht _ _ hle, h2 pos' (zero_le _) (by omega)] at hp
        exact absurd hp (by decide)
      obtain ⟨b', pos', h3, h4, h5⟩ := ih _ hrs
      exact ⟨b', pos', by omega, by omega, h5⟩

theorem scanc_spec (table : List ℕ) (mask : ℕ) (a : Map) (len i : ℕ) : scanc table mask a len i ≤ len ∧
    (∀ B, i ≤ B → B < i + len - scanc table mask a len i → ¬ table.getD (a B).toNat 0 &&& mask ≠ 0) ∧
    (scanc table mask a len i ≠ 0 → table.getD (a (i + len - scanc table mask a len i)).toNat 0 &&& mask ≠ 0) := by
  induction len generalizing i with
  | zero => exact ⟨le_refl _, fun B h1 h2 => by omega, fun h => absurd rfl h⟩
  | succ len ih =>
    rw [scanc]
    split
    case isTrue hb =>
      refine ⟨le_refl _, fun B h1 h2 => by omega, fun _ => ?_⟩
      rwa [Nat.add_sub_cancel]
    case isFalse hb =>
      obtain ⟨h1, h2, h3⟩ := ih (i + 1)
      rw [show i + (len + 1) = i + 1 + len by omega]
      refine ⟨by omega, fun B h4 h5 => ?_, h3⟩
      rcases eq_or_lt_of_le h4 with rfl | h4
      · exact hb
      · exact h2 B h4 h5

/-- A block in byte `B` of the map has a maximal run of size `k`. -/
def Hit (fs : Fs) (a : Map) (k B : ℕ) : Prop := ∃ b, b / (8 / fs.frag) = B ∧ ∃ pos, IsRun (blk fs a b) fs.frag pos k

theorem blks_per_byte_pos : 0 < 8 / fs.frag := by
  rcases fs.frag_eq with hf | hf | hf | hf <;> rw [hf] <;> decide

/-- The run of size `k` that the sift stops at in byte `B`. -/
def firstRun (fs : Fs) (a : Map) (k B : ℕ) : ℕ := siftBlks fs a k (nbby / fs.frag) (B * nbby) 0

theorem Hit.siftBlks (hB : Hit fs a k B) (hk : 0 < k) (hkf : k ≤ fs.frag) :
    Run fs a (firstRun fs a k B) k ∧ firstRun fs a k B / nbby = B := by
  have hB8 : B * nbby = B * (8 / fs.frag) * fs.frag := by
    unfold nbby
    rcases fs.frag_eq with hf | hf | hf | hf <;> (rw [hf]; omega)
  obtain ⟨b, rfl, hr⟩ := hB
  have hlt : b % (8 / fs.frag) < 8 / fs.frag := mod_lt b blks_per_byte_pos
  have hdm := div_add_mod' b (8 / fs.frag)
  obtain ⟨b', pos', h1, h2, h3, heq, hr'⟩ := siftBlks_spec (n := 8 / fs.frag) 0 hk hkf
    ⟨b, show b / (8 / fs.frag) * (8 / fs.frag) ≤ b by omega, by omega, hr⟩
  rw [firstRun, hB8, nbby, heq]
  refine ⟨(run_iff h3).mpr hr', ?_⟩
  rcases fs.frag_eq with hf | hf | hf | hf <;> (rw [hf] at h1 h2 h3 ⊢; omega)

/-- What `mapsearch` finds is a run that is not being converted. -/
theorem searchLoop_sound (hk : 0 < k) (hkf : k ≤ fs.frag) (hl : last ≤ n) (hs : start < n)
    {r : ℕ × Option ℕ} (hr : searchLoop fs a k iscancel cfrag start fuel first last second frotor = r) :
    (r.1 = frotor ∨ r.1 / nbby < n) ∧
      ∀ bno ∈ r.2, bno = firstRun fs a k (bno / nbby) ∧ Run fs a bno k ∧ bno / nbby < n ∧ iscancel (cfrag + bno) = false := by
  induction fuel generalizing first last second frotor with
  | zero =>
    subst hr
    exact ⟨.inl rfl, by simp [searchLoop]⟩
  | succ fuel ih =>
    have hn {frotor' : ℕ} (hf : frotor' = frotor ∨ frotor' / nbby < n) (hr : (if second then (frotor', none)
          else searchLoop fs a k iscancel cfrag start fuel 0 (start + 1) true frotor') = r) :
        (r.1 = frotor ∨ r.1 / nbby < n) ∧
          ∀ bno ∈ r.2, bno = firstRun fs a k (bno / nbby) ∧ Run fs a bno k ∧ bno / nbby < n ∧ iscancel (cfrag + bno) = false := by
      split at hr
      · subst hr
        exact ⟨hf, by simp⟩
      · obtain ⟨h1, h2⟩ := ih (by omega) hr
        exact ⟨h1.elim (fun he => he ▸ hf) .inr, h2⟩
    rw [searchLoop] at hr
    split at hr
    case isFalse hlt =>
      subst hr
      exact ⟨.inl rfl, by simp⟩
    case isTrue hlt =>
      obtain ⟨hle, -, hm⟩ := scanc_spec (fragtbl fs.frag) (1 <<< (k - 1 + fs.frag % nbby)) a (last - first) first
      by_cases h0 : scanc (fragtbl fs.frag) (1 <<< (k - 1 + fs.frag % nbby)) a (last - first) first = 0
      · rw [if_neg (not_not.mpr h0)] at hr
        exact hn (.inl rfl) hr
      · rw [if_pos h0] at hr
        replace hm := hm h0
        rw [show first + (last - first) = last by omega] at hm
        have hh : Hit fs a k _ := (fragtbl_iff hk hkf).mp hm
        obtain ⟨hrn, hb⟩ := hh.siftBlks hk hkf
        generalize scanc _ _ _ _ _ = loc at *
        have hB : (last - loc) * nbby / nbby < n := by
          unfold nbby
          omega
        dsimp only at hr
        split at hr <;> rename_i hfr
        · subst hr
          refine ⟨.inr hB, fun bno hbn => ?_⟩
          cases hbn
          exact ⟨by rw [← firstRun, hb], hrn, by rw [← firstRun]; omega, by simpa using hfr⟩
        · split at hr
          · obtain ⟨h1, h2⟩ := ih hl hr
            exact ⟨h1.elim (fun he => he ▸ .inr hB) .inr, h2⟩
          · exact hn (.inr hB) hr

/-- The rounds that are left: a byte for each in this scan, and in the second one if it is to come. -/
def rounds (start first last : ℕ) (second : Bool) : ℕ := last - first + if second then 0 else start + 1

/-- In every byte with a run that the search has seen before it fails, the one it stops at is being converted. -/
theorem searchLoop_none (hk : 0 < k) (hkf : k ≤ fs.frag) (hlt : first < last)
    (hf : rounds start first last second ≤ fuel)
    (hr : (searchLoop fs a k iscancel cfrag start fuel first last second frotor).2 = none)
    (hB : first ≤ B ∧ B < last ∨ second = false ∧ B ≤ start) (hh : Hit fs a k B) :
    iscancel (cfrag + firstRun fs a k B) = true := by
  induction fuel generalizing first last second frotor with
  | zero =>
    unfold rounds at hf
    omega
  | succ fuel ih =>
    have hn {frotor : ℕ} (hB : second = false ∧ B ≤ start) (hr : (if second then (frotor, none)
        else searchLoop fs a k iscancel cfrag start fuel 0 (start + 1) true frotor).2 = none) :
        iscancel (cfrag + firstRun fs a k B) = true := by
      obtain ⟨rfl, hB⟩ := hB
      exact ih (Nat.succ_pos _) (by simp_all [rounds]; omega) hr (.inl ⟨zero_le _, by omega⟩)
    rw [searchLoop, if_pos hlt] at hr
    obtain ⟨hle, hs, -⟩ := scanc_spec (fragtbl fs.frag) (1 <<< (k - 1 + fs.frag % nbby)) a (last - first) first
    dsimp only at hr
    generalize scanc _ _ _ _ _ = loc at *
    have hsn : ¬ (first ≤ B ∧ B < last - loc) := fun h =>
      hs B h.1 (by omega) ((fragtbl_iff hk hkf).mpr hh)
    split at hr
    case isFalse h0 => exact hn (hB.resolve_left (by omega)) hr
    case isTrue h0 =>
      split at hr
      · simp at hr
      case isFalse hc =>
        by_cases hat : B = last - loc
        · rw [hat, firstRun]
          simpa using hc
        split at hr
        case isTrue hlt' =>
          refine ih hlt' ?_ hr (hB.imp_left fun h => by omega)
          unfold rounds at *
          omega
        case isFalse => exact hn (hB.resolve_left (by omega)) hr

/-- The number of bytes of the map of free fragments. -/
def mapBytes (fs : Fs) : ℕ := howmany fs.fpg nbby

theorem start_lt (hf : cgp.frotor / nbby < mapBytes fs) (bpref : ℕ) :
    (if bpref ≠ 0 then fs.dtogd bpref / nbby else cgp.frotor / nbby) < mapBytes fs := by
  split
  · have := mod_lt bpref fs.fpg_pos
    unfold Layout.dtogd mapBytes howmany nbby
    omega
  · exact hf

/-- `mapsearch` moves `cg_frotor` and finds a run that is not being converted. -/
theorem mapsearch_sound (iscancel : ℕ → Bool) (cgx bpref : ℕ) (hk : 0 < k) (hkf : k ≤ fs.frag)
    (hf : cgp.frotor / nbby < mapBytes fs) : ∃ frotor r, mapsearch fs iscancel cgx cgp bpref k = ({ cgp with frotor }, r) ∧
      frotor / nbby < mapBytes fs ∧
      ∀ bno ∈ r, Run fs cgp.blksfree bno k ∧ bno / nbby < mapBytes fs ∧ iscancel (cgx * fs.fpg + bno) = false := by
  obtain ⟨h1, h2⟩ := searchLoop_sound hk hkf (le_refl _) (start_lt hf bpref) rfl
  exact ⟨_, _, rfl, h1.elim (fun he => (congrArg (· / nbby < mapBytes fs) he).mpr hf) id, fun bno hb => (h2 bno hb).2⟩

theorem Run.hit (hr : Run fs a bno k) : Hit fs a k (bno / nbby) := by
  refine ⟨bno / fs.frag, ?_, _, hr⟩
  unfold nbby
  rcases fs.frag_eq with hf | hf | hf | hf <;> (rw [hf]; omega)

/-- It finds none only if the one that it stops at in each byte is being converted. -/
theorem mapsearch_none {cgx bpref : ℕ} (hk : 0 < k) (hf : k ≤ fs.frag)
    (hs : (if bpref ≠ 0 then fs.dtogd bpref / nbby else cgp.frotor / nbby) < mapBytes fs)
    (hn : (mapsearch fs iscancel cgx cgp bpref k).2 = none) (hB : B < mapBytes fs)
    (hh : Hit fs cgp.blksfree k B) : iscancel (cgx * fs.fpg + firstRun fs cgp.blksfree k B) = true := by
  refine searchLoop_none hk hf hs ?_ hn ?_ hh
  · unfold rounds mapBytes at *
    simp only [Bool.false_eq_true, if_false]
    omega
  · have := le_or_gt (if bpref ≠ 0 then fs.dtogd bpref / nbby else cgp.frotor / nbby) B
    exact this.imp (fun h => ⟨h, hB⟩) fun h => ⟨rfl, h.le⟩

theorem mapsearch_complete {cgx bpref : ℕ} (hk : 0 < k) (hkf : k ≤ fs.frag)
    (hf : cgp.frotor / nbby < mapBytes fs) (hn : (mapsearch fs (fun _ => false) cgx cgp bpref k).2 = none)
    (hb : bno / nbby < mapBytes fs) : ¬ Run fs cgp.blksfree bno k :=
  fun hr => absurd (mapsearch_none hk hkf (start_lt hf bpref) hn hb hr.hit) (by decide)

end Sol8.Ufs
