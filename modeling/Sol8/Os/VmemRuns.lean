import Sol8.Os.VmemInv

/-! Runs of an arena (`os/vmem.c`). -/

namespace Sol8.Os.Vmem

open Sol8.Lib Sol8.Lib.Tiling Function List Arena Nat

variable {prm : Params} {s s' : Arena} {hand hand' : List ℕ} {x : ℕ} {l₁ l₂ : List ℕ} {y : ℕ} {s1 : Arena}
  {xs : List ℕ}

theorem freelistDelete_arena : (s.vmemFreelistDelete prm x).arena = s.arena := rfl

theorem entry_congr (s : Arena) (hand : List ℕ) {l : List ℕ} (h : ∀ y ∈ l, (y ∈ hand' ↔ y ∈ hand) ∧ s'.seg y = s.seg y) :
    l.map (s'.entry hand') = l.map (s.entry hand) := by
  apply map_congr_left
  intro y hy
  simp only [entry, (h y hy).1, (h y hy).2]

theorem Inv.swap (h : Inv prm s (x :: y :: hand)) : Inv prm s (y :: x :: hand) := by
  have hmem : ∀ z, z ∈ x :: y :: hand ↔ z ∈ y :: x :: hand := by grind -ring -linarith
  have hn : s.entry (x :: y :: hand) = s.entry (y :: x :: hand) := by
    funext z
    simp only [entry, hmem]
  refine h.rework (d := []) (fun z _ => ⟨Iff.rfl, (hmem z).symm, rfl⟩) (by simp) rfl h.nodup
    ⟨h.segfree_nodup, h.segfree⟩ rfl (by simp) (by simp) ?_
  rw [← hn]
  exact h.walk

/-! ### Allocation within a free segment -/

section

variable (h : Inv prm s [x]) (he : s.arena = l₁ ++ x :: l₂)
include h he

theorem Inv.segAlloc_after (ha : Apart s [x] l₁ l₂) (hq : prm.quantum ∣ (s.seg x).stop) {p n : ℕ}
    (hp : prm.quantum ∣ p) (hap : (s.seg x).start < p) (hps : p < (s.seg x).stop)
    (hs1 : (s.setStop x p).vmemSegCreate (some x) p (s.seg x).stop .free = some (s1, n)) :
    Inv prm (s1.vmemFreelistInsert n) [x] ∧ (s1.vmemFreelistInsert n).arena = l₁ ++ x :: n :: l₂ ∧
      ¬ LastFree (l₁.map ((s1.vmemFreelistInsert n).entry [x])) ∧
      (s1.vmemFreelistInsert n).seg x = { s.seg x with stop := p } := by
  have hx : x ∈ s.arena := by simp [he]
  obtain ⟨h1, he1, hn, hg⟩ := h.cut he mem_cons_self (by simp) hp hap hps rfl (h.stop_le x hx) hs1
  have hne : n ≠ x := fun hnx => hn (hnx ▸ hx)
  have hs : s1.seg n = ⟨⟨p, (s.seg x).stop, .free⟩, false⟩ := by rw [hg, update_self]
  have ho : ∀ y ∈ s.arena, y ≠ x → s1.seg y = s.seg y := by
    intro y hy hyx
    have hyn : y ≠ n := fun hyn => hn (hyn ▸ hy)
    rw [hg, update_of_ne hyn]
    exact update_of_ne hyx ..
  obtain ⟨hx1, hx2⟩ := h.notMem he
  have hl1 : ∀ y ∈ l₁, y ∈ s.arena ∧ y ≠ x ∧ y ≠ n := by grind -ring -linarith
  have hl2 : ∀ y ∈ l₂, y ∈ s.arena ∧ y ≠ x ∧ y ≠ n := by grind -ring -linarith
  refine ⟨?_, he1, ?_, ?_⟩
  · apply h1.freelistInsert (he1.trans (append_cons ..)) (by simpa using hne)
    · constructor
      · simp [LastFree, entry]
      · rw [entry_congr s [x] (fun y hy => ?_)]
        · exact ha.2
        · obtain ⟨hya, hyx, hyn⟩ := hl2 y hy
          exact ⟨by simp [hyn], ho y hya hyx⟩
    · rw [hs]
      exact hq
  · rw [entry_congr s [x] (fun y hy => ?_)]
    · exact ha.1
    · obtain ⟨hya, hyx, hyn⟩ := hl1 y hy
      exact ⟨Iff.rfl, (update_of_ne hyn ..).trans (ho y hya hyx)⟩
  · refine (update_of_ne hne.symm ..).trans ?_
    rw [hg, update_of_ne hne.symm]
    exact update_self ..

theorem Inv.segAlloc_before (hl : ¬ LastFree (l₁.map (s.entry [x]))) {p t n : ℕ} (hp : prm.quantum ∣ p)
    (ha : (s.seg x).start < p) (hpt : p < t)
    (ht : roundUp prm.quantum t = roundUp prm.quantum (s.seg x).stop) (htp : t ≤ 2 ^ prm.w)
    (hs1 : (s.setStop x p).vmemSegCreate (some x) p t .used = some (s1, n)) :
    Inv prm (s1.vmemFreelistInsert x) [n] ∧ (s1.vmemFreelistInsert x).arena = (l₁ ++ [x]) ++ n :: l₂ ∧
      (s1.vmemFreelistInsert x).seg n = ⟨⟨p, t, .used⟩, false⟩ := by
  have hx : x ∈ s.arena := by simp [he]
  obtain ⟨h1, he1, hn, hg⟩ := h.cut he mem_cons_self (by simp) hp ha hpt ht htp hs1
  have hne : n ≠ x := fun hnx => hn (hnx ▸ hx)
  have hs : s1.seg x = { s.seg x with stop := p } := by
    rw [hg, update_of_ne hne.symm]
    exact update_self ..
  have hl1 : ∀ y ∈ l₁, y ≠ x ∧ y ≠ n := by
    have := (h.notMem he).1
    grind -ring -linarith
  refine ⟨?_, he1.trans (append_cons ..), ?_⟩
  · apply (h1.swap).freelistInsert he1 (by simpa using hne.symm)
    · constructor
      · rw [entry_congr s [x] (fun y hy => ?_)]
        · exact hl
        · obtain ⟨hyx, hyn⟩ := hl1 y hy
          rw [hg, update_of_ne hyn]
          exact ⟨by simp [hyn], update_of_ne hyx ..⟩
      · simp [HeadFree, entry]
    · rw [hs]
      exact hp
  · refine (update_of_ne hne ..).trans ?_
    rw [hg, update_self]

theorem Inv.splitAfter (ha : Apart s [x] l₁ l₂) (hq : prm.quantum ∣ (s.seg x).stop) {p : ℕ} (hp : prm.quantum ∣ p)
    (hap : (s.seg x).start < p) (hs : p ≤ (s.seg x).stop) (hs' : s.splitAfter x p = some s') :
    ∃ l, Inv prm s' [x] ∧ s'.arena = l₁ ++ x :: l ∧ ¬ LastFree (l₁.map (s'.entry [x])) ∧
      s'.seg x = { s.seg x with stop := p } := by
  unfold Arena.splitAfter at hs'
  split_ifs at hs' with hne
  · rw [Option.map_eq_some_iff] at hs'
    obtain ⟨⟨s1, n⟩, hs1, rfl⟩ := hs'
    exact ⟨_, h.segAlloc_after he ha hq hp hap (lt_of_le_of_ne hs (Ne.symm hne)) hs1⟩
  · cases hs'
    rw [← not_not.mp hne]
    exact ⟨l₂, h, he, ha.1, rfl⟩

theorem Inv.splitBefore (hl : ¬ LastFree (l₁.map (s.entry [x]))) {start t : ℕ} (hs : prm.quantum ∣ start)
    (hle : (s.seg x).start ≤ start) (hp : start < t)
    (ht : roundUp prm.quantum t = roundUp prm.quantum (s.seg x).stop) (htp : t ≤ 2 ^ prm.w)
    (hs' : s.splitBefore x start t = some (s', y)) :
    ∃ l₁ l₂, Inv prm s' [y] ∧ s'.arena = l₁ ++ y :: l₂ ∧ (s'.seg y).start = start ∧
      roundUp prm.quantum t = roundUp prm.quantum (s'.seg y).stop := by
  unfold Arena.splitBefore at hs'
  split_ifs at hs' with hne
  · rw [Option.map_eq_some_iff] at hs'
    obtain ⟨⟨s1, n⟩, hs1, hs'⟩ := hs'
    cases hs'
    obtain ⟨h', he', hg⟩ := h.segAlloc_before he hl hs (lt_of_le_of_ne hle hne) hp ht htp hs1
    exact ⟨_, _, h', he', by rw [hg], by rw [hg]⟩
  · cases hs'
    exact ⟨l₁, l₂, h, he, not_not.mp hne, ht⟩

theorem Inv.segAlloc (ha : Apart s [x] l₁ l₂) (hq : prm.quantum ∣ (s.seg x).stop) {start stop : ℕ}
    (hs : prm.quantum ∣ start) (hs' : s.vmemSegAlloc prm x start stop = some s') : Inv prm s' [] := by
  have hx : x ∈ s.arena := by simp [he]
  have htp := h.stop_le x hx
  unfold vmemSegAlloc at hs'
  simp only [ne_eq, Option.bind_eq_bind] at hs'
  split_ifs at hs' with hp
  simp only [Option.bind_eq_some_iff, Prod.exists] at hs'
  obtain ⟨s1, hs1, s2, y, hs2, hs'⟩ := hs'
  cases hs'
  have hr := le_roundUp (x := stop) prm.quantum_pos
  have hr' : roundUp prm.quantum stop ≤ (s.seg x).stop := roundUp_le prm.quantum_pos hq (by omega)
  obtain ⟨l, h1, he1, hl, hsg1⟩ := h.splitAfter he ha hq (dvd_roundUp _ stop) (by omega) hr' hs1
  have ht : roundUp prm.quantum stop = roundUp prm.quantum (s1.seg x).stop := by
    rw [hsg1]
    exact (roundUp_of_dvd prm.quantum_pos (dvd_roundUp _ _)).symm
  obtain ⟨m1, m2, h2, he2, hst2, ht2⟩ := h1.splitBefore he1 hl hs
    (by rw [hsg1]; dsimp only; omega) (by omega) ht (by omega) hs2
  have h3 := h2.setStop_trim he2 mem_cons_self (t := stop) (by omega) ht2 (by omega)
  exact h3.hashInsert he2 not_mem_nil

end

/-! ### Freeing -/

theorem Params.quantum_dvd (prm : Params) : prm.quantum ∣ 2 ^ prm.w := pow_dvd_pow 2 (le_of_lt prm.qshift_lt)

theorem headFree_cons (hy : y ∉ hand) : HeadFree ((y :: l₂).map (s.entry hand)) ↔ (s.seg y).kind = .free := by
  simp [HeadFree, entry, hy]

theorem lastFree_concat (hy : y ∉ hand) : LastFree ((l₁ ++ [y]).map (s.entry hand)) ↔ (s.seg y).kind = .free := by
  simp [LastFree, entry, hy]

section

variable (h : Inv prm s [x]) (he : s.arena = l₁ ++ x :: l₂)
include h he

theorem Inv.coalesceNext (hq : prm.quantum ∣ (s.seg x).stop) :
    ∃ l, Inv prm (s.coalesceNext prm x) [x] ∧ (s.coalesceNext prm x).arena = l₁ ++ x :: l ∧
      ¬ HeadFree (l.map ((s.coalesceNext prm x).entry [x])) ∧
      prm.quantum ∣ ((s.coalesceNext prm x).seg x).stop := by
  obtain ⟨hx1, hx2⟩ := h.notMem he
  unfold Arena.coalesceNext
  rw [he, Cursor.after_append fun hx => hx1 x hx rfl]
  cases l₂ with
  | nil => exact ⟨[], h, he, by simp [HeadFree], hq⟩
  | cons y l =>
    have hyx : y ≠ x := hx2 y mem_cons_self
    have hy : y ∉ [x] := by simpa using hyx
    have hya : y ∈ s.arena := by simp [he]
    dsimp only [List.head?_cons]
    split_ifs with hf
    · obtain ⟨h1, ha⟩ := h.freelistDelete (he.trans (append_cons ..)) hy hf
      obtain ⟨h2, he2⟩ := h1.join (freelistDelete_arena.trans he) mem_cons_self hy
      refine ⟨l, h2, he2, ?_, ?_⟩
      · rw [entry_congr (s.vmemFreelistDelete prm y) [y, x] (fun z hz => ?_)]
        · exact ha.2
        · have hzx := hx2 z (mem_cons_of_mem _ hz)
          have hzy : z ≠ y := by
            have := h.nodup
            grind -ring -linarith
          exact ⟨by simp [hzy], update_of_ne hzx ..⟩
      · have hs := (h.mem hya).2.2.2 hy (by simp [hf])
        simpa [vmemSegDestroy, setStop] using hs
    · exact ⟨y :: l, h, he, by rwa [headFree_cons hy], hq⟩

theorem Inv.coalescePrev (hh : ¬ HeadFree (l₂.map (s.entry [x]))) (hq : prm.quantum ∣ (s.seg x).stop)
    (hs' : s.coalescePrev prm x = (s', y)) : ∃ l, Inv prm s' [y] ∧ s'.arena = l ++ y :: l₂ ∧ Apart s' [y] l l₂ ∧
      prm.quantum ∣ (s'.seg y).stop := by
  obtain ⟨hx1, hx2⟩ := h.notMem he
  unfold Arena.coalescePrev at hs'
  rw [he, Cursor.before_append fun hx => hx1 x hx rfl] at hs'
  induction l₁ using List.reverseRecOn with
  | nil =>
    cases hs'
    exact ⟨[], h, he, ⟨by simp [LastFree], hh⟩, hq⟩
  | append_singleton l v _ =>
    have hvx : v ≠ x := hx1 v (by simp)
    have hv : v ∉ [x] := by simpa using hvx
    have he' : s.arena = l ++ v :: x :: l₂ := by simpa using he
    rw [List.getLast?_append_cons, List.getLast?_singleton] at hs'
    dsimp only at hs'
    split_ifs at hs' with hf
    · cases hs'
      obtain ⟨h1, ha⟩ := h.freelistDelete he' hv hf
      obtain ⟨h2, he2⟩ := h1.swap.join (freelistDelete_arena.trans he') mem_cons_self (by simpa using hvx.symm)
      have hnd := h.nodup
      refine ⟨l, h2, he2, ⟨?_, ?_⟩, ?_⟩
      · rw [entry_congr (s.vmemFreelistDelete prm y) [y, x] (fun z hz => ?_)]
        · exact ha.1
        · exact ⟨by grind -ring -linarith, update_of_ne (by grind) ..⟩
      · rw [entry_congr s [x] (fun z hz => ?_)]
        · exact hh
        · exact ⟨by grind -ring -linarith, update_of_ne (by grind) ..⟩
      · simpa [vmemSegDestroy, setStop] using hq
    · cases hs'
      exact ⟨l ++ [v], h, he, ⟨by rwa [lastFree_concat hv], hh⟩, hq⟩

end

/-- No segment comes before the first span marker. -/
theorem Inv.ne_nil (h : Inv prm s hand) (hx : x ∈ hand) (he : s.arena = l₁ ++ x :: l₂) : l₁ ≠ [] := by
  rintro rfl
  have hpos := (h.mem (x := x) (by simp [he])).1
  obtain ⟨c, hw, -⟩ := h.walk
  rw [he, nil_append] at hw
  cases hw with
  | marker hk => simp [entry, hx] at hk
  | segment _ hs =>
    simp only [entry, hx, if_true, anchor] at hs
    omega

theorem Inv.release (h : Inv prm s [x]) (he : s.arena = l₁ ++ x :: l₂) (ha : Apart s [x] l₁ l₂)
    (hq : prm.quantum ∣ (s.seg x).stop) : Inv prm (s.release prm x) [] := by
  have hx1 : x ∉ l₁ := fun hx => (h.notMem he).1 x hx rfl
  unfold Arena.release
  split_ifs with hf
  · obtain ⟨-, -, hp, hn⟩ := hf
    rw [aprevKind, he, Cursor.before_append hx1] at hp
    rw [anextKind, he, Cursor.after_append hx1] at hn
    have hne := h.ne_nil mem_cons_self he
    induction l₁ using List.reverseRecOn with
    | nil => exact absurd rfl hne
    | append_singleton l m _ =>
      rw [List.getLast?_append_cons] at hp
      rw [append_assoc] at he
      refine h.dropSpan he hp fun y hy => ?_
      rw [Option.mem_def.mp hy] at hn
      exact hn
  · exact h.freelistInsert he not_mem_nil ha hq

theorem Inv.xfree (h : Inv prm s []) {vaddr size : ℕ} (hs' : s.vmemXfree prm vaddr size = some s') : Inv prm s' [] := by
  unfold vmemXfree at hs'
  cases hd : s.vmemHashDelete prm vaddr size with
  | none => simp [hd] at hs'
  | some r =>
    obtain ⟨s1, x⟩ := r
    simp only [hd, Option.some.injEq] at hs'
    subst hs'
    obtain ⟨hx, h1⟩ := h.hashDelete hd
    obtain ⟨l₁, l₂, he⟩ := append_of_mem hx
    have hlt := (h1.mem hx).2.1
    have hr := le_roundUp (x := (s1.seg x).stop) prm.quantum_pos
    have h2 := h1.setStop_trim he mem_cons_self (t := roundUp prm.quantum (s1.seg x).stop)
      (by omega) (roundUp_of_dvd prm.quantum_pos (dvd_roundUp _ _))
      (roundUp_le prm.quantum_pos prm.quantum_dvd (h1.stop_le x hx))
    obtain ⟨l, h3, he3, hh, hq⟩ := h2.coalesceNext he (by
      simpa [setStop] using dvd_roundUp _ _)
    obtain ⟨l', h4, he4, ha, hq'⟩ := h3.coalescePrev he3 hh hq rfl
    exact h4.release he4 ha hq'

/-! ### New spans -/

section Words

variable {w k : ℕ} {x y z : BitVec w}

theorem toNat_pos (hy : y ≠ 0) : 0 < y.toNat :=
  Nat.pos_of_ne_zero fun h => hy (BitVec.eq_of_toNat_eq (by simpa using h))

theorem toNat_sub_one (hy : y ≠ 0) : (y - 1).toNat = y.toNat - 1 := by
  have hpos := toNat_pos hy
  have hw : 0 < w := by
    rcases w with - | w
    · omega
    · omega
  have ho : (1 : BitVec w).toNat = 1 := BitVec.toNat_one hw
  rw [BitVec.toNat_sub_of_le, ho]
  rw [BitVec.le_def, ho]
  exact hpos

theorem endNat_add (hy : y ≠ 0) (h : x.toNat + y.toNat ≤ 2 ^ w) : endNat (x + y) = x.toNat + y.toNat := by
  have hpos := toNat_pos hy
  rw [endNat, add_sub_assoc, BitVec.toNat_add, toNat_sub_one hy, mod_eq_of_lt (by omega)]
  omega

/-! Multiples of a power of two stay so under the operations of the search. -/

theorem and_mask_eq_zero_iff (hk : k < w) : x &&& (BitVec.ofNat w (2 ^ k) - 1) = 0 ↔ 2 ^ k ∣ x.toNat := by
  have hlt : 2 ^ k < 2 ^ w := Nat.pow_lt_pow_right (by omega) hk
  have hne : BitVec.ofNat w (2 ^ k) ≠ 0 := by
    intro h
    have := congrArg BitVec.toNat h
    rw [BitVec.toNat_ofNat, mod_eq_of_lt hlt] at this
    simp at this
  have hm : (BitVec.ofNat w (2 ^ k) - 1).toNat = 2 ^ k - 1 := by
    rw [toNat_sub_one hne, BitVec.toNat_ofNat, mod_eq_of_lt hlt]
  rw [dvd_iff_mod_eq_zero, ← and_two_pow_sub_one_eq_mod, ← hm, ← BitVec.toNat_and]
  exact ⟨fun h => by rw [h]; rfl, fun h => BitVec.eq_of_toNat_eq (by simpa using h)⟩

theorem dvd_toNat_or : 2 ^ k ∣ (x ||| y).toNat ↔ 2 ^ k ∣ x.toNat ∧ 2 ^ k ∣ y.toNat := by
  simp only [dvd_iff_mod_eq_zero, BitVec.toNat_or, or_mod_two_pow, or_eq_zero_iff]

theorem dvd_toNat_and (hy : 2 ^ k ∣ y.toNat) : 2 ^ k ∣ (x &&& y).toNat := by
  rw [dvd_iff_mod_eq_zero] at hy ⊢
  rw [BitVec.toNat_and, and_mod_two_pow, hy, and_zero]

variable (hk : k < w)
include hk

theorem dvd_toNat_neg (hx : 2 ^ k ∣ x.toNat) : 2 ^ k ∣ (-x).toNat := by
  have hw : 2 ^ k ∣ 2 ^ w := pow_dvd_pow 2 (le_of_lt hk)
  rw [BitVec.toNat_neg, dvd_mod_iff hw]
  exact dvd_sub hw hx

theorem dvd_toNat_add (hx : 2 ^ k ∣ x.toNat) (hy : 2 ^ k ∣ y.toNat) : 2 ^ k ∣ (x + y).toNat := by
  rw [BitVec.toNat_add, dvd_mod_iff (pow_dvd_pow 2 (le_of_lt hk))]
  exact Nat.dvd_add hx hy

theorem dvd_p2phaseup (hy : 2 ^ k ∣ y.toNat) (hz : 2 ^ k ∣ z.toNat) : 2 ^ k ∣ (p2phaseup x y z).toNat := by
  rw [p2phaseup, BitVec.sub_eq_add_neg]
  exact dvd_toNat_add hk hz (dvd_toNat_neg hk (dvd_toNat_and (dvd_toNat_neg hk hy)))

theorem dvd_p2roundup (hy : 2 ^ k ∣ y.toNat) : 2 ^ k ∣ (p2roundup x y).toNat :=
  dvd_toNat_neg hk (dvd_toNat_and (dvd_toNat_neg hk hy))

theorem dvd_endNat (hx : 2 ^ k ∣ x.toNat) : 2 ^ k ∣ endNat x := by
  by_cases h0 : x = 0
  · have : endNat x = 2 ^ w := by
      have ho : (1 : BitVec w).toNat = 1 := BitVec.toNat_one (by omega)
      rw [h0, endNat, zero_sub, BitVec.toNat_neg, mod_eq_of_lt] <;> omega
    rw [this]
    exact pow_dvd_pow 2 (le_of_lt hk)
  · rwa [endNat, toNat_sub_one h0, Nat.sub_add_cancel (toNat_pos h0)]

end Words

theorem Params.aligned_iff (prm : Params) (y : BitVec prm.w) :
    y &&& (BitVec.ofNat prm.w prm.quantum - 1) = 0 ↔ prm.quantum ∣ y.toNat :=
  and_mask_eq_zero_iff prm.qshift_lt

theorem Inv.setImport (h : Inv prm s []) (i : Bool) :
    Inv prm { s with seg := update s.seg x { s.seg x with vsImport := i } } [] := by
  set s' : Arena := { s with seg := update s.seg x { s.seg x with vsImport := i } } with hs'
  have hg : ∀ y, (s'.seg y).toEntry = (s.seg y).toEntry := by
    intro y
    by_cases hy : y = x
    all_goals simp [hs', hy]
  have ha : s'.arena = s.arena := rfl
  have hn : s'.entry [] = s.entry [] := by
    funext y
    simp only [entry, hg]
  have hf : s'.freeSize [] = s.freeSize [] := by
    funext y
    simp only [freeSize, hg, ha]
  have hu : s'.usedStart [] = s.usedStart [] := by
    funext y
    simp only [usedStart, hg, ha]
  have hs : s'.usedSize [] = s.usedSize [] := by
    funext y
    simp only [usedSize, hg]
  refine { h with inHand := by simp, walk := ?_, stop_le := ?_, freelist := ?_, hash := ?_, inuse := ?_ }
  · rw [hn]
    exact h.walk
  · intro y hy
    rw [hg]
    exact h.stop_le y hy
  · rw [hf]
    exact h.freelist
  · rw [hu]
    exact h.hash
  · rw [hs]
    exact h.inuse

theorem Inv.spanCreate (h : Inv prm s []) {vaddr size : BitVec prm.w} {i : Bool}
    (hv : vaddr ≠ 0) (hsz : size ≠ 0) (ht : vaddr.toNat + size.toNat ≤ 2 ^ prm.w)
    (hs' : s.vmemSpanCreate prm vaddr size i = some (s', x)) :
    Inv prm s' [] ∧ x ∈ s'.arena ∧ (s'.seg x).kind = .free := by
  unfold vmemSpanCreate at hs'
  simp only [ne_eq, Option.bind_eq_bind] at hs'
  split_ifs at hs' with hq
  simp only [Option.bind_eq_some_iff, Prod.exists] at hs'
  obtain ⟨s1, m, hs1, s2, n, hs2, hs'⟩ := hs'
  cases hs'
  rw [prm.aligned_iff, Params.quantum, dvd_toNat_or] at hq
  have hs := dvd_endNat prm.qshift_lt hq.2
  rw [endNat_add hsz ht] at hs1 hs2 hs
  have hpos := toNat_pos hsz
  obtain ⟨h1, he, hm, hg⟩ := h.addSpan (toNat_pos hv) (by omega) hq.1 hs ht hs1 hs2
  have hn : m ≠ x := by
    have := h1.nodup
    grind -ring -linarith
  have ha : Apart s2 [x] (s.arena ++ [m]) [] :=
    ⟨by rw [lastFree_concat (by simpa using hn), hm]; simp, by simp [HeadFree]⟩
  have h2 := h1.freelistInsert (he.trans (append_cons ..)) not_mem_nil ha (by rw [hg]; exact hs)
  refine ⟨h2.setImport i, ?_, ?_⟩
  · change x ∈ s2.arena
    simp [he]
  · simp [vmemFreelistInsert]

/-! ### The search for a free segment -/

section Search

variable {r : Request prm.w} {addr : BitVec prm.w}

/-- The request passes the check against the quantum. -/
def Request.Aligned (prm : Params) (r : Request prm.w) : Prop :=
  prm.quantum ∣ r.align.toNat ∧ prm.quantum ∣ r.phase.toNat

theorem fit_dvd (hr : r.Aligned prm) (h : s.fit prm r x = some addr) : prm.quantum ∣ addr.toNat := by
  unfold fit at h
  dsimp only at h
  have hp := fun y => dvd_p2phaseup (x := y) prm.qshift_lt hr.1 hr.2
  have hn := fun y => dvd_p2roundup (x := y) prm.qshift_lt hr.1
  split_ifs at h <;> cases h
  all_goals first
    | exact dvd_toNat_add prm.qshift_lt (hp _) (hn _)
    | exact hp _

theorem scan_spec {best : Option (ℕ × BitVec prm.w)} {b : ℕ × BitVec prm.w}
    (h : s.scan prm r best xs = some b) : best = some b ∨ b.1 ∈ xs ∧ s.fit prm r b.1 = some b.2 := by
  induction xs generalizing best with
  | nil => exact .inl h
  | cons x xs ih =>
    unfold scan at h
    cases hf : s.fit prm r x with
    | none =>
      rw [hf] at h
      exact (ih h).imp_right fun h => ⟨mem_cons_of_mem _ h.1, h.2⟩
    | some addr =>
      rw [hf] at h
      split_ifs at h
      · exact (ih h).imp_right fun h => ⟨mem_cons_of_mem _ h.1, h.2⟩
      · cases h
        exact .inr ⟨mem_cons_self, hf⟩
      · rcases ih h with hb | hb
        · cases hb
          exact .inr ⟨mem_cons_self, hf⟩
        · exact .inr ⟨mem_cons_of_mem _ hb.1, hb.2⟩

theorem Inv.search_spec (h : Inv prm s []) (hr : r.Aligned prm) (hs : s.search prm r = some (x, addr)) :
    x ∈ s.arena ∧ (s.seg x).kind = .free ∧ prm.quantum ∣ addr.toNat := by
  obtain ⟨n, -, hc⟩ := exists_of_findSome?_eq_some hs
  rcases scan_spec hc with hb | ⟨hx, hf⟩
  · cases hb
  · obtain ⟨ha, -, hk⟩ := h.of_mem_freelist hx
    exact ⟨ha, hk, fit_dvd hr hf⟩

theorem Inv.alloc (h : Inv prm s []) (hx : x ∈ s.arena) (hk : (s.seg x).kind = .free) {start stop : ℕ}
    (hs : prm.quantum ∣ start)
    (hs' : (s.vmemFreelistDelete prm x).vmemSegAlloc prm x start stop = some s') : Inv prm s' [] := by
  obtain ⟨l₁, l₂, he⟩ := append_of_mem hx
  obtain ⟨h1, ha⟩ := h.freelistDelete he not_mem_nil hk
  exact h1.segAlloc he ha ((h.mem hx).2.2.2 not_mem_nil (by simp [hk])) hs hs'

theorem Inv.xalloc (h : Inv prm s []) {imported : Option (BitVec prm.w)}
    (hi : ∀ vaddr ∈ imported, vaddr ≠ 0 ∧ r.asize prm ≠ 0 ∧ vaddr.toNat + (r.asize prm).toNat ≤ 2 ^ prm.w)
    (hs' : s.vmemXalloc prm r imported = some s') : Inv prm s' [] := by
  unfold vmemXalloc at hs'
  have hr (hm : ¬ (r.align ||| r.phase ||| r.nocross) &&& (BitVec.ofNat prm.w prm.quantum - 1) ≠ 0) :
      r.Aligned prm := by
    rw [not_not, prm.aligned_iff, Params.quantum, dvd_toNat_or, dvd_toNat_or] at hm
    exact hm.1
  cases hb : s.search prm r with
  | some b =>
    rw [hb] at hs'
    dsimp only at hs'
    split_ifs at hs' with hs hm hcr
    obtain ⟨hx, hk, hq⟩ := h.search_spec (hr hm) hb
    exact h.alloc hx hk hq hs'
  | none =>
    rw [hb] at hs'
    split_ifs at hs' with hs hm hcr
    · cases imported with
      | none =>
        cases hs'
        exact h
      | some vaddr =>
        obtain ⟨hv, ha, ht⟩ := hi vaddr rfl
        dsimp only at hs'
        cases hc : s.vmemSpanCreate prm vaddr (r.asize prm) true with
        | none => simp [hc] at hs'
        | some q =>
          rw [hc] at hs'
          obtain ⟨h1, hx, hk⟩ := h.spanCreate hv ha ht hc
          exact h1.alloc hx hk (dvd_p2phaseup prm.qshift_lt (hr hm).1 (hr hm).2) hs'
    · cases hs'
      exact h

end Search

/-! ### Rehashing -/

theorem hashIndex_le (shift mask addr : ℕ) : hashIndex prm shift mask addr ≤ mask := by
  unfold hashIndex
  exact le_trans and_le_right (mod_le _ _)

theorem Inv.mem_chains (h : Inv prm s []) (y : ℕ) :
    y ∈ (List.range (s.hashMask + 1)).flatMap s.hashTable ↔ y ∈ s.arena ∧ (s.seg y).kind = .used := by
  rw [mem_flatMap]
  constructor
  · rintro ⟨n, -, hy⟩
    exact h.of_mem_hashTable hy
  · rintro ⟨hy, hk⟩
    refine ⟨_, ?_, h.hash.mem (x := (s.seg y).start) (by simp [usedStart, hy, hk])⟩
    rw [mem_range]
    exact lt_succ_of_le (hashIndex_le _ _ _)

theorem Inv.rescale (h : Inv prm s []) (ok : Bool) : Inv prm (s.vmemHashRescale prm ok) [] := by
  unfold vmemHashRescale
  dsimp only
  split_ifs
  · exact h
  · have hh : s.usedStart [] = fun y =>
        if y ∈ (List.range (s.hashMask + 1)).flatMap s.hashTable then some (s.seg y).start else none := by
      funext y
      simp only [usedStart, h.mem_chains, not_mem_nil, not_false_eq_true, true_and]
    refine { h with hash := ?_ }
    change Chained _ (s.usedStart []) _
    rw [hh]
    exact Chained.rebuild (h.hash.nodup_flatMap _) _ _

/-! ### Runs -/

/-- A range that is given to the arena lies in the address space. -/
def Event.Legal (prm : Params) : Event prm → Prop
  | .add vaddr size => vaddr.toNat + size.toNat ≤ 2 ^ prm.w
  | .xalloc r imported => ∀ vaddr ∈ imported, vaddr ≠ 0 ∧ r.asize prm ≠ 0 ∧
      vaddr.toNat + (r.asize prm).toNat ≤ 2 ^ prm.w
  | .populate _ | .xfree _ _ | .rescale _ => True

def Start (s : Arena) : Prop := s = vmemCreate

def Step (prm : Params) (s s' : Arena) : Prop := ∃ e : Event prm, e.Legal prm ∧ s.exec prm e = some s'

theorem Inv.create : Inv prm vmemCreate [] where
  nodup := nodup_nil
  segfree_nodup := nodup_nil
  segfree := by simp [vmemCreate]
  inHand := by simp
  walk := ⟨anchor, .nil _, rfl⟩
  stop_le := by simp [vmemCreate]
  freelist := Chained.empty _
  freemap := by simp [vmemCreate]
  hash := Chained.empty _
  inuse := rfl

theorem Inv.populate (h : Inv prm s []) (hs : xs.Nodup) (hn : ∀ x ∈ xs, x ∉ s.arena ∧ x ∉ s.segfree) :
    Inv prm { s with segfree := xs ++ s.segfree } [] := by
  refine { h with segfree_nodup := ?_, segfree := ?_ }
  · rw [nodup_append]
    exact ⟨hs, h.segfree_nodup, fun x hx y hy hxy => (hn x hx).2 (hxy ▸ hy)⟩
  · intro x hx
    rcases mem_append.mp hx with hx | hx
    · exact (hn x hx).1
    · exact h.segfree x hx

theorem Inv.exec (h : Inv prm s []) {e : Event prm} (he : e.Legal prm)
    (hs' : s.exec prm e = some s') : Inv prm s' [] := by
  cases e with
  | populate xs =>
    simp only [Arena.exec] at hs'
    split_ifs at hs' with hs
    cases hs'
    exact h.populate hs.1 hs.2
  | add vaddr size =>
    simp only [Arena.exec, Arena.vmemAdd] at hs'
    split_ifs at hs' with h0
    rw [not_or] at h0
    obtain ⟨⟨s1, x⟩, hs1, rfl⟩ := Option.map_eq_some_iff.mp hs'
    exact (h.spanCreate h0.1 h0.2 he hs1).1
  | xalloc r imported => exact h.xalloc he hs'
  | xfree vaddr size => exact h.xfree hs'
  | rescale ok =>
    cases hs'
    exact h.rescale ok

theorem inv_of_reachable (h : Reachable Start (Step prm) s) : Inv prm s [] := by
  refine Reachable.invariant (P := fun s => Inv prm s []) ?_ ?_ h
  · rintro _ rfl
    exact Inv.create
  · rintro s s' hi ⟨e, hl, he⟩
    exact hi.exec hl he

/-- The lists, the bitmap, the hash table and the count agree. -/
structure Consistent (prm : Params) (s : Arena) : Prop where
  /-- The segments between two span markers tile the span. -/
  tiled : ∀ l₁ m segs l₂, s.arena = l₁ ++ m :: (segs ++ l₂) → (s.seg m).kind = .marker →
    (∀ x ∈ segs, (s.seg x).kind ≠ .marker) → (∀ x ∈ l₂.head?, (s.seg x).kind = .marker) →
    Tiles prm.quantum (s.seg m).start (s.seg m).stop (segs.map fun x => (s.seg x).toEntry)
  /-- Every segment is in a span. -/
  head : ∀ x ∈ s.arena.head?, (s.seg x).kind = .marker
  nodup : s.arena.Nodup
  coalesced : ∀ l₁ x y l₂, s.arena = l₁ ++ x :: y :: l₂ → ¬ ((s.seg x).kind = .free ∧ (s.seg y).kind = .free)
  freelist : ∀ x n, x ∈ s.freelist n ↔ x ∈ s.arena ∧ (s.seg x).kind = .free ∧ highbit (s.seg x).size - 1 = n
  freelist_nodup : ∀ n, (s.freelist n).Nodup
  freemap : ∀ n, s.freemap.testBit n = true ↔ s.freelist n ≠ []
  hash : ∀ x n, x ∈ s.hashTable n ↔ x ∈ s.arena ∧ (s.seg x).kind = .used ∧
    hashIndex prm s.hashShift s.hashMask (s.seg x).start = n
  hash_nodup : ∀ n, (s.hashTable n).Nodup
  inuse : s.memInuse = ((s.arena.filter fun x => (s.seg x).kind = .used).map fun x => (s.seg x).size).sum

theorem Inv.consistent (h : Inv prm s []) : Consistent prm s := by
  obtain ⟨c, hw, hc⟩ := h.walk
  have hn : s.entry [] = fun x => (s.seg x).toEntry := by
    funext x
    simp [entry]
  rw [hn] at hw
  refine ⟨?_, ?_, h.nodup, ?_, ?_, h.freelist.nodup, h.freemap, ?_, h.hash.nodup, ?_⟩
  · intro l₁ m segs l₂ he hm hg hl2
    rw [he, map_append, map_cons, map_append] at hw
    refine hw.tiles prm.quantum_pos hc hm (by simpa using hg) fun e he => ?_
    rw [List.head?_map, Option.mem_map] at he
    obtain ⟨y, hy, rfl⟩ := he
    exact hl2 y hy
  · intro x hx
    cases ha : s.arena with
    | nil => simp [ha] at hx
    | cons y l =>
      rw [ha, List.head?_cons, Option.mem_some_iff] at hx
      subst hx
      have hpos := (h.mem (x := y) (by simp [ha])).1
      rw [ha] at hw
      cases hw with
      | marker hk => exact hk
      | segment _ hs =>
        simp only [anchor] at hs
        omega
  · rintro l₁ x y l₂ he ⟨hx, hy⟩
    rw [he, map_append] at hw
    exact (hw.use rfl hx).2.2 ⟨_, rfl, hy⟩
  · intro x n
    rw [h.freelist.mem_iff]
    simp [freeSize, and_assoc]
  · intro x n
    rw [h.hash.mem_iff]
    simp [usedStart, and_assoc]
  · rw [h.inuse, ← sum_map_filter (fun x => (s.seg x).kind = .used)]
    · congr 1
      apply map_congr_left
      intro x hx
      have hk : (s.seg x).kind = .used := by simpa using (mem_filter.mp hx).2
      simp [usedSize, hk]
    · intro x _ hx
      have hk : (s.seg x).kind ≠ .used := by simpa using hx
      simp [usedSize, hk]

/-- Whatever is added, allocated, freed and rehashed, the arena stays consistent. -/
theorem consistent_of_reachable (h : Reachable Start (Step prm) s) : Consistent prm s :=
  (inv_of_reachable h).consistent

/-- An arena of 16-bit addresses in units of 16 that imports from no other. -/
def smallParams : Params := ⟨16, 4, by decide, false, false, 0⟩

/-- Five segment structures and a span from 256 to 512; two allocations, one of them out of the middle
of a free segment, and one of them freed again. -/
def smallRun : List { e : Event smallParams // e.Legal smallParams } :=
  [⟨.populate [0, 1, 2, 3, 4], trivial⟩, ⟨.add (256#16) (256#16), by change 256 + 256 ≤ 65536; decide⟩,
    ⟨.xalloc ⟨20#16, 64#16, 16#16, 0, 0, 0, false⟩ none, by simp [Event.Legal]⟩,
    ⟨.xalloc ⟨16#16, 16#16, 0, 0, 0, 0, false⟩ none, by simp [Event.Legal]⟩,
    ⟨.xfree 272 20, trivial⟩,
    ⟨.rescale true, trivial⟩]

theorem consistent_of_reachable_smallRun : ∃ s, Reachable Start (Step smallParams) s ∧
    s.memInuse = 16 ∧ Consistent smallParams s := by
  have hr : (runList (fun s e => s.exec smallParams e.1) vmemCreate smallRun).map
      (fun s => s.memInuse) = some 16 := by decide
  obtain ⟨s, hs, hu⟩ := Option.map_eq_some_iff.mp hr
  have h : Reachable Start (Step smallParams) s :=
    Reachable.runList (fun s e s' he => ⟨e.1, e.2, he⟩) (.start rfl) hs
  exact ⟨s, h, hu, consistent_of_reachable h⟩

end Sol8.Os.Vmem
