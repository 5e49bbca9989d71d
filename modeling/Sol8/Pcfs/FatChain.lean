import Sol8.Lib.Chain
import Sol8.Pcfs.FatEntry

/-! The cluster chains of the files, and what the loops of the allocator do to them. -/

namespace Sol8.Pcfs

open Function Sol8.Lib.Chain

variable {v : Volume} {e e' : ℕ → ℕ} {fs fs' : Fs} {cn x y : ℕ} {l l1 l2 : List ℕ} {n : ℕ}

/-! ### Chains -/

namespace Volume

/-- A cluster number, or the end of a chain. -/
def link (v : Volume) (cn : ℕ) : Option ℕ := if v.pcValidcl cn then some cn else none

/-- The chain of a file from its first cluster on, with a last mark at its end. -/
structure Chained (v : Volume) (e : ℕ → ℕ) (start : ℕ) (l : List ℕ) : Prop where
  spells : Spells (fun cn => v.link (e cn)) (v.link start) l
  last : ∀ x, l.getLast? = some x → v.isLast (e x) = true

theorem link_eq_some : v.link x = some y ↔ v.pcValidcl x = true ∧ x = y := by
  unfold link
  split <;> simp_all

theorem link_valid (h : v.pcValidcl x = true) : v.link x = some x := if_pos h

theorem link_invalid (h : v.pcValidcl x = false) : v.link x = none := if_neg (by simp [h])

theorem link_update (e : ℕ → ℕ) (x y : ℕ) :
    (fun cn => v.link (update e x y cn)) = update (fun cn => v.link (e cn)) x (v.link y) := by
  funext cn
  by_cases h : cn = x
  · subst h
    simp
  · simp [h]

theorem isLast_zero : v.isLast 0 = false := by
  cases h : v.kind <;> simp only [isLast, h] <;> decide

theorem link_stored_lastMark (hr : v.Readable) : v.link (v.stored v.lastMark) = none :=
  link_invalid (not_valid_of_isLast hr stored_lastMark.1)

end Volume

open Volume

theorem valid_of_spells (h : Spells (fun cn => v.link (e cn)) (v.link cn) l) : ∀ x ∈ l, v.pcValidcl x = true := by
  induction l generalizing cn with
  | nil => nofun
  | cons a l ih =>
    obtain ⟨hv, rfl⟩ := link_eq_some.mp h.1
    exact List.forall_mem_cons.mpr ⟨hv, ih h.2⟩

namespace Volume.Chained

variable {start : ℕ}

section

variable (h : v.Chained e start l)
include h

theorem valid : ∀ x ∈ l, v.pcValidcl x = true := valid_of_spells h.spells

theorem ne_free (hx : x ∈ l) : e x ≠ 0 := by
  obtain ⟨l1, l2, rfl⟩ := List.append_of_mem hx
  intro h0
  cases l2 with
  | nil =>
    have := h.last x (by simp)
    rw [h0, isLast_zero] at this
    cases this
  | cons b l2 =>
    have hb := link_eq_some.mp h.spells.next_eq
    rw [h0] at hb
    exact nomatch hb.1

theorem congr (he : ∀ x ∈ l, e' x = e x) : v.Chained e' start l where
  spells := h.spells.congr fun x hx => by rw [he x hx]
  last x hx := by
    rw [he x (List.mem_of_getLast? hx)]
    exact h.last x hx

theorem length_le : l.length ≤ v.ncluster := by
  have hsub : l.toFinset ⊆ Finset.Ico pcfFirstcluster (v.ncluster + pcfFirstcluster) := by
    intro x hx
    have := h.valid x (List.mem_toFinset.mp hx)
    simpa [pcValidcl] using this
  have hc := Finset.card_le_card hsub
  rwa [List.toFinset_card_of_nodup h.spells.nodup, Nat.card_Ico] at hc

end

theorem single (hr : v.Readable) (hx : v.pcValidcl x = true) : v.Chained (update e x (v.stored v.lastMark)) x [x] where
  spells := by
    refine ⟨link_valid hx, ?_⟩
    show v.link _ = none
    rw [update_self]
    exact link_stored_lastMark hr
  last y hy := by
    obtain rfl : x = y := by simpa using hy
    rw [update_self]
    exact stored_lastMark.1

theorem extend (hr : v.Readable) (h : v.Chained e start (l ++ [y])) (hx : v.pcValidcl x = true) (hf : e x = 0) :
    v.Chained (update (update e x (v.stored v.lastMark)) y (v.stored x)) start (l ++ [y] ++ [x]) := by
  have hn : x ∉ l ++ [y] := fun hmem => h.ne_free hmem hf
  have hne : x ≠ y := fun hxy => hn (by simp [hxy])
  constructor
  case spells =>
    rw [link_update, link_update, link_stored_lastMark hr, stored_valid hr hx, link_valid hx]
    exact h.spells.snoc (by simp) hn
  case last =>
    intro z hz
    obtain rfl : x = z := by simpa using hz
    rw [update_of_ne hne, update_self]
    exact stored_lastMark.1

end Volume.Chained

/-! ### The counters -/

def freeCount (v : Volume) (e : ℕ → ℕ) : ℕ :=
  ((Finset.Ico pcfFirstcluster (v.ncluster + pcfFirstcluster)).filter fun cn => e cn = 0).card

theorem mem_Ico_of_valid (h : v.pcValidcl x = true) : x ∈ Finset.Ico pcfFirstcluster (v.ncluster + pcfFirstcluster) := by
  simpa [pcValidcl] using h

theorem freeCount_free (h : v.pcValidcl x = true) (hx : e x ≠ 0) : freeCount v (update e x 0) = freeCount v e + 1 := by
  have hin : (Finset.Ico pcfFirstcluster (v.ncluster + pcfFirstcluster)).filter (fun cn => update e x 0 cn = 0) =
      insert x ((Finset.Ico pcfFirstcluster (v.ncluster + pcfFirstcluster)).filter fun cn => e cn = 0) := by
    ext cn
    by_cases hc : cn = x
    · subst hc
      simpa using mem_Ico_of_valid h
    · simp [hc]
  rw [freeCount, hin, Finset.card_insert_of_notMem (by simp [hx]), freeCount]

theorem freeCount_used (hx : e x ≠ 0) (hy : y ≠ 0) : freeCount v (update e x y) = freeCount v e := by
  unfold freeCount
  congr 1
  ext cn
  by_cases hc : cn = x
  · subst hc
    simp [hx, hy]
  · simp [hc]

theorem freeCount_take (h : v.pcValidcl x = true) (hx : e x = 0) (hy : y ≠ 0) :
    freeCount v (update e x y) + 1 = freeCount v e := by
  have hb := freeCount_free (e := update e x y) h (by simpa using hy)
  rw [update_idem, ← hx, update_eq_self] at hb
  exact hb.symm

theorem freeCount_le : freeCount v e ≤ v.ncluster := by
  have := Finset.card_filter_le (Finset.Ico pcfFirstcluster (v.ncluster + pcfFirstcluster)) fun cn => e cn = 0
  rwa [Nat.card_Ico] at this

theorem ncluster_lt (v : Volume) : v.ncluster < 2 ^ 31 := by
  obtain ⟨k, -, hk⟩ := v.clsize_pow
  have hpos : 0 < v.clsize := hk ▸ Nat.two_pow_pos k
  exact (Nat.le_mul_of_pos_right _ hpos).trans_lt v.small

/-- No cluster below `pcfs_nxfrecls` is free, and `fs_free_clusters` counts the free ones. -/
structure Counters (v : Volume) (fs : Fs) : Prop where
  nxfrecls : pcfFirstcluster ≤ fs.nxfrecls
  below : ∀ cn, v.pcValidcl cn = true → cn < fs.nxfrecls → v.entry fs.fatp cn ≠ 0
  count : v.kind = .fat32 → fs.freeClusters ≠ fsinfoUnknown → fs.freeClusters = freeCount v (v.entry fs.fatp)

theorem freeCount_ne_unknown : freeCount v e + 1 < fsinfoUnknown := by
  have h1 := freeCount_le (v := v) (e := e)
  have h2 := ncluster_lt v
  simp only [fsinfoUnknown]
  omega

namespace Counters

section

variable (h : Counters v fs)
include h

section

variable (hx : v.pcValidcl x = true) (hused : v.entry fs.fatp x ≠ 0)
include hx hused

theorem free : ∃ fs', v.pcSetcluster fs x pcfFreecluster = some fs' ∧ v.entry fs'.fatp = update (v.entry fs.fatp) x 0 ∧
      Counters v fs' := by
  have hn : v.entry (v.store fs.fatp x pcfFreecluster) = update (v.entry fs.fatp) x 0 := by
    rw [entry_store, stored_free]
    rfl
  have hb (cn : ℕ) (hv : v.pcValidcl cn = true) (hlt : cn < pcfFirstcluster) : False := by
    rw [pcValidcl_iff] at hv
    omega
  simp only [pcSetcluster, if_pos hx, if_true]
  split_ifs with hk
  · refine ⟨_, rfl, hn, le_rfl, fun cn hv hlt => (hb cn hv hlt).elim, fun _ _ => ?_⟩
    have hs := freeCount_ne_unknown (v := v) (e := v.entry fs.fatp)
    simp only [fsinfoUnknown] at hs
    rw [hn, freeCount_free hx hused, h.count hk.1 hk.2]
    exact Nat.mod_eq_of_lt (by omega)
  · exact ⟨_, rfl, hn, le_rfl, fun cn hv hlt => (hb cn hv hlt).elim, fun h32 hne => absurd ⟨h32, hne⟩ hk⟩

theorem relink (hy : y ≠ pcfFreecluster) (hs : v.stored y ≠ 0) :
    ∃ fs', v.pcSetcluster fs x y = some fs' ∧ v.entry fs'.fatp = update (v.entry fs.fatp) x (v.stored y) ∧
      Counters v fs' := by
  have hn := entry_store (v := v) fs.fatp x y
  simp only [pcSetcluster, if_pos hx, if_neg hy]
  refine ⟨_, rfl, hn, h.nxfrecls, fun cn hv hlt => ?_, fun h32 hne => ?_⟩
  · rw [hn]
    by_cases hc : cn = x
    · rw [hc, update_self]
      exact hs
    · rw [update_of_ne hc]
      exact h.below cn hv hlt
  · rw [hn, freeCount_used hused hs]
    exact h.count h32 hne

end

theorem take (hv : v.pcValidcl cn = true) (hf : v.entry fs.fatp cn = 0)
    (hb : ∀ x, v.pcValidcl x = true → x < cn → v.entry fs.fatp x ≠ 0) :
    ∃ fs', v.pcAllocLoop fs (n + 1) cn = some (fs', cn) ∧
      v.entry fs'.fatp = update (v.entry fs.fatp) cn (v.stored v.lastMark) ∧ Counters v fs' := by
  have hm := stored_lastMark (v := v)
  have hn : v.entry (v.store fs.fatp cn v.lastMark) = update (v.entry fs.fatp) cn (v.stored v.lastMark) :=
    entry_store ..
  have hge : pcfFirstcluster ≤ cn + 1 := by
    rw [pcValidcl_iff] at hv
    omega
  have hused (x : ℕ) (hx : v.pcValidcl x = true) (hlt : x < cn + 1) : v.entry (v.store fs.fatp cn v.lastMark) x ≠ 0 := by
    rw [hn]
    by_cases hc : x = cn
    · rw [hc, update_self]
      exact hm.2
    · rw [update_of_ne hc]
      exact hb x hx (by omega)
  have ht : freeCount v (v.entry (v.store fs.fatp cn v.lastMark)) + 1 = freeCount v (v.entry fs.fatp) := by
    rw [hn]
    exact freeCount_take hv hf hm.2
  have hf' : v.entry fs.fatp cn = pcfFreecluster := hf
  simp only [pcAllocLoop, pcGetcluster, pcSetcluster, if_pos hv, if_neg lastMark_ne_free, Option.bind_eq_bind, Option.bind_some,
    if_pos hf']
  split_ifs with hk
  · refine ⟨_, rfl, hn, hge, hused, fun _ _ => ?_⟩
    have ho := h.count hk.1 hk.2
    have hs := freeCount_ne_unknown (v := v) (e := v.entry fs.fatp)
    simp only [fsinfoUnknown] at hs
    show (fs.freeClusters + (2 ^ 32 - 1)) % 2 ^ 32 = freeCount v (v.entry (v.store fs.fatp cn v.lastMark))
    omega
  · exact ⟨_, rfl, hn, hge, hused, fun h32 hne => absurd ⟨h32, hne⟩ hk⟩

theorem allocLoop (hn : n = v.ncluster + pcfFirstcluster - cn) (hcn : pcfFirstcluster ≤ cn)
    (hb : ∀ x, v.pcValidcl x = true → x < cn → v.entry fs.fatp x ≠ 0) :
    (v.pcAllocLoop fs n cn = some (fs, pcfFreecluster) ∧ ∀ x, v.pcValidcl x = true → v.entry fs.fatp x ≠ 0) ∨
    ∃ fs' x, v.pcAllocLoop fs n cn = some (fs', x) ∧ v.pcValidcl x = true ∧ v.entry fs.fatp x = 0 ∧
      v.entry fs'.fatp = update (v.entry fs.fatp) x (v.stored v.lastMark) ∧ Counters v fs' := by
  induction n generalizing cn with
  | zero =>
    refine .inl ⟨rfl, fun x hx => hb x hx ?_⟩
    rw [pcValidcl_iff] at hx
    omega
  | succ n ih =>
    have hv : v.pcValidcl cn = true := by
      rw [pcValidcl_iff]
      omega
    by_cases hf : v.entry fs.fatp cn = 0
    · obtain ⟨fs', hl, hen, hc⟩ := h.take (n := n) hv hf hb
      exact .inr ⟨fs', cn, hl, hv, hf, hen, hc⟩
    · have hnx : ∀ x, v.pcValidcl x = true → x < cn + 1 → v.entry fs.fatp x ≠ 0 := by
        intro x hx hlt
        rcases Nat.lt_succ_iff_lt_or_eq.mp hlt with hlt | rfl
        · exact hb x hx hlt
        · exact hf
      have hs : v.pcAllocLoop fs (n + 1) cn = v.pcAllocLoop fs n (cn + 1) := by
        simp [pcAllocLoop, pcGetcluster, hv, pcfFreecluster, hf]
      rw [hs]
      exact ih (by omega) (by omega) hnx

theorem alloccluster :
    (v.pcAlloccluster fs = some (fs, pcfFreecluster) ∧ ∀ x, v.pcValidcl x = true → v.entry fs.fatp x ≠ 0) ∨
    ∃ fs' x, v.pcAlloccluster fs = some (fs', x) ∧ v.pcValidcl x = true ∧ v.entry fs.fatp x = 0 ∧
      v.entry fs'.fatp = update (v.entry fs.fatp) x (v.stored v.lastMark) ∧ Counters v fs' :=
  h.allocLoop rfl h.nxfrecls h.below

end

end Counters

/-! ### The loops over a chain -/

theorem pcFileclsize_eq (h : Spells (fun cn => v.link (v.entry fs.fatp cn)) (v.link cn) l) (hn : l.length < n) :
    v.pcFileclsize fs n cn = some l.length := by
  induction l generalizing cn n with
  | nil =>
    obtain _ | n := n
    · simp at hn
    have hv : ¬ v.pcValidcl cn = true := fun hv => by
      have := h.head
      rw [link_valid hv] at this
      cases this
    simp [pcFileclsize, hv]
  | cons a l ih =>
    obtain _ | n := n
    · simp at hn
    obtain ⟨hv, rfl⟩ := link_eq_some.mp h.1
    simp only [pcFileclsize, if_pos hv, pcGetcluster, Option.bind_eq_bind, Option.bind_some,
      ih h.2 (by simpa using hn), List.length_cons]

theorem bfreeLoop_free (hc : Counters v fs) (h : Spells (fun cn => v.link (v.entry fs.fatp cn)) (v.link cn) l)
    (hused : ∀ x ∈ l, v.entry fs.fatp x ≠ 0) :
    ∃ fs', v.pcBfreeLoop .reg l.length fs cn 0 = some (fs', .ok ()) ∧ Counters v fs' ∧
      (∀ x ∈ l, v.entry fs'.fatp x = 0) ∧ ∀ x, x ∉ l → v.entry fs'.fatp x = v.entry fs.fatp x := by
  induction l generalizing fs cn with
  | nil => exact ⟨fs, rfl, hc, nofun, fun _ _ => rfl⟩
  | cons a l ih =>
    have hn := List.nodup_cons.mp h.nodup
    obtain ⟨hv, rfl⟩ := link_eq_some.mp h.1
    obtain ⟨fs1, ht, hen, hc1⟩ := hc.free hv (hused cn List.mem_cons_self)
    have hs (x : ℕ) (hx : x ∈ l) : v.entry fs1.fatp x = v.entry fs.fatp x := by
      rw [hen, update_of_ne (ne_of_mem_of_not_mem hx hn.1)]
    obtain ⟨fs', hl, hc', hg, hf⟩ := ih hc1 (h.2.congr fun x hx => by rw [hs x hx]) fun x hx => by
      rw [hs x hx]
      exact hused x (List.mem_cons_of_mem _ hx)
    refine ⟨fs', ?_, hc', ?_, ?_⟩
    · simp [pcBfreeLoop, pcGetcluster, hv, ht, hl]
    · refine List.forall_mem_cons.mpr ⟨?_, hg⟩
      rw [hf cn hn.1, hen, update_self]
    · intro x hx
      rw [List.mem_cons, not_or] at hx
      rw [hf x hx.2, hen, update_of_ne hx.1]

theorem bfreeLoop_cut (hc : Counters v fs) (h : Spells (fun cn => v.link (v.entry fs.fatp cn)) (v.link cn) (l1 ++ y :: l2))
    (hused : ∀ x ∈ l1 ++ y :: l2, v.entry fs.fatp x ≠ 0) :
    ∃ fs', v.pcBfreeLoop .reg (l1 ++ y :: l2).length fs cn (l1.length + 1) = some (fs', .ok ()) ∧ Counters v fs' ∧
      v.entry fs'.fatp y = v.stored v.lastMark ∧ (∀ x ∈ l2, v.entry fs'.fatp x = 0) ∧
      ∀ x, x ≠ y → x ∉ l2 → v.entry fs'.fatp x = v.entry fs.fatp x := by
  induction l1 generalizing cn with
  | nil =>
    have hn := List.nodup_cons.mp h.nodup
    obtain ⟨hv, rfl⟩ := link_eq_some.mp h.1
    obtain ⟨fs1, ht, hen, hc1⟩ := hc.relink hv (hused cn (by simp)) lastMark_ne_free stored_lastMark.2
    have hs (x : ℕ) (hx : x ∈ l2) : v.entry fs1.fatp x = v.entry fs.fatp x := by
      rw [hen, update_of_ne (ne_of_mem_of_not_mem hx hn.1)]
    obtain ⟨fs', hl, hc', hg, hf⟩ := bfreeLoop_free hc1 (h.2.congr fun x hx => by rw [hs x hx]) fun x hx => by
      rw [hs x hx]
      exact hused x (by simp [hx])
    refine ⟨fs', ?_, hc', ?_, hg, fun x hx hx' => ?_⟩
    · simp [pcBfreeLoop, pcGetcluster, hv, ht, hl]
    · rw [hf cn hn.1, hen, update_self]
    · rw [hf x hx', hen, update_of_ne hx]
  | cons a l1 ih =>
    obtain ⟨hv, rfl⟩ := link_eq_some.mp h.1
    obtain ⟨fs', hl, hr⟩ := ih h.2 fun x hx => hused x (by simp_all)
    refine ⟨fs', ?_, hr⟩
    simp only [List.cons_append, List.length_cons, pcBfreeLoop, pcGetcluster, hv]
    simpa using hl

end Sol8.Pcfs
