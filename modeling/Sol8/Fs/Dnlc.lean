import Mathlib

/-! The purge of a file system from the directory name lookup cache (`dnlc_purge_vfsp`, `fs/dnlc.c`), run alone. -/

namespace Sol8.Fs.Dnlc

open List

/-- `struct ncache`, at `slot` of the table. -/
structure Ncache (V : Type) where
  slot : ℕ
  vp : Option V
  dp : Option V

structure Purge (V : Type) where
  n : ℕ
  /-- `nc_rele` below `index`: the vnodes to be released at the end -/
  ncRele : List (Option V)
  freelist : List ℕ

variable {V F : Type}

/-- An entry of the file system. -/
def Ncache.on [DecidableEq F] (vVfsp : V → F) (vfsp : F) (ncp : Ncache V) : Bool :=
  ncp.dp.any (vVfsp · = vfsp) || ncp.vp.any (vVfsp · = vfsp)

/-- An entry is counted, its vnodes are put into `nc_rele`, and `dnlc_free` puts it on the free list. -/
def Purge.free (s : Purge V) (ncp : Ncache V) : Purge V :=
  ⟨s.n + 1, s.ncRele ++ [ncp.vp, ncp.dp], ncp.slot :: s.freelist⟩

variable (on : Ncache V → Bool) (count : ℤ)

/-- The loop over a hash chain: the entries left on it. -/
def purgeChain : List (Ncache V) → Purge V → List (Ncache V) × Purge V
  | [], s => ([], s)
  | ncp :: np, s =>
    if on ncp then
      let s := s.free ncp
      if count ≠ 0 ∧ count ≤ s.n then (np, s) else purgeChain np s
    else
      let (rest, s) := purgeChain np s
      (ncp :: rest, s)

/-- The loop over the table, which the `break` in the loop over a chain does not leave. -/
def purgeChains : List (List (Ncache V)) → Purge V → List (List (Ncache V)) × Purge V
  | [], s => ([], s)
  | nch :: chains, s =>
    let (nch, s) := purgeChain on count nch s
    let (chains, s) := purgeChains chains s
    (nch :: chains, s)

def dnlcPurgeVfsp [DecidableEq F] (vVfsp : V → F) (ncHash : List (List (Ncache V))) (freelist : List ℕ) (vfsp : F)
    (count : ℤ) : List (List (Ncache V)) × Purge V :=
  purgeChains (Ncache.on vVfsp vfsp) count ncHash ⟨0, [], freelist⟩

theorem foldl_free (l : List (Ncache V)) (s : Purge V) : l.foldl Purge.free s =
    ⟨s.n + l.length, s.ncRele ++ l.flatMap fun ncp => [ncp.vp, ncp.dp], (l.map Ncache.slot).reverse ++ s.freelist⟩ := by
  induction l generalizing s with
  | nil => simp
  | cons ncp l ih =>
    rw [foldl_cons, ih]
    simp only [Purge.free, length_cons, flatMap_cons, map_cons, reverse_cons, append_assoc, singleton_append]
    congr 1
    omega

/-- A chain that has a match loses one, even when the limit has been reached before. -/
theorem purgeChain_spec (nch : List (Ncache V)) (s : Purge V) : ∃ gone rest,
    purgeChain on count nch s = (rest, gone.foldl Purge.free s) ∧ (∀ ncp ∈ gone, on ncp = true) ∧ rest <+ nch ∧
      nch ~ gone ++ rest ∧
      gone.length = if count = 0 then nch.countP on else min (nch.countP on) (max 1 (count - s.n).toNat) := by
  induction nch generalizing s with
  | nil => exact ⟨[], [], by simp [purgeChain]⟩
  | cons ncp np ih =>
    have hn : (s.free ncp).n = s.n + 1 := rfl
    by_cases ho : on ncp = true
    · by_cases hl : count ≠ 0 ∧ count ≤ (s.free ncp).n
      · refine ⟨[ncp], np, by simp [purgeChain, ho, hl], by simpa using ho, sublist_cons_self .., .refl _, ?_⟩
        rw [length_singleton, countP_cons_of_pos ho, if_neg hl.1]
        omega
      · obtain ⟨gone, rest, heq, hg, hsub, hp, hlen⟩ := ih (s.free ncp)
        refine ⟨ncp :: gone, rest, by simp [purgeChain, ho, hl, heq], by simpa [ho] using hg, hsub.cons _,
          hp.cons _, ?_⟩
        rw [length_cons, hlen, countP_cons_of_pos ho]
        split_ifs <;> omega
    · obtain ⟨gone, rest, heq, hg, hsub, hp, hlen⟩ := ih s
      refine ⟨gone, ncp :: rest, by simp [purgeChain, ho, heq], hg, hsub.cons_cons _,
        (hp.cons _).trans perm_middle.symm, ?_⟩
      rwa [countP_cons_of_neg ho]

theorem purgeChains_spec (chains : List (List (Ncache V))) (s : Purge V) : ∃ gone rest,
    purgeChains on count chains s = (rest, gone.foldl Purge.free s) ∧ (∀ ncp ∈ gone, on ncp = true) ∧
      Forall₂ Sublist rest chains ∧ chains.flatten ~ gone ++ rest.flatten ∧
      (count = 0 → gone.length = chains.flatten.countP on) ∧
      (0 < count → s.n ≤ count → (s.n + gone.length = min count (s.n + chains.flatten.countP on) ↔
        ∀ i, count ≤ s.n + (chains.take i).flatten.countP on → (chains.drop i).flatten.countP on = 0)) := by
  induction chains generalizing s with
  | nil => exact ⟨[], [], by simp [purgeChains]⟩
  | cons nch chains ih =>
    obtain ⟨gone, rest, heq, hg, hsub, hp, hlen⟩ := purgeChain_spec on count nch s
    obtain ⟨gone', rest', he', hg', hs', hp', ha, hl⟩ := ih (gone.foldl Purge.free s)
    have hn : (gone.foldl Purge.free s).n = s.n + gone.length := by rw [foldl_free]
    have hc (l : List (List (Ncache V))) : (nch :: l).flatten.countP on = nch.countP on + l.flatten.countP on := by
      rw [flatten_cons, countP_append]
    refine ⟨gone ++ gone', rest :: rest', by simp [purgeChains, heq, he'], ?_, .cons hsub hs', ?_, ?_, ?_⟩
    · exact fun ncp hnc => (mem_append.mp hnc).elim (hg ncp) (hg' ncp)
    · rw [flatten_cons, flatten_cons, append_assoc]
      refine (hp.append hp').trans ?_
      rw [append_assoc]
      exact (perm_append_comm_assoc ..).append_left gone
    · intro h0
      rw [length_append, hc, ha h0, hlen, if_pos h0]
    · intro hpos hle
      rw [if_neg hpos.ne'] at hlen
      rw [hn] at hl
      rw [length_append, hc]
      by_cases ho : s.n = count ∧ nch.countP on ≠ 0
      · -- the limit was reached before this chain
        refine iff_of_false (by omega) fun h => ?_
        have hnn : (nch :: chains).flatten.countP on = 0 := h 0 (by rw [take_zero]; omega)
        rw [hc] at hnn
        omega
      · have hl := hl hpos (by omega)
        constructor
        · intro h i hi
          have hr := hl.mp (by omega)
          cases i with
          | zero =>
            rw [take_zero, flatten_nil, countP_nil] at hi
            have hnn : chains.flatten.countP on = 0 := hr 0 (by omega)
            rw [drop_zero, hc]
            omega
          | succ i =>
            rw [take_succ_cons, hc] at hi
            exact hr i (by omega)
        · intro h
          have hr := hl.mpr fun i hi => h (i + 1) (by rw [take_succ_cons, hc]; omega)
          omega

/-- What `dnlc_purge_vfsp` removes and leaves. With a limit it removes as many entries as the limit allows just when no
chain after the one where it is reached has a match. -/
theorem dnlc_purge_vfsp_iff [DecidableEq F] (vVfsp : V → F) (ncHash : List (List (Ncache V))) (freelist : List ℕ)
    (vfsp : F) (count : ℤ) : ∃ gone rest, dnlcPurgeVfsp vVfsp ncHash freelist vfsp count = (rest, ⟨gone.length,
        gone.flatMap fun ncp => [ncp.vp, ncp.dp], (gone.map Ncache.slot).reverse ++ freelist⟩) ∧
      (∀ ncp ∈ gone, ncp.on vVfsp vfsp = true) ∧ Forall₂ Sublist rest ncHash ∧ ncHash.flatten ~ gone ++ rest.flatten ∧
      (count = 0 → gone.length = ncHash.flatten.countP (Ncache.on vVfsp vfsp)) ∧
      (0 < count → (gone.length = min count (ncHash.flatten.countP (Ncache.on vVfsp vfsp)) ↔
        ∀ i, count ≤ (ncHash.take i).flatten.countP (Ncache.on vVfsp vfsp) →
          (ncHash.drop i).flatten.countP (Ncache.on vVfsp vfsp) = 0)) := by
  obtain ⟨gone, rest, heq, hg, hsub, hp, ha, hl⟩ :=
    purgeChains_spec (Ncache.on vVfsp vfsp) count ncHash ⟨0, [], freelist⟩
  rw [foldl_free] at heq
  refine ⟨gone, rest, by simpa [dnlcPurgeVfsp] using heq, hg, hsub, hp, ha, fun hpos => ?_⟩
  simpa using hl hpos hpos.le

/-- Two chains with an entry of the file system each, and a purge of one. -/
theorem dnlc_purge_vfsp_over :
    (dnlcPurgeVfsp (fun _ : ℕ => ()) [[⟨0, some 1, some 1⟩], [⟨1, some 2, some 1⟩]] [] () 1).2.n = 2 := by
  decide

end Sol8.Fs.Dnlc
