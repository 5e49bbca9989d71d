import Sol8.Lib.Run
import Sol8.Pcfs.FatChain

/-! The table stays consistent under every sequence of `pc_truncate` calls on the regular files of a volume. -/

namespace Sol8.Pcfs

open Function Sol8.Lib Sol8.Lib.Chain Volume List Option Int

variable {F : Type} {v : Volume} {fs fs' : Fs} {start : F → ℕ} {L : F → List ℕ} {R : Set ℕ} {r : ℕ → ℕ} {f : F} {cn x : ℕ}
  {l : List ℕ}

/-! ### The chains of all files -/

/-- The table holds the chains `L` of the files and the entries `r` of the reserved clusters `R`. -/
structure Table (v : Volume) (fs : Fs) (start : F → ℕ) (L : F → List ℕ) (R : Set ℕ) (r : ℕ → ℕ) : Prop
    extends Counters v fs where
  chained : ∀ f, v.Chained (v.entry fs.fatp) (start f) (L f)
  disjoint : ∀ f g, ∀ x ∈ L f, x ∈ L g → f = g
  cover : ∀ x, v.pcValidcl x = true → v.entry fs.fatp x ≠ 0 → x ∉ R → ∃ f, x ∈ L f
  reserved : ∀ x ∈ R, v.entry fs.fatp x = r x ∧ r x ≠ 0 ∧ ∀ f, x ∉ L f

namespace Table

variable [DecidableEq F]

theorem change (h : Table v fs start L R r) (hc : Counters v fs') {cn : ℕ} (hh : v.Chained (v.entry fs'.fatp) cn l)
    (hfr : ∀ x, x ∉ L f → x ∉ l → v.entry fs'.fatp x = v.entry fs.fatp x)
    (hn : ∀ x ∈ l, x ∉ L f → v.entry fs.fatp x = 0) (hgn : ∀ x ∈ L f, x ∉ l → v.entry fs'.fatp x = 0) :
    Table v fs' (update start f cn) (update L f l) R r := by
  have ho {g : F} (hg : g ≠ f) {x : ℕ} (hx : x ∈ L g) : x ∉ L f ∧ x ∉ l := by
    have hf : x ∉ L f := fun hf => hg (h.disjoint g f x hx hf)
    exact ⟨hf, fun hl => (h.chained g).ne_free hx (hn x hl hf)⟩
  constructor
  case toCounters => exact hc
  case chained =>
    intro g
    by_cases hg : g = f
    · subst hg
      simpa only [update_self] using hh
    · simp only [update_of_ne hg]
      exact (h.chained g).congr fun x hx => hfr x (ho hg hx).1 (ho hg hx).2
  case disjoint =>
    intro g g' x hx hx'
    by_cases hg : g = f <;> by_cases hg' : g' = f
    · rw [hg, hg']
    · subst hg
      rw [update_self] at hx
      rw [update_of_ne hg'] at hx'
      exact absurd hx (ho hg' hx').2
    · subst hg'
      rw [update_of_ne hg] at hx
      rw [update_self] at hx'
      exact absurd hx' (ho hg hx).2
    · rw [update_of_ne hg] at hx
      rw [update_of_ne hg'] at hx'
      exact h.disjoint g g' x hx hx'
  case cover =>
    intro x hv hx hR
    by_cases hl : x ∈ l
    · exact ⟨f, by rwa [update_self]⟩
    · by_cases hf : x ∈ L f
      · exact absurd (hgn x hf hl) hx
      · rw [hfr x hf hl] at hx
        obtain ⟨g, hg⟩ := h.cover x hv hx hR
        exact ⟨g, by rwa [update_of_ne (by rintro rfl; exact hf hg)]⟩
  case reserved =>
    intro x hx
    obtain ⟨hr, hne, hno⟩ := h.reserved x hx
    have hl : x ∉ l := fun hl => hne (hr ▸ hn x hl (hno f))
    refine ⟨by rw [hfr x (hno f) hl, hr], hne, fun g => ?_⟩
    by_cases hg : g = f
    · subst hg
      rwa [update_self]
    · rw [update_of_ne hg]
      exact hno g

theorem extend (hr : v.Readable) (h : Table v fs start L R r) {l1 : List ℕ} (hL : L f = l1 ++ [cn]) {fs1 : Fs}
    (hx : v.pcValidcl x = true) (hf : v.entry fs.fatp x = 0)
    (hen : v.entry fs1.fatp = update (v.entry fs.fatp) x (v.stored v.lastMark)) (hc : Counters v fs1) :
    ∃ fs', v.pcSetcluster fs1 cn x = some fs' ∧ Table v fs' start (update L f (L f ++ [x])) R r ∧
      ∀ y, y ∉ L f ++ [x] → v.entry fs'.fatp y = v.entry fs.fatp y := by
  have hcf := h.chained f
  have hn : cn ∈ L f := by simp [hL]
  have hne : cn ≠ x := fun heq => hcf.ne_free hn (heq ▸ hf)
  have hu : v.entry fs1.fatp cn ≠ 0 := by
    rw [hen, update_of_ne hne]
    exact hcf.ne_free hn
  have hx0 := (ne_of_valid hx).1
  obtain ⟨fs', hs, he', hc'⟩ := hc.relink (hcf.valid cn hn) hu hx0 (by rwa [stored_valid hr hx])
  rw [hen] at he'
  have ho (y : ℕ) (hy : y ∉ L f ++ [x]) : v.entry fs'.fatp y = v.entry fs.fatp y := by
    rw [mem_append, mem_singleton, not_or] at hy
    rw [he', update_of_ne (ne_of_mem_of_not_mem hn hy.1).symm, update_of_ne hy.2]
  refine ⟨fs', hs, ?_, ho⟩
  rw [← update_eq_self f start]
  refine h.change hc' ?_ (fun y _ hy => ho y hy) (fun y hy hy' => ?_) fun y hy hy' => ?_
  · rw [he', hL]
    rw [hL] at hcf
    exact hcf.extend hr hx hf
  · obtain rfl : y = x := by simpa [hy'] using hy
    exact hf
  · exact absurd (mem_append_left _ hy) hy'

theorem ballocLoop (hr : v.Readable) (h : Table v fs start L R r) {l1 l2 : List ℕ} (hL : L f = l1 ++ cn :: l2) (lcn : ℕ) :
    ∃ fs' l res, v.pcBallocLoop lcn fs cn = some (fs', res) ∧ Table v fs' start (update L f (L f ++ l)) R r ∧
      (∀ x, x ∉ L f ++ l → v.entry fs'.fatp x = v.entry fs.fatp x) ∧
      match res with
      | .ok _ => (L f ++ l).length = max (L f).length (l1.length + 1 + lcn)
      | .error er => er = .enospc ∧ ∀ x, v.pcValidcl x = true → v.entry fs'.fatp x ≠ 0 := by
  induction lcn generalizing fs L cn l1 l2 with
  | zero =>
    refine ⟨fs, [], .ok cn, rfl, by simpa using h, fun _ _ => rfl, ?_⟩
    simp [hL]
  | succ lcn ih =>
    have hcf := h.chained f
    rw [hL] at hcf
    have hcn : v.pcValidcl cn = true := hcf.valid cn (by simp)
    cases l2 with
    | cons b l2 =>
      -- the file has a next cluster
      obtain ⟨hb, hbe⟩ := link_eq_some.mp hcf.spells.next_eq
      rw [hbe] at hb
      have hnt : ¬ v.isLast b = true := fun hl => by
        rw [not_valid_of_isLast hr hl] at hb
        cases hb
      have hL' : L f = (l1 ++ [cn]) ++ b :: l2 := by simp [hL]
      obtain ⟨fs', l, res, hp, ht, hf, hrs⟩ := ih h hL'
      refine ⟨fs', l, res, ?_, ht, hf, ?_⟩
      · simp only [pcBallocLoop, pcGetcluster, if_pos hcn, hbe, bind_eq_bind, bind_some, if_neg hnt]
        simpa [hb] using hp
      · cases res with
        | error er => exact hrs
        | ok c =>
          simp only [length_append, length_cons, length_nil] at hrs ⊢
          omega
    | nil =>
      have hls : v.isLast (v.entry fs.fatp cn) = true := hcf.last cn (by simp)
      rcases h.alloccluster with ⟨hfl, hn⟩ | ⟨fs1, x, hok, hx, hfr, hen, hc⟩
      · refine ⟨fs, [], .error .enospc, ?_, by simpa using h, fun _ _ => rfl, rfl, hn⟩
        simp [pcBallocLoop, pcGetcluster, hcn, hls, hfl]
      · obtain ⟨fs2, hs, ht, ho⟩ := h.extend hr hL hx hfr hen hc
        have hL' : update L f (L f ++ [x]) f = (l1 ++ [cn]) ++ x :: [] := by simp [hL]
        obtain ⟨fs', l, res, hp, ht', hf, hrs⟩ := ih ht hL'
        rw [update_idem, update_self, append_assoc] at ht'
        simp only [update_self, append_assoc] at hf hrs
        obtain ⟨h0, h1⟩ := ne_of_valid hx
        refine ⟨fs', [x] ++ l, res, ?_, ht', fun y hy => ?_, ?_⟩
        · simp only [pcBallocLoop, pcGetcluster, if_pos hcn, bind_eq_bind, bind_some, if_pos hls, hok,
            if_neg h0, if_neg h1, hs, hp]
        · have hy' : y ∉ L f ++ [x] := fun hmem => hy (by
            rw [← append_assoc]
            exact mem_append_left _ hmem)
          rw [hf y hy, ho y hy']
        · cases res with
          | error er => exact hrs
          | ok c =>
            simp only [hL, length_append, length_cons, length_nil] at hrs ⊢
            omega

omit [DecidableEq F] in
theorem startCluster_eq (h : Table v fs start L R r) {pcp : Pcnode} (ht : start f = pcp.scluster) (hne : L f ≠ []) :
    v.startCluster pcp = pcp.scluster ∧ v.pcValidcl pcp.scluster = true ∧ ∃ l, L f = pcp.scluster :: l := by
  obtain ⟨a, l, hL⟩ := exists_cons_of_ne_nil hne
  have hs := (h.chained f).spells
  rw [hL, ht] at hs
  obtain ⟨hv, rfl⟩ := link_eq_some.mp hs.1
  refine ⟨?_, hv, l, hL⟩
  refine if_neg fun h0 => ?_
  rw [h0.2] at hv
  cases hv

theorem balloc (hr : v.Readable) (h : Table v fs start L R r) {pcp : Pcnode} (hp : pcp.type = .reg)
    (hst : start f = pcp.scluster) (hz : L f = [] ↔ pcp.size = 0) (lcn : ℕ) :
    ∃ fs' scluster l res, v.pcBalloc fs pcp lcn = some (fs', { pcp with scluster := scluster }, res) ∧
      Table v fs' (update start f scluster) (update L f (L f ++ l)) R r ∧
      (∀ x, x ∉ L f ++ l → v.entry fs'.fatp x = v.entry fs.fatp x) ∧
      match res with
      | .ok _ => (L f ++ l).length = max (L f).length (lcn + 1)
      | .error er => er = .enospc ∧ (v.ncluster ≤ lcn ∨ ∀ x, v.pcValidcl x = true → v.entry fs'.fatp x ≠ 0) := by
  have hg : ¬ (lcn : ℤ) < 0 := by omega
  have hm : Table v fs (update start f pcp.scluster) (update L f (L f ++ [])) R r := by
    simpa [← hst] using h
  by_cases hb : v.ncluster ≤ lcn
  · refine ⟨fs, pcp.scluster, [], .error .enospc, ?_, hm, fun _ _ => rfl, rfl, .inl hb⟩
    simp [pcBalloc, hg, hb]
  · by_cases hnil : L f = []
    · have hs := hz.mp hnil
      rcases h.alloccluster with ⟨hfl, hn⟩ | ⟨fs1, x, hok, hx, hfr, hen, hc⟩
      · refine ⟨fs, pcp.scluster, [], .error .enospc, ?_, hm, fun _ _ => rfl, rfl, .inr hn⟩
        show v.pcBalloc fs pcp lcn = some (fs, pcp, .error .enospc)
        simp [pcBalloc, hg, hb, hp, hs, hfl]
      · -- the first cluster of the file
        have ho (y : ℕ) (hy : y ≠ x) : v.entry fs1.fatp y = v.entry fs.fatp y := by
          rw [hen, update_of_ne hy]
        have ht : Table v fs1 (update start f x) (update L f [x]) R r := by
          refine h.change hc (hen ▸ Chained.single hr hx) (fun y _ hy => ho y (by simpa using hy)) ?_ ?_
          · intro y hy _
            rwa [mem_singleton.mp hy]
          · intro y hy
            rw [hnil] at hy
            cases hy
        obtain ⟨h0, h1⟩ := ne_of_valid hx
        have hL' : update L f [x] f = [] ++ x :: [] := by simp
        obtain ⟨fs', l, res, hl, ht', hf, hrs⟩ := ht.ballocLoop hr hL' lcn
        simp only [update_self] at hf hrs
        refine ⟨fs', x, [x] ++ l, res, ?_, by simpa [hnil] using ht', fun y hy => ?_, ?_⟩
        · simp [pcBalloc, hg, hb, hp, hs, hok, h0, h1, hl]
        · rw [hnil] at hy
          rw [hf y hy, ho y fun heq => hy (by simp [heq])]
        · cases res with
          | error er => exact ⟨hrs.1, .inr hrs.2⟩
          | ok c =>
            simp only [hnil, length_append, length_cons, length_nil] at hrs ⊢
            omega
    · have hs : pcp.size ≠ 0 := fun h0 => hnil (hz.mpr h0)
      obtain ⟨he, hv, rest, hL⟩ := h.startCluster_eq hst hnil
      have hL' : L f = [] ++ pcp.scluster :: rest := hL
      obtain ⟨fs', l, res, hl, ht, hf, hrs⟩ := h.ballocLoop hr hL' lcn
      refine ⟨fs', pcp.scluster, l, res, ?_, by simpa [← hst] using ht, hf, ?_⟩
      · show v.pcBalloc fs pcp lcn = some (fs', pcp, res)
        simp [pcBalloc, hg, hb, hp, hs, he, hv, hl]
      · cases res with
        | error er => exact ⟨hrs.1, .inr hrs.2⟩
        | ok c =>
          simp only [length_append, length_nil] at hrs ⊢
          omega

end Table

/-! ### Sizes -/

section Sizes

variable {z : ℤ}

theorem toInt_of_small (h0 : 0 ≤ z) (h : z < 2 ^ 31) : toInt z = z := by
  unfold toInt
  rw [bmod_eq_of_le (by omega) (by omega)]

theorem clsize_bounds (v : Volume) : 1 ≤ v.clsize ∧ v.clsize ≤ 2 ^ 30 ∧ (v.ncluster + 1) * v.clsize ≤ 2 ^ 31 := by
  obtain ⟨k, hk, hc⟩ := v.clsize_pow
  have hs := v.small
  rw [hc] at hs ⊢
  refine ⟨Nat.one_le_two_pow, Nat.pow_le_pow_right (by decide) (by omega), ?_⟩
  -- the cluster size divides `2 ^ 31`
  have hd : 2 ^ 31 = 2 ^ (31 - k) * 2 ^ k := by
    rw [← Nat.pow_add]
    congr 1
    omega
  rw [hd] at hs ⊢
  exact Nat.mul_le_mul_right _ (Nat.lt_of_mul_lt_mul_right hs)

theorem howmany_of_small (h0 : 0 ≤ z) (h : z + (v.clsize - 1) < 2 ^ 31) :
    howmany z v.clsize = (z + (v.clsize - 1)) / v.clsize := by
  have hc := (clsize_bounds v).1
  rw [howmany, toInt_of_small (by omega) h, tdiv_eq_ediv_of_nonneg (by omega)]

/-- The sum in `howmany` overflows for lengths just below `2 ^ 31`. -/
theorem howmany_of_large (h : z < 2 ^ 31) (ho : 2 ^ 31 ≤ z + (v.clsize - 1)) :
    -2 ^ 31 ≤ howmany z v.clsize ∧ howmany z v.clsize < 0 := by
  obtain ⟨hc, hc', -⟩ := clsize_bounds v
  have ht : toInt (z + (v.clsize - 1)) = -(2 ^ 32 - (z + (v.clsize - 1))) := by
    rw [toInt, Int.bmod_def]
    split <;> omega
  have hc0 : (0 : ℤ) < v.clsize := by omega
  rw [howmany, ht, Int.neg_tdiv, Int.tdiv_eq_ediv_of_nonneg (by omega)]
  have hl : 1 ≤ (2 ^ 32 - (z + (v.clsize - 1))) / (v.clsize : ℤ) := by
    rw [Int.le_ediv_iff_mul_le hc0]
    omega
  have hh : (2 ^ 32 - (z + (v.clsize - 1))) / (v.clsize : ℤ) ≤ 2 ^ 32 - (z + (v.clsize - 1)) :=
    Int.ediv_le_self _ (by omega)
  omega

theorem howmany_range (h0 : 0 ≤ z) (h : z < 2 ^ 31) : -2 ^ 31 ≤ howmany z v.clsize ∧ howmany z v.clsize < 2 ^ 31 := by
  have hc := (clsize_bounds v).1
  by_cases hs : z + (v.clsize - 1) < 2 ^ 31
  · rw [howmany_of_small h0 hs]
    have hn : 0 ≤ (z + (v.clsize - 1)) / (v.clsize : ℤ) := ediv_nonneg (by omega) (by omega)
    have hle : (z + (v.clsize - 1)) / (v.clsize : ℤ) ≤ z + (v.clsize - 1) := ediv_le_self _ (by omega)
    omega
  · have := howmany_of_large (v := v) h (by omega)
    omega

theorem howmany_mul {n : ℕ} (hn : n ≤ v.ncluster) :
    toInt (v.clsize * n) = v.clsize * n ∧ (v.clsize * n : ℤ) < 2 ^ 31 ∧ howmany (v.clsize * n) v.clsize = n := by
  obtain ⟨hc, -, hm⟩ := clsize_bounds v
  have hle : (n + 1) * v.clsize ≤ 2 ^ 31 := (Nat.mul_le_mul_right _ (Nat.succ_le_succ hn)).trans hm
  have hs : (v.clsize * n : ℤ) + (v.clsize - 1) < 2 ^ 31 := by
    have hl : ((n + 1) * v.clsize : ℤ) ≤ 2 ^ 31 := by exact_mod_cast hle
    rw [add_mul, mul_comm] at hl
    omega
  have hnn : (0 : ℤ) ≤ v.clsize * n := mul_nonneg (natCast_nonneg _) (natCast_nonneg _)
  have hc0 : (v.clsize : ℤ) ≠ 0 := by omega
  refine ⟨toInt_of_small hnn (by omega), by omega, ?_⟩
  rw [howmany_of_small hnn hs, mul_add_ediv_left _ _ hc0, ediv_eq_zero_of_lt (by omega) (by omega), add_zero]

end Sizes

/-! ### One call -/

structure Consistent (v : Volume) (fs : Fs) (files : F → Pcnode) (L : F → List ℕ) (R : Set ℕ) (r : ℕ → ℕ) : Prop
    extends Table v fs (fun f => (files f).scluster) L R r where
  reg : ∀ f, (files f).type = .reg
  size : ∀ f, 0 ≤ (files f).size ∧ (files f).size < 2 ^ 31
  length : ∀ f, ((L f).length : ℤ) = howmany (files f).size v.clsize

namespace Consistent

variable {files : F → Pcnode} {length : ℤ}

section

variable (h : Consistent v fs files L R r)
include h

theorem size_small (f : F) : (files f).size + (v.clsize - 1) < 2 ^ 31 := by
  by_contra ho
  have := howmany_of_large (v := v) (h.size f).2 (by omega)
  have := h.length f
  omega

theorem length_eq (f : F) : ((L f).length : ℤ) = ((files f).size + (v.clsize - 1)) / v.clsize :=
  (h.length f).trans (howmany_of_small (h.size f).1 (h.size_small f))

theorem nil_iff (f : F) : L f = [] ↔ (files f).size = 0 := by
  have hc : (0 : ℤ) < v.clsize := by
    have := (clsize_bounds v).1
    omega
  have h0 := (h.size f).1
  rw [← length_eq_zero_iff, ← Int.natCast_eq_zero, h.length_eq]
  constructor
  · intro hz
    have := (Int.ediv_lt_iff_lt_mul hc).mp (by rw [hz]; exact Int.zero_lt_one)
    omega
  · intro hz
    exact Int.ediv_eq_zero_of_lt (by omega) (by omega)

end

variable [DecidableEq F]

theorem change (h : Consistent v fs files L R r) {pcp : Pcnode}
    (ht : Table v fs' (update (fun f => (files f).scluster) f pcp.scluster) (update L f l) R r) (hrg : pcp.type = .reg)
    (hsz : 0 ≤ pcp.size ∧ pcp.size < 2 ^ 31) (hl : (l.length : ℤ) = howmany pcp.size v.clsize) :
    Consistent v fs' (update files f pcp) (update L f l) R r := by
  have hs : (fun g => (update files f pcp g).scluster) = update (fun f => (files f).scluster) f pcp.scluster := by
    funext g
    by_cases hg : g = f
    · subst hg
      simp
    · simp [hg]
  constructor
  case toTable => exact hs ▸ ht
  all_goals
    intro g
    by_cases hg : g = f
    · subst hg
      simpa only [update_self]
    · simp only [update_of_ne hg]
      first | exact h.reg g | exact h.size g | exact h.length g

theorem bfree (hr : v.Readable) (h : Consistent v fs files L R r) (hne : (files f).size ≠ 0) {k : ℕ} (hk : k ≤ (L f).length) :
    ∃ fs' scluster, v.pcBfree fs (files f) k = some (fs', { files f with scluster := scluster }, .ok ()) ∧
      Table v fs' (update (fun f => (files f).scluster) f scluster) (update L f ((L f).take k)) R r ∧
      ∀ x, x ∉ L f → v.entry fs'.fatp x = v.entry fs.fatp x := by
  have hln : L f ≠ [] := fun hnil => hne ((h.nil_iff f).mp hnil)
  obtain ⟨hst, hv, rest, hL⟩ := h.startCluster_eq rfl hln
  have hcf := h.chained f
  have hu (x : ℕ) (hx : x ∈ L f) : v.entry fs.fatp x ≠ 0 := hcf.ne_free hx
  have hle := hcf.length_le
  have hlt := ncluster_lt v
  have hn : (howmany (files f).size v.clsize % 2 ^ 32).toNat = (L f).length := by
    rw [← h.length f]
    omega
  have hbg : ¬ ((files f).type = .reg ∧ (v.ncluster : ℤ) < howmany (files f).size v.clsize) := by
    rw [← h.length f]
    omega
  have hb {fs' : Fs} (hl : v.pcBfreeLoop .reg (L f).length fs (files f).scluster k = some (fs', .ok ())) :
      v.pcBfree fs (files f) k =
        some (fs', if k = 0 then { files f with scluster := v.lastMark } else files f, .ok ()) := by
    simp only [h.reg f, true_and] at hbg
    simp only [Int.reducePow] at hn
    simp [pcBfree, hne, h.reg f, hbg, hn, hst, hl]
  cases k with
  | zero =>
    obtain ⟨fs', hl, hc, hg, hf⟩ := bfreeLoop_free h.toCounters hcf.spells hu
    refine ⟨fs', v.lastMark, by simpa using hb hl, ?_, hf⟩
    refine h.toTable.change hc ⟨?_, nofun⟩ (fun x hx _ => hf x hx) nofun fun x hx _ => hg x hx
    exact link_invalid (not_valid_of_isLast hr isLast_lastMark)
  | succ j =>
    -- the chain is cut after its element `y`
    obtain ⟨l1, y, l2, hs, hlen⟩ : ∃ l1 y l2, L f = l1 ++ y :: l2 ∧ l1.length = j :=
      ⟨(L f).take j, (L f)[j], (L f).drop (j + 1), by simp, by simp; omega⟩
    have ht : (L f).take (j + 1) = l1 ++ [y] := by
      rw [hs, take_append, ← hlen]
      simp
    have hp := hcf.spells
    rw [hs] at hp hu
    obtain ⟨fs', hl, hc, hm, hg, hf⟩ := bfreeLoop_cut h.toCounters hp hu
    rw [← hs, hlen] at hl
    have hnp := hp.nodup
    have ho (x : ℕ) (hx : x ∉ L f) : v.entry fs'.fatp x = v.entry fs.fatp x := by
      rw [hs, mem_append, mem_cons, not_or, not_or] at hx
      exact hf x hx.2.1 hx.2.2
    refine ⟨fs', (files f).scluster, by simpa using hb hl, ?_, ho⟩
    rw [ht]
    refine h.toTable.change hc ⟨?_, ?_⟩ (fun x hx _ => ho x hx) ?_ ?_
    · have hct : Spells (update (fun cn => v.link (v.entry fs.fatp cn)) y none) (v.link (files f).scluster) (l1 ++ [y]) :=
        hp.splice rfl not_mem_nil
      refine hct.congr fun x hx => ?_
      rcases mem_append.mp hx with hx | hx
      · have hxy : x ≠ y := fun heq => disjoint_of_nodup_append hnp hx (by simp [heq])
        have hx₂ : x ∉ l2 := fun hx₂ => disjoint_of_nodup_append hnp hx (by simp [hx₂])
        rw [update_of_ne hxy, hf x hxy hx₂]
      · obtain rfl := mem_singleton.mp hx
        rw [update_self, hm]
        exact link_stored_lastMark hr
    · intro x hx
      obtain rfl : y = x := by simpa using hx
      rw [hm]
      exact stored_lastMark.1
    · intro x hx hx'
      rw [hs] at hx'
      exact absurd (mem_append.mpr ((mem_append.mp hx).imp_right fun hx => by simp_all)) hx'
    · intro x hx hx'
      rw [hs, mem_append, mem_cons] at hx
      rw [mem_append, mem_singleton, not_or] at hx'
      exact hg x ((hx.resolve_left hx'.1).resolve_left hx'.2)

/-- What one call does to the table: it stays consistent, no entry outside of the old and the new chain of the file
changes, and the call runs out of space only if the length exceeds the volume or no cluster is left. -/
def Truncated (v : Volume) (fs : Fs) (files : F → Pcnode) (L : F → List ℕ) (R : Set ℕ) (r : ℕ → ℕ) (f : F) (length : ℤ) :
    Prop :=
  ∃ fs' pcp l res, v.pcTruncate fs (files f) length = some (fs', pcp, res) ∧
    Consistent v fs' (update files f pcp) (update L f l) R r ∧
    (∀ x, x ∉ L f → x ∉ l → v.entry fs'.fatp x = v.entry fs.fatp x) ∧
    (res = .ok () → pcp.size = length) ∧
    (res = .error .enospc → (v.ncluster * v.clsize : ℤ) < length ∨ ∀ x, v.pcValidcl x = true → v.entry fs'.fatp x ≠ 0)

theorem lt_of_howmany (hlen : 0 ≤ length) (hl' : length < 2 ^ 31)
    (hb : (v.ncluster : ℤ) < howmany length v.clsize % 2 ^ 32) : (v.ncluster * v.clsize : ℤ) < length := by
  by_contra hle
  obtain ⟨hc, -, hl⟩ := clsize_bounds v
  have hm : ((v.ncluster + 1) * v.clsize : ℤ) ≤ 2 ^ 31 := by exact_mod_cast hl
  rw [add_mul] at hm
  have hc0 : (0 : ℤ) < v.clsize := by omega
  rw [howmany_of_small hlen (by omega)] at hb
  have hd : (length + (v.clsize - 1)) / (v.clsize : ℤ) ≤ v.ncluster := by
    refine Int.lt_add_one_iff.mp ((Int.ediv_lt_iff_lt_mul hc0).mpr ?_)
    rw [Int.add_mul]
    omega
  have hn : 0 ≤ (length + (v.clsize - 1)) / (v.clsize : ℤ) := ediv_nonneg (by omega) hc0.le
  omega

section

variable (hr : v.Readable) (h : Consistent v fs files L R r)
include hr h

theorem grow (hv : (files f).inval = false) (hlen : (files f).size < length) (hl' : length < 2 ^ 31) :
    ∃ fs' pcp l res, v.pcTruncate fs (files f) length = some (fs', pcp, res) ∧
      Consistent v fs' (update files f pcp) (update L f (L f ++ l)) R r ∧
      (∀ x, x ∉ L f ++ l → v.entry fs'.fatp x = v.entry fs.fatp x) ∧
      match res with
      | .ok _ => pcp.size = length
      | .error _ => pcp.size = v.clsize * (L f ++ l).length ∧
        ((v.ncluster * v.clsize : ℤ) < length ∨ ∀ x, v.pcValidcl x = true → v.entry fs'.fatp x ≠ 0) := by
  have h0 := (h.size f).1
  have hle := (h.chained f).length_le
  have hlt := ncluster_lt v
  have hrn := howmany_range (v := v) (z := length) (by omega) hl'
  have hg : (files f).type ≠ .dir := by simp [h.reg f]
  have hol : howmany (files f).size v.clsize % 2 ^ 32 = (L f).length := by
    rw [← h.length f]
    omega
  by_cases hm : ((L f).length : ℤ) < howmany length v.clsize % 2 ^ 32
  · -- new clusters are needed
    obtain ⟨lcn, hl⟩ : ∃ lcn : ℕ, howmany length v.clsize % 2 ^ 32 = lcn + 1 :=
      ⟨(howmany length v.clsize % 2 ^ 32 - 1).toNat, by omega⟩
    have ha : (howmany length v.clsize % 2 ^ 32 - 1) % 2 ^ 32 = (lcn : ℤ) := by omega
    obtain ⟨fs', scluster, l, res, hb, ht, hf, hrs⟩ := h.toTable.balloc hr (h.reg f) rfl (h.nil_iff f) lcn
    have hcf := ht.chained f
    rw [update_self, update_self] at hcf
    have hle' := hcf.length_le
    cases res with
    | ok c =>
      refine ⟨fs', { files f with scluster := scluster, size := length }, l, .ok (), ?_, ?_, hf, rfl⟩
      · simp only [pcTruncate, hv, if_neg hg, if_pos hlen, hol, if_pos hm, ha, hb, Bool.false_eq_true,
          if_false, bind_eq_bind, bind_some]
      · refine h.change ht (h.reg f) ⟨by dsimp only; omega, hl'⟩ ?_
        dsimp only at hrs ⊢
        omega
    | error er =>
      obtain ⟨rfl, hp⟩ := hrs
      have hs := howmany_mul (v := v) hle'
      have hc : v.pcFileclsize fs' (v.ncluster + 1) scluster = some (L f ++ l).length :=
        pcFileclsize_eq hcf.spells (by omega)
      refine ⟨fs', { files f with scluster := scluster, size := toInt (v.clsize * (L f ++ l).length) }, l,
        .error .enospc, ?_, ?_, hf, ?_, ?_⟩
      · simp only [pcTruncate, hv, if_neg hg, if_pos hlen, hol, if_pos hm, ha, hb, Bool.false_eq_true,
          if_false, bind_eq_bind, bind_some, hc]
      · refine h.change ht (h.reg f) ?_ ?_
        · rw [hs.1]
          exact ⟨mul_nonneg (natCast_nonneg _) (natCast_nonneg _), hs.2.1⟩
        · rw [hs.1, hs.2.2]
      · rw [hs.1]
      · exact hp.imp_left fun hbg => lt_of_howmany (by omega) hl' (by omega)
  · -- the last cluster has room
    have hsm : length + (v.clsize - 1) < 2 ^ 31 := by
      by_contra hov
      have := howmany_of_large (v := v) hl' (by omega)
      omega
    have hn : ((files f).size + (v.clsize - 1)) / (v.clsize : ℤ) ≤ (length + (v.clsize - 1)) / v.clsize :=
      Int.ediv_le_ediv (by have := (clsize_bounds v).1; omega) (by omega)
    rw [← h.length_eq f, ← howmany_of_small (by omega) hsm] at hn
    refine ⟨fs, { files f with size := length }, [], .ok (), ?_, ?_, fun _ _ => rfl, rfl⟩
    · simp only [pcTruncate, hv, if_neg hg, if_pos hlen, hol, if_neg hm, Bool.false_eq_true, if_false]
    · refine h.change (by simpa using h.toTable) (h.reg f) ⟨by dsimp only; omega, hl'⟩ ?_
      rw [append_nil]
      dsimp only
      omega

theorem shrink (hv : (files f).inval = false)
    (h0 : 0 ≤ length) (hlen : length < (files f).size) : Truncated v fs files L R r f length := by
  have hc := (clsize_bounds v).1
  have hs := h.size_small f
  have hle := (h.chained f).length_le
  have hlt := ncluster_lt v
  have hrg : (files f).type ≠ .dir := by simp [h.reg f]
  have hw := howmany_of_small (v := v) h0 (by omega)
  have hm : (length + (v.clsize - 1)) / (v.clsize : ℤ) ≤ ((files f).size + (v.clsize - 1)) / v.clsize :=
    Int.ediv_le_ediv (by omega) (by omega)
  have hn : 0 ≤ (length + (v.clsize - 1)) / (v.clsize : ℤ) := ediv_nonneg (by omega) (by omega)
  rw [← h.length_eq f] at hm
  rw [← hw] at hn
  obtain ⟨k, hk⟩ : ∃ k : ℕ, howmany length v.clsize = k := ⟨_, (toNat_of_nonneg hn).symm⟩
  have ha : (howmany length v.clsize % 2 ^ 32).toNat = k := by omega
  obtain ⟨fs', scluster, hb, ht, hf⟩ := h.bfree hr (f := f) (k := k) (by omega) (by omega)
  refine ⟨fs', { files f with scluster := scluster, size := length }, (L f).take k, .ok (), ?_, ?_,
    fun x hx _ => hf x hx, fun _ => rfl, nofun⟩
  · have hg : ¬ (files f).size < length := by omega
    simp only [pcTruncate, hv, if_neg hrg, if_neg hg, if_pos hlen, ha, hb, Bool.false_eq_true, if_false,
      bind_eq_bind, bind_some]
  · refine h.change ht (h.reg f) ⟨h0, by dsimp only; omega⟩ ?_
    rw [length_take, hk]
    omega

theorem truncate (f : F) (h0 : 0 ≤ length) (hlen : length < 2 ^ 31) : Truncated v fs files L R r f length := by
  have hs : Consistent v fs (update files f (files f)) (update L f (L f)) R r := by simpa using h
  by_cases hv : (files f).inval = true
  · exact ⟨fs, files f, L f, .error .eio, by simp [pcTruncate, hv], hs, fun _ _ _ => rfl, nofun, nofun⟩
  · rw [Bool.not_eq_true] at hv
    rcases lt_trichotomy (files f).size length with hlt | heq | hgt
    · obtain ⟨fs', pcp, l, res, ht, hc, hf, hrs⟩ := h.grow hr hv hlt hlen
      refine ⟨fs', pcp, L f ++ l, res, ht, hc, fun x _ => hf x, ?_, ?_⟩ <;> rintro rfl
      · exact hrs
      · exact hrs.2
    · refine ⟨fs, files f, L f, .ok (), ?_, hs, fun _ _ _ => rfl, fun _ => heq, nofun⟩
      simp [pcTruncate, hv, h.reg f, heq]
    · exact h.shrink hr hv h0 hgt

end

end Consistent

/-! ### Whole runs -/

abbrev State (F : Type) : Type := Fs × (F → Pcnode)

/-- A call of `pc_truncate` on a file, with a length that is not negative. -/
def exec [DecidableEq F] (v : Volume) (s : State F) (e : F × ℤ) : Option (State F) :=
  if 0 ≤ e.2 ∧ e.2 < 2 ^ 31 then
    (v.pcTruncate s.1 (s.2 e.1) e.2).map fun t => (t.1, update s.2 e.1 t.2.1)
  else none

def Step [DecidableEq F] (v : Volume) (s s' : State F) : Prop := ∃ e, exec v s e = some s'

/-- From a consistent table every sequence of `pc_truncate` calls leads to a consistent table, and the next call does
what it should, if every cluster number reads back as itself. -/
theorem truncate_consistent [DecidableEq F] (hr : v.Readable) {s₀ s : State F} {L₀ : F → List ℕ}
    (h0 : Consistent v s₀.1 s₀.2 L₀ R r) (hreach : Reachable (· = s₀) (Step v) s) : ∃ L, Consistent v s.1 s.2 L R r ∧
      (∀ fs', v.pcAlloccluster s.1 = some (fs', pcfFreecluster) → ∀ x, v.pcValidcl x = true → v.entry s.1.fatp x ≠ 0) ∧
      ∀ f length, 0 ≤ length → length < 2 ^ 31 → Consistent.Truncated v s.1 s.2 L R r f length := by
  obtain ⟨L, h⟩ : ∃ L, Consistent v s.1 s.2 L R r := by
    refine hreach.invariant (P := fun s => ∃ L, Consistent v s.1 s.2 L R r) ?_ ?_
    · rintro s rfl
      exact ⟨L₀, h0⟩
    · rintro s s' ⟨L, h⟩ ⟨⟨f, length⟩, hex⟩
      simp only [exec] at hex
      split at hex
      next hlen =>
        obtain ⟨fs', pcp, l, res, ht, h', -⟩ := h.truncate hr f hlen.1 hlen.2
        simp only [ht, map_some, Option.some.injEq] at hex
        subst hex
        exact ⟨_, h'⟩
      · cases hex
  refine ⟨L, h, fun fs' hf => ?_, fun f length hlen hl' => h.truncate hr f hlen hl'⟩
  rcases h.alloccluster with ⟨-, hn⟩ | ⟨fs1, x, hok, hx, -⟩
  · exact hn
  · rw [hok] at hf
    obtain ⟨-, rfl⟩ := Prod.mk.inj (Option.some.inj hf)
    cases hx

/-- A table with one file, which is empty: the clusters in use are not its. -/
theorem consistent_of_empty (hc : Counters v fs) : Consistent v fs (fun _ : Unit => ⟨0, 0, .reg, false⟩) (fun _ => [])
    {x | v.entry fs.fatp x ≠ 0} (v.entry fs.fatp) := by
  constructor
  case toTable =>
    constructor
    case toCounters => exact hc
    case chained => exact fun _ => ⟨rfl, nofun⟩
    case disjoint => nofun
    case cover => exact fun x _ hx hR => absurd hx hR
    case reserved => exact fun x hx => ⟨rfl, hx, nofun⟩
  case reg => exact fun _ => rfl
  case size => exact fun () => by decide
  case length => exact fun () => by simpa using (howmany_mul (v := v) (Nat.zero_le _)).2.2.symm

def smallVolume : Volume := ⟨.fat12, 512, 3, 0, ⟨9, by decide, rfl⟩, by decide⟩

def smallStart : State Unit := (⟨fun _ => 0, 2, fsinfoUnknown⟩, fun _ => ⟨0, 0, .reg, false⟩)

theorem entry_zero (h : v.kind = .fat12) (cn : ℕ) : v.entry (fun _ => 0) cn = 0 := by
  rw [entry_fat12 h, raw12, widen12]
  simp [pcf12bcluster]

theorem smallStart_consistent : Consistent smallVolume smallStart.1 smallStart.2 (fun _ => []) ∅ fun _ => 0 := by
  have he : smallVolume.entry smallStart.1.fatp = fun _ => 0 := funext (entry_zero rfl)
  have h := consistent_of_empty (v := smallVolume) (show Counters _ smallStart.1 from
    ⟨le_rfl, fun cn hv hlt => absurd hlt (Nat.not_lt.mpr (pcValidcl_iff.mp hv).1), nofun⟩)
  simp only [he, ne_eq, not_true_eq_false, Set.ofPred_false] at h
  exact h

theorem truncate_consistent_small :
    ∃ s, runList (exec smallVolume) smallStart [((), 1000), ((), 2 ^ 31 - 1), ((), 100)] = some s ∧
      (s.2 ()).size = 100 ∧ ∃ L, Consistent smallVolume s.1 s.2 L ∅ fun _ => 0 := by
  have hsz : (runList (exec smallVolume) smallStart [((), 1000), ((), 2 ^ 31 - 1), ((), 100)]).map
      (fun s => (s.2 ()).size) = some 100 := by decide
  obtain ⟨s, hs, h100⟩ := map_eq_some_iff.mp hsz
  refine ⟨s, hs, h100, ?_⟩
  have hc : Reachable (· = smallStart) (Step smallVolume) s :=
    Reachable.runList (fun _ e _ he => ⟨e, he⟩) (.start rfl) hs
  obtain ⟨L, h, -⟩ := truncate_consistent (by decide) smallStart_consistent hc
  exact ⟨L, h⟩

/-- A volume with the cluster number `0xFF0`. -/
def wide12 : Volume := ⟨.fat12, 512, 4079, 0, ⟨9, by decide, rfl⟩, by decide⟩

/-- Only the last two clusters are free; the others are single clusters of other files. -/
def twoLeft : State Unit :=
  (⟨fun i => if i < 6118 then 0xFF else if i = 6118 then 0x0F else 0, 4079, fsinfoUnknown⟩, fun _ => ⟨0, 0, .reg, false⟩)

theorem twoLeft_used (hc : cn < 4079) : wide12.entry twoLeft.1.fatp cn ≠ 0 := by
  have hb (i : ℕ) (hi : i < 6118) : twoLeft.1.fatp i = 0xFF := if_pos hi
  have hw : raw12 twoLeft.1.fatp cn = 0xFFF := by
    rw [raw12, hb _ (by omega)]
    by_cases hodd : cn % 2 = 1
    · rw [if_pos hodd, hb _ (by omega)]
      rfl
    · rw [if_neg hodd]
      by_cases hl : cn + cn / 2 + 1 = 6118
      · rw [hl]
        rfl
      · rw [hb _ (by omega)]
        rfl
  rw [entry_fat12 rfl, hw]
  decide

theorem twoLeft_consistent : Consistent wide12 twoLeft.1 twoLeft.2 (fun _ => [])
    {x | wide12.entry twoLeft.1.fatp x ≠ 0} (wide12.entry twoLeft.1.fatp) :=
  consistent_of_empty ⟨by decide, fun cn _ hlt => twoLeft_used hlt, nofun⟩

/-- The link to cluster `0xFF0` reads back as `0xFFF0`, which is neither a cluster nor a last mark. -/
theorem truncate_breaks_wide12 : (∃ L R r, Consistent wide12 twoLeft.1 twoLeft.2 L R r) ∧
    ∃ s, exec wide12 twoLeft ((), 1024) = some s ∧ ¬ ∃ L R r, Consistent wide12 s.1 s.2 L R r := by
  have hv : (exec wide12 twoLeft ((), 1024)).map (fun s => ((s.2 ()).scluster, wide12.entry s.1.fatp 4079)) =
      some (4079, 0xFFF0) := by decide
  obtain ⟨s, hs, hs'⟩ := map_eq_some_iff.mp hv
  obtain ⟨hsc, hn⟩ := Prod.mk.inj hs'
  refine ⟨⟨_, _, _, twoLeft_consistent⟩, s, hs, fun ⟨L, R, r, h⟩ => ?_⟩
  have hc := h.chained ()
  have hp : Spells (fun cn => wide12.link (wide12.entry s.1.fatp cn)) (some 4079) [4079] := by
    refine ⟨rfl, ?_⟩
    show wide12.link (wide12.entry s.1.fatp 4079) = none
    rw [hn]
    decide
  rw [hsc] at hc
  have hL : L () = [4079] := hc.spells.unique hp
  have hl := hc.last 4079 (by rw [hL]; rfl)
  rw [hn] at hl
  exact absurd hl (by decide)

end Sol8.Pcfs
