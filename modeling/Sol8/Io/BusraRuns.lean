import Sol8.Io.Busra

/-! Bus resources are not handed out twice (`io/busra.c`). -/

namespace Sol8.Io.Busra

open Sol8.Lib Sol8.Lib.Ranges List Resource
open BitVec (le_def lt_def toNat_sub_of_le)

namespace Resource

def lo (r : Resource) : ℕ := r.base.toNat

def hi (r : Resource) : ℕ := r.base.toNat + r.len.toNat

end Resource

/-- Sorted, disjoint, not adjacent, not empty, and below `2 ^ 63`. -/
def WellFormed (l : List Resource) : Prop := Separated lo hi l ∧ ∀ r ∈ l, r.hi ≤ 2 ^ 63

def Free (l : List Resource) (a : ℕ) : Prop := Covers lo hi l a

variable {l l' : List Resource} {r mapp : Resource} {base len : BitVec 64} {i a : ℕ}

theorem free_cons : Free (r :: l) a ↔ (r.lo ≤ a ∧ a < r.hi) ∨ Free l a := covers_cons

theorem free_nil : ¬ Free [] a := covers_nil.mp

theorem free_singleton : Free [r] a ↔ r.lo ≤ a ∧ a < r.hi := free_cons.trans (or_iff_left free_nil)

theorem wellFormed_nil : WellFormed [] := ⟨separated_nil, by simp⟩

theorem wellFormed_cons : WellFormed (r :: l) ↔
    (r.lo < r.hi ∧ r.hi ≤ 2 ^ 63) ∧ (∀ s ∈ l, r.hi < s.lo) ∧ WellFormed l := by
  simp only [WellFormed, separated_cons, forall_mem_cons]
  tauto

theorem toNat_end (h : base.toNat + len.toNat ≤ 2 ^ 63) : (base + len).toNat = base.toNat + len.toNat := by
  rw [BitVec.toNat_add, Nat.mod_eq_of_lt (by omega)]

structure Freed (l : List Resource) (base len : BitVec 64) (l' : List Resource) : Prop where
  wellFormed : WellFormed l'
  free_iff : ∀ a, Free l' a ↔ Free l a ∨ base.toNat ≤ a ∧ a < base.toNat + len.toNat
  disjoint : ∀ a, base.toNat ≤ a → a < base.toNat + len.toNat → ¬ Free l a
  above : ∀ m, m < base.toNat → (∀ r ∈ l, m < r.lo) → ∀ r ∈ l', m < r.lo

section Free

variable {rest : List Resource} {next : Resource}

theorem freed_node {p : List Resource} (h : WellFormed (p ++ rest)) (hne : r.lo < r.hi) (hmax : r.hi ≤ 2 ^ 63)
    (hg : ∀ s ∈ rest, r.hi < s.lo)
    (hc : ∀ a, r.lo ≤ a ∧ a < r.hi ↔ Free p a ∨ base.toNat ≤ a ∧ a < base.toNat + len.toNat)
    (hd : ∀ a, base.toNat ≤ a → a < base.toNat + len.toNat → ¬ Free p a)
    (hl : r.lo = base.toNat ∨ ∃ s ∈ p, r.lo = s.lo) : Freed (p ++ rest) base len (r :: rest) := by
  have hrs : WellFormed rest := ⟨(separated_append.mp h.1).2.1, fun s hs => h.2 s (mem_append_right _ hs)⟩
  refine ⟨wellFormed_cons.mpr ⟨⟨hne, hmax⟩, hg, hrs⟩, fun a => ?_, fun a h1 h2 => ?_, fun m hm hr => ?_⟩
  · rw [free_cons, hc, or_right_comm]
    exact or_congr_left covers_append.symm
  · rw [Free, covers_append, not_or]
    refine ⟨hd a h1 h2, ?_⟩
    rintro ⟨s, hs, hle, -⟩
    have := hg s hs
    have := ((hc a).mpr (.inr ⟨h1, h2⟩)).2
    omega
  · rw [forall_mem_append] at hr
    refine forall_mem_cons.mpr ⟨?_, hr.2⟩
    rcases hl with hl | ⟨s, hs, hl⟩
    · exact hl ▸ hm
    · exact hl ▸ hr.1 s hs

theorem freed_insert (h : WellFormed rest) (hg : ∀ s ∈ rest, base.toNat + len.toNat < s.lo) (hlen : 0 < len.toNat)
    (hf : base.toNat + len.toNat ≤ 2 ^ 63) : Freed rest base len (⟨base, len⟩ :: rest) :=
  freed_node (p := []) h (Nat.lt_add_of_pos_right hlen) hf hg (fun _ => (or_iff_right free_nil).symm)
    (fun _ _ _ => free_nil) (.inl rfl)

theorem freed_front (h : WellFormed (mapp :: rest)) (he : base.toNat + len.toNat = mapp.lo)
    (hlen : 0 < len.toNat) : Freed (mapp :: rest) base len (⟨base, mapp.len + len⟩ :: rest) := by
  obtain ⟨⟨hne, hmax⟩, hg, -⟩ := wellFormed_cons.mp h
  have hl : lo ⟨base, mapp.len + len⟩ = base.toNat := rfl
  have hh : hi ⟨base, mapp.len + len⟩ = mapp.hi := by
    simp only [lo, hi] at *
    rw [BitVec.toNat_add]
    omega
  refine freed_node (p := [mapp]) h (by omega) (by omega) (hh ▸ hg) (fun a => ?_) (fun a _ _ => ?_) (.inl rfl)
  all_goals
    rw [free_singleton]
    omega

theorem freed_back (h : WellFormed (mapp :: rest)) (he : base.toNat = mapp.hi) (hlen : 0 < len.toNat)
    (hf : base.toNat + len.toNat ≤ 2 ^ 63) (hg : ∀ s ∈ rest, base.toNat + len.toNat < s.lo) :
    Freed (mapp :: rest) base len (⟨mapp.base, mapp.len + len⟩ :: rest) := by
  obtain ⟨⟨hne, hmax⟩, -⟩ := wellFormed_cons.mp h
  have hl : lo ⟨mapp.base, mapp.len + len⟩ = mapp.lo := rfl
  have hh : hi ⟨mapp.base, mapp.len + len⟩ = base.toNat + len.toNat := by
    simp only [lo, hi] at *
    rw [BitVec.toNat_add]
    omega
  refine freed_node (p := [mapp]) h (by omega) (by omega) (hh ▸ hg) (fun a => ?_) (fun a _ _ => ?_)
    (.inr ⟨mapp, mem_cons_self, rfl⟩)
  all_goals
    rw [free_singleton]
    omega

theorem freed_merge (h : WellFormed (mapp :: next :: rest)) (he : base.toNat = mapp.hi)
    (he' : base.toNat + len.toNat = next.lo) (hlen : 0 < len.toNat) :
    Freed (mapp :: next :: rest) base len (⟨mapp.base, mapp.len + len + next.len⟩ :: rest) := by
  obtain ⟨⟨hne, hmax⟩, -, hn⟩ := wellFormed_cons.mp h
  obtain ⟨⟨hne', hm'⟩, hg, -⟩ := wellFormed_cons.mp hn
  have hl : lo ⟨mapp.base, mapp.len + len + next.len⟩ = mapp.lo := rfl
  have hh : hi ⟨mapp.base, mapp.len + len + next.len⟩ = next.hi := by
    simp only [lo, hi] at *
    rw [BitVec.toNat_add, BitVec.toNat_add, Nat.mod_eq_of_lt (a := mapp.len.toNat + len.toNat) (by omega),
      Nat.mod_eq_of_lt (by omega)]
    omega
  refine freed_node (p := [mapp, next]) h (by omega) (by omega) (hh ▸ hg) (fun a => ?_) (fun a _ _ => ?_)
    (.inr ⟨mapp, mem_cons_self, rfl⟩)
  all_goals
    rw [free_cons, free_singleton]
    omega

theorem Freed.cons (hf : Freed rest base len l') (h : WellFormed (mapp :: rest)) (he : mapp.hi < base.toNat) :
    Freed (mapp :: rest) base len (mapp :: l') := by
  obtain ⟨hne, hg, hrs⟩ := wellFormed_cons.mp h
  refine ⟨wellFormed_cons.mpr ⟨hne, hf.above _ he hg, hf.wellFormed⟩, fun a => ?_, fun a h1 h2 => ?_,
    fun m hm hr => ?_⟩
  · rw [free_cons, free_cons, hf.free_iff]
    tauto
  · rw [free_cons, not_or]
    exact ⟨by omega, hf.disjoint a h1 h2⟩
  · rw [forall_mem_cons] at hr ⊢
    exact ⟨hr.1, hf.above m hm hr.2⟩

theorem ndiRaFree_spec (h : WellFormed l) (hlen : 0 < len.toNat) (ht : base.toNat + len.toNat ≤ 2 ^ 63) :
    (∀ l', ndiRaFree base len l = some l' → Freed l base len l') ∧
      (ndiRaFree base len l = none → ∃ a, base.toNat ≤ a ∧ a < base.toNat + len.toNat ∧ Free l a) := by
  induction l with
  | nil =>
    refine ⟨?_, by simp [ndiRaFree]⟩
    rintro l' ⟨⟩
    exact freed_insert wellFormed_nil (by simp) hlen ht
  | cons mapp rest ih =>
    obtain ⟨⟨hne, hmax⟩, hg, hr⟩ := wellFormed_cons.mp h
    have hen : (base + len).toNat = base.toNat + len.toNat := toNat_end ht
    have hm : (mapp.base + mapp.len).toNat = mapp.hi := toNat_end hmax
    have hl : mapp.base.toNat = mapp.lo := rfl
    unfold ndiRaFree
    simp only [lt_def, le_def, gt_iff_lt, ← BitVec.toNat_inj, hen, hm, hl]
    by_cases c1 : base.toNat ≤ mapp.lo ∧ mapp.lo < base.toNat + len.toNat ∨ mapp.lo < base.toNat ∧ base.toNat < mapp.hi
    · rw [if_pos c1]
      refine ⟨by simp, fun _ => ?_⟩
      rcases c1 with c | c
      · exact ⟨mapp.lo, c.1, c.2, free_cons.mpr (.inl ⟨le_rfl, hne⟩)⟩
      · exact ⟨base.toNat, le_rfl, by omega, free_cons.mpr (.inl ⟨c.1.le, c.2⟩)⟩
    rw [if_neg c1]
    by_cases hb : base.toNat = mapp.hi
    · have hf : base.toNat + len.toNat ≠ mapp.lo := by omega
      simp only [eq_true hb, true_and, if_neg hf, if_true]
      cases rest with
      | nil =>
        refine ⟨?_, by simp⟩
        rintro l' ⟨⟩
        exact freed_back h hb hlen ht (by simp)
      | cons next rest' =>
        have hnx : next.base.toNat = next.lo := rfl
        obtain ⟨⟨hne', -⟩, hg', -⟩ := wellFormed_cons.mp hr
        have hmn := hg next mem_cons_self
        simp only [List.head?_cons, Option.any_some, decide_eq_true_eq, hnx]
        by_cases ho : next.lo < base.toNat + len.toNat
        · rw [if_pos ho]
          refine ⟨by simp, fun _ => ⟨next.lo, by omega, ho, ?_⟩⟩
          exact free_cons.mpr (.inr (free_cons.mpr (.inl ⟨le_rfl, hne'⟩)))
        split_ifs with hmr
        · refine ⟨?_, by simp⟩
          rintro l' ⟨⟩
          exact freed_merge h hb hmr hlen
        · refine ⟨?_, by simp⟩
          rintro l' ⟨⟩
          refine freed_back h hb hlen ht fun s hs => ?_
          rcases mem_cons.mp hs with rfl | hs
          · omega
          · have := hg' s hs
            omega
    · simp only [hb, false_and, if_false]
      by_cases hf : base.toNat + len.toNat = mapp.lo
      · rw [if_pos hf]
        refine ⟨?_, by simp⟩
        rintro l' ⟨⟩
        exact freed_front h hf hlen
      split_ifs with hin
      · refine ⟨?_, by simp⟩
        rintro l' ⟨⟩
        refine freed_insert h (fun s hs => ?_) hlen ht
        rcases mem_cons.mp hs with rfl | hs
        · omega
        · have := hg s hs
          omega
      · have ha : mapp.hi < base.toNat := by omega
        obtain ⟨hsm, hnn⟩ := ih hr
        refine ⟨?_, fun hn => ?_⟩
        · intro l' hl'
          obtain ⟨l'', h'', rfl⟩ := Option.map_eq_some_iff.mp hl'
          exact (hsm l'' h'').cons h ha
        · obtain ⟨a, h1, h2, h3⟩ := hnn (Option.map_eq_none_iff.mp hn)
          exact ⟨a, h1, h2, free_cons.mpr (.inr h3)⟩

end Free

/-! ### Taking a range out of a node -/

def Resource.Holds (mapp : Resource) (base len : BitVec 64) : Prop :=
  0 < len.toNat ∧ mapp.lo ≤ base.toNat ∧ base.toNat + len.toNat ≤ mapp.hi

theorem Resource.adjust_spec (hmax : mapp.hi ≤ 2 ^ 63) (h : mapp.Holds base len) :
    WellFormed (mapp.adjust base len) ∧ (∀ m ∈ mapp.adjust base len, mapp.lo ≤ m.lo ∧ m.hi ≤ mapp.hi) ∧
      ∀ a, Free (mapp.adjust base len) a ↔
        (mapp.lo ≤ a ∧ a < mapp.hi) ∧ ¬ (base.toNat ≤ a ∧ a < base.toNat + len.toNat) := by
  obtain ⟨hlen, ho, hh⟩ := h
  have hw : (base - mapp.base).toNat = base.toNat - mapp.lo := toNat_sub_of_le (le_def.mpr ho)
  have hen : (base + len).toNat = base.toNat + len.toNat := toNat_end (hh.trans hmax)
  have hno : mapp.hi = mapp.lo + mapp.len.toNat := rfl
  -- what is left before the range, and after it
  have hl : hi ⟨mapp.base, base - mapp.base⟩ = base.toNat := by
    change mapp.lo + (base - mapp.base).toNat = _
    omega
  have hr {n : BitVec 64} (hn : n.toNat = len.toNat + (base.toNat - mapp.lo)) :
      (mapp.len - n).toNat = mapp.hi - (base.toNat + len.toNat) ∧ hi ⟨base + len, mapp.len - n⟩ = mapp.hi := by
    have hsub : (mapp.len - n).toNat = mapp.len.toNat - n.toNat := toNat_sub_of_le (le_def.mpr (by omega))
    change _ ∧ (base + len).toNat + (mapp.len - n).toNat = _
    omega
  have hl1 : lo ⟨mapp.base, base - mapp.base⟩ = mapp.lo := rfl
  have hl2 (n : BitVec 64) : lo ⟨base + len, n⟩ = base.toNat + len.toNat := hen
  unfold adjust
  by_cases hb : base = mapp.base
  · obtain ⟨hl', hr⟩ := hr (n := len) (by rw [hb, lo]; omega)
    rw [if_neg (not_not.mpr hb), ← hb]
    have hbs : base.toNat = mapp.lo := by rw [hb, lo]
    split_ifs with h0
    · have : (mapp.len - len).toNat = 0 := by rw [h0]; rfl
      exact ⟨wellFormed_nil, by simp, fun a => iff_of_false free_nil (by omega)⟩
    · have : (mapp.len - len).toNat ≠ 0 := fun he => h0 (BitVec.eq_of_toNat_eq he)
      have := hl2 (mapp.len - len)
      refine ⟨wellFormed_cons.mpr ⟨(by omega), by simp, wellFormed_nil⟩, ?_, fun a => ?_⟩
      · rw [forall_mem_singleton]
        omega
      · rw [free_singleton]
        omega
  · have hne : base.toNat ≠ mapp.lo := fun he => hb (BitVec.eq_of_toNat_eq he)
    have hs : (mapp.len - (base - mapp.base)).toNat = mapp.len.toNat - (base.toNat - mapp.lo) := by
      rw [toNat_sub_of_le (le_def.mpr (by omega)), hw]
    have ht : (len + (base - mapp.base)).toNat = len.toNat + (base.toNat - mapp.lo) := by
      rw [BitVec.toNat_add, hw, Nat.mod_eq_of_lt (by omega)]
    obtain ⟨hl', hr⟩ := hr ht
    rw [if_pos hb]
    simp only [← BitVec.toNat_inj, hs]
    split_ifs with h0
    · refine ⟨wellFormed_cons.mpr ⟨(by omega), by simp, wellFormed_nil⟩, ?_, fun a => ?_⟩
      · rw [forall_mem_singleton]
        omega
      · rw [free_singleton]
        omega
    · have := hl2 (mapp.len - (len + (base - mapp.base)))
      refine ⟨wellFormed_cons.mpr ⟨(by omega), ?_, wellFormed_cons.mpr ⟨(by omega), by simp,
        wellFormed_nil⟩⟩, ?_, fun a => ?_⟩
      · rw [forall_mem_singleton]
        omega
      · rw [forall_mem_cons, forall_mem_singleton]
        omega
      · rw [free_cons, free_singleton]
        omega

theorem adjustLink_spec (h : WellFormed l) (hi : l[i]? = some mapp) (hm : mapp.Holds base len) :
    WellFormed (adjustLink l i base len) ∧ (∀ a, base.toNat ≤ a → a < base.toNat + len.toNat → Free l a) ∧
      ∀ a, Free (adjustLink l i base len) a ↔ Free l a ∧ ¬ (base.toNat ≤ a ∧ a < base.toNat + len.toNat) := by
  obtain ⟨hlt, hg⟩ := List.getElem?_eq_some_iff.mp hi
  have hmem : mapp ∈ l := mem_of_getElem? hi
  have hl : l.take i ++ mapp :: l.drop (i + 1) = l := by
    rw [← hg, getElem_cons_drop, take_append_drop]
  obtain ⟨hw, hsub, hf⟩ := adjust_spec (h.2 mapp hmem) hm
  have hs := h.1
  rw [← hl] at hs
  have hn : adjustLink l i base len = l.take i ++ mapp.adjust base len ++ l.drop (i + 1) := by
    rw [adjustLink, hi]
  rw [hn]
  refine ⟨⟨hs.replace hw.1 hsub, fun r hr => ?_⟩, fun a h1 h2 => ⟨mapp, hmem, ?_⟩, fun a => ?_⟩
  · rcases mem_append.mp hr with hr | hr
    · rcases mem_append.mp hr with hr | hr
      · exact h.2 r (mem_of_mem_take hr)
      · exact hw.2 r hr
    · exact h.2 r (mem_of_mem_drop hr)
  · have := hm.2
    omega
  · have := hs.covers_replace hm.2.1 hm.2.2 hf a
    rwa [hl] at this

/-! ### The search -/

section Search

variable {req : Request} {largest : Option Found}

def Request.CutsOff (req : Request) (mapp : Resource) (base : BitVec 64) : Prop :=
  req.upper - mapp.base < mapp.len ∧ req.upper ≤ base

/-- No base that is tried lies outside of its node, so that the differences do not wrap around, and a
partial request finds something at every node that it looks at. -/
structure Safe (req : Request) (l : List Resource) : Prop where
  fit : req.specified = false → ∀ mapp ∈ l, mapp.base ≤ req.upper → req.len ≤ mapp.len →
    req.len - 1 + req.tryBase mapp ≤ req.upper → mapp.lo ≤ (req.tryBase mapp).toNat ∧ (req.tryBase mapp).toNat ≤ mapp.hi
  part : req.specified = false → req.partialOk = true → ∀ mapp ∈ l, mapp.base ≤ req.upper →
    mapp.lo ≤ (req.tryBase mapp).toNat ∧ (req.tryBase mapp).toNat < mapp.hi ∧ ¬ req.CutsOff mapp (req.tryBase mapp)
  exact : req.specified = true → req.partialOk = true → ∀ mapp ∈ l, mapp.base ≤ req.upper →
    mapp.base ≤ req.addr → req.addr - mapp.base < mapp.len → ¬ req.CutsOff mapp req.addr

def Found.Valid (l : List Resource) (f : Found) : Prop := ∃ mapp, l[f.index]? = some mapp ∧ mapp.Holds f.base f.len

theorem remlen_holds (hu : mapp.base ≤ req.upper) (hl : mapp.lo ≤ base.toNat) (hh : base.toNat < mapp.hi)
    (ht : ¬ req.CutsOff mapp base) : mapp.Holds base (req.remlen mapp base) := by
  simp only [lo, hi] at hl hh
  have hb : (base - mapp.base).toNat = base.toNat - mapp.base.toNat := toNat_sub_of_le (le_def.mpr hl)
  unfold Request.remlen Resource.Holds
  simp only [lo, hi]
  split_ifs with hc
  · have hlt : base < req.upper := BitVec.not_le.mp fun hle => ht ⟨hc, hle⟩
    rw [lt_def, toNat_sub_of_le hu] at hc
    rw [toNat_sub_of_le (BitVec.le_of_lt hlt)]
    rw [lt_def] at hlt
    omega
  · rw [toNat_sub_of_le (le_def.mpr (by omega))]
    omega

theorem updateLargest_valid {found : Found} (hl : ∀ f, largest = some f → f.Valid l) (hn : found.Valid l) :
    ∀ f, updateLargest largest found = some f → f.Valid l := by
  intro f hf
  unfold updateLargest at hf
  split at hf
  · cases hf
    exact hn
  · split_ifs at hf
    · cases hf
      exact hn
    · exact hl f hf

theorem node_of_drop {rest : List Resource} (hd : l.drop i = mapp :: rest) :
    l[i]? = some mapp ∧ mapp ∈ l ∧ l.drop (i + 1) = rest := by
  have hi : l[i]? = some mapp := by
    rw [← List.head?_drop, hd]
    rfl
  refine ⟨hi, mem_of_getElem? hi, ?_⟩
  rw [← tail_drop, hd]
  rfl

theorem firstFit_valid (hs : Safe req l) (hsp : req.specified = false)
    (hlen : 0 < req.len.toNat) (hl : ∀ f, largest = some f → f.Valid l) :
    (∀ f, (firstFit req i (l.drop i) largest).1 = some f → f.Valid l) ∧
      ∀ f, (firstFit req i (l.drop i) largest).2 = some f → f.Valid l := by
  generalize hd : l.drop i = rest
  induction rest generalizing i largest with
  | nil => exact ⟨by simp [firstFit], hl⟩
  | cons mapp rest ih =>
    obtain ⟨hi, hmem, hr⟩ := node_of_drop hd
    unfold firstFit
    split <;> rename_i hu
    · dsimp only
      set largest' := if req.partialOk then
        updateLargest largest ⟨i, req.tryBase mapp, req.remlen mapp (req.tryBase mapp)⟩ else largest with hl'
      have hr' : ∀ f, largest' = some f → f.Valid l := by
        rw [hl']
        split_ifs with hp
        · obtain ⟨h1, h2, h3⟩ := hs.part hsp hp mapp hmem hu
          exact updateLargest_valid hl ⟨mapp, hi, remlen_holds hu h1 h2 h3⟩
        · exact hl
      split_ifs with ht
      · refine ⟨?_, hr'⟩
        rintro f ⟨⟩
        obtain ⟨hge, hf⟩ := ht
        rw [not_or, BitVec.not_lt, BitVec.not_lt] at hf
        obtain ⟨h1, h2⟩ := hs.fit hsp mapp hmem hu hge hf.2
        refine ⟨mapp, hi, hlen, h1, ?_⟩
        have hb : (req.tryBase mapp - mapp.base).toNat = (req.tryBase mapp).toNat - mapp.base.toNat :=
          toNat_sub_of_le (le_def.mpr h1)
        have hm := le_def.mp hf.1
        simp only [Resource.lo, Resource.hi] at h1 h2 ⊢
        rw [toNat_sub_of_le (le_def.mpr (by omega))] at hm
        omega
      · exact ih hr' hr
    · exact ⟨by simp, hl⟩

theorem exactFit_valid (hf : Safe req l) (hsp : req.specified = true) (hlen : 0 < req.len.toNat) :
    (∀ f, (exactFit req i (l.drop i)).1 = some f → f.Valid l) ∧
      (req.partialOk = true → ∀ f, (exactFit req i (l.drop i)).2 = some f → f.Valid l) := by
  generalize hd : l.drop i = rest
  induction rest generalizing i with
  | nil => exact ⟨by simp [exactFit], by simp [exactFit]⟩
  | cons mapp rest ih =>
    obtain ⟨hi, hmem, hr⟩ := node_of_drop hd
    unfold exactFit
    split <;> rename_i hu
    · split <;> rename_i hin
      · have hb : (req.addr - mapp.base).toNat = req.addr.toNat - mapp.base.toNat := toNat_sub_of_le hin.1
        have hle := le_def.mp hin.1
        have hlt := lt_def.mp hin.2
        split_ifs with hs
        · refine ⟨by simp, ?_⟩
          rintro hp f ⟨⟩
          refine ⟨mapp, hi, remlen_holds hu hle ?_ (hf.exact hsp hp mapp hmem hu hin.1 hin.2)⟩
          simp only [Resource.hi]
          omega
        · refine ⟨?_, by simp⟩
          rintro f ⟨⟩
          rw [not_or, BitVec.not_lt, BitVec.not_lt, le_def, le_def] at hs
          rw [toNat_sub_of_le (le_def.mpr hs.1)] at hs
          refine ⟨mapp, hi, hlen, hle, ?_⟩
          simp only [Resource.hi]
          omega
      · exact ih hr
    · simp

theorem search_valid (hs : Safe req l) (hlen : 0 < req.len.toNat) : (∀ f, (search req l).1 = some f → f.Valid l) ∧
      (req.partialOk = true → ∀ f, (search req l).2 = some f → f.Valid l) := by
  unfold search
  cases hp : req.specified with
  | true => exact exactFit_valid hs hp hlen
  | false =>
    have hn : ∀ f, (none : Option Found) = some f → f.Valid l := by simp
    obtain ⟨hf, hl⟩ := firstFit_valid (i := if req.bounded then skipBelow req l else 0) hs hp hlen hn
    exact ⟨hf, fun _ => hl⟩

end Search

/-! ### Runs -/

inductive Event
  | free (base len : BitVec 64)
  | alloc (req : Request)

def exec (l : List Resource) : Event → List Resource
  | .free base len => (ndiRaFree base len l).getD l
  | .alloc req => (ndiRaAlloc req l).2.2.2

/-- What the callers keep to. -/
def Event.Legal : Event → Prop
  | .free base len => 0 < len.toNat ∧ base.toNat + len.toNat ≤ 2 ^ 63
  | .alloc req => 0 < req.len.toNat ∧ ∃ k ≤ 64, req.alignMask.toNat = 2 ^ k - 1

/-- A free adds its range, or it overlaps the list. -/
def FreeMeets (l : List Resource) (base len : BitVec 64) : Option (List Resource) → Prop
  | some l' => (∀ a, base.toNat ≤ a → a < base.toNat + len.toNat → ¬ Free l a) ∧
      ∀ a, Free l' a ↔ Free l a ∨ base.toNat ≤ a ∧ a < base.toNat + len.toNat
  | none => ∃ a, base.toNat ≤ a ∧ a < base.toNat + len.toNat ∧ Free l a

/-- An allocation takes a range that was free, or changes nothing. -/
def AllocMeets (l : List Resource) : Rval × BitVec 64 × BitVec 64 × List Resource → Prop
  | (.failure, _, _, l') => l' = l
  | (_, base, len, l') => 0 < len.toNat ∧ (∀ a, base.toNat ≤ a → a < base.toNat + len.toNat → Free l a) ∧
      ∀ a, Free l' a ↔ Free l a ∧ ¬ (base.toNat ≤ a ∧ a < base.toNat + len.toNat)

def Meets (l : List Resource) : Event → Prop
  | .free base len => FreeMeets l base len (ndiRaFree base len l)
  | .alloc req => AllocMeets l (ndiRaAlloc req l)

def Event.SafeIn (l : List Resource) : Event → Prop
  | .free .. => True
  | .alloc req => Safe req l

theorem meets_free (h : WellFormed l) (hl : (Event.free base len).Legal) :
    Meets l (.free base len) ∧ WellFormed (exec l (.free base len)) := by
  obtain ⟨hs, hn⟩ := ndiRaFree_spec h hl.1 hl.2
  simp only [Meets, exec]
  cases hr : ndiRaFree base len l with
  | none => exact ⟨hn hr, h⟩
  | some l' =>
    have hf := hs l' hr
    exact ⟨⟨hf.disjoint, hf.free_iff⟩, hf.wellFormed⟩

theorem meets_alloc {req : Request} (h : WellFormed l) (hl : (Event.alloc req).Legal) (hsf : Safe req l) :
    Meets l (.alloc req) ∧ WellFormed (exec l (.alloc req)) := by
  obtain ⟨ht, hr⟩ := search_valid hsf hl.1
  have hg {f : Found} (hf : f.Valid l) :
      (0 < f.len.toNat ∧ (∀ a, f.base.toNat ≤ a → a < f.base.toNat + f.len.toNat → Free l a) ∧
        ∀ a, Free (adjustLink l f.index f.base f.len) a ↔
          Free l a ∧ ¬ (f.base.toNat ≤ a ∧ a < f.base.toNat + f.len.toNat)) ∧
        WellFormed (adjustLink l f.index f.base f.len) := by
    obtain ⟨mapp, hi, hm⟩ := hf
    obtain ⟨hw, hin, hfr⟩ := adjustLink_spec h hi hm
    exact ⟨⟨hm.1, hin, hfr⟩, hw⟩
  simp only [Meets, exec, ndiRaAlloc]
  by_cases hpow : req.alignSize ∧ isnotPow2 req.len
  · rw [if_pos hpow]
    exact ⟨rfl, h⟩
  rw [if_neg hpow]
  rcases hs : search req l with ⟨_ | f, largest⟩
  · rcases largest with _ | f
    · exact ⟨rfl, h⟩
    · cases hp : req.partialOk with
      | false => exact ⟨rfl, h⟩
      | true =>
        exact hg (hr hp f (by rw [hs]))
  · exact hg (ht f (by rw [hs]))

def Step (l l' : List Resource) : Prop := ∃ e, e.Legal ∧ l' = exec l e

def SafeStep (l l' : List Resource) : Prop := ∃ e, e.Legal ∧ e.SafeIn l ∧ l' = exec l e

theorem meets_of_safe {e : Event} (h : WellFormed l) (hl : e.Legal) (hs : e.SafeIn l) :
    Meets l e ∧ WellFormed (exec l e) := by
  cases e with
  | free base len => exact meets_free h hl
  | alloc req => exact meets_alloc h hl hs

/-- The list stays well formed, and every request gives and takes what it should, if no base is pushed
out of its node. -/
theorem busra_of_safe (h : Reachable WellFormed SafeStep l) :
    WellFormed l ∧ ∀ e : Event, e.Legal → e.SafeIn l → Meets l e := by
  have hw : WellFormed l := by
    refine h.invariant (fun _ h0 => h0) ?_
    rintro l l' hl ⟨e, hg, hs, rfl⟩
    exact (meets_of_safe hl hg hs).2
  exact ⟨hw, fun e hg hs => (meets_of_safe hw hg hs).1⟩

theorem WellFormed.unique (h : WellFormed l) (h' : WellFormed l') (he : ∀ a, Free l a ↔ Free l' a) : l = l' := by
  have hj : Function.Injective fun r : Resource => (r.lo, r.hi) := by
    rintro ⟨⟩ ⟨⟩
    simp +contextual [lo, hi, BitVec.toNat_inj]
  refine map_injective_iff.mpr hj (Separated.unique ?_ ?_ fun a => ?_)
  all_goals simp_all [WellFormed, Separated, Free, Covers, pairwise_map]

/-- Unbounded and not partial, with the given length and alignment. -/
def simpleRequest (len alignMask : BitVec 64) : Request :=
  { alignSize := false, bounded := false, specified := false, partialOk := false, len := len, addr := 0,
    boundbase := 0, boundlen := 0, alignMask := alignMask }

/-- A map with the range of length 8 at 1 gives out 256. -/
theorem busra_fails_align : ∃ l, Reachable WellFormed Step l ∧ l = [⟨1, 8⟩] ∧
    (Event.alloc (simpleRequest 1 255)).Legal ∧
    ndiRaAlloc (simpleRequest 1 255) l = (.success, 256, 1, [⟨1, 255⟩, ⟨257, -248⟩]) ∧
    ¬ Meets l (.alloc (simpleRequest 1 255)) := by
  have hr : ndiRaAlloc (simpleRequest 1 255) [⟨1, 8⟩] = (.success, 256, 1, [⟨1, 255⟩, ⟨257, -248⟩]) := by
    decide
  refine ⟨[⟨1, 8⟩], ?_, rfl, ⟨by decide, 8, by decide, by decide⟩, hr, ?_⟩
  · have h0 : Reachable WellFormed Step [] := .start wellFormed_nil
    exact h0.next ⟨.free 1 8, ⟨by decide, by decide⟩, by decide⟩
  · intro h
    obtain ⟨r, hr, hl, hh⟩ := h.2.1 256 (by decide) (by decide)
    rw [mem_singleton.mp hr] at hh
    exact absurd hh (by decide)

theorem busra_of_safe_align : ∃ l, Reachable WellFormed SafeStep l ∧ l = [⟨1, 1000⟩] ∧
    ndiRaAlloc (simpleRequest 16 255) l = (.success, 256, 16, [⟨1, 255⟩, ⟨272, 729⟩]) ∧
    WellFormed l ∧ Meets l (.alloc (simpleRequest 16 255)) := by
  have hr : Reachable WellFormed SafeStep [⟨1, 1000⟩] := by
    have h0 : Reachable WellFormed SafeStep [] := .start wellFormed_nil
    exact h0.next ⟨.free 1 1000, ⟨by decide, by decide⟩, trivial, by decide⟩
  have hs : Safe (simpleRequest 16 255) [⟨1, 1000⟩] := by
    refine ⟨?_, by simp [simpleRequest], by simp [simpleRequest]⟩
    intro _ mapp hm _ _ _
    rw [mem_singleton.mp hm]
    decide
  obtain ⟨hw, ht⟩ := busra_of_safe hr
  exact ⟨_, hr, rfl, by decide, hw, ht _ ⟨by decide, 8, by decide, by decide⟩ hs⟩

end Sol8.Io.Busra
