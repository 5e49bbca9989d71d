import Sol8.Os.Nodeid

/-! The list of available nodeids is the set that the calls say: allocation removes the least nodeid, freeing adds
one, and taking removes one. -/

namespace Sol8.Os.Nodeid

open Function Sol8.Lib Sol8.Lib.Ranges List

variable {P : Type} [DecidableEq P] {s s' : Nodeids P} {l l1 l2 : List P} {np fp : P} {nodeid : UInt32} {k n : ℕ}
  {x : UInt32} {m : Option P} {y : UInt32}

/-- The list of entries, and no memory but theirs is allocated. -/
structure Rep (s : Nodeids P) (l : List P) : Prop where
  entries : Entries s l
  held : ∀ p, s.live p = true ↔ p ∈ l

omit [DecidableEq P] in
theorem Entries.length_le (h : Entries s l) : l.length < limit := Nat.lt_of_le_of_lt (RangeList.length_le h) (by decide)

/-! The arithmetic and the comparisons of the code are those of numbers. -/

theorem toNat_succ (h : x.toNat < 2 ^ 32 - 1) : (x + 1).toNat = x.toNat + 1 := by
  exact Nat.mod_eq_of_lt (show x.toNat + 1 < 2 ^ 32 by omega)

theorem toNat_sub (h : y.toNat ≤ x.toNat) : (x - y).toNat = x.toNat - y.toNat :=
  UInt32.toNat_sub_of_le _ _ (UInt32.le_iff_toNat_le.mpr h)

theorem toNat_pred (h : 0 < x.toNat) : (x - 1).toNat = x.toNat - 1 := toNat_sub h

theorem lt_iff_of_toNat {m n : ℕ} (hx : x.toNat = m) (hy : y.toNat = n) : x < y ↔ m < n := by
  rw [UInt32.lt_iff_toNat_lt, hx, hy]

theorem eq_iff_of_toNat {m n : ℕ} (hx : x.toNat = m) (hy : y.toNat = n) : x = y ↔ m = n := by
  rw [← UInt32.toNat_inj, hx, hy]

/-! ### Freeing -/

theorem Entries.single (h : Entries s (l1 ++ l2)) (hn : nodeid.toNat = n) (hle : n ≤ 2 ^ 32 - 3)
    (hw : ∀ r ∈ spans s l1, r.2 < n) (hh : ∀ r ∈ spans s l2, n + 1 < r.1)
    (hl : Links.Headed s'.nhead s'.next s'.prev (l1 ++ fp :: l2)) (ho : s'.nodeid = update s.nodeid fp nodeid)
    (hc : s'.count = update s.count fp 1) : Gains s (l1 ++ l2) n s' (l1 ++ fp :: l2) ∧ ¬ Available s (l1 ++ l2) n := by
  have h0 : Entries s (l1 ++ [] ++ l2) := by simpa using h
  have hl' : Links.Headed s'.nhead s'.next s'.prev (l1 ++ [fp] ++ l2) := by simpa using hl
  have hrn : range s' fp = (n, n + 1) := by simp [range, ho, hc, hn]
  have hg := h0.merge hl' (fun p hp => by simp [ho, hc, hp]) hrn
    (n := n) (fun a => by simp [Available, spans]) (by omega) (by omega) hw hh
  refine ⟨by simpa using hg, RangeList.not_covers fun r hr => ?_⟩
  rw [map_append, mem_append] at hr
  rcases hr with hr | hr
  · exact .inl (hw r hr).le
  · exact .inr (by have := hh r hr; omega)

theorem npCoalesce_spec (h : Entries s (l1 ++ [np] ++ l2)) (hn : n = (range s np).2) (hle : n ≤ 2 ^ 32 - 3)
    (hs' : s' = { s with count := update s.count np (s.count np + 1) }) :
    ∃ l' ⊆ l1 ++ [np] ++ l2, Gains s (l1 ++ [np] ++ l2) n (npCoalesce s' np) l' ∧
      ∀ p, (npCoalesce s' np).live p = true ↔ s.live p = true ∧ (p ∈ l1 ++ [np] ++ l2 → p ∈ l') := by
  obtain ⟨hpos, hb, hw, hh⟩ := h.node
  have hd : (range s np).2 = (s.nodeid np).toNat + (s.count np).toNat := rfl
  have hc : (s.count np + 1).toNat = (s.count np).toNat + 1 := toNat_succ (by omega)
  have hm : (s'.nodeid np + s'.count np).toNat = n + 1 := by
    rw [hs']
    dsimp only
    rw [update_self, UInt32.toNat_add]
    omega
  have hs : ∀ p ≠ np, s'.nodeid p = s.nodeid p ∧ s'.count p = s.count p := fun p hp => by simp [hs', hp]
  have hl : Links.Headed s'.nhead s'.next s'.prev (l1 ++ [np] ++ l2) := hs' ▸ h.links
  have hrn : range s' np = ((range s np).1, n + 1) := by
    rw [hs']
    simp [range, hc]
    omega
  have hv : s'.live = s.live := by rw [hs']
  have hnx : s'.next np = l2.head? := by
    rw [append_assoc] at hl
    exact Links.IsList.next_of_split hl
  -- without a neighbour to join
  have hpn (hf : ∀ r ∈ spans s l2, n + 1 < r.1) : Gains s (l1 ++ [np] ++ l2) n s' (l1 ++ [np] ++ l2) :=
    h.merge hl hs hrn (fun a => by simp [Available, spans]; omega) (by omega) (by omega) hw hf
  cases l2 with
  | nil =>
    have heq : npCoalesce s' np = s' := by rw [npCoalesce, hnx]; rfl
    rw [heq]
    exact ⟨_, List.Subset.refl _, hpn (by rintro _ ⟨⟩), fun p => by simp [hv]⟩
  | cons xp l2 =>
    have hxp : Entries s (l1 ++ [np] ++ [xp] ++ l2) := by simpa using h
    obtain ⟨hp', hb', -, hh'⟩ := hxp.node
    have hg := hh (range s xp) (by simp)
    have hd' : (range s xp).2 = (range s xp).1 + (s.count xp).toNat := rfl
    have hnp : (l1 ++ [np] ++ xp :: l2).Nodup := h.links.nodup
    obtain ⟨hxm, -⟩ := nodup_cons.mp (nodup_middle.mp hnp)
    obtain ⟨ho, hxc⟩ := hs xp fun e => hxm (by simp [e])
    obtain ⟨t, ht⟩ : ∃ t, t = { s' with count := update s'.count np (s'.count np + s'.count xp) } := ⟨_, rfl⟩
    have heq : npCoalesce s' np = if n + 1 = (range s xp).1 then npFree (npUnlink t xp) xp else s' := by
      rw [npCoalesce, hnx, ht]
      simp only [List.head?_cons, eq_iff_of_toNat hm (congrArg UInt32.toNat ho)]
      rfl
    rw [heq]
    split_ifs with htc
    · obtain ⟨hun, hu, huv⟩ := npUnlink_fields t xp
      have hul : Links.Headed (npUnlink t xp).nhead (npUnlink t xp).next (npUnlink t xp).prev (l1 ++ [np] ++ l2) :=
        headed_npUnlink (by rw [ht]; exact hl)
      have hts : ∀ p ≠ np, t.nodeid p = s.nodeid p ∧ t.count p = s.count p := fun p hp => by
        simpa [ht, hp] using hs p hp
      have hsum : (t.count np).toNat = (s.count np).toNat + 1 + (s.count xp).toNat := by
        have hcn : s'.count np = s.count np + 1 := by simp [hs']
        rw [ht]
        dsimp only
        rw [update_self, hcn, hxc, UInt32.toNat_add, hc]
        exact Nat.mod_eq_of_lt (by omega)
      have hur : range (npUnlink t xp) np = ((range s np).1, (range s xp).2) := by
        rw [range, hun, hu, show t.nodeid np = s.nodeid np by simp [ht, hs']]
        exact Prod.ext rfl (by omega)
      have hj : Entries s (l1 ++ np :: [xp] ++ l2) := by simpa using h
      obtain ⟨h', ha⟩ := hj.merge hul (fun p hp => by rw [hun, hu]; exact hts p hp) hur
        (n := n) (fun a => by simp [Available, spans]; omega) (by omega) hb' hw hh'
      have hls : l1 ++ np :: [xp] ++ l2 = l1 ++ [np] ++ xp :: l2 := by simp
      rw [hls] at ha
      refine ⟨l1 ++ [np] ++ l2, ((sublist_cons_self xp l2).append_left _).subset,
        ⟨⟨h'.links, h'.separated, h'.bound⟩, ha⟩, fun p => ?_⟩
      by_cases hp : p = xp
      · subst hp
        simp only [npFree, update_self, Bool.false_eq_true, false_iff, not_and]
        exact fun _ hmem => hxm (hmem (by simp))
      · have hpl : t.live p = s.live p := by simp [ht, hv]
        simp [npFree, hp, hpl]
    · refine ⟨_, List.Subset.refl _, hpn fun r hr => ?_, fun p => by simp [hv]⟩
      rcases mem_cons.mp hr with rfl | hr
      · omega
      · have := hh' r hr
        omega

omit [DecidableEq P] in
theorem Entries.outside (h : Entries s (l1 ++ [np] ++ l2)) (hl : ∀ r ∈ spans s l1, r.2 < n)
    (ho : n = (range s np).2 ∨ n < (range s np).1) : ¬ Available s (l1 ++ [np] ++ l2) n := by
  obtain ⟨hpos, -, -, hb⟩ := h.node
  refine RangeList.not_covers fun r hr => ?_
  rw [map_append, map_append, mem_append, mem_append] at hr
  rcases hr with (hr | hr) | hr
  · exact .inl (hl r hr).le
  · rw [mem_singleton.mp hr]
    omega
  · have := hb r hr
    omega

theorem held_npFree (hh : ∀ p, s.live p = true ↔ p ∈ l ∨ p = fp) (hf : fp ∉ l) (p : P) :
    (npFree s fp).live p = true ↔ p ∈ l := by
  by_cases hp : p = fp
  · subst hp
    simp [npFree, hf]
  · simp [npFree, hp, hh p]

/-- The loop of `impl_ddi_free_nodeid` from an entry on, with all entries before it below the nodeid. -/
theorem freeLoop_spec (h : Entries s (l1 ++ l2)) (hh : ∀ p, s.live p = true ↔ p ∈ l1 ++ l2 ∨ p = fp)
    (hfp : fp ∉ l1 ++ l2) (hnx : s.next fp = none) (hpr : s.prev fp = none) (hn : nodeid.toNat = n)
    (hle : n ≤ 2 ^ 32 - 3) (hw : ∀ r ∈ spans s l1, r.2 < n) (hk : l2.length < k) :
    (freeLoop s nodeid fp k l2.head? = .error (.alreadyFree nodeid) ∧ Available s (l1 ++ l2) n) ∨
      ∃ s' l', freeLoop s nodeid fp k l2.head? = .ok s' ∧ Rep s' l' ∧ ¬ Available s (l1 ++ l2) n ∧
        ∀ a, Available s' l' a ↔ Available s (l1 ++ l2) a ∨ a = n := by
  induction l2 generalizing l1 k with
  | nil =>
    obtain _ | k := k
    · simp at hk
    right
    have hlen := h.length_le
    rw [append_nil] at hlen hfp
    have hln : Links.Headed s.nhead s.next s.prev l1 := by simpa using h.links
    obtain ⟨s', ha, hl', ho, hc, hl⟩ := npAdd_headed (s := { s with
      nodeid := update s.nodeid fp nodeid, count := update s.count fp 1 }) hln hlen.le hfp hnx hpr
    obtain ⟨⟨h', hv⟩, hnt⟩ := h.single hn hle hw nofun hl' ho hc
    exact ⟨s', _, ha, ⟨h', fun p => by simpa [hl] using hh p⟩, hnt, hv⟩
  | cons np l2 ih =>
    obtain _ | k := k
    · simp at hk
    have hs : l1 ++ np :: l2 = l1 ++ [np] ++ l2 := by simp
    have hnp : Entries s (l1 ++ [np] ++ l2) := hs ▸ h
    have hen := hnp.toNat_end
    obtain ⟨hpos, hbn, hbf, hb⟩ := hnp.node
    have hd : (range s np).2 = (s.nodeid np).toNat + (s.count np).toNat := rfl
    have hfs : (s.nodeid np).toNat = (range s np).1 := rfl
    have hsc : (nodeid + 1).toNat = n + 1 := by rw [toNat_succ (by omega), hn]
    have hc : (s.count np + 1).toNat = (s.count np).toNat + 1 := toNat_succ (by omega)
    simp only [List.head?_cons, freeLoop, eq_iff_of_toNat hsc hfs, eq_iff_of_toNat hn hen, lt_iff_of_toNat hn hfs,
      lt_iff_of_toNat hn hen]
    split_ifs with hf hbc hbl hin
    · -- to the beginning of this entry
      obtain ⟨t, ht⟩ : ∃ t, t = { s with nodeid := update s.nodeid np nodeid, count := update s.count np (s.count np + 1) } :=
        ⟨_, rfl⟩
      have hl : ∀ p, t.live p = true ↔ p ∈ l1 ++ [np] ++ l2 ∨ p = fp := by
        rw [ht, ← hs]
        exact hh
      obtain ⟨h', hv⟩ := hnp.merge (n := n) (by rw [ht]; exact hnp.links) (fun p hp => by simp [ht, hp])
        (show range t np = (n, (range s np).2) by simp [range, ht, hc]; omega)
        (fun a => by simp [Available, spans]; omega) (by omega) hbn hw hb
      rw [← ht, hs]
      exact .inr ⟨npFree t fp, _, rfl, ⟨h', held_npFree hl (hs ▸ hfp)⟩, hnp.outside hw (by omega), hv⟩
    · -- to the end of this entry
      obtain ⟨l', hsub, ⟨h', hv⟩, hl⟩ := npCoalesce_spec hnp hbc hle rfl
      rw [hs] at hfp hh ⊢
      refine .inr ⟨_, l', rfl, ⟨h', held_npFree (fun p => ?_) fun hmem => hfp (hsub hmem)⟩,
        hnp.outside hw (.inl hbc), hv⟩
      rw [hl p, hh p]
      constructor
      · rintro ⟨hmem | rfl, hkp⟩
        · exact .inl (hkp hmem)
        · exact .inr rfl
      · rintro (hmem | rfl)
        · exact ⟨.inl (hsub hmem), fun _ => hmem⟩
        · exact ⟨.inr rfl, fun hmem => absurd hmem hfp⟩
    · -- a new entry before this one
      obtain ⟨t, ht⟩ : ∃ t, t = { s with nodeid := update s.nodeid fp nodeid, count := update s.count fp 1 } := ⟨_, rfl⟩
      obtain ⟨htn, htc, htl⟩ := npInsert_fields t fp np
      have hln : Links.Headed (npInsert t fp np).nhead (npInsert t fp np).next (npInsert t fp np).prev
          (l1 ++ fp :: np :: l2) := headed_npInsert (by rw [ht]; exact h.links) hfp
      have hg : ∀ r ∈ spans s (np :: l2), n + 1 < r.1 := by
        intro r hr
        rcases mem_cons.mp hr with rfl | hr
        · omega
        · have := hb r hr
          omega
      obtain ⟨⟨h', hv⟩, hnt⟩ := h.single hn hle hw hg hln (htn.trans (by rw [ht])) (htc.trans (by rw [ht]))
      rw [← ht]
      refine .inr ⟨_, _, rfl, ⟨h', fun p => ?_⟩, hnt, hv⟩
      rw [htl, ht, hh p]
      simp only [mem_append, mem_cons]
      tauto
    · exact .inl ⟨rfl, range s np, by simp [spans], by omega, hin⟩
    · rw [show s.next np = l2.head? from Links.IsList.next_of_split h.links, hs]
      exact ih hnp (hs ▸ hh) (hs ▸ hfp) (forall_map_concat hw (by omega)) (by simpa using hk)

theorem Rep.alloc (h : Rep s l) (hf : s.live fp = false) :
    fp ∉ l ∧ Entries (npAlloc s fp) l ∧ (∀ p, (npAlloc s fp).live p = true ↔ p ∈ l ∨ p = fp) ∧
      spans (npAlloc s fp) l = spans s l := by
  have hn : fp ∉ l := fun hmem => by simp [(h.held fp).mpr hmem] at hf
  have hne {p : P} (hp : p ∈ l) : p ≠ fp := ne_of_mem_of_not_mem hp hn
  have hs : spans (npAlloc s fp) l = spans s l := map_congr_left fun p hp => range_congr (by simp [npAlloc, hne hp])
  have hl : Links.Headed (npAlloc s fp).nhead (npAlloc s fp).next (npAlloc s fp).prev l :=
    h.entries.links.congr fun p hp => by simp [npAlloc, hne hp]
  have hen : Entries (npAlloc s fp) l := by
    rw [spans] at hs
    exact ⟨hl, hs ▸ h.entries.separated, hs ▸ h.entries.bound⟩
  refine ⟨hn, hen, fun p => ?_, hs⟩
  by_cases hp : p = fp
  · simp [npAlloc, hp]
  · simp [npAlloc, hp, h.held]

theorem implDdiFreeNodeid_spec (h : Rep s l) (hp : s.live fp = false) (hn : nodeid.toNat ≤ 2 ^ 32 - 3) :
    (implDdiFreeNodeid s fp nodeid = .error (.alreadyFree nodeid) ∧ Available s l nodeid.toNat) ∨
      ∃ s' l', implDdiFreeNodeid s fp nodeid = .ok s' ∧ Rep s' l' ∧ ¬ Available s l nodeid.toNat ∧
        ∀ a, Available s' l' a ↔ Available s l a ∨ a = nodeid.toNat := by
  obtain ⟨ht, hen, hh, hs⟩ := h.alloc hp
  have hd : (npAlloc s fp).nhead = l.head? := h.entries.links.first
  have hf : Entries (npAlloc s fp) ([] ++ l) := hen
  have hl := freeLoop_spec hf hh ht (update_self ..) (update_self ..) rfl hn nofun hen.length_le
  rw [nil_append, ← hd] at hl
  simpa only [implDdiFreeNodeid, Available, hs] using hl

/-! ### Taking -/

section

variable (h : Entries s (l1 ++ [np] ++ l2))
include h

/-- The first nodeid of an entry is taken out, and the entry with it if there is no other. -/
theorem first_spec (hs' : s' = { s with
      nodeid := update s.nodeid np (s.nodeid np + 1), count := update s.count np (s.count np - 1) }) :
    (s'.count np = 0 → Loses s (l1 ++ [np] ++ l2) (range s np).1 (npUnlink s' np) (l1 ++ l2)) ∧
    (s'.count np ≠ 0 → Loses s (l1 ++ [np] ++ l2) (range s np).1 s' (l1 ++ [np] ++ l2)) := by
  obtain ⟨hpos, hb, hw, hh⟩ := h.node
  have hd : (range s np).2 = (range s np).1 + (s.count np).toNat := rfl
  have hl : Links.Headed s'.nhead s'.next s'.prev (l1 ++ [np] ++ l2) := hs' ▸ h.links
  have hc : (s'.count np).toNat = (s.count np).toNat - 1 := by
    rw [hs']
    exact (congrArg UInt32.toNat (update_self ..)).trans (toNat_pred (by omega))
  have hn : (s'.nodeid np).toNat = (range s np).1 + 1 := by
    rw [hs']
    exact (congrArg UInt32.toNat (update_self ..)).trans (toNat_succ (show (range s np).1 < 2 ^ 32 - 1 by omega))
  have hm : ∀ p ∈ l1 ++ l2, s'.nodeid p = s.nodeid p ∧ s'.count p = s.count p := by
    intro p hp
    have hne : p ≠ np := ne_of_mem_of_not_mem hp (RangeList.not_mem h)
    simp [hs', hne]
  constructor
  · intro hz
    have ho : (s.count np).toNat = 1 := by
      rw [hz] at hc
      simp at hc
      omega
    obtain ⟨hun, hu, -⟩ := npUnlink_fields s' np
    have hl' : Links.Headed (npUnlink s' np).nhead (npUnlink s' np).next (npUnlink s' np).prev (l1 ++ [] ++ l2) := by
      exact headed_npUnlink (by simpa using hl)
    have hls := h.loss hl' (by rw [hun, hu]; exact hm) separated_nil nofun
      (n := (range s np).1) ⟨le_rfl, hpos⟩ fun a => by simp [Available, spans]; omega
    rwa [append_nil] at hls
  · intro hz
    have hp' : (s'.count np).toNat ≠ 0 := fun e => hz (UInt32.toNat_inj.mp (e.trans rfl))
    have hr : range s' np = ((range s np).1 + 1, (range s np).2) := by
      rw [range, hn]
      exact Prod.ext rfl (by omega)
    have hs : spans s' [np] = [((range s np).1 + 1, (range s np).2)] := by simp [spans, hr]
    exact h.loss hl hm (by simp [hs, Separated]; omega) (by simp [hs])
      (n := (range s np).1) ⟨le_rfl, hpos⟩ fun a => by rw [Available, hs]; simp; omega

theorem last_spec (hn : (range s np).1 < n) (hls : n + 1 = (range s np).2)
    (hs' : s' = { s with count := update s.count np (s.count np - 1) }) :
    Loses s (l1 ++ [np] ++ l2) n s' (l1 ++ [np] ++ l2) := by
  have hd : (range s np).2 = (range s np).1 + (s.count np).toNat := rfl
  have hc : (s'.count np).toNat = (s.count np).toNat - 1 := by
    rw [hs']
    exact (congrArg UInt32.toNat (update_self ..)).trans (toNat_pred (by omega))
  have hr : range s' np = ((range s np).1, n) := by
    rw [range, hc, hs']
    exact Prod.ext rfl (show (range s np).1 + ((s.count np).toNat - 1) = n by omega)
  have hs : spans s' [np] = [((range s np).1, n)] := by simp [spans, hr]
  refine h.loss (hs' ▸ h.links) (fun p hp => ?_) (by simp [hs, Separated]; omega) (by simp [hs]; omega) ⟨hn.le, by omega⟩
    fun a => by rw [Available, hs]; simp; omega
  have hne : p ≠ np := ne_of_mem_of_not_mem hp (RangeList.not_mem h)
  simp [hs', hne]

theorem split_spec {t : Nodeids P} (hfp : fp ∉ l1 ++ [np] ++ l2)
    (hn : nodeid.toNat = n) (hlo : (range s np).1 < n) (hhi : n + 1 < (range s np).2)
    (hl : (t.nhead, t.next, t.prev) = (s.nhead, s.next, s.prev))
    (ho : t.nodeid = update (update s.nodeid fp (s.nodeid np)) np (nodeid + 1))
    (hc : t.count = update (update s.count fp (nodeid - s.nodeid np)) np (s.count np - (nodeid - s.nodeid np) - 1)) :
    Loses s (l1 ++ [np] ++ l2) n (npInsert t fp np) (l1 ++ [fp, np] ++ l2) := by
  obtain ⟨hpos, hb, hw, hh⟩ := h.node
  have hd : (range s np).2 = (range s np).1 + (s.count np).toNat := rfl
  have hne : fp ≠ np := fun e => hfp (by simp [e])
  obtain ⟨hun, hu, -⟩ := npInsert_fields t fp np
  obtain ⟨h1, h2, h3⟩ : t.nhead = s.nhead ∧ t.next = s.next ∧ t.prev = s.prev := by simpa using hl
  have hin : Links.Headed (npInsert t fp np).nhead (npInsert t fp np).next (npInsert t fp np).prev (l1 ++ fp :: np :: l2) :=
    headed_npInsert (by rw [h1, h2, h3]; simpa using h.links) (by simpa using hfp)
  have hlf : (nodeid - s.nodeid np).toNat = n - (range s np).1 := by
    rw [toNat_sub (hn ▸ hlo.le), hn]
    rfl
  have ht : (s.count np - (nodeid - s.nodeid np)).toNat = (range s np).2 - n := by
    rw [toNat_sub (by omega)]
    omega
  have hr : (s.count np - (nodeid - s.nodeid np) - 1).toNat = (range s np).2 - n - 1 := by
    rw [toNat_pred (by omega), ht]
  have hs : spans (npInsert t fp np) [fp, np] = [((range s np).1, n), (n + 1, (range s np).2)] := by
    have hf : range (npInsert t fp np) fp = ((range s np).1, n) := by
      rw [range, hun, hu, ho, hc, update_of_ne hne, update_self, update_of_ne hne, update_self, hlf]
      exact Prod.ext rfl (show (range s np).1 + (n - (range s np).1) = n by omega)
    have hsn : range (npInsert t fp np) np = (n + 1, (range s np).2) := by
      rw [range, hun, hu, ho, hc, update_self, update_self, toNat_succ (by omega), hn]
      exact Prod.ext rfl (by omega)
    simp [spans, hf, hsn]
  refine h.loss (by simpa using hin) (fun p hp => ?_) ?_ ?_ ⟨hlo.le, by omega⟩ fun a => ?_
  · have hpn : p ≠ np := ne_of_mem_of_not_mem hp (RangeList.not_mem h)
    have hpf : p ≠ fp := by
      rintro rfl
      exact hfp (by simp at hp ⊢; tauto)
    simp [ho, hc, hpn, hpf]
  · simp [hs, Separated]
    omega
  · simp [hs]
    omega
  · rw [Available, hs]
    simp
    omega

end

theorem held_release (hh : ∀ p, s.live p = true ↔ p ∈ l ∨ m = some p) (hm : ∀ p, m = some p → p ∉ l) (p : P) :
    (release s m).live p = true ↔ p ∈ l := by
  cases m with
  | none =>
    rw [release, hh p]
    simp
  | some fp =>
    refine held_npFree (fun p => ?_) (hm fp rfl) p
    rw [hh p, Option.some.injEq, eq_comm]

theorem Entries.release (h : Entries s l) : Entries (release s m) l ∧ spans (Nodeid.release s m) l = spans s l := by
  cases m with
  | none => exact ⟨h, rfl⟩
  | some fp => exact ⟨⟨h.links, h.separated, h.bound⟩, rfl⟩

theorem Loses.release (h : Loses s l n s' l1) : Loses s l n (release s' m) l1 := by
  obtain ⟨h', hs⟩ := h.1.release (m := m)
  exact ⟨h', by simpa only [Available, hs] using h.2⟩

def Taken (s : Nodeids P) (l : List P) (m : Option P) (n : ℕ) (r : ℤ) (s' : Nodeids P) (l' : List P) : Prop :=
  (r = 0 ∧ ∀ a, Available s' l' a ↔ Available s l a ∧ a ≠ n) ∨
    (r = -1 ∧ m = none ∧ spans s' l' = spans s l ∧ ∃ t ∈ spans s l, t.1 < n ∧ n + 1 < t.2)

theorem takeLoop_spec (hn : nodeid.toNat = n) (h : Entries s (l1 ++ l2))
    (hh : ∀ p, s.live p = true ↔ p ∈ l1 ++ l2 ∨ m = some p) (hm : ∀ p, m = some p → p ∉ l1 ++ l2)
    (hw : ∀ r ∈ spans s l1, r.2 ≤ n) (hk : l2.length < k) :
    ∃ r s' l', takeLoop s nodeid m k l2.head? = .ok (r, s') ∧ Rep s' l' ∧ Taken s (l1 ++ l2) m n r s' l' := by
  -- the nodeid is not available
  have hms (hnt : ¬ Available s (l1 ++ l2) n) : Rep (release s m) (l1 ++ l2) ∧
      Taken s (l1 ++ l2) m n 0 (release s m) (l1 ++ l2) := by
    obtain ⟨h', hsp⟩ := h.release (m := m)
    refine ⟨⟨h', held_release hh hm⟩, .inl ⟨rfl, fun a => ?_⟩⟩
    rw [Available, hsp]
    exact ⟨fun ha => ⟨ha, fun e => hnt (e ▸ ha)⟩, fun ha => ha.1⟩
  induction l2 generalizing l1 k with
  | nil =>
    obtain _ | k := k
    · simp at hk
    exact ⟨0, _, _, rfl, hms (RangeList.not_covers fun r hr => .inl (hw r (by simpa [spans] using hr)))⟩
  | cons np l2 ih =>
    obtain _ | k := k
    · simp at hk
    have hs : l1 ++ np :: l2 = l1 ++ [np] ++ l2 := by simp
    rw [hs] at h hh hm hms
    have hen := h.toNat_end
    obtain ⟨hpos, hbn, hbf, hb⟩ := h.node
    have hfs : (s.nodeid np).toNat = (range s np).1 := rfl
    have hls : (s.nodeid np + s.count np - 1).toNat = (range s np).2 - 1 := by
      rw [toNat_pred (by omega), hen]
    simp only [List.head?_cons, takeLoop, hs, lt_iff_of_toNat hn hfs, eq_iff_of_toNat hn hfs, eq_iff_of_toNat hn hls,
      lt_iff_of_toNat hn hls]
    split_ifs with hbl hf hz hbc hin
    · refine ⟨0, _, _, rfl, hms (RangeList.not_covers fun r hr => ?_)⟩
      rw [map_append, map_append, mem_append, mem_append] at hr
      rcases hr with (hr | hr) | hr
      · exact .inl (hw r hr)
      · rw [mem_singleton.mp hr]
        exact .inr hbl
      · have := hb r hr
        omega
    · -- the only nodeid of the entry
      have hl := ((first_spec h rfl).1 hz).release (m := m)
      rw [hf]
      refine ⟨0, _, _, rfl, ⟨⟨hl.1.links, hl.1.separated, hl.1.bound⟩,
        held_npFree (fun p => ?_) (RangeList.not_mem h)⟩, .inl ⟨rfl, hl.2⟩⟩
      have hv := (npUnlink_fields { s with
        nodeid := update s.nodeid np (s.nodeid np + 1), count := update s.count np (s.count np - 1) } np).2.2
      rw [held_release (by rw [hv]; exact hh) hm]
      simp only [mem_append, mem_singleton]
      tauto
    · -- the first one
      have hl := ((first_spec h rfl).2 hz).release (m := m)
      rw [hf]
      exact ⟨0, _, _, rfl, ⟨hl.1, held_release hh hm⟩, .inl ⟨rfl, hl.2⟩⟩
    · -- the last one
      have hl := (last_spec (n := n) h (by omega) (by omega) rfl).release (m := m)
      exact ⟨0, _, _, rfl, ⟨hl.1, held_release hh hm⟩, .inl ⟨rfl, hl.2⟩⟩
    · cases m with
      | none => exact ⟨-1, s, _, rfl, ⟨h, by simpa using hh⟩,
          .inr ⟨rfl, rfl, rfl, range s np, by simp [spans], by omega, by omega⟩⟩
      | some fp =>
        have hp := hm fp rfl
        have hne : np ≠ fp := fun e => hp (by simp [e])
        obtain ⟨t, ht⟩ : ∃ t, takeMiddle s nodeid np (some fp) = (0, npInsert t fp np) ∧
            (t.nhead, t.next, t.prev) = (s.nhead, s.next, s.prev) ∧ t.live = s.live ∧
            t.nodeid = update (update s.nodeid fp (s.nodeid np)) np (nodeid + 1) ∧
            t.count = update (update s.count fp (nodeid - s.nodeid np)) np (s.count np - (nodeid - s.nodeid np) - 1) :=
          ⟨_, rfl, rfl, rfl, rfl, by dsimp only; rw [update_self, update_of_ne hne]⟩
        obtain ⟨heq, hln, hv, ho, hc⟩ := ht
        obtain ⟨h', hav⟩ := split_spec h hp hn (by omega) (by omega) hln ho hc
        refine ⟨0, _, _, by rw [heq], ⟨h', fun p => ?_⟩, .inl ⟨rfl, hav⟩⟩
        rw [(npInsert_fields t fp np).2.2, hv, hh p]
        simp only [mem_append, mem_cons, not_mem_nil, Option.some.injEq, or_false]
        tauto
    · rw [show s.next np = l2.head? from Links.IsList.next_of_split (hs ▸ h.links)]
      exact ih h hh hm (forall_map_concat hw (by omega)) (by simpa using hk) hms

theorem implDdiTakeNodeid_spec (nodeid : UInt32) (h : Rep s l) (hm : ∀ p, m = some p → s.live p = false) :
    ∃ r s' l', implDdiTakeNodeid s m nodeid = .ok (r, s') ∧ Rep s' l' ∧
      if OUR_NODEID_MIN ≤ nodeid ∧ nodeid ≤ OUR_NODEID_MAX then Taken s l m nodeid.toNat r s' l'
      else r = 0 ∧ s' = s ∧ l' = l := by
  by_cases ho : nodeid < OUR_NODEID_MIN ∨ nodeid > OUR_NODEID_MAX
  · have hin : ¬ (OUR_NODEID_MIN ≤ nodeid ∧ nodeid ≤ OUR_NODEID_MAX) := fun hin =>
      ho.elim (UInt32.not_lt.mpr hin.1) (UInt32.not_lt.mpr hin.2)
    exact ⟨0, s, l, by rw [implDdiTakeNodeid, if_pos ho], h, by rw [if_neg hin]; exact ⟨rfl, rfl, rfl⟩⟩
  · have hin : OUR_NODEID_MIN ≤ nodeid ∧ nodeid ≤ OUR_NODEID_MAX :=
      ⟨UInt32.not_lt.mp fun hlt => ho (.inl hlt), UInt32.not_lt.mp fun hlt => ho (.inr hlt)⟩
    simp only [implDdiTakeNodeid, if_neg ho, if_pos hin]
    cases m with
    | none =>
      have hf : Entries s ([] ++ l) := h.entries
      have hh : s.nhead = l.head? := h.entries.links.first
      have hl := takeLoop_spec (rfl : nodeid.toNat = _) (m := none) hf (by simpa using h.held) nofun nofun h.entries.length_le
      rw [← hh] at hl
      exact hl
    | some fp =>
      obtain ⟨hn, hen, hhl, hs⟩ := h.alloc (hm fp rfl)
      have hf : Entries (npAlloc s fp) ([] ++ l) := hen
      have hh : (npAlloc s fp).nhead = l.head? := h.entries.links.first
      have hl := takeLoop_spec (rfl : nodeid.toNat = _) (m := some fp) hf
        (fun p => by rw [hhl p, Option.some.injEq, eq_comm (a := fp)]; rfl) (by rintro _ ⟨⟩; exact hn) nofun hen.length_le
      rw [nil_append, ← hh] at hl
      simpa only [Option.elim_some, Taken, Available, hs] using hl

/-! ### Allocation -/

theorem implDdiAllocNodeid_spec (h : Rep s l) : (implDdiAllocNodeid s = (DDI_FAILURE, 0, s) ∧ ∀ a, ¬ Available s l a) ∨
      ∃ x s' l', implDdiAllocNodeid s = (DDI_SUCCESS, x, s') ∧ Rep s' l' ∧
        (Available s l x.toNat ∧ ∀ a, Available s l a → x.toNat ≤ a) ∧
        ∀ a, Available s' l' a ↔ Available s l a ∧ a ≠ x.toNat := by
  have hh : s.nhead = l.head? := h.entries.links.first
  cases l with
  | nil =>
    left
    exact ⟨by rw [implDdiAllocNodeid, hh]; rfl, fun a => by simp [Available, spans]⟩
  | cons np l =>
    right
    have hf : Entries s ([] ++ [np] ++ l) := h.entries
    obtain ⟨hpos, -, -, hb⟩ := hf.node
    have hl : Available s (np :: l) (range s np).1 ∧ ∀ a, Available s (np :: l) a → (range s np).1 ≤ a := by
      refine ⟨⟨range s np, by simp [spans], le_rfl, hpos⟩, ?_⟩
      rintro a ⟨r, hr, hle, -⟩
      rcases mem_cons.mp hr with rfl | hr
      · exact hle
      · have := hb r hr
        omega
    obtain ⟨t, ht⟩ : ∃ t, t = { s with
        nodeid := update s.nodeid np (s.nodeid np + 1), count := update s.count np (s.count np - 1) } := ⟨_, rfl⟩
    have hv : t.live = s.live := by rw [ht]
    have heq : implDdiAllocNodeid s =
        (DDI_SUCCESS, s.nodeid np, if t.count np = 0 then npFree (npUnlink t np) np else t) := by
      simp only [implDdiAllocNodeid, show s.nhead = some np from hh, ht]
    rw [heq]
    split_ifs with hz
    · obtain ⟨h', ha⟩ := (first_spec hf ht).1 hz
      refine ⟨_, _, _, rfl, ⟨h', held_npFree (fun p => ?_) (RangeList.not_mem hf)⟩, hl, ha⟩
      rw [(npUnlink_fields t np).2.2, hv, h.held p]
      simp [or_comm]
    · obtain ⟨h', ha⟩ := (first_spec hf ht).2 hz
      exact ⟨_, _, _, rfl, ⟨h', by rw [hv]; exact h.held⟩, hl, ha⟩

/-! ### Whole runs -/

/-- The allocator, and the set of nodeids that the calls so far leave available. -/
structure World (P : Type) where
  s : Nodeids P
  avail : Set ℕ

def Legal (n : UInt32) : Prop := n ≠ 0 ∧ n ≠ DEVI_PSEUDO_NODEID ∧ n ≠ DEVI_SID_NODEID

/-- The seed, with nothing else allocated. -/
def Init (w : World P) : Prop :=
  (∃ s np, (∀ p, s.live p = false) ∧ w.s = implDdiInitNodeid s np) ∧
    w.avail = {a | OUR_NODEID_MIN.toNat ≤ a ∧ a < OUR_NODEID_MAX.toNat}

/-- A call that returns, with what it is to do to the set. New entries are in memory that is not in use. -/
inductive Step : World P → World P → Prop
  | alloc {w : World P} : Step w ⟨(implDdiAllocNodeid w.s).2.2, w.avail \ {a | IsLeast w.avail a}⟩
  | free {w : World P} {n : UInt32} {fp : P} {s' : Nodeids P} : Legal n → w.s.live fp = false →
      implDdiFreeNodeid w.s fp n = .ok s' → Step w ⟨s', insert n.toNat w.avail⟩
  | take {w : World P} {n : UInt32} {fp : Option P} {s' : Nodeids P} : Legal n → (∀ p, fp = some p → w.s.live p = false) →
      implDdiTakeNodeid w.s fp n = .ok (0, s') →
      Step w ⟨s', if OUR_NODEID_MIN ≤ n ∧ n ≤ OUR_NODEID_MAX then w.avail \ {n.toNat} else w.avail⟩
  | takeFail {w : World P} {n : UInt32} {fp : Option P} {s' : Nodeids P} : Legal n →
      (∀ p, fp = some p → w.s.live p = false) → implDdiTakeNodeid w.s fp n = .ok (-1, s') → Step w ⟨s', w.avail⟩

structure Answers (w : World P) (l : List P) : Prop where
  allocFails : (implDdiAllocNodeid w.s).1 = DDI_FAILURE ↔ w.avail = ∅
  allocates : (implDdiAllocNodeid w.s).1 = DDI_SUCCESS → IsLeast w.avail (implDdiAllocNodeid w.s).2.1.toNat
  frees : ∀ n fp, Legal n → w.s.live fp = false →
    (implDdiFreeNodeid w.s fp n = .error (.alreadyFree n) ∧ n.toNat ∈ w.avail) ∨
      ((∃ s', implDdiFreeNodeid w.s fp n = .ok s') ∧ n.toNat ∉ w.avail)
  takes : ∀ n fp, Legal n → (∀ p, fp = some p → w.s.live p = false) → ∃ r s', implDdiTakeNodeid w.s fp n = .ok (r, s') ∧
    (r = 0 ∨ (r = -1 ∧ fp = none ∧ ∃ t ∈ spans w.s l, t.1 < n.toNat ∧ n.toNat + 1 < t.2))

omit [DecidableEq P] in
/-- Neither of the two nodeids at the top is freed or taken. -/
theorem Legal.le {n : UInt32} (h : Legal n) : n.toNat ≤ 2 ^ 32 - 3 := by
  obtain ⟨-, hp, hs⟩ := h
  have h1 : n.toNat ≠ 2 ^ 32 - 1 := fun e => hp (UInt32.toNat_inj.mp e)
  have h2 : n.toNat ≠ 2 ^ 32 - 2 := fun e => hs (UInt32.toNat_inj.mp e)
  have h3 := n.toNat_lt
  omega

theorem init_rep (np : P) (hs : ∀ p, s.live p = false) : Rep (implDdiInitNodeid s np) [np] ∧
    spans (implDdiInitNodeid s np) [np] = [(OUR_NODEID_MIN.toNat, OUR_NODEID_MAX.toNat)] := by
  have hsp : spans (implDdiInitNodeid s np) [np] = [(OUR_NODEID_MIN.toNat, OUR_NODEID_MAX.toNat)] := by
    simp [spans, range, implDdiInitNodeid]
    decide
  have hm : [np].map (range (implDdiInitNodeid s np)) = [(OUR_NODEID_MIN.toNat, OUR_NODEID_MAX.toNat)] := hsp
  refine ⟨⟨⟨⟨by simp, rfl, rfl, ?_⟩, ?_, ?_⟩, fun p => ?_⟩, hsp⟩
  · simp [Links.Seg, implDdiInitNodeid, npAlloc]
  · rw [hm]
    simp [Separated]
    decide
  · rw [hm]
    decide
  · by_cases hp : p = np <;> simp [implDdiInitNodeid, npAlloc, hp, hs]

/-- In every run the available list is sorted, its entries are not empty and neither overlap nor touch, it denotes the set
that the calls leave, and every call answers as that set says. -/
theorem nodeids_refine {w : World P} (hr : Reachable Init Step w) :
    ∃ l, Rep w.s l ∧ (∀ a, a ∈ w.avail ↔ Available w.s l a) ∧ Answers w l := by
  obtain ⟨l, h, hv⟩ : ∃ l, Rep w.s l ∧ ∀ a, a ∈ w.avail ↔ Available w.s l a := by
    refine hr.invariant (P := fun w => ∃ l, Rep w.s l ∧ ∀ a, a ∈ w.avail ↔ Available w.s l a) ?_ ?_
    · rintro w ⟨⟨s, np, hs, hw⟩, hal⟩
      obtain ⟨h, hp⟩ := init_rep np hs
      refine ⟨[np], hw ▸ h, fun a => ?_⟩
      rw [hal, hw, Available, hp]
      simp
    · rintro w w' ⟨l, h, hv⟩ hst
      cases hst with
      | alloc =>
        rcases implDdiAllocNodeid_spec h with ⟨heq, hnn⟩ | ⟨x, s', l', heq, h', hl, ha'⟩
        · rw [heq]
          refine ⟨l, h, fun a => ?_⟩
          have hem : a ∉ w.avail := fun ha => hnn a ((hv a).mp ha)
          simp [hem, hnn a]
        · rw [heq]
          refine ⟨l', h', fun a => ?_⟩
          have hmin : IsLeast w.avail x.toNat :=
            ⟨(hv _).mpr hl.1, fun b hb => hl.2 b ((hv b).mp hb)⟩
          rw [ha', ← hv]
          exact and_congr_right fun _ => ⟨fun hn e => hn (e ▸ hmin), fun hn e => hn (le_antisymm (e.2 hmin.1) (hmin.2 e.1))⟩
      | @free n fp s' hn hf heq =>
        rcases implDdiFreeNodeid_spec h hf hn.le with ⟨her, -⟩ | ⟨s'', l', hok, h', -, ha'⟩
        · cases her.symm.trans heq
        · obtain rfl : s'' = s' := Except.ok.inj (hok.symm.trans heq)
          refine ⟨l', h', fun a => ?_⟩
          rw [ha', ← hv, Set.mem_insert_iff, or_comm]
      | @take n fp s' hn hf heq =>
        obtain ⟨r, s'', l', hok, h', ht⟩ := implDdiTakeNodeid_spec n h hf
        obtain ⟨rfl, rfl⟩ : r = 0 ∧ s'' = s' := by simpa using hok.symm.trans heq
        refine ⟨l', h', fun a => ?_⟩
        split at ht
        next hin =>
          obtain ⟨-, ha'⟩ | ⟨hr, -⟩ := ht
          · rw [ha', ← hv, if_pos hin]
            rfl
          · cases hr
        next hin =>
          obtain ⟨-, rfl, rfl⟩ := ht
          rw [if_neg hin]
          exact hv a
      | @takeFail n fp s' hn hf heq =>
        obtain ⟨r, s'', l', hok, h', ht⟩ := implDdiTakeNodeid_spec n h hf
        obtain ⟨rfl, rfl⟩ : r = -1 ∧ s'' = s' := by simpa using hok.symm.trans heq
        refine ⟨l', h', fun a => ?_⟩
        split at ht
        next hin =>
          obtain ⟨hr, -⟩ | ⟨-, -, hp, -⟩ := ht
          · cases hr
          · rw [hv, Available, Available, hp]
        next hin => cases ht.1
  refine ⟨l, h, hv, ?_⟩
  refine { allocFails := ?_, allocates := ?_, frees := fun n fp hn hf => ?_, takes := fun n fp hn hf => ?_ }
  · rw [Set.eq_empty_iff_forall_notMem]
    rcases implDdiAllocNodeid_spec h with ⟨heq, hnn⟩ | ⟨x, s', l', heq, -, hl, -⟩
    · simpa [heq, hv] using hnn
    · rw [heq]
      exact ⟨nofun, fun hem => absurd ((hv _).mpr hl.1) (hem _)⟩
  · intro hok
    rcases implDdiAllocNodeid_spec h with ⟨heq, -⟩ | ⟨x, s', l', heq, -, hl, -⟩
    · rw [heq] at hok
      cases hok
    · rw [heq]
      exact ⟨(hv _).mpr hl.1, fun b hb => hl.2 b ((hv b).mp hb)⟩
  · rw [hv]
    rcases implDdiFreeNodeid_spec h hf hn.le with her | ⟨s', l', hok, -, hnt, -⟩
    · exact .inl her
    · exact .inr ⟨⟨s', hok⟩, hnt⟩
  · obtain ⟨r, s', l', hok, -, ht⟩ := implDdiTakeNodeid_spec n h hf
    refine ⟨r, s', hok, ?_⟩
    split at ht
    · obtain ⟨hr, -⟩ | ⟨hr, hm, -, his⟩ := ht
      · exact .inl hr
      · exact .inr ⟨hr, hm, his⟩
    · exact .inl ht.1

def seeded : World ℕ :=
  ⟨implDdiInitNodeid ⟨none, fun _ => 0, fun _ => 0, fun _ => none, fun _ => none, fun _ => false⟩ 0,
    {a | OUR_NODEID_MIN.toNat ≤ a ∧ a < OUR_NODEID_MAX.toNat}⟩

/-- The nodeid 7 is taken out of the middle of the seed. -/
theorem nodeids_refine_taken : ∃ w : World ℕ, implDdiTakeNodeid seeded.s (some 1) 7 = .ok (0, w.s) ∧ 7 ∉ w.avail ∧
    ∃ l, Rep w.s l ∧ ¬ Available w.s l 7 ∧ implDdiFreeNodeid w.s 2 5 = .error (.alreadyFree 5) := by
  have hv : (implDdiTakeNodeid seeded.s (some 1) 7).toOption.map (fun r => (r.1, r.2.live 2)) = some (0, false) := by decide
  obtain ⟨⟨r, s'⟩, ht, hr⟩ := Option.map_eq_some_iff.mp hv
  obtain ⟨rfl, hl⟩ : r = 0 ∧ s'.live 2 = false := by simpa using hr
  have hok : implDdiTakeNodeid seeded.s (some 1) 7 = .ok (0, s') := by
    cases h : implDdiTakeNodeid seeded.s (some 1) 7 with
    | error e => simp [h, Except.toOption] at ht
    | ok v => simpa [h, Except.toOption] using ht
  have hs : Reachable Init Step seeded := .start ⟨⟨_, _, fun _ => rfl, rfl⟩, rfl⟩
  have hc : Reachable Init Step (⟨s', seeded.avail \ {7}⟩ : World ℕ) :=
    hs.next (.take (n := 7) ⟨by decide, by decide, by decide⟩ (by decide) hok)
  obtain ⟨l, h, hav, ha⟩ := nodeids_refine hc
  refine ⟨_, hok, by simp, l, h, fun h7 => ?_, ?_⟩
  · have := (hav 7).mpr h7
    simp at this
  · rcases ha.frees 5 2 ⟨by decide, by decide, by decide⟩ hl with ⟨her, -⟩ | ⟨-, hn⟩
    · exact her
    · refine absurd ?_ hn
      simp [seeded]
      decide

end Sol8.Os.Nodeid
