import Sol8.Os.Memlist

/-! A memlist is a set of addresses: adding a span that is free gives the union, and deleting a span that is there the
difference. -/

namespace Sol8.Os.Memlist

open Function Sol8.Lib Sol8.Lib.Ranges Sol8.Lib.Chain List

variable {P : Type} {s s' : Lists P} {l l1 l2 f : List P} {dst np x : P} {address bytes : UInt64} {b e k : ℕ}

def range (s : Lists P) (np : P) : ℕ × ℕ := ((s.address np).toNat, (s.address np).toNat + (s.size np).toNat)

def spans (s : Lists P) (l : List P) : List (ℕ × ℕ) := l.map (range s)

def Contains (s : Lists P) (l : List P) (a : ℕ) : Prop := Covers Prod.fst Prod.snd (spans s l) a

/-- The elements, which are sorted and neither overlap nor touch, and end below the top of the addresses. -/
def Elements (s : Lists P) (l : List P) : Prop := RangeList s.curmemlist s.next s.prev (range s) (2 ^ 64 - 1) l

structure Rep (s : Lists P) (l f : List P) : Prop where
  elements : Elements s l
  free : Spells s.next s.freelist f
  disjoint : ∀ p ∈ l, p ∉ f

theorem range_congr (h : s'.address np = s.address np ∧ s'.size np = s.size np) : range s' np = range s np := by
  rw [range, range, h.1, h.2]

theorem Elements.length_le (h : Elements s l) : l.length < limit :=
  Nat.lt_of_le_of_lt (RangeList.length_le h) (by decide)

theorem Elements.toNat_end (h : Elements s (l1 ++ [np] ++ l2)) : (s.address np + s.size np).toNat = (range s np).2 := by
  obtain ⟨-, hb, -, -⟩ := h.node
  exact Nat.mod_eq_of_lt (show (range s np).2 < 2 ^ 64 by omega)

theorem Rep.congr (h : Rep s l f) (hl : Elements s' l1) (hf : s'.freelist = s.freelist) (hn : ∀ p ∈ f, s'.next p = s.next p)
    (hd : ∀ p ∈ l1, p ∉ f) : Rep s' l1 f :=
  ⟨hl, hf ▸ h.free.congr hn, hd⟩

theorem Rep.sameLinks (h : Rep s l f)
    (hl : (s'.curmemlist, s'.next, s'.prev, s'.freelist) = (s.curmemlist, s.next, s.prev, s.freelist)) :
    Links.Headed s'.curmemlist s'.next s'.prev l ∧ (∀ p, s'.next p = s.next p) ∧ s'.freelist = s.freelist := by
  simp only [Prod.mk.injEq] at hl
  obtain ⟨hc, hn, hp, hf⟩ := hl
  rw [hc, hn, hp]
  exact ⟨h.elements.links, fun _ => rfl, hf⟩

section Writes

variable [DecidableEq P]

theorem Rep.freeOne (h : Rep s l f) (hl : x ∉ l) (hf : x ∉ f) : Rep (memlistFreeOne s x) l (x :: f) := by
  refine ⟨⟨h.elements.links.congr fun p hp => ?_, h.elements.separated, h.elements.bound⟩, h.free.cons hf, fun p hp hmem => ?_⟩
  · simp [memlistFreeOne, ne_of_mem_of_not_mem hp hl]
  · rcases mem_cons.mp hmem with rfl | hmem
    · exact hl hp
    · exact h.disjoint p hp hmem

omit [DecidableEq P] in
theorem Rep.getOne (h : Rep s l f) : (f = [] ∧ memlistGetOne s = (none, s)) ∨
      ∃ dst f' s', f = dst :: f' ∧ memlistGetOne s = (some dst, s') ∧ Rep s' l f' ∧ dst ∉ l ∧ dst ∉ f' ∧
        s'.freelist = s.next dst ∧ s'.curmemlist = s.curmemlist ∧ s'.address = s.address ∧ s'.size = s.size ∧
        s'.next = s.next ∧ s'.prev = s.prev := by
  cases f with
  | nil =>
    have hnn : s.freelist = none := h.free
    exact .inl ⟨rfl, by rw [memlistGetOne, hnn]⟩
  | cons dst f =>
    obtain ⟨hs, hr⟩ := h.free
    have hn : (dst :: f).Nodup := h.free.nodup
    refine .inr ⟨dst, f, { s with freelist := s.next dst, freelistCount := s.freelistCount - 1 }, rfl,
      by rw [memlistGetOne, hs], ⟨h.elements, hr, fun p hp hmem => h.disjoint p hp (mem_cons_of_mem dst hmem)⟩,
      fun hmem => h.disjoint dst hmem mem_cons_self, (nodup_cons.mp hn).1, rfl, rfl, rfl, rfl, rfl, rfl⟩

/-! ### Pointers -/

theorem headed_insertBefore (h : Links.Headed s.curmemlist s.next s.prev (l1 ++ np :: l2)) (hd : dst ∉ l1 ++ np :: l2) :
    Links.Headed (insertBefore s l1.getLast? np dst).curmemlist (insertBefore s l1.getLast? np dst).next
      (insertBefore s l1.getLast? np dst).prev (l1 ++ dst :: np :: l2) := by
  have hne : np ≠ dst := fun e => hd (by simp [e])
  have hl : l1.getLast? ≠ some dst := fun e => hd (mem_append_left _ (mem_of_getLast? e))
  refine h.insert hd ?_ (fun a => ?_) fun a => ?_
  · cases hp : l1.getLast? <;> simp [insertBefore]
  · cases hp : l1.getLast? with
    | none => simp [insertBefore, update_apply]
    | some p =>
      have hpd : p ≠ dst := fun e => hl (e ▸ hp)
      by_cases ha : a = dst
      · simp [insertBefore, ha, hpd.symm]
      · simp [insertBefore, update_apply, ha]
  · by_cases ha : a = dst
    · cases hp : l1.getLast? <;> simp [insertBefore, ha, hne.symm]
    · cases hp : l1.getLast? <;> simp [insertBefore, update_apply, ha]

theorem headed_append (h : Links.Headed s.curmemlist s.next s.prev l) (hx : l.getLast? = some x) (hd : dst ∉ l) :
    Links.Headed s.curmemlist (update (update s.next x (some dst)) dst none) (update s.prev dst (some x)) (l ++ [dst]) := by
  have hs : Links.Headed s.curmemlist s.next s.prev (l ++ []) := by simpa using h
  refine hs.insert (by simpa using hd) (by simp [hx]) (fun a => ?_) fun a => ?_
  all_goals simp [hx, update_apply]

end Writes

/-! ### Adding a span -/

def Meets (s : Lists P) (l : List P) (b e : ℕ) : Prop := ∃ a, b ≤ a ∧ a < e ∧ Contains s l a

/-- What adding a span leaves: the union, and an element to spare unless the span is one by itself. -/
structure Added (s : Lists P) (l : List P) (b e : ℕ) (s' : Lists P) (l' f' : List P) : Prop where
  rep : Rep s' l' f'
  union : ∀ a, Contains s' l' a ↔ Contains s l a ∨ (b ≤ a ∧ a < e)
  spare : f' ≠ [] ∨ (b, e) ∈ spans s' l'

/-- The list is unchanged, and the element that was to hold the span is free again. -/
def Refused (s : Lists P) (l f : List P) (s' : Lists P) : Prop :=
  s'.curmemlist = s.curmemlist ∧ spans s' l = spans s l ∧ Rep s' l f

def AddsSpan (s : Lists P) (l f : List P) (b e : ℕ) (r : Option (Spanop × Lists P)) : Prop :=
  (∃ s', r = some (.espan, s') ∧ Refused s l f s' ∧ Meets s l b e) ∨
    ∃ s' l' f', r = some (.ok, s') ∧ ¬ Meets s l b e ∧ Added s l b e s' l' f'

/-- The span of `bytes` bytes at `address` goes from `b` up to `e`, and ends below the top of the addresses. -/
structure Span (address bytes : UInt64) (b e : ℕ) : Prop where
  start : address.toNat = b
  stop : b + bytes.toNat = e
  pos : b < e
  bound : e ≤ 2 ^ 64 - 1

theorem toNat_add {a b : UInt64} (h : a.toNat + b.toNat ≤ 2 ^ 64 - 1) : (a + b).toNat = a.toNat + b.toNat := by
  rw [UInt64.toNat_add]
  exact Nat.mod_eq_of_lt (by omega)

theorem Span.toNat_stop (h : Span address bytes b e) : (address + bytes).toNat = e := by
  have := h.bound
  rw [toNat_add (by rwa [h.start, h.stop]), h.start, h.stop]

/-! The comparisons of the code are between numbers. -/

theorem lt_iff_of_toNat {x y : UInt64} {m n : ℕ} (hx : x.toNat = m) (hy : y.toNat = n) : x < y ↔ m < n := by
  rw [UInt64.lt_iff_toNat_lt, hx, hy]

theorem eq_iff_of_toNat {x y : UInt64} {m n : ℕ} (hx : x.toNat = m) (hy : y.toNat = n) : x = y ↔ m = n := by
  rw [← UInt64.toNat_inj, hx, hy]

theorem AddsSpan.of_spans {t : Lists P} {r : Option (Spanop × Lists P)} (h : AddsSpan t l f b e r)
    (hcr : t.curmemlist = s.curmemlist) (hp : spans t l = spans s l) : AddsSpan s l f b e r := by
  have hcn : Contains t l = Contains s l := by
    funext a
    rw [Contains, Contains, hp]
  rcases h with ⟨s', heq, ⟨hc, hs, hr⟩, hm⟩ | ⟨s', l', f', heq, hn, hr, hu, hsr⟩
  · rw [Meets, hcn] at hm
    exact .inl ⟨s', heq, ⟨hc.trans hcr, hs.trans hp, hr⟩, hm⟩
  · rw [Meets, hcn] at hn
    exact .inr ⟨s', l', f', heq, hn, hr, hcn ▸ hu, hsr⟩

theorem Rep.merge {os : List P} {c d : ℕ} (h : Rep s (l1 ++ os ++ l2) f)
    (hl : Links.Headed s'.curmemlist s'.next s'.prev (l1 ++ [x] ++ l2)) (hs : ∀ p ≠ x, range s' p = range s p)
    (hrn : range s' x = (c, d)) (hc : ∀ a, c ≤ a ∧ a < d ↔ Contains s os a ∨ (b ≤ a ∧ a < e))
    (ho : ∀ r ∈ spans s os, r.2 ≤ b ∨ e ≤ r.1) (hbe : b < e) (hen : d ≤ 2 ^ 64 - 1)
    (hw : ∀ r ∈ spans s l1, r.2 < c) (hh : ∀ r ∈ spans s l2, d < r.1) (hx : x ∉ f)
    (hf : s'.freelist = s.freelist) (hn : ∀ p ∈ f, s'.next p = s.next p) :
    ¬ Meets s (l1 ++ os ++ l2) b e ∧ Rep s' (l1 ++ [x] ++ l2) f ∧
      ∀ a, Contains s' (l1 ++ [x] ++ l2) a ↔ Contains s (l1 ++ os ++ l2) a ∨ (b ≤ a ∧ a < e) := by
  have hb := (hc b).mpr (.inr ⟨le_rfl, hbe⟩)
  have he := (hc (e - 1)).mpr (.inr (by omega))
  obtain ⟨h', hu⟩ := RangeList.merge h.elements hl hs hrn hc (by omega) hen hw hh
  refine ⟨?_, h.congr h' hf hn fun p hp => ?_, hu⟩
  · rintro ⟨a, ha, hae, r, hr, hle, hlt⟩
    rw [spans, map_append, map_append, mem_append, mem_append] at hr
    rcases hr with (hr | hr) | hr
    · have := hw r hr
      omega
    · have := ho r hr
      omega
    · have := hh r hr
      omega
  · by_cases hpx : p = x
    · exact hpx ▸ hx
    · simp only [mem_append, mem_singleton, hpx, or_false] at hp
      exact h.disjoint p (by simp only [mem_append]; tauto)

attribute [local simp] spans

theorem Rep.single (h : Rep s (l1 ++ l2) f) (hf : dst ∉ f) (hs : Span address bytes b e)
    (hw : ∀ r ∈ spans s l1, r.2 < b) (hh : ∀ r ∈ spans s l2, e < r.1)
    (hl : Links.Headed s'.curmemlist s'.next s'.prev (l1 ++ dst :: l2)) (hr : range s dst = (b, e))
    (hm : ∀ p, range s' p = range s p) (hfr : s'.freelist = s.freelist) (hn : ∀ p ∈ f, s'.next p = s.next p) :
    ¬ Meets s (l1 ++ l2) b e ∧ Added s (l1 ++ l2) b e s' (l1 ++ dst :: l2) f := by
  have hls : l1 ++ dst :: l2 = l1 ++ [dst] ++ l2 := by simp
  rw [← append_nil l1, append_assoc, ← append_assoc] at h
  rw [hls] at hl
  obtain ⟨ht, hp, hu⟩ := h.merge hl (fun p _ => hm p) ((hm dst).trans hr)
    (fun a => by simp [Contains]) nofun hs.pos hs.bound hw hh hf hfr hn
  rw [append_nil] at ht hu
  rw [hls]
  refine ⟨ht, hp, hu, .inr ?_⟩
  rw [← hr, ← hm]
  exact mem_map_of_mem (by simp)

theorem first_iff (h : Links.Headed s.curmemlist s.next s.prev (l1 ++ [np] ++ l2)) :
    s.curmemlist = some np ↔ s.prev np = none := by
  rw [append_assoc] at h
  have hp : s.prev np = l1.getLast? := Links.IsList.prev_of_split h
  have hc : s.curmemlist = (l1 ++ np :: l2).head? := h.first
  have hn : (l1 ++ np :: l2).Nodup := h.nodup
  rw [hp, hc]
  cases l1 with
  | nil => simp
  | cons a l1 =>
    have hne : a ≠ np := by
      rintro rfl
      simp at hn
    simp [hne]

section Add

variable [DecidableEq P]

theorem concatenate_spec {mlp : P} (h : Rep s (l1 ++ [np, mlp] ++ l2) f) (hs : Span address bytes b e)
    (hb : (range s np).2 = b) (he : (range s mlp).1 = e)
    (hc : s'.curmemlist = if s.curmemlist = some np then some mlp else s.curmemlist)
    (ha : s'.address = update s.address mlp (s.address np))
    (hsz : s'.size = update s.size mlp (s.size mlp + s.size np + bytes))
    (hnx : ∀ a, s'.next a = if some a = s.prev np then some mlp else s.next a)
    (hpr : s'.prev = update s.prev mlp (s.prev np)) (hf : s'.freelist = s.freelist) :
    AddsSpan s (l1 ++ [np, mlp] ++ l2) f b e (some (.ok, memlistFreeOne s' np)) := by
  have hnp : Elements s (l1 ++ [np] ++ (mlp :: l2)) := by simpa using h.elements
  have hm : Elements s (l1 ++ [np] ++ [mlp] ++ l2) := by simpa using h.elements
  obtain ⟨hpos, -, hw, -⟩ := hnp.node
  obtain ⟨hp', hbn, -, hh⟩ := hm.node
  have ⟨_, hst, hbe, _⟩ := hs
  have ho := RangeList.not_mem hnp
  have hsp : Links.Headed s.curmemlist s.next s.prev (l1 ++ np :: mlp :: l2) := by simpa using hnp.links
  have hn : s.next np = some mlp := Links.IsList.next_of_split hsp
  have hp : s.prev np = l1.getLast? := Links.IsList.prev_of_split hsp
  have hl : Links.Headed s'.curmemlist s'.next s'.prev (l1 ++ [mlp] ++ l2) := by
    rw [append_assoc]
    refine hsp.remove ?_ (fun a _ => by rw [hnx, hn]) fun a _ => ?_
    · rw [hc, hn]
      simp only [first_iff hnp.links]
    · rw [hpr, hn, update_apply]
      simp [eq_comm]
  have hd : (range s np).2 = (range s np).1 + (s.size np).toNat := rfl
  have hd' : (range s mlp).2 = (range s mlp).1 + (s.size mlp).toNat := rfl
  have hr : range s' mlp = ((range s np).1, (range s mlp).2) := by
    rw [range, ha, hsz, update_self, update_self, toNat_add (by rw [toNat_add (by omega)]; omega), toNat_add (by omega)]
    exact Prod.ext rfl (show (range s np).1 + ((s.size mlp).toNat + (s.size np).toNat + bytes.toNat) = _ by omega)
  obtain ⟨ht, hrp, hu⟩ := h.merge hl (fun p hp => range_congr (by simp [ha, hsz, hp])) hr
    (fun a => by simp [Contains]; omega) (by simp; omega) hbe hbn hw hh (h.disjoint mlp (by simp))
    hf fun p hpf => by
      rw [hnx, if_neg]
      intro e
      refine h.disjoint p ?_ hpf
      have hmem := mem_of_getLast? (hp.symm.trans e.symm)
      simp [hmem]
  exact .inr ⟨_, _, _, rfl, ht, hrp.freeOne (by simpa using ho) (h.disjoint np (by simp)), hu, .inl (by simp)⟩

omit [DecidableEq P] in
theorem Rep.extend {c d : ℕ} (h : Rep s (l1 ++ [np] ++ l2) f) (hf : f ≠ [])
    (hl : (s'.curmemlist, s'.next, s'.prev, s'.freelist) = (s.curmemlist, s.next, s.prev, s.freelist))
    (hs : ∀ p, p ≠ np → range s' p = range s p) (hrn : range s' np = (c, d)) (hb : b < e) (hd : d ≤ 2 ^ 64 - 1)
    (hsd : e = (range s np).1 ∧ c = b ∧ d = (range s np).2 ∨ b = (range s np).2 ∧ c = (range s np).1 ∧ d = e)
    (hw : ∀ r ∈ spans s l1, r.2 < b) (hh : ∀ r ∈ spans s l2, e < r.1) :
    AddsSpan s (l1 ++ [np] ++ l2) f b e (some (.ok, s')) := by
  obtain ⟨hpos, -, hw', hh'⟩ := h.elements.node
  obtain ⟨hl', hn, hfr⟩ := h.sameLinks hl
  have hc : ∀ r ∈ spans s l1, r.2 < c := by
    intro r hr
    have := hw r hr
    have := hw' r hr
    omega
  have hd' : ∀ r ∈ spans s l2, d < r.1 := by
    intro r hr
    have := hh r hr
    have := hh' r hr
    omega
  obtain ⟨ht, hp, hu⟩ := h.merge hl' hs hrn (fun a => by simp [Contains]; omega)
    (by simp; omega) hb hd hc hd' (h.disjoint np (by simp)) hfr fun p _ => hn p
  exact .inr ⟨s', _, f, rfl, ht, hp, hu, .inl hf⟩

theorem appendSpan_spec (h : Rep s (l1 ++ [np] ++ l2) f) (hf : f ≠ []) (hs : Span address bytes b e) (hb : (range s np).2 = b) :
    AddsSpan s (l1 ++ [np] ++ l2) f b e (some (appendSpan s address bytes np)) := by
  obtain ⟨hpos, -, hw, hh⟩ := h.elements.node
  have ⟨_, hst, hbe, hbn⟩ := hs
  have hd : (range s np).2 = (range s np).1 + (s.size np).toNat := rfl
  have hn : s.next np = l2.head? := by
    have hl := h.elements.links
    rw [append_assoc] at hl
    exact Links.IsList.next_of_split hl
  -- no other element is touched
  have hpl (hfr : ∀ r ∈ spans s l2, e < r.1) : AddsSpan s (l1 ++ [np] ++ l2) f b e
      (some (.ok, { s with size := update s.size np (s.size np + bytes) })) := by
    refine h.extend hf rfl (fun p hp => range_congr (by simp [hp])) (c := (range s np).1) (d := e) ?_ hbe hbn
      (.inr ⟨hb.symm, rfl, rfl⟩) (fun r hr => ?_) hfr
    · refine Prod.ext rfl ?_
      simp only [range, update_self]
      rw [toNat_add (by omega)]
      have hd1 : (range s np).1 = (s.address np).toNat := rfl
      omega
    · have := hw r hr
      omega
  cases l2 with
  | nil =>
    have hnn : s.next np = none := hn
    rw [appendSpan, hnn]
    exact hpl nofun
  | cons mlp l2 =>
    have hsm : s.next np = some mlp := hn
    have hm : Elements s (l1 ++ [np] ++ [mlp] ++ l2) := by simpa using h.elements
    obtain ⟨hp', -, -, hh'⟩ := hm.node
    have hg := hh (range s mlp) (by simp)
    have ha : (s.address mlp).toNat = (range s mlp).1 := rfl
    simp only [appendSpan, hsm, gt_iff_lt, lt_iff_of_toNat ha hs.toNat_stop, eq_iff_of_toNat hs.toNat_stop ha]
    by_cases ho : (range s mlp).1 < e
    · rw [if_pos ho]
      exact .inl ⟨s, rfl, ⟨rfl, rfl, h⟩, (range s mlp).1, by omega, ho, range s mlp, by simp, le_rfl, hp'⟩
    rw [if_neg ho]
    split <;> rename_i ht
    · have hls : l1 ++ [np] ++ mlp :: l2 = l1 ++ [np, mlp] ++ l2 := by simp
      rw [hls] at h ⊢
      refine concatenate_spec h hs hb ht.symm ?_ ?_ ?_ ?_ ?_ ?_
      all_goals
        cases hpr : s.prev np with
        | none => simp [hpr]
        | some p => simp [hpr, update_apply]
    · refine hpl fun r hr => ?_
      rcases mem_cons.mp hr with rfl | hr
      · omega
      · have := hh' r hr
        omega

/-- The loop of `memlist_add_span` from an element on, with all elements before it below the span. -/
theorem addLoop_spec (h : Rep s (l1 ++ l2) f) (hd : dst ∉ l1 ++ l2) (hf : dst ∉ f) (hs : Span address bytes b e)
    (hrn : range s dst = (b, e)) (hw : ∀ r ∈ spans s l1, r.2 < b) (hne : l1 ++ l2 ≠ []) (hk : l2.length < k) :
    AddsSpan s (l1 ++ l2) (dst :: f) b e (addLoop s address bytes dst k l1.getLast? l2.head?) := by
  have ⟨hst, hstop, hbe, _⟩ := hs
  have hsum := hs.toNat_stop
  induction l2 generalizing l1 k with
  | nil =>
    obtain _ | k := k
    · simp at hk
    right
    rw [append_nil] at hne hd
    obtain ⟨x, hx⟩ : ∃ x, l1.getLast? = some x := ⟨_, List.getLast?_eq_some_getLast hne⟩
    have hl : Links.Headed s.curmemlist s.next s.prev l1 := by simpa using h.elements.links
    obtain ⟨t, ht⟩ : ∃ t, t = { s with
        next := update (update s.next x (some dst)) dst none, prev := update s.prev dst (some x) } := ⟨_, rfl⟩
    have htl : Links.Headed t.curmemlist t.next t.prev (l1 ++ [dst]) := by
      rw [ht]
      exact headed_append hl hx hd
    have htn : ∀ p ∈ f, t.next p = s.next p := by
      intro p hp
      have hpd : p ≠ dst := ne_of_mem_of_not_mem hp hf
      have hpx : p ≠ x := fun e => h.disjoint x (by simpa using mem_of_getLast? hx) (e ▸ hp)
      simp [ht, hpd, hpx]
    obtain ⟨hn, had⟩ := h.single hf hs hw nofun htl hrn (fun p => by rw [ht]; rfl) (by rw [ht]) htn
    exact ⟨t, _, _, by rw [hx, ht]; rfl, hn, had⟩
  | cons np l2 ih =>
    obtain _ | k := k
    · simp at hk
    have hsp : l1 ++ np :: l2 = l1 ++ [np] ++ l2 := by simp
    have hnp : Rep s (l1 ++ [np] ++ l2) f := hsp ▸ h
    have hen := hnp.elements.toNat_end
    obtain ⟨hpos, hbn, hbf, hb⟩ := hnp.elements.node
    have hdf : (range s np).2 = (range s np).1 + (s.size np).toNat := rfl
    have ha : (s.address np).toNat = (range s np).1 := rfl
    have hfr : Rep (memlistFreeOne s dst) (l1 ++ [np] ++ l2) (dst :: f) := hnp.freeOne (hsp ▸ hd) hf
    simp only [List.head?_cons, addLoop, gt_iff_lt, lt_iff_of_toNat hen hst, lt_iff_of_toNat ha hsum,
      eq_iff_of_toNat hsum ha, eq_iff_of_toNat hst hen]
    rw [hsp]
    split_ifs with hbl hpr hap ho
    · -- the span is behind this element
      have hrs := ih hnp (hsp ▸ hd) (forall_map_concat hw hbl) (by simp) (by simpa using hk)
      rw [List.getLast?_concat] at hrs
      rw [show s.next np = l2.head? from Links.IsList.next_of_split h.elements.links]
      exact hrs
    · refine (hfr.extend (by simp) ?_ (fun p hp => range_congr (by simp [hp, memlistFreeOne])) (c := b)
        (d := (range s np).2) ?_ hbe hbn (.inl ⟨hpr, rfl, rfl⟩) hw fun r hr => ?_).of_spans rfl rfl
      · rfl
      · simp only [range, update_self, memlistFreeOne]
        rw [toNat_add (by omega)]
        exact Prod.ext hst (by omega)
      · have := hb r hr
        omega
    · exact (appendSpan_spec hfr (by simp) hs hap.symm).of_spans rfl rfl
    · exact .inl ⟨_, rfl, ⟨rfl, rfl, hfr⟩, max b (range s np).1, by omega, by omega, range s np, by simp,
        by omega, by omega⟩
    · right
      obtain ⟨t, ht⟩ : ∃ t, t = insertBefore s l1.getLast? np dst := ⟨_, rfl⟩
      obtain ⟨hta, hts, htf⟩ : t.address = s.address ∧ t.size = s.size ∧ t.freelist = s.freelist := by
        rw [ht]
        cases l1.getLast? <;> exact ⟨rfl, rfl, rfl⟩
      have htl : Links.Headed t.curmemlist t.next t.prev (l1 ++ dst :: np :: l2) := by
        rw [ht]
        exact headed_insertBefore h.elements.links hd
      have htn : ∀ p ∈ f, t.next p = s.next p := by
        intro p hp
        have hpd : p ≠ dst := ne_of_mem_of_not_mem hp hf
        rw [ht]
        cases hx : l1.getLast? with
        | none => simp [insertBefore, hpd]
        | some x =>
          have hpx : p ≠ x := fun e => h.disjoint x (mem_append_left _ (mem_of_getLast? hx)) (e ▸ hp)
          simp [insertBefore, hpd, hpx]
      have hh : ∀ r ∈ spans s (np :: l2), e < r.1 := by
        intro r hr
        rcases mem_cons.mp hr with rfl | hr
        · omega
        · have := hb r hr
          omega
      obtain ⟨hn, had⟩ := h.single hf hs hw hh htl hrn (fun p => by rw [range, range, hta, hts]) htf htn
      rw [← ht, ← hsp]
      exact ⟨t, _, _, rfl, hn, had⟩

/-- Adding a span fails if there is no free element; else it is refused if it meets the list, and gives the union if not. -/
theorem memlistAddSpan_spec (h : Rep s l f) (hs : Span address bytes b e) :
    (f = [] ∧ memlistAddSpan s address bytes = some (.ealloc, s)) ∨
      f ≠ [] ∧ AddsSpan s l f b e (memlistAddSpan s address bytes) := by
  rcases h.getOne with ⟨rfl, hg⟩ | ⟨dst, f', t, rfl, hg, ht, hd, hf, -, hcr, had, hsz, hnx, hpr⟩
  · exact .inl ⟨rfl, by rw [memlistAddSpan, hg]⟩
  refine .inr ⟨by simp, ?_⟩
  obtain ⟨u, hu⟩ : ∃ u, u = { t with address := update t.address dst address, size := update t.size dst bytes } := ⟨_, rfl⟩
  have hm : l.map (range u) = l.map (range t) := map_congr_left fun p hp =>
    range_congr (by simp [hu, ne_of_mem_of_not_mem hp hd])
  have hur : Rep u l f' := by
    refine ht.congr ⟨?_, hm ▸ ht.elements.separated, hm ▸ ht.elements.bound⟩ (by rw [hu]) (fun p _ => by rw [hu]) ht.disjoint
    rw [hu]
    exact ht.elements.links
  have hr : range u dst = (b, e) := by simp [range, hu, hs.start, hs.stop]
  have hus : u.curmemlist = l.head? := hur.elements.links.first
  have heq : memlistAddSpan s address bytes = u.curmemlist.elim
      (some (.ok, { u with prev := update u.prev dst none, next := update u.next dst none, curmemlist := some dst }))
      fun first => addLoop u address bytes dst limit none (some first) := by
    cases hc : t.curmemlist <;> simp only [memlistAddSpan, hg, hu, hc, Option.elim]
  have hadd : AddsSpan u l (dst :: f') b e (memlistAddSpan s address bytes) := by
    cases l with
    | nil =>
      right
      have hn : u.curmemlist = none := hus
      have hfr : Rep u ([] ++ []) f' := hur
      obtain ⟨v, hv⟩ : ∃ v, v = { u with
          prev := update u.prev dst none, next := update u.next dst none, curmemlist := some dst } := ⟨_, rfl⟩
      have hl : Links.Headed v.curmemlist v.next v.prev ([] ++ [dst]) := by
        rw [hv]
        exact ⟨by simp, rfl, rfl, by simp [Links.Seg]⟩
      obtain ⟨hnt, ha⟩ := hfr.single hf hs (by rintro _ ⟨⟩) (by rintro _ ⟨⟩) hl hr (fun p => by rw [hv]; rfl) (by rw [hv])
        fun p hp => by simp [hv, ne_of_mem_of_not_mem hp hf]
      exact ⟨v, _, _, by rw [heq, hn, hv, Option.elim], hnt, ha⟩
    | cons first l =>
      have hfs : u.curmemlist = some first := hus
      have hfr : Rep u ([] ++ first :: l) f' := hur
      rw [heq, hfs]
      exact addLoop_spec hfr hd hf hs hr (by rintro _ ⟨⟩) (by simp) hur.elements.length_le
  refine hadd.of_spans (by rw [hu]; exact hcr) (hm.trans (map_congr_left fun p _ => range_congr ?_))
  rw [had, hsz]
  exact ⟨rfl, rfl⟩

end Add

/-! ### Deleting a span -/

theorem findLoop_spec (address : UInt64) (h : Elements s (l1 ++ l2)) (hl : ∀ r ∈ spans s l1, ¬ (r.1 ≤ address.toNat ∧ address.toNat < r.2))
    (hk : l2.length < k) : (findLoop s address k l2.head? = some none ∧ ¬ Contains s (l1 ++ l2) address.toNat) ∨
      ∃ p q np, l1 ++ l2 = p ++ [np] ++ q ∧ findLoop s address k l2.head? = some (some np) ∧
        (range s np).1 ≤ address.toNat ∧ address.toNat < (range s np).2 := by
  induction l2 generalizing l1 k with
  | nil =>
    obtain _ | k := k
    · simp at hk
    left
    refine ⟨rfl, ?_⟩
    rintro ⟨r, hr, hin⟩
    exact hl r (by simpa using hr) hin
  | cons np l2 ih =>
    obtain _ | k := k
    · simp at hk
    have hs : l1 ++ np :: l2 = l1 ++ [np] ++ l2 := by simp
    have hn := (show Elements s (l1 ++ [np] ++ l2) from hs ▸ h).toNat_end
    have hf : address ≥ s.address np ∧ address < s.address np + s.size np ↔
        (range s np).1 ≤ address.toNat ∧ address.toNat < (range s np).2 := by
      rw [← hn]
      rfl
    rw [List.head?_cons, findLoop]
    by_cases hin : address ≥ s.address np ∧ address < s.address np + s.size np
    · rw [if_pos hin]
      exact .inr ⟨l1, l2, np, hs, rfl, hf.mp hin⟩
    · rw [if_neg hin, show s.next np = l2.head? from Links.IsList.next_of_split h.links, hs]
      exact ih (hs ▸ h) (forall_map_concat hl fun hc => hin (hf.mpr hc)) (by simpa using hk)

section Delete

variable [DecidableEq P]

theorem toNat_sub {a b : UInt64} (h : b.toNat ≤ a.toNat) : (a - b).toNat = a.toNat - b.toNat :=
  UInt64.toNat_sub_of_le _ _ (UInt64.le_iff_toNat_le.mpr h)

structure Deleted (s : Lists P) (l : List P) (b e : ℕ) (s' : Lists P) (l' f' : List P) : Prop where
  rep : Rep s' l' f'
  difference : ∀ a, Contains s' l' a ↔ Contains s l a ∧ ¬ (b ≤ a ∧ a < e)

theorem deleteElement_spec (h : Rep s (l1 ++ [np] ++ l2) f) :
    Deleted s (l1 ++ [np] ++ l2) (range s np).1 (range s np).2 (deleteElement s np) (l1 ++ l2) (np :: f) := by
  have hs : Links.Headed s.curmemlist s.next s.prev (l1 ++ np :: l2) := by simpa using h.elements.links
  have ho := RangeList.not_mem h.elements
  have hp : s.prev np = l1.getLast? := Links.IsList.prev_of_split hs
  have hsl : s.prev np ≠ some np := fun e =>
    ho (mem_append_left _ (mem_of_getLast? (hp.symm.trans e)))
  obtain ⟨t, heq, h1, h2, h3, h4, h5, h6⟩ : ∃ t, deleteElement s np = memlistFreeOne t np ∧
      t.curmemlist = (if s.curmemlist = some np then s.next np else s.curmemlist) ∧ t.address = s.address ∧
      t.size = s.size ∧ (∀ a, t.next a = if some a = s.prev np then s.next np else s.next a) ∧
      (∀ a, t.prev a = if some a = s.next np then s.prev np else s.prev a) ∧ t.freelist = s.freelist := by
    refine ⟨_, rfl, ?_⟩
    cases hpr : s.prev np with
    | none => cases hn : s.next np <;> simp [hpr, update_apply]
    | some p =>
      have hne : np ≠ p := fun e => hsl (e ▸ hpr)
      cases hn : s.next np <;> simp [hpr, hn, hne, update_apply]
  have ht (p : P) : range t p = range s p := range_congr (by rw [h2, h3]; exact ⟨rfl, rfl⟩)
  have hl : Links.Headed t.curmemlist t.next t.prev (l1 ++ [] ++ l2) := by
    rw [append_nil]
    refine hs.remove ?_ (fun a _ => h4 a) fun a _ => h5 a
    rw [h1]
    simp only [first_iff h.elements.links]
  obtain ⟨h', hc⟩ := RangeList.loss h.elements hl (fun p _ => ht p) separated_nil nofun le_rfl le_rfl
    (fun a => by simp)
  rw [append_nil] at h' hc
  have hr : Rep t (l1 ++ l2) f := by
    refine h.congr h' h6 (fun p hf => ?_) fun p hp => h.disjoint p ?_
    · rw [h4, if_neg]
      intro e
      exact h.disjoint p (by simp [mem_of_getLast? (hp.symm.trans e.symm)]) hf
    · simp only [mem_append, mem_singleton] at hp ⊢
      tauto
  rw [heq]
  exact ⟨hr.freeOne ho (h.disjoint np (by simp)), hc⟩

omit [DecidableEq P] in
theorem Rep.shrink {c d : ℕ} (h : Rep s (l1 ++ [np] ++ l2) f)
    (hl : (s'.curmemlist, s'.next, s'.prev, s'.freelist) = (s.curmemlist, s.next, s.prev, s.freelist))
    (hs : ∀ p, p ≠ np → range s' p = range s p) (hr : range s' np = (c, d)) (hd : c < d) (hb : b < e)
    (hsd : b = (range s np).1 ∧ e = c ∧ d = (range s np).2 ∨ e = (range s np).2 ∧ b = d ∧ c = (range s np).1) :
    Deleted s (l1 ++ [np] ++ l2) b e s' (l1 ++ [np] ++ l2) f := by
  obtain ⟨hpos, -, -, -⟩ := h.elements.node
  obtain ⟨hl', hn, hf⟩ := h.sameLinks hl
  have hm : [np].map (range s') = [(c, d)] := by simp [hr]
  obtain ⟨h', hc⟩ := RangeList.loss h.elements hl' (b := b) (e := e)
    (fun p hp => hs p (ne_of_mem_of_not_mem hp (RangeList.not_mem h.elements))) (by simpa [hm, Separated] using hd)
    (by simp [hm]; omega) (by omega) (by omega) fun a => by rw [hm]; simp; omega
  exact ⟨h.congr h' hf (fun p _ => hn p) h.disjoint, hc⟩

theorem deleteMiddle_spec (h : Rep s (l1 ++ [np] ++ l2) f) (hs : Span address bytes b e) (ho : (range s np).1 < b)
    (hhi : e < (range s np).2) : (f = [] ∧ deleteMiddle s address bytes np = (.ealloc, s)) ∨
      ∃ s' l' f', deleteMiddle s address bytes np = (.ok, s') ∧ Deleted s (l1 ++ [np] ++ l2) b e s' l' f' := by
  rcases h.getOne with ⟨rfl, hg⟩ | ⟨dst, f', t, rfl, hg, ht, hd, hf, -, hcr, had, hsz, hn, hpr⟩
  · exact .inl ⟨rfl, by rw [deleteMiddle, hg]⟩
  right
  have hne : np ≠ dst := fun e => hd (by simp [← e])
  have hsp : Links.Headed t.curmemlist t.next t.prev (l1 ++ [np] ++ l2) := ht.elements.links
  have hnp : t.next np = l2.head? := by
    rw [append_assoc] at hsp
    exact Links.IsList.next_of_split hsp
  obtain ⟨u, heq, h1, h2, h3, h4, h5, h6⟩ : ∃ u, deleteMiddle s address bytes np = (.ok, u) ∧
      u.curmemlist = t.curmemlist ∧ u.address = update t.address dst (address + bytes) ∧
      u.size = update (update t.size dst ((t.address np + t.size np) - (address + bytes))) np (address - t.address np) ∧
      (∀ a, u.next a = if a = dst then l2.head? else if a = np then some dst else t.next a) ∧
      (∀ a, u.prev a = if a = dst then some np else if some a = l2.head? then some dst else t.prev a) ∧
      u.freelist = t.freelist := by
    have hh : l2.head? ≠ some dst := fun e => hd (mem_append_right _ (mem_of_head? e))
    simp only [deleteMiddle, hg, update_of_ne hne, hnp, update_self]
    refine ⟨_, rfl, ?_⟩
    cases hl : l2.head? with
    | none =>
      refine ⟨rfl, rfl, rfl, fun a => ?_, fun a => ?_, rfl⟩
      · by_cases ha : a = dst <;> simp [ha, hne.symm, update_apply]
      · simp [update_apply]
    | some x =>
      have hxd : dst ≠ x := fun e => hh (e ▸ hl)
      refine ⟨rfl, rfl, rfl, fun a => ?_, fun a => ?_, rfl⟩
      · by_cases ha : a = dst <;> simp [ha, hne.symm, update_apply]
      · by_cases ha : a = dst <;> simp [ha, hxd, update_apply]
  have hln : Links.Headed u.curmemlist u.next u.prev (l1 ++ [np, dst] ++ l2) := by
    rw [show l1 ++ [np, dst] ++ l2 = l1 ++ [np] ++ dst :: l2 by simp]
    refine hsp.insert hd ?_ (fun a => ?_) fun a => ?_
    · simp [h1]
    · simp [h4]
    · simp [h5]
  have hb := hs.pos
  have hlf : range u np = ((range s np).1, b) := by
    rw [range, h2, h3, update_of_ne hne, update_self, had, toNat_sub (hs.start ▸ ho.le), hs.start]
    exact Prod.ext rfl (show (range s np).1 + (b - (range s np).1) = b by omega)
  have hr : range u dst = (e, (range s np).2) := by
    rw [range, h2, h3, update_self, update_of_ne hne.symm, update_self, had, hsz,
      toNat_sub (by rw [h.elements.toNat_end, hs.toNat_stop]; exact hhi.le), h.elements.toNat_end, hs.toNat_stop]
    exact Prod.ext rfl (by omega)
  have hm : [np, dst].map (range u) = [((range s np).1, b), (e, (range s np).2)] := by
    simp [hlf, hr]
  have hsm : ∀ p ∈ l1 ++ l2, range u p = range s p := by
    intro p hp
    have hpn : p ≠ np := ne_of_mem_of_not_mem hp (RangeList.not_mem h.elements)
    have hpd : p ≠ dst := by
      rintro rfl
      exact hd (by simp at hp ⊢; tauto)
    exact range_congr (by simp [h2, h3, hpn, hpd, had, hsz])
  obtain ⟨h', hc⟩ := RangeList.loss h.elements hln (b := b) (e := e) hsm
    (by simp [hm, Separated]; omega) (by simp [hm]; omega) ho.le hhi.le fun a => by rw [hm]; simp; omega
  refine ⟨u, _, f', heq, ht.congr h' h6 (fun p hp => ?_) fun p hp hmem => ?_, hc⟩
  · have hpd : p ≠ dst := ne_of_mem_of_not_mem hp hf
    have hpn : p ≠ np := fun e => ht.disjoint np (by simp) (e ▸ hp)
    rw [h4, if_neg hpd, if_neg hpn]
  · by_cases hpd : p = dst
    · exact hf (hpd ▸ hmem)
    · refine ht.disjoint p ?_ hmem
      simp only [mem_append, mem_cons, hpd, not_mem_nil, or_false] at hp ⊢
      exact hp

def Within (s : Lists P) (l : List P) (b e : ℕ) : Prop := ∀ a, b ≤ a → a < e → Contains s l a

omit [DecidableEq P] in
/-- A span that starts in an element is in the list if and only if it is in that element. -/
theorem within_iff (h : Elements s (l1 ++ [np] ++ l2)) (hb : (range s np).1 ≤ b) (hb' : b < (range s np).2) :
    Within s (l1 ++ [np] ++ l2) b e ↔ e ≤ (range s np).2 := by
  obtain ⟨hpos, -, hl, hh⟩ := h.node
  constructor
  · intro hin
    by_contra hlt
    -- the address behind the element is not in the list
    refine RangeList.not_covers (fun r hr => ?_) (hin (range s np).2 hb'.le (by omega))
    rw [map_append, map_append, mem_append, mem_append] at hr
    rcases hr with (hr | hr) | hr
    · have := hl r hr
      omega
    · rw [mem_singleton.mp hr]
      exact .inl le_rfl
    · exact .inr (hh r hr)
  · intro hle a ha hae
    exact ⟨range s np, by simp, by omega, by omega⟩

/-- Deleting a span is refused if it is not in the list, fails if an element has to be split and no other is free, and
gives the difference else. -/
theorem memlistDeleteSpan_spec (h : Rep s l f) (hs : Span address bytes b e) :
    (memlistDeleteSpan s address bytes = some (.espan, s) ∧ ¬ Within s l b e) ∨ Within s l b e ∧
        ((memlistDeleteSpan s address bytes = some (.ealloc, s) ∧ f = [] ∧ ∃ r ∈ spans s l, r.1 < b ∧ e < r.2) ∨
          ∃ s' l' f', memlistDeleteSpan s address bytes = some (.ok, s') ∧ Deleted s l b e s' l' f') := by
  have hc : s.curmemlist = l.head? := h.elements.links.first
  have hr : Elements s ([] ++ l) := h.elements
  have ⟨ht, hsp, hb, _⟩ := hs
  rcases findLoop_spec address hr nofun h.elements.length_le with
    ⟨hfn, hn⟩ | ⟨l1, l2, np, rfl, hfn, hlo, hh⟩
  · left
    rw [ht] at hn
    exact ⟨by simp only [memlistDeleteSpan, hc, hfn], fun hin => hn (hin _ le_rfl hb)⟩
  rw [← hc] at hfn
  rw [ht] at hlo hh
  have hen := h.elements.toNat_end
  have ha : (s.address np).toNat = (range s np).1 := rfl
  have hd : (range s np).2 = (range s np).1 + (s.size np).toNat := rfl
  rw [within_iff h.elements hlo hh]
  simp only [memlistDeleteSpan, hfn, gt_iff_lt, lt_iff_of_toNat hen hs.toNat_stop, eq_iff_of_toNat ht ha,
    eq_iff_of_toNat hs.toNat_stop hen]
  split_ifs with ho hf hal hl
  · exact .inl ⟨rfl, by omega⟩
  · have he : e = (range s np).2 := by rw [← hsp, hal, hf, hd]
    rw [he, hf]
    exact .inr ⟨le_rfl, .inr ⟨_, _, _, rfl, deleteElement_spec h⟩⟩
  · have hne : bytes.toNat ≠ (s.size np).toNat := fun e => hal (UInt64.toNat_inj.mp e)
    refine .inr ⟨by omega, .inr ⟨_, _, _, rfl, h.shrink rfl (fun p hp => range_congr (by simp [hp])) (c := e)
      (d := (range s np).2) ?_ (by omega) hb (.inl ⟨hf, rfl, rfl⟩)⟩⟩
    simp only [range, update_self]
    rw [toNat_add (by omega), toNat_sub (by omega)]
    exact Prod.ext (by omega) (by omega)
  · refine .inr ⟨hl.le, .inr ⟨_, _, _, rfl, h.shrink rfl (fun p hp => range_congr (by simp [hp])) (c := (range s np).1)
      (d := b) ?_ (by omega) hb (.inr ⟨hl, rfl, rfl⟩)⟩⟩
    simp only [range, update_self]
    rw [toNat_sub (by omega)]
    exact Prod.ext rfl (by omega)
  · refine .inr ⟨by omega, ?_⟩
    rcases deleteMiddle_spec h hs (by omega) (by omega) with ⟨rfl, heq⟩ | ⟨s', l', f', heq, hdl⟩
    · exact .inl ⟨congrArg some heq, rfl, range s np, by simp, by omega, by omega⟩
    · exact .inr ⟨s', l', f', congrArg some heq, hdl⟩

end Delete

/-! ### The algebra of spans -/

section Algebra

theorem delete_of_added {f' : List P} (h : Rep s l f) (had : Added s l b e s' l1 f') (hn : ¬ Meets s l b e)
    {s'' : Lists P} {l'' f'' : List P} (hd : Deleted s' l1 b e s'' l'' f'') : spans s'' l'' = spans s l := by
  refine Separated.unique hd.rep.elements.separated h.elements.separated fun a => ?_
  rw [show Covers Prod.fst Prod.snd (spans s'' l'') a ↔ _ from hd.difference a, had.union a]
  constructor
  · rintro ⟨ha | ha, ho⟩
    · exact ha
    · exact absurd ha ho
  · intro ha
    exact ⟨.inl ha, fun hin => hn ⟨a, hin.1, hin.2, ha⟩⟩

variable [DecidableEq P]

/-- With a free element, adding a span is refused exactly if it meets the list, and gives the canonical list of the union
else; deleting one is refused exactly if it is not in the list, fails only for want of an element to split another, and
gives the canonical list of the difference else; what is refused changes nothing, and deleting undoes adding. -/
theorem memlist_spans (h : Rep s l f) (hb : 0 < bytes.toNat) (hend : address.toNat + bytes.toNat ≤ 2 ^ 64 - 1) :
    (f = [] → memlistAddSpan s address bytes = some (.ealloc, s)) ∧
    (f ≠ [] → (∃ s', memlistAddSpan s address bytes = some (.espan, s') ∧ Refused s l f s' ∧
        Meets s l address.toNat (address.toNat + bytes.toNat)) ∨
      ∃ s' l' f', memlistAddSpan s address bytes = some (.ok, s') ∧
        ¬ Meets s l address.toNat (address.toNat + bytes.toNat) ∧ Rep s' l' f' ∧
        ∀ a, Contains s' l' a ↔ Contains s l a ∨ (address.toNat ≤ a ∧ a < address.toNat + bytes.toNat)) ∧
    ((memlistDeleteSpan s address bytes = some (.espan, s) ∧ ¬ Within s l address.toNat (address.toNat + bytes.toNat)) ∨
      Within s l address.toNat (address.toNat + bytes.toNat) ∧
        ((memlistDeleteSpan s address bytes = some (.ealloc, s) ∧ f = [] ∧
            ∃ r ∈ spans s l, r.1 < address.toNat ∧ address.toNat + bytes.toNat < r.2) ∨
          ∃ s' l' f', memlistDeleteSpan s address bytes = some (.ok, s') ∧ Rep s' l' f' ∧
            ∀ a, Contains s' l' a ↔ Contains s l a ∧ ¬ (address.toNat ≤ a ∧ a < address.toNat + bytes.toNat))) ∧
    ∀ s', memlistAddSpan s address bytes = some (.ok, s') →
      ∃ s'' l'' f'', memlistDeleteSpan s' address bytes = some (.ok, s'') ∧ Rep s'' l'' f'' ∧ spans s'' l'' = spans s l := by
  have hs : Span address bytes address.toNat (address.toNat + bytes.toNat) := ⟨rfl, rfl, by omega, hend⟩
  have hadd := memlistAddSpan_spec h hs
  refine ⟨fun hf => ?_, fun hf => ?_, ?_, fun s' hs' => ?_⟩
  · rcases hadd with ⟨-, heq⟩ | ⟨hne, -⟩
    · exact heq
    · exact absurd hf hne
  · rcases hadd with ⟨rfl, -⟩ | ⟨-, hrs⟩
    · exact absurd rfl hf
    · rcases hrs with hrs | ⟨s', l', f', heq, hn, had⟩
      · exact .inl hrs
      · exact .inr ⟨s', l', f', heq, hn, had.rep, had.union⟩
  · rcases memlistDeleteSpan_spec h hs with hrs | ⟨hin, hrs | ⟨s', l', f', heq, hd⟩⟩
    · exact .inl hrs
    · exact .inr ⟨hin, .inl hrs⟩
    · exact .inr ⟨hin, .inr ⟨s', l', f', heq, hd.rep, hd.difference⟩⟩
  · obtain ⟨l', f', hn, had⟩ : ∃ l' f', ¬ Meets s l address.toNat (address.toNat + bytes.toNat) ∧
        Added s l address.toNat (address.toNat + bytes.toNat) s' l' f' := by
      rcases hadd with ⟨-, heq⟩ | ⟨-, ⟨t, heq, -⟩ | ⟨t, l', f', heq, hn, had⟩⟩
      · cases heq.symm.trans hs'
      · cases heq.symm.trans hs'
      · obtain rfl : t = s' := by simpa using heq.symm.trans hs'
        exact ⟨l', f', hn, had⟩
    rcases memlistDeleteSpan_spec had.rep hs with ⟨-, ho⟩ | ⟨-, ⟨-, rfl, r, hr, hl, hh⟩ | ⟨t, l'', f'', heq, hd⟩⟩
    · exact absurd (fun a ha hae => (had.union a).mpr (.inr ⟨ha, hae⟩)) ho
    · -- no element was free, so the span is an element and none has to be split
      have hmem := had.spare.resolve_left fun hne => hne rfl
      have heq := had.rep.elements.separated.eq_of_mem hr hmem (a := address.toNat) ⟨hl.le, by omega⟩ ⟨le_rfl, by omega⟩
      rw [heq] at hl
      exact absurd hl (lt_irrefl _)
    · exact ⟨t, l'', f'', heq, hd.rep, delete_of_added h had hn hd⟩

end Algebra

/-- The element 0 holds the addresses below 10. -/
def lowMemory (free : Option ℕ) : Lists ℕ :=
  { curmemlist := some 0, freelist := free, freelistCount := 1, address := fun _ => 0, size := fun _ => 10,
    next := fun _ => none, prev := fun _ => none }

theorem lowMemory_elements (free : Option ℕ) : Elements (lowMemory free) [0] :=
  ⟨⟨by simp, rfl, rfl, by simp [Links.Seg, lowMemory]⟩, by simp [Separated, range, lowMemory], by simp [range, lowMemory]⟩

/-- The addresses from 20 up to 25 are added and deleted again. -/
theorem memlist_spans_lowMemory :
    ∃ s' l' f', memlistAddSpan (lowMemory (some 1)) 20 5 = some (.ok, s') ∧ Rep s' l' f' ∧ Contains s' l' 22 ∧
      ∃ s'' l'' f'', memlistDeleteSpan s' 20 5 = some (.ok, s'') ∧ Rep s'' l'' f'' ∧ spans s'' l'' = [(0, 10)] := by
  have hp : Rep (lowMemory (some 1)) [0] [1] := ⟨lowMemory_elements _, ⟨rfl, rfl⟩, by simp⟩
  obtain ⟨-, had, -, hn⟩ := @memlist_spans ℕ (lowMemory (some 1)) [0] [1] 20 5 _ hp (by decide) (by decide)
  rcases had (by simp) with ⟨s', -, -, a, ha, -, hin⟩ | ⟨s', l', f', heq, -, hr, hu⟩
  · obtain ⟨r, hr, -, hlt⟩ := hin
    obtain rfl : r = (0, 10) := by simpa [range, lowMemory] using hr
    exact absurd (ha.trans_lt hlt) (by decide)
  · obtain ⟨s'', l'', f'', hd, hr', hs⟩ := hn s' heq
    exact ⟨s', l', f', heq, hr, (hu 22).mpr (.inr (by decide)), s'', l'', f'', hd, hr', hs⟩

/-- The element 0 holds the last 16 addresses, and the element 1 is free. -/
def topMemory : Lists ℕ := { lowMemory (some 1) with address := fun _ => -16, size := fun _ => 16 }

/-- Without a free element a span that meets the list is not refused as such. An element that ends at the top of the
addresses takes in a span at address 0. -/
theorem memlist_spans_fails : (Rep (lowMemory none) [0] [] ∧ Meets (lowMemory none) [0] 0 5 ∧
      memlistAddSpan (lowMemory none) 0 5 = some (.ealloc, lowMemory none)) ∧
    spans topMemory [0] = [(2 ^ 64 - 16, 2 ^ 64)] ∧ Links.Headed topMemory.curmemlist topMemory.next topMemory.prev [0] ∧
      ∃ s', memlistAddSpan topMemory 0 5 = some (.ok, s') ∧ Links.Headed s'.curmemlist s'.next s'.prev [0] ∧
        ¬ Contains s' [0] 0 := by
  refine ⟨⟨⟨lowMemory_elements _, rfl, by simp⟩, ?_, rfl⟩, rfl, ?_, _, rfl, ?_, ?_⟩
  · exact ⟨0, le_rfl, by decide, (0, 10), by simp [range, lowMemory], le_rfl, by decide⟩
  · exact ⟨by simp, rfl, rfl, by simp [Links.Seg, topMemory, lowMemory]⟩
  · exact ⟨by simp, rfl, rfl, by simp [Links.Seg, topMemory, lowMemory, memlistFreeOne]⟩
  · rintro ⟨r, hr, hle, -⟩
    obtain rfl := mem_singleton.mp hr
    exact absurd hle (by decide)

end Sol8.Os.Memlist
