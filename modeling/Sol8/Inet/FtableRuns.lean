import Sol8.Inet.Ftable

/-! The forwarding table as a set of routes, over every sequence of additions and deletions: the chains hold the routes
where a lookup searches them, so the first match of a lookup is a longest one. -/

namespace Sol8.Inet.Ftable

open Function Sol8.Lib Sol8.Lib.Hlists Sol8.Inet.IpIre List

variable {I F Q L : Type} {e : Endian} {nif : Ipif F L} {s s' : State I F Q} {l l' : Bucket → List I}
  {b : Bucket} {i j : I} {n : ℕ} {ire : Ire F Q}

/-- The routes are the same but for the source address and the handle. -/
def Agree (r r' : Ire F Q) : Prop :=
  r.addr = r'.addr ∧ r.mask = r'.mask ∧ r.gatewayAddr = r'.gatewayAddr ∧ r.type = r'.type ∧ r.ipif = r'.ipif ∧
    r.stq = r'.stq

/-- The chains and the routes on them. -/
structure Core (e : Endian) (s : State I F Q) (l : Bucket → List I) : Prop where
  lists : s.links.Lists l
  heap : ∀ b, ∀ i ∈ l b, i ∈ s.heap
  route : ∀ b, ∀ i ∈ l b, b = ((s.ire i).masklen, ireAddrHash (s.ire i).addr)
  bucket : ∀ b, ∀ i ∈ l b, s.ireBucket i = some b
  mask : ∀ b, ∀ i ∈ l b, Contiguous e (s.ire i).mask (s.ire i).masklen
  unique : ∀ b, ∀ i ∈ l b, ∀ j ∈ l b, Agree (s.ire i) (s.ire j) → i = j
  grouped : ∀ b, Grouped (fun i => (s.ire i).addr) (l b)
  table : ∀ b, l b ≠ [] → s.table b.1 = true

/-- Between calls nothing is condemned and nobody walks a bucket. -/
structure Inv (e : Endian) (s : State I F Q) (l : Bucket → List I) : Prop extends Core e s l where
  live : ∀ b, ∀ i ∈ l b, s.ireCondemned i = false
  refcnt : ∀ b, s.irbRefcnt b = 0
  clean : ∀ b, s.irbCondemned b = false

theorem Core.length_le (h : Core e s l) (b : Bucket) : (l b).length ≤ s.heap.length :=
  (subperm_of_subset (h.lists.spells b).nodup fun i hi => h.heap b i hi).length_le

theorem Core.shrink (h : Core e s l) (hl : s'.links.Lists l') (hsub : ∀ b, (l' b).Sublist (l b))
    (hr : s'.ire = s.ire) (hb : s'.ireBucket = s.ireBucket) (hh : s'.heap = s.heap)
    (ht : s'.table = s.table) : Core e s' l' where
  lists := hl
  heap b i hi := by
    rw [hh]
    exact h.heap b i ((hsub b).subset hi)
  route b i hi := by
    rw [hr]
    exact h.route b i ((hsub b).subset hi)
  bucket b i hi := by
    rw [hb]
    exact h.bucket b i ((hsub b).subset hi)
  mask b i hi := by
    rw [hr]
    exact h.mask b i ((hsub b).subset hi)
  unique b i hi j hj := by
    rw [hr]
    exact h.unique b i ((hsub b).subset hi) j ((hsub b).subset hj)
  grouped b := by
    rw [hr]
    exact (h.grouped b).sublist (hsub b)
  table b hne := by
    rw [ht]
    refine h.table b fun hnil => hne ?_
    have := hsub b
    rw [hnil] at this
    exact sublist_nil.mp this

theorem sublist_update {k : List I} (hk : k.Sublist (l b)) (b' : Bucket) : (update l b k b').Sublist (l b') := by
  by_cases hb : b' = b
  · subst hb
    rwa [update_self]
  · rw [update_of_ne hb]

/-! ### Deleting -/

/-- The loop of `ire_unlink` takes the condemned entries off the rest of the chain. -/
theorem ireUnlinkLoop_spec [DecidableEq I] {l1 l2 : List I} (h : s.links.Lists l) (hl : l b = l1 ++ l2) (hn : l2.length ≤ n)
    (list : List I) : ∃ links, ireUnlinkLoop n s l2.head? list =
        ({ s with links := links }, (l2.filter fun i => s.ireCondemned i).reverse ++ list) ∧
      links.Lists (update l b (l1 ++ l2.filter fun i => !s.ireCondemned i)) := by
  induction l2 generalizing s l l1 n list with
  | nil =>
    refine ⟨s.links, ?_, ?_⟩
    · cases n <;> rfl
    · have hm : update l b (l1 ++ []) = l := by rw [← hl, update_eq_self]
      rwa [filter_nil, hm]
  | cons i l2 ih =>
    obtain _ | n := n
    · simp at hn
    have hn : l2.length ≤ n := by simpa using hn
    have hs := h.spells b
    rw [hl] at hs
    rw [List.head?_cons, ireUnlinkLoop, hs.next_eq]
    split_ifs with hc
    · have hls : (unlink s i).links.Lists (update l b (l1 ++ l2)) := h.remove hl
      obtain ⟨links, heq, hln⟩ := ih (s := unlink s i) hls (update_self ..) hn (i :: list)
      refine ⟨links, ?_, ?_⟩
      · rw [heq, filter_cons_of_pos hc, reverse_cons, append_assoc]
        rfl
      · rw [update_idem] at hln
        rwa [filter_cons_of_neg (by simp [hc])]
    · have hl' : l b = (l1 ++ [i]) ++ l2 := by simpa using hl
      obtain ⟨links, heq, hln⟩ := ih h hl' hn list
      refine ⟨links, ?_, ?_⟩
      · rw [heq, filter_cons_of_neg hc]
      · rw [filter_cons_of_pos (by simp [hc])]
        simpa using hln

def Redirect (s : State I F Q) (gateway : Ipaddr) (i : I) : Prop :=
  (s.ire i).type = .ireHostRedirect ∧ (s.ire i).gatewayAddr = gateway

instance (s : State I F Q) (gateway : Ipaddr) : DecidablePred (Redirect s gateway) :=
  fun _ => inferInstanceAs (Decidable (_ ∧ _))

variable {dv4 : State I F Q → I → State I F Q}

/-- The walk over a bucket that is held condemns the redirects on the rest of the chain. -/
theorem redirectsLoop_spec [DecidableEq I] (dv4 : State I F Q → I → State I F Q) (gateway : Ipaddr) {l1 l2 : List I}
    (h : s.links.Lists l) (hl : l b = l1 ++ l2)
    (hc : ∀ i ∈ l b, s.ireBucket i = some b) (hh : s.irbRefcnt b ≠ 0) (hn : l2.length ≤ n) :
    redirectsLoop dv4 gateway n s l2.head? = { s with
      ireCondemned := fun i => s.ireCondemned i || decide (i ∈ l2 ∧ Redirect s gateway i)
      irbCondemned := fun b' => s.irbCondemned b' || decide (b' = b ∧ ∃ i ∈ l2, Redirect s gateway i) } := by
  induction l2 generalizing s l1 n with
  | nil => cases n <;> simp [redirectsLoop]
  | cons i l2 ih =>
    obtain _ | n := n
    · simp at hn
    have hn : l2.length ≤ n := by simpa using hn
    have hs := h.spells b
    rw [hl] at hs
    have hl' : l b = (l1 ++ [i]) ++ l2 := by simpa using hl
    have hi : i ∈ l b := by simp [hl]
    rw [List.head?_cons, redirectsLoop]
    by_cases hr : Redirect s gateway i
    · have hk : s.links.back i ≠ none := fun hnn => h.back_eq_none.mp hnn b hi
      have hd : ireDelete dv4 s i = { s with
          ireCondemned := update s.ireCondemned i true
          irbCondemned := update s.irbCondemned b true } := by
        rw [ireDelete, hc i hi]
        dsimp only
        rw [if_neg hk, if_pos hh]
      have hrs := ih (s := { s with
        ireCondemned := update s.ireCondemned i true
        irbCondemned := update s.irbCondemned b true }) h hl' hc hh hn
      rw [show (if (s.ire i).type = .ireHostRedirect ∧ (s.ire i).gatewayAddr = gateway then ireDelete dv4 s i else s) = _
        from (if_pos hr).trans hd]
      rw [hs.next_eq, hrs]
      congr 1
      · funext b'
        by_cases hb : b' = b
        · subst hb
          simp [hr]
        · simp [hb]
      · funext j
        by_cases hj : j = i
        · subst hj
          simp [hr]
        · simp only [update_of_ne hj, mem_cons, hj, false_or]
          rfl
    · have hg : ¬ ((s.ire i).type = .ireHostRedirect ∧ (s.ire i).gatewayAddr = gateway) := hr
      rw [if_neg hg, hs.next_eq, ih h hl' hc hh hn]
      congr 1
      · simp [hr]
      · funext j
        by_cases hj : j = i
        · subst hj
          simp [hr]
        · simp [hj]

theorem foldl_eq_self {list : List I} (h : ∀ i ∈ list, dv4 s i = s) : list.foldl dv4 s = s := by
  induction list with
  | nil => rfl
  | cons i list ih =>
    rw [foldl_cons, h i mem_cons_self]
    exact ih fun j hj => h j (mem_cons_of_mem i hj)

section

variable (h : Inv e s l) (hdv4 : ∀ (s : State I F Q) i, (s.ire i).type = .ireHostRedirect → dv4 s i = s)
  (gateway : Ipaddr)
include h hdv4 gateway

/-- A whole walk over a bucket: the redirects to the gateway are gone from its chain. -/
theorem Inv.redirectsBucket [DecidableEq I] (b : Bucket) :
    Inv e (redirectsBucket dv4 gateway s b) (update l b ((l b).filter fun i => ¬ Redirect s gateway i)) ∧
      (Ftable.redirectsBucket dv4 gateway s b).ire = s.ire := by
  set l' := (l b).filter fun i => ¬ Redirect s gateway i
  -- the state when the loop is over, and with the bucket released
  obtain ⟨u, hu⟩ : ∃ u, u = redirectsLoop dv4 gateway s.heap.length
    { s with irbRefcnt := update s.irbRefcnt b (s.irbRefcnt b + 1) } (s.links.head b) := ⟨_, rfl⟩
  obtain ⟨t, ht⟩ : ∃ t : State I F Q, t = { u with irbRefcnt := update u.irbRefcnt b (u.irbRefcnt b - 1) } := ⟨_, rfl⟩
  have heq : Ftable.redirectsBucket dv4 gateway s b =
      if t.irbRefcnt b = 0 ∧ t.irbCondemned b = true then (ireUnlink t b).2.foldl dv4 (ireUnlink t b).1 else t := by
    rw [ht, hu]
    rfl
  have hhl : update s.irbRefcnt b (s.irbRefcnt b + 1) b ≠ 0 := by
    rw [update_self]
    omega
  have hw := redirectsLoop_spec dv4 gateway (s := { s with irbRefcnt := update s.irbRefcnt b (s.irbRefcnt b + 1) })
    h.lists (show l b = [] ++ l b from rfl) (h.bucket b) hhl (h.length_le b)
  rw [← (h.lists.spells b).head, ← hu] at hw
  obtain ⟨hl, hir, hbc, hh, htb⟩ : t.links = s.links ∧ t.ire = s.ire ∧ t.ireBucket = s.ireBucket ∧ t.heap = s.heap ∧
      t.table = s.table := by
    rw [ht, hw]
    exact ⟨rfl, rfl, rfl, rfl, rfl⟩
  have hrf : t.irbRefcnt = s.irbRefcnt := by
    rw [ht, hw]
    simp
  have hn : ∀ i, t.ireCondemned i = (s.ireCondemned i || decide (i ∈ l b ∧ Redirect s gateway i)) := by
    intro i
    rw [ht, hw]
    rfl
  have hirb : ∀ b', t.irbCondemned b' = decide (b' = b ∧ ∃ i ∈ l b, Redirect s gateway i) := by
    intro b'
    rw [ht, hw]
    dsimp only
    rw [h.clean, Bool.false_or]
    rfl
  have hsub : ∀ b', (update l b l' b').Sublist (l b') :=
    sublist_update (filter_sublist ..)
  have hv : ∀ b', ∀ i ∈ update l b l' b', t.ireCondemned i = false := by
    intro b' i hi
    have ho := (hsub b').subset hi
    rw [hn, h.live b' i ho, Bool.false_or, decide_eq_false]
    rintro ⟨hib, hr⟩
    obtain rfl := h.lists.disjoint b' b i ho hib
    rw [update_self] at hi
    simpa [hr] using (mem_filter.mp hi).2
  rw [heq]
  by_cases ha : ∃ i ∈ l b, Redirect s gateway i
  · have hb : t.irbRefcnt b = 0 ∧ t.irbCondemned b = true := by
      rw [hrf, h.refcnt, hirb, decide_eq_true ⟨rfl, ha⟩]
      exact ⟨rfl, rfl⟩
    obtain ⟨links, hp, hs⟩ := ireUnlinkLoop_spec (s := t) (n := t.heap.length) (hl ▸ h.lists)
      (show l b = [] ++ l b from rfl) (hh ▸ h.length_le b) []
    have hun : ireUnlink t b = ({ t with links := links, irbCondemned := update t.irbCondemned b false },
        ((l b).filter fun i => t.ireCondemned i).reverse) := by
      rw [ireUnlink, hl, (h.lists.spells b).head, hp, append_nil]
    have hf : ((l b).filter fun i => !t.ireCondemned i) = l' := by
      refine filter_congr fun i hi => ?_
      rw [hn, h.live b i hi, Bool.false_or]
      simp [hi]
    rw [nil_append, hf] at hs
    -- what was taken off are redirects, and there is nothing more to do for them
    have hfl : (ireUnlink t b).2.foldl dv4 (ireUnlink t b).1 = (ireUnlink t b).1 := by
      refine foldl_eq_self fun i hi => hdv4 _ i ?_
      rw [hun] at hi ⊢
      obtain ⟨hib, hc⟩ := mem_filter.mp (mem_reverse.mp hi)
      rw [hn, h.live b i hib, Bool.false_or, decide_eq_true_iff] at hc
      rw [hir]
      exact hc.2.1
    rw [if_pos hb, hfl, hun]
    refine ⟨⟨h.toCore.shrink hs hsub hir hbc hh htb, hv, fun b' => ?_, fun b' => ?_⟩, hir⟩
    · dsimp only
      rw [hrf]
      exact h.refcnt b'
    · dsimp only
      by_cases hb' : b' = b
      · rw [hb', update_self]
      · rw [update_of_ne hb', hirb]
        simp [hb']
  · have hb : ¬ (t.irbRefcnt b = 0 ∧ t.irbCondemned b = true) := by
      rw [hirb]
      simp [ha]
    have hf : l' = l b := by
      refine filter_eq_self.mpr fun i hi => ?_
      simpa using fun hr => ha ⟨i, hi, hr⟩
    rw [if_neg hb]
    rw [hf, update_eq_self] at hv ⊢
    refine ⟨⟨h.toCore.shrink (hl ▸ h.lists) (fun _ => List.Sublist.refl _) hir hbc hh htb, hv,
      fun b' => ?_, fun b' => ?_⟩, hir⟩
    · rw [hrf]
      exact h.refcnt b'
    · rw [hirb]
      simp [ha]

theorem Inv.redirects [DecidableEq I] : ∃ l', Inv e (ireDeleteHostRedirects dv4 s gateway) l' := by
  have hf : ∀ hs : List ℕ, ∀ (s : State I F Q) l, Inv e s l →
      ∃ l', Inv e (hs.foldl (fun s h => Ftable.redirectsBucket dv4 gateway s (ipAbits, h)) s) l' := by
    intro hs
    induction hs with
    | nil => exact fun s l h => ⟨l, h⟩
    | cons k hs ih => exact fun s l h => ih _ _ (h.redirectsBucket hdv4 gateway (ipAbits, k)).1
  rw [ireDeleteHostRedirects]
  split
  · exact hf (List.range 32) s l h
  · exact ⟨l, h⟩

end

theorem ireDeleteV4_redirect [DecidableEq I] (n : ℕ) (s : State I F Q) (i : I) (hi : (s.ire i).type = .ireHostRedirect) :
    ireDeleteV4 n s i = s := by
  cases n with
  | zero => rfl
  | succ n =>
    rw [ireDeleteV4, hi]
    rfl

theorem Inv.deleteV4 [DecidableEq I] (h : Inv e s l) (n : ℕ) (i : I) : ∃ l', Inv e (ireDeleteV4 n s i) l' := by
  cases n with
  | zero => exact ⟨l, h⟩
  | succ n =>
    rw [ireDeleteV4]
    split
    · have hc : Inv e { s with ipIreDefaultCount := s.ipIreDefaultCount - 1 } l :=
        ⟨h.toCore.shrink h.lists (fun _ => List.Sublist.refl _) rfl rfl rfl rfl, h.live, h.refcnt, h.clean⟩
      exact hc.redirects (ireDeleteV4_redirect n) _
    · exact ⟨l, h⟩

theorem Inv.delete [DecidableEq I] (h : Inv e s l) (n : ℕ) (i : I) : ∃ l', Inv e (ireDelete (ireDeleteV4 n) s i) l' := by
  rw [ireDelete]
  split
  · exact ⟨l, h⟩
  next b hb =>
    split
    · exact ⟨l, h⟩
    next hbc =>
      obtain ⟨b', hi⟩ : ∃ b', i ∈ l b' := by
        by_contra hn
        exact hbc (h.lists.back_eq_none.mpr fun b' hi => hn ⟨b', hi⟩)
      obtain rfl := Option.some.inj ((h.bucket b' i hi).symm.trans hb)
      rw [if_neg (not_not.mpr (h.refcnt b'))]
      obtain ⟨l1, l2, hl⟩ := append_of_mem hi
      have hs := h.lists.remove hl
      have hsub : ∀ c, (update l b' (l1 ++ l2) c).Sublist (l c) :=
        sublist_update (hl ▸ (List.Sublist.refl l1).append (sublist_cons_self i l2))
      have hc : Core e { unlink s i with ireCondemned := update s.ireCondemned i true } (update l b' (l1 ++ l2)) :=
        h.toCore.shrink hs hsub rfl rfl rfl rfl
      refine Inv.deleteV4 ⟨hc, fun c j hj => ?_, h.refcnt, h.clean⟩ n i
      have hne : j ≠ i := by
        rintro rfl
        exact hs.back_eq_none.mp (update_self ..) c hj
      dsimp only
      rw [update_of_ne hne]
      exact h.live c j ((hsub c).subset hj)

/-! ### Adding -/

variable [DecidableEq L]

theorem Core.duplicate_none [DecidableEq Q] [DecidableEq F] (h : Core e s l) (hl : ∀ b, ∀ i ∈ l b, s.ireCondemned i = false)
    (hm : ire.addr &&& ire.mask = ire.addr) (hn : duplicate nif s b ire = none) : ∀ i ∈ l b, ¬ Agree (s.ire i) ire := by
  rw [duplicate, (h.lists.spells b).find (h.length_le b), List.find?_eq_none] at hn
  intro i hi ha
  obtain ⟨hd, hms, hg, ht, hp, hs⟩ := ha
  refine hn i hi ?_
  rw [hl b i hi, Bool.not_false, Bool.true_and, ireMatchArgs_iff, hm]
  refine ⟨hd, fun _ => hg, fun _ => ?_, nofun, fun _ => hs, fun _ => hp, nofun, nofun⟩
  rw [ht]
  exact beq_self_eq_true _

theorem Core.place_spec (h : Core e s l) (b : Bucket) (addr : Ipaddr) :
    ∃ l1 l2 l3, l b = l1 ++ l2 ++ l3 ∧ s.links.Seg (.head b) (l1 ++ l2) (place s b addr) ∧
      (∀ i ∈ l1, (s.ire i).addr ≠ addr) ∧ (∀ i ∈ l2, (s.ire i).addr = addr) ∧ (∀ i ∈ l3, (s.ire i).addr ≠ addr) ∧
      (l2 = [] → l3 = []) := by
  obtain ⟨l1, l2, l3, hl, h1, h2, h3, hn⟩ := (h.grouped b).split addr
  have hs := h.lists.spells b
  have hlen := h.length_le b
  rw [hl] at hs hlen
  obtain ⟨c2, hg, hr2⟩ := hs.split
  obtain ⟨c1, hs1, hs2⟩ := seg_append.mp hg
  refine ⟨l1, l2, l3, hl, ?_, h1, h2, h3, hn⟩
  -- the first walk stops at the group, or at the end
  have hr1 : ∀ i, s.links.read c1 = some i → (s.ire i).addr = addr := by
    intro i hi
    cases l2 with
    | nil =>
      obtain rfl : c1 = c2 := hs2
      rw [hn rfl] at hr2
      cases hi.symm.trans hr2
    | cons j l2 =>
      obtain rfl := Option.some.inj (hi.symm.trans hs2.read)
      exact h2 i mem_cons_self
  have hw1 : s.links.walk (fun i => (s.ire i).addr != addr) s.heap.length (.head b) = c1 := by
    refine hs1.walk (fun i hi => by simpa using h1 i hi) (fun i hi => by simpa using hr1 i hi) ?_
    simp only [length_append] at hlen
    omega
  have hw2 : s.links.walk (fun i => (s.ire i).addr == addr) s.heap.length c1 = c2 := by
    refine hs2.walk (fun i hi => by simpa using h2 i hi) (fun i hi => ?_) ?_
    · simpa using h3 i (mem_of_head? (hr2.symm.trans hi))
    · simp only [length_append] at hlen
      omega
  rw [place, hw1, hw2]
  exact hg

theorem normalize_masked (ire : Ire F Q) : (normalize ire).addr &&& (normalize ire).mask = (normalize ire).addr := by
  rw [normalize]
  rw [BitVec.and_assoc, BitVec.and_self]

theorem Inv.put [DecidableEq I] (h : Inv e s l) (hi : i ∉ s.heap) {r : Ire F Q} (hb : b = (r.masklen, ireAddrHash r.addr))
    (hm : Contiguous e r.mask r.masklen) (ht : s.table r.masklen = true)
    (hn : ∀ i ∈ l b, ¬ Agree (s.ire i) r) (count : UInt32) : ∃ l', Inv e { s with
      links := s.links.insert (place s b r.addr) i
      ire := update s.ire i r
      ireBucket := update s.ireBucket i (some b)
      ireCondemned := update s.ireCondemned i false
      heap := i :: s.heap
      ipIreDefaultCount := count } l' := by
  obtain ⟨l1, l2, l3, hl, hsg, h1, h2, h3, hen⟩ := h.place_spec b r.addr
  refine ⟨update l b (l1 ++ l2 ++ i :: l3), ?_⟩
  have hw : ∀ b', i ∉ l b' := fun b' hmem => hi (h.heap b' i hmem)
  have hmem : ∀ b', ∀ j ∈ update l b (l1 ++ l2 ++ i :: l3) b', j = i ∧ b' = b ∨ j ≠ i ∧ j ∈ l b' := by
    intro b' j hj
    by_cases hb' : b' = b
    · subst hb'
      rw [update_self, mem_append, mem_cons] at hj
      by_cases hji : j = i
      · exact .inl ⟨hji, rfl⟩
      · refine .inr ⟨hji, ?_⟩
        rw [hl, mem_append]
        exact hj.imp id fun h => h.resolve_left hji
    · rw [update_of_ne hb'] at hj
      exact .inr ⟨fun e => hw b' (e ▸ hj), hj⟩
  have ho : ∀ j, j ≠ i → update s.ire i r j = s.ire j := fun j hj => update_of_ne hj ..
  refine ⟨⟨h.lists.insert hl hsg hw, fun b' j hj => ?_, fun b' j hj => ?_,
    fun b' j hj => ?_, fun b' j hj => ?_, fun b' j hj k hk => ?_, fun b' => ?_, fun b' hne => ?_⟩,
    fun b' j hj => ?_, h.refcnt, h.clean⟩ <;> dsimp only
  · rcases hmem b' j hj with ⟨rfl, -⟩ | ⟨-, hj⟩
    · exact mem_cons_self
    · exact mem_cons_of_mem i (h.heap b' j hj)
  · rcases hmem b' j hj with ⟨rfl, rfl⟩ | ⟨hji, hj⟩
    · rw [update_self, hb]
    · rw [ho j hji]
      exact h.route b' j hj
  · rcases hmem b' j hj with ⟨rfl, rfl⟩ | ⟨hji, hj⟩
    · rw [update_self]
    · rw [update_of_ne hji]
      exact h.bucket b' j hj
  · rcases hmem b' j hj with ⟨rfl, rfl⟩ | ⟨hji, hj⟩
    · rw [update_self]
      exact hm
    · rw [ho j hji]
      exact h.mask b' j hj
  · intro ha
    rcases hmem b' j hj with ⟨rfl, rfl⟩ | ⟨hji, hjl⟩ <;> rcases hmem b' k hk with ⟨rfl, hkb⟩ | ⟨hki, hkl⟩
    · rfl
    · rw [update_self, ho k hki] at ha
      obtain ⟨h1, h2, h3, h4, h5, h6⟩ := ha
      exact absurd ⟨h1.symm, h2.symm, h3.symm, h4.symm, h5.symm, h6.symm⟩ (hn k hkl)
    · rw [update_self, ho j hji] at ha
      exact absurd ha (hn j (hkb ▸ hjl))
    · rw [ho j hji, ho k hki] at ha
      exact h.unique b' j hjl k hkl ha
  · have hs : ∀ j ∈ l b', (update s.ire i r j).addr = (s.ire j).addr := fun j hj => by
      rw [ho j fun e => hw b' (e ▸ hj)]
    by_cases hb' : b' = b
    · subst hb'
      rw [update_self]
      have hg : Grouped (fun j => (update s.ire i r j).addr) (l1 ++ l2 ++ l3) := by
        rw [← hl]
        exact (h.grouped b').congr hs
      have hsl : (update s.ire i r i).addr = r.addr := by rw [update_self]
      refine hg.insert (fun j hj => ?_) (fun j hj => ?_) (fun j hj => ?_) hen
      · rw [hsl, hs j (by simp [hl, hj])]
        exact h1 j hj
      · rw [hsl, hs j (by simp [hl, hj])]
        exact h2 j hj
      · rw [hsl, hs j (by simp [hl, hj])]
        exact h3 j hj
    · rw [update_of_ne hb']
      exact (h.grouped b').congr hs
  · by_cases hb' : b' = b
    · rw [hb', hb]
      exact ht
    · rw [update_of_ne hb'] at hne
      exact h.table b' hne
  · rcases hmem b' j hj with ⟨rfl, -⟩ | ⟨hji, hj⟩
    · rw [update_self]
    · rw [update_of_ne hji]
      exact h.live b' j hj

variable [DecidableEq Q] [DecidableEq F]

theorem Inv.add [DecidableEq I] (h : Inv e s l) (hi : i ∉ s.heap)
    (hs : Contiguous e (normalize ire).mask (normalize ire).masklen) (alloc : Bool) :
    ∃ l', Inv e (ireAdd nif s i ire alloc).1 l' := by
  rw [ireAdd]
  dsimp only
  split
  · exact ⟨l, h⟩
  obtain ⟨r, hr⟩ : ∃ r, r = normalize ire := ⟨_, rfl⟩
  have hm : r.addr &&& r.mask = r.addr := hr ▸ normalize_masked ire
  rw [← hr] at hs ⊢
  obtain ⟨t, ht⟩ : ∃ t : State I F Q, t = { s with table := update s.table r.masklen true } := ⟨_, rfl⟩
  obtain ⟨b, hb⟩ : ∃ b : Bucket, b = (r.masklen, ireAddrHash r.addr) := ⟨_, rfl⟩
  rw [← ht, ← hb]
  have hc : Core e t l := by
    rw [ht]
    refine ⟨h.lists, h.heap, h.route, h.bucket, h.mask, h.unique, h.grouped, fun b' hne => ?_⟩
    dsimp only
    rw [update_apply]
    split
    · rfl
    · exact h.table b' hne
  have htn : Inv e t l := by
    refine ⟨hc, ?_, ?_, ?_⟩
    · rw [ht]
      exact h.live
    · rw [ht]
      exact h.refcnt
    · rw [ht]
      exact h.clean
  split
  next j hd => exact ⟨l, htn⟩
  next hd =>
    have hn := hc.duplicate_none htn.live hm hd
    have hh : t.heap = s.heap := by rw [ht]
    have htb : t.table r.masklen = true := by
      rw [ht]
      exact update_self ..
    have hp := htn.put (hh ▸ hi) hb hs htb hn
      (if r.type = .ireDefault then s.ipIreDefaultCount + 1 else s.ipIreDefaultCount)
    subst ht
    exact hp

/-! ### Looking up -/

theorem Inv.scan_eq (h : Inv e s l) {addr : Ipaddr} {mask : Ire F Q → Ipaddr} {a : Args F Q} {flags : Flags} :
    scan nif s b addr mask a flags = (l b).find? fun i => ireMatchArgs nif (s.ire i) addr (mask (s.ire i)) a flags := by
  rw [scan, (h.lists.spells b).find (h.length_le b)]
  refine List.find?_congr fun i hi => ?_
  rw [h.live b i hi, Bool.not_false, Bool.true_and]

def Live (s : State I F Q) (i : I) : Prop := ∃ b l, s.links.Spells b l ∧ i ∈ l ∧ s.ireCondemned i = false

/-- A live route of a length that is searched, that meets the criteria and contains the address. -/
structure Candidate (nif : Ipif F L) (s : State I F Q) (addr : Ipaddr) (a : Args F Q) (flags : Flags) (i : I) : Prop where
  live : Live s i
  contains : addr &&& (s.ire i).mask = (s.ire i).addr
  meets : Meets nif (s.ire i) a flags
  pos : 1 ≤ (s.ire i).masklen

omit [DecidableEq F] [DecidableEq Q] in
theorem Inv.live_iff (h : Inv e s l) : Live s i ↔ ∃ b, i ∈ l b := by
  constructor
  · rintro ⟨b, k, hk, hi, -⟩
    rw [hk.unique (h.lists.spells b)] at hi
    exact ⟨b, hi⟩
  · rintro ⟨b, hi⟩
    exact ⟨b, l b, h.lists.spells b, hi, h.live b i hi⟩

variable {addr : Ipaddr} {a : Args F Q} {flags : Flags}

omit [DecidableEq F] [DecidableEq Q] [DecidableEq L] in
/-- A candidate is in the bucket in which the lookup searches for its length. -/
theorem Inv.candidate_mem (h : Inv e s l) (hc : Candidate nif s addr a flags i) :
    i ∈ l ((s.ire i).masklen, ireAddrHash (addr &&& ipIndexToMask e (s.ire i).masklen)) ∧ (s.ire i).masklen ≤ ipAbits := by
  obtain ⟨b, hi⟩ := h.live_iff.mp hc.live
  have hm := h.mask b i hi
  refine ⟨?_, hm.1⟩
  rw [← hm.mask_eq, hc.contains, ← h.route b i hi]
  exact hi

theorem Inv.searchLengths_spec (h : Inv e s l) (nif : Ipif F L) (addr : Ipaddr) (a : Args F Q) (flags : Flags) (n : ℕ) :
    match searchLengths e nif s addr a flags n with
    | some i => Candidate nif s addr a flags i ∧ (s.ire i).masklen ≤ n ∧
        ∀ j, Candidate nif s addr a flags j → (s.ire j).masklen ≤ n → (s.ire j).masklen ≤ (s.ire i).masklen
    | none => ∀ j, Candidate nif s addr a flags j → n < (s.ire j).masklen := by
  induction n with
  | zero => exact fun j hj => hj.pos
  | succ n ih =>
    obtain ⟨b, hb⟩ : ∃ b : Bucket, b = (n + 1, ireAddrHash (addr &&& ipIndexToMask e (n + 1))) := ⟨_, rfl⟩
    have hfn : (if s.table (n + 1) then scan nif s b addr (·.mask) a flags else none) =
        (l b).find? fun i => ireMatchArgs nif (s.ire i) addr (s.ire i).mask a flags := by
      split
      · exact h.scan_eq
      next ht =>
        have hnil : l b = [] := by
          by_contra hne
          exact ht (by simpa [hb] using h.table b hne)
        rw [hnil, List.find?_nil]
    rw [searchLengths, ← hb, hfn]
    cases hf : (l b).find? fun i => ireMatchArgs nif (s.ire i) addr (s.ire i).mask a flags with
    | some i =>
      have hi := mem_of_find?_eq_some hf
      have hm := List.find?_some hf
      obtain ⟨ha, hmt⟩ := ireMatchArgs_iff.mp hm
      have hlen : (s.ire i).masklen = n + 1 := by
        have := h.route b i hi
        rw [hb] at this
        exact (congrArg Prod.fst this).symm
      refine ⟨⟨h.live_iff.mpr ⟨b, hi⟩, ha.symm, hmt, by omega⟩, hlen.le, fun j _ hj => ?_⟩
      rw [hlen]
      exact hj
    | none =>
      -- no candidate has exactly this length
      have hn : ∀ j, Candidate nif s addr a flags j → (s.ire j).masklen ≠ n + 1 := by
        intro j hj hlen
        have hmem := (h.candidate_mem hj).1
        rw [hlen, ← hb] at hmem
        exact (List.find?_eq_none.mp hf) j hmem (ireMatchArgs_iff.mpr ⟨hj.contains.symm, hj.meets⟩)
      cases hr : searchLengths e nif s addr a flags n with
      | some i =>
        rw [hr] at ih
        obtain ⟨hc, hle, hmax⟩ := ih
        refine ⟨hc, hle.trans (Nat.le_succ n), fun j hj hjn => hmax j hj ?_⟩
        have := hn j hj
        omega
      | none =>
        rw [hr] at ih
        intro j hj
        have := hn j hj
        have := ih j hj
        omega

/-- Without `MATCH_IRE_MASK`, `MATCH_IRE_TYPE` and `MATCH_IRE_DEFAULT` the lookup is the search over all lengths. -/
theorem ireFtableLookup_eq (hf : flags.mask = false ∧ flags.type = false ∧ flags.dflt = false) :
    (ireFtableLookup e nif s addr a flags).2 =
      if (flags.src || flags.ill) && a.ipif.isNone then none else searchLengths e nif s addr a flags ipAbits := by
  obtain ⟨hm, ht, hd⟩ := hf
  rw [ireFtableLookup]
  split
  · rfl
  · simp only [hm, ht, Bool.false_eq_true, if_false, false_and]
    cases searchLengths e nif s addr a flags ipAbits with
    | some i => rfl
    | none => simp [defaultRoute, hd]

/-! ### Whole runs -/

/-- What the table promises about lookups and its chains. -/
structure Longest (e : Endian) (nif : Ipif F L) (s : State I F Q) : Prop where
  /-- what is found is a longest candidate -/
  found : ∀ addr a (flags : Flags), flags.mask = false ∧ flags.type = false ∧ flags.dflt = false →
    ∀ i, (ireFtableLookup e nif s addr a flags).2 = some i → Candidate nif s addr a flags i ∧
      ∀ j, Candidate nif s addr a flags j → (s.ire j).masklen ≤ (s.ire i).masklen
  /-- nothing is found if and only if there is no candidate -/
  missing : ∀ addr a (flags : Flags), flags.mask = false ∧ flags.type = false ∧ flags.dflt = false →
    ((ireFtableLookup e nif s addr a flags).2 = none ↔ ¬ ∃ i, Candidate nif s addr a flags i)
  unique : ∀ i j, Live s i → Live s j → Agree (s.ire i) (s.ire j) → i = j
  /-- equal addresses are adjacent -/
  grouped : ∀ b l, s.links.Spells b l → Grouped (fun i => (s.ire i).addr) l

theorem Inv.longest (h : Inv e s l) : Longest e nif s := by
  have hd : ∀ addr (a : Args F Q) (flags : Flags), ((flags.src || flags.ill) && a.ipif.isNone) = true →
      ∀ i, ¬ Candidate nif s addr a flags i := by
    intro addr a flags hc i hi
    rw [Bool.and_eq_true, Bool.or_eq_true, Option.isNone_iff_eq_none] at hc
    rcases hc.1 with hr | hil
    · obtain ⟨f, hf, -⟩ := hi.meets.src hr
      cases hc.2.symm.trans hf
    · obtain ⟨f, f', -, hf', -⟩ := hi.meets.ill hil
      cases hc.2.symm.trans hf'
  refine ⟨fun addr a flags hl i hi => ?_, fun addr a flags hl => ?_, fun i j hi hj ha => ?_,
    fun b k hk => ?_⟩
  · rw [ireFtableLookup_eq hl] at hi
    split at hi
    · cases hi
    · have hp := h.searchLengths_spec nif addr a flags ipAbits
      rw [hi] at hp
      exact ⟨hp.1, fun j hj => hp.2.2 j hj (h.candidate_mem hj).2⟩
  · rw [ireFtableLookup_eq hl]
    split
    next hc => exact iff_of_true rfl fun ⟨i, hi⟩ => hd addr a flags hc i hi
    · have hp := h.searchLengths_spec nif addr a flags ipAbits
      cases hs : searchLengths e nif s addr a flags ipAbits with
      | some i =>
        rw [hs] at hp
        exact iff_of_false nofun (not_not.mpr ⟨i, hp.1⟩)
      | none =>
        rw [hs] at hp
        refine iff_of_true rfl fun ⟨i, hi⟩ => ?_
        have := (h.candidate_mem hi).2
        have := hp i hi
        omega
  · obtain ⟨b, hib⟩ := h.live_iff.mp hi
    obtain ⟨b', hjb⟩ := h.live_iff.mp hj
    have hi' := h.mask b i hib
    rw [ha.2.1] at hi'
    have hj' := h.mask b' j hjb
    have hlen : (s.ire i).masklen = (s.ire j).masklen := le_antisymm (hj'.len_le hi') (hi'.len_le hj')
    have hb : b = b' := by
      rw [h.route b i hib, h.route b' j hjb, hlen, ha.1]
    exact h.unique b i hib j (hb ▸ hjb) ha
  · rw [hk.unique (h.lists.spells b)]
    exact h.grouped b

omit [DecidableEq F] [DecidableEq Q] in
theorem Init.inv (h : Init s) : Inv e s fun _ => [] := by
  obtain ⟨ht, hh, hb, hr, hc, hbc, hp⟩ := h
  refine ⟨⟨⟨fun b => ⟨nodup_nil, .head b, rfl, ?_⟩, nofun, fun i _ => ?_⟩, nofun, nofun, nofun, nofun, nofun,
    fun _ => grouped_nil, fun _ hne => absurd rfl hne⟩, nofun, fun b => ?_, fun b => ?_⟩
  · exact congrFun hh b
  · exact congrFun hb i
  · exact congrFun hr b
  · exact congrFun hc b

variable [DecidableEq I]

theorem Inv.step (h : Inv e s l) (hs : Step e nif s s') : ∃ l', Inv e s' l' := by
  obtain ⟨ev, hp, hex⟩ := hs
  cases ev with
  | add i ire alloc =>
    rw [exec] at hex
    split at hex
    · cases hex
    next hi =>
      cases hex
      exact h.add hi hp alloc
  | delete i =>
    cases hex
    exact h.delete 2 i

/-- The lookup of every table that calls can make is a longest match. -/
theorem lookup_is_longest (hr : Reachable Init (Step e nif) s) : Longest e nif s := by
  have hin : ∃ l, Inv e s l :=
    hr.invariant (P := fun s => ∃ l, Inv e s l) (fun _ h => ⟨_, h.inv⟩) fun _ _ ⟨_, h⟩ hs => h.step hs
  obtain ⟨l, h⟩ := hin
  exact h.longest

def noTable : State Bool Unit Unit where
  table := fun _ => false
  links := ⟨fun _ => none, fun _ => none, fun _ => none⟩
  irbRefcnt := fun _ => 0
  irbCondemned := fun _ => false
  ire := fun _ => ⟨.irePrefix, 0, 0, 0, 0, 0, none, none, 0⟩
  ireBucket := fun _ => none
  ireCondemned := fun _ => false
  heap := []
  ipIreDefaultCount := 0
  ipIreDefaultIndex := 0

def network (addr mask : Ipaddr) (masklen : ℕ) : Ire Unit Unit :=
  ⟨.irePrefix, addr, mask, masklen, 0x0a000001#32, 0, none, none, 0⟩

def oneIpif : Ipif Unit Unit := ⟨fun _ => 0, fun _ => ()⟩

def anyRoute : Args Unit Unit := ⟨0, 0, fun _ => true, none, none, 0⟩

def destinationOnly : Flags := ⟨false, false, false, false, false, false, false, false, false⟩

/-- With routes to 172.16.0.0/12 and 172.16.8.0/21 the address 172.16.9.9 is routed by the second. -/
theorem lookup_is_longest_nested : ∃ s : State Bool Unit Unit, Reachable Init (Step .big oneIpif) s ∧
    (ireFtableLookup .big oneIpif s 0xac100909#32 anyRoute destinationOnly).2 = some true ∧ Longest .big oneIpif s := by
  have h0 : Reachable Init (Step .big oneIpif) noTable := .start ⟨rfl, rfl, rfl, rfl, rfl, rfl, rfl⟩
  have hr := (h0.next ⟨.add false (network 0xac100000#32 0xfff00000#32 12) true, ⟨by decide, by decide⟩, rfl⟩).next
    ⟨.add true (network 0xac100800#32 0xfffff800#32 21) true, ⟨by decide, by decide⟩, rfl⟩
  exact ⟨_, hr, by decide, lookup_is_longest hr⟩

end Sol8.Inet.Ftable
