import Sol8.Inet.IpReass

/-! Where `ip_reassemble` puts a piece: behind the blocks that start before it and in front of those that it
does not reach, with what is already there trimmed or clipped. The count of holes changes with the gaps
as long as a last piece swallows only blocks with holes between them, and not the end of the datagram. -/

namespace Sol8.Inet.IpReass

open Sol8.Lib.Ranges List Mblk Nat

variable {α β : Type} {n c s : ℕ} {more : Bool} {mp mp1 p : Mblk α β} {l l' rest : List (Mblk α β)}
  {tail tail' : Option α} {h h' : ℤ} {t : Mblk α β}

/-- Where a piece that starts at `start` has something new: behind the blocks that go on from there. -/
def reach (start : ℕ) : List (Mblk α β) → ℕ
  | [] => start
  | mp :: rest => if start < mp.start then start else reach (max start mp.stop) rest

def behind (start : ℕ) : List (Mblk α β) → List (Mblk α β)
  | [] => []
  | mp :: rest => if start < mp.start then mp :: rest else behind (max start mp.stop) rest

theorem reach_of_lt (hs : ∀ p ∈ l, s < p.start) : reach s l = s := by
  cases l with
  | nil => rfl
  | cons p l => exact if_pos (hs p mem_cons_self)

theorem le_reach : s ≤ reach s l := by
  induction l generalizing s with
  | nil => exact le_refl _
  | cons p l ih =>
    unfold reach
    split
    · exact le_refl _
    · exact le_trans (le_max_left _ _) ih

@[simp] theorem Mblk.trim_self : mp.trim mp.start = mp := by simp [trim]

@[simp] theorem Mblk.cut_self : mp.cut mp.stop = mp := by simp [cut]

@[simp] theorem Mblk.trim_trim {s s' : ℕ} (h : mp.start ≤ s) (h' : s ≤ s') : (mp.trim s).trim s' = mp.trim s' := by
  simp only [trim, drop_drop]
  congr 2
  omega

/-- The list `l'` has the new piece as well as what `l` has, and `tail'` is its last block. -/
structure Added (mp : Mblk α β) (l l' : List (Mblk α β)) (tail' : Option α) : Prop where
  ordered : Ordered start stop l'
  covers : ∀ a, Covers start stop l' a ↔ (mp.start ≤ a ∧ a < mp.stop) ∨ Covers start stop l a
  elems : ∀ p ∈ l', p ∈ l ∨ ∃ e, reach mp.start l < e ∧ e ≤ mp.stop ∧ p = (mp.trim (reach mp.start l)).cut e
  tail : tail' = l'.getLast?.map addr
  addrs : (mp.addr :: l.map addr).Nodup → (l'.map addr).Nodup

theorem Added.ne_nil (h : Added mp l l' tail) (hmp : mp.start < mp.stop) : l' ≠ [] := by
  rintro rfl
  simpa using (h.covers mp.start).mpr (.inl ⟨le_refl _, hmp⟩)

/-- What the count of holes needs of the blocks behind a piece that ends at `stop`: those that a last
piece swallows are apart, and none of them ends the datagram. -/
structure Apart (n : ℕ) (more : Bool) (stop : ℕ) (l : List (Mblk α β)) : Prop where
  inner : more = true → stop < n
  last : more = false → stop = n ∧ l.Pairwise (fun p q => p.stop < q.start) ∧ ∀ p ∈ l, p.stop < n

theorem Apart.of_cons (ha : Apart n more s (p :: l)) : Apart n more s l := by
  refine ⟨ha.inner, fun hm => ?_⟩
  obtain ⟨hs, hp, hn⟩ := ha.last hm
  exact ⟨hs, (pairwise_cons.mp hp).2, fun q hq => hn q (mem_cons_of_mem _ hq)⟩

attribute [local simp] coversHole

/-- A block that is clipped out takes the hole behind it along if the piece covers that too. -/
theorem Apart.clip (ha : Apart n more s (p :: l)) (hord : Ordered start stop (p :: l))
    (hn : ∀ q ∈ p :: l, q.stop ≤ n) (hst : p.stop ≤ s) : (holes start stop n p.stop l : ℤ) =
      holes start stop n s l + if coversHole more s p l then 1 else 0 := by
  cases l with
  | nil =>
    cases more with
    | true =>
      have hs := ha.inner rfl
      simp [holes, hs, show p.stop < n by omega]
    | false =>
      obtain ⟨rfl, -, hlt⟩ := ha.last rfl
      simp [holes, hlt p mem_cons_self]
  | cons q l =>
    have hpq := (ordered_cons.mp hord).2.1 q mem_cons_self
    cases more with
    | true =>
      simp [holes]
      split <;> split <;> split <;> omega
    | false =>
      obtain ⟨rfl, hp, hlt⟩ := ha.last rfl
      have hq := (ordered_cons.mp (ordered_cons.mp hord).2.2).1
      have := (pairwise_cons.mp hp).1 q mem_cons_self
      have := hlt q (mem_cons_of_mem _ mem_cons_self)
      simp [holes]
      split <;> split <;> omega

/-- The piece up to `e` goes in front of blocks that have what follows in it. -/
theorem added_cut {e : ℕ} (he : mp.start < e) (he' : e ≤ mp.stop) (hord : Ordered start stop l)
    (hl : ∀ p ∈ l, e ≤ p.start) (hc : ∀ a, e ≤ a → a < mp.stop → Covers start stop l a)
    (htl : tail = (mp :: l).getLast?.map addr) : Added mp l (mp.cut e :: l) tail where
  ordered := ordered_cons.mpr ⟨he, hl, hord⟩
  covers a := by
    rw [covers_cons]
    change (mp.start ≤ a ∧ a < e) ∨ _ ↔ _
    by_cases ha : e ≤ a ∧ a < mp.stop
    · simp [hc a ha.1 ha.2]
    · exact or_congr_left (by omega)
  elems p hp := by
    rw [reach_of_lt fun p hp => lt_of_lt_of_le he (hl p hp)]
    rcases mem_cons.mp hp with rfl | hp
    · exact .inr ⟨e, he, he', by simp⟩
    · exact .inl hp
  tail := by
    rw [htl]
    cases l <;> simp [cut]
  addrs hnd := hnd

/-- The check for overlap adds the piece to the blocks behind it. -/
theorem overlap_added (hmp : mp.start < mp.stop) (hord : Ordered start stop l)
    (hl : ∀ p ∈ l, mp.start < p.start) (htl : tail = (mp :: l).getLast?.map addr) :
    Added mp l (overlap more mp l tail h).1 (overlap more mp l tail h).2.1 := by
  have hw {l : List (Mblk α β)} {tail : Option α} (hord : Ordered start stop l)
      (hl : ∀ p ∈ l, mp.stop ≤ p.start) (htl : tail = (mp :: l).getLast?.map addr) : Added mp l (mp :: l) tail := by
    have hpt := added_cut hmp (le_refl _) hord hl (fun a _ _ => by omega) htl
    rwa [cut_self] at hpt
  induction l generalizing tail h with
  | nil => exact hw hord (by simp) htl
  | cons mp1 rest ih =>
    obtain ⟨h1, hrs, ho'⟩ := ordered_cons.mp hord
    have hlt := hl mp1 mem_cons_self
    have hf {e : ℕ} (he : e ≤ mp1.start) : ∀ p ∈ mp1 :: rest, e ≤ p.start := by
      intro p hp
      rcases mem_cons.mp hp with rfl | hp
      · exact he
      · have := hrs p hp
        omega
    unfold overlap
    split
    case isTrue ho =>
      split
      case isTrue hin =>
        refine added_cut hlt (by omega) hord (hf (le_refl _)) (fun a ha ha' => ?_) htl
        exact covers_cons.mpr (.inl ⟨ha, by omega⟩)
      case isFalse hc =>
        have ht' : (if rest.isEmpty then some mp.addr else tail) = (mp :: rest).getLast?.map addr := by
          cases rest <;> simp [htl]
        have hd := ih (h := if coversHole more mp.stop mp1 rest then h - 1 else h) ho'
          (fun p hp => hl p (mem_cons_of_mem _ hp)) ht'
        have hr : reach mp.start (mp1 :: rest) = reach mp.start rest := by
          rw [reach_of_lt hl, reach_of_lt fun p hp => hl p (mem_cons_of_mem _ hp)]
        refine ⟨hd.ordered, fun a => ?_, fun p hp => ?_, hd.tail, fun hnd => hd.addrs ?_⟩
        · rw [hd.covers]
          by_cases ha : mp1.start ≤ a ∧ a < mp1.stop
          · simp [show mp.start ≤ a ∧ a < mp.stop by omega]
          · simp [ha]
        · rw [hr]
          exact (hd.elems p hp).imp_left (mem_cons_of_mem _)
        · exact hnd.sublist ((sublist_cons_self _ _).cons_cons _)
    case isFalse ho => exact hw hord (hf (by omega)) htl

/-- It gives up a hole for each one that the piece fills, from a count in which the piece has the hole in
front of it but not yet those behind it. -/
theorem overlap_count (hord : Ordered start stop l) (hn : ∀ p ∈ l, p.stop ≤ n) (ha : Apart n more mp.stop l) :
    (overlap more mp l tail h).2.2 + (if c < mp.start then 1 else 0 : ℕ) + holes start stop n mp.stop l =
      h + holes start stop n c (overlap more mp l tail h).1 := by
  induction l generalizing tail h with
  | nil =>
    simp only [overlap, holes]
    omega
  | cons mp1 rest ih =>
    unfold overlap
    split
    case isTrue ho =>
      split
      case isTrue hin =>
        have hct : holes start stop n c (mp.cut mp1.start :: mp1 :: rest) =
            (if c < mp.start then 1 else 0) + ((if mp1.start < mp1.start then 1 else 0) +
              holes start stop n mp1.stop rest) := rfl
        dsimp only
        rw [hct, holes, if_neg (lt_irrefl mp1.start), if_neg (show ¬ mp.stop < mp1.start by omega)]
        omega
      case isFalse hv =>
        have hl := ha.clip hord hn (by omega)
        have hc (tail : Option α) (h : ℤ) := @ih tail h (ordered_cons.mp hord).2.2
          (fun p hp => hn p (mem_cons_of_mem _ hp)) ha.of_cons
        rw [holes, if_neg (show ¬ mp.stop < mp1.start by omega), Nat.zero_add, hl, ← Int.add_assoc, hc]
        split <;> omega
    case isFalse ho =>
      simp only [holes]
      omega

/-- The piece is in the list, and the count has changed with the gaps from `c` on. -/
structure Placed (n c : ℕ) (mp : Mblk α β) (l : List (Mblk α β)) (h : ℤ) (r : List (Mblk α β) × Option α × ℤ) : Prop
    extends Added mp l r.1 r.2.1 where
  count : r.2.2 + holes start stop n c l = h + holes start stop n c r.1

section

variable (hmp : mp.start < mp.stop) (hord : Ordered start stop (mp1 :: rest)) (hlt : mp.start < mp1.start)
include hmp hord hlt

/-- A piece in front of a block, from a count that has the hole in front of the piece, and not the one that
was in front of the block if the piece fills it. -/
theorem overlap_placed (hc : c ≤ mp.start) (hn : ∀ p ∈ mp1 :: rest, p.stop ≤ n)
    (ha : Apart n more mp.stop (mp1 :: rest)) (htl : tail = (mp1 :: rest).getLast?.map addr)
    (hh : h' = h + (if c < mp.start then 1 else 0 : ℕ) - (if mp1.start ≤ mp.stop then 1 else 0 : ℕ)) :
    Placed n c mp (mp1 :: rest) h (overlap more mp (mp1 :: rest) tail h') := by
  obtain ⟨h1, hr, -⟩ := ordered_cons.mp hord
  have hl : ∀ p ∈ mp1 :: rest, mp.start < p.start := by
    intro p hp
    rcases mem_cons.mp hp with rfl | hp
    · exact hlt
    · have := hr p hp
      omega
  refine ⟨overlap_added hmp hord hl (by simpa using htl), ?_⟩
  have hcn : (overlap more mp (mp1 :: rest) tail h').2.2 + (if c < mp.start then 1 else 0 : ℕ) +
      holes start stop n mp.stop (mp1 :: rest) =
        h' + holes start stop n c (overlap more mp (mp1 :: rest) tail h').1 := overlap_count hord hn ha
  rw [holes] at hcn
  rw [holes, if_pos (by omega)]
  split_ifs at hcn hh <;> omega

theorem front_placed (hn : ∀ p ∈ mp1 :: rest, p.stop ≤ n) (ha : Apart n more mp.stop (mp1 :: rest))
    (hl : tail = (mp1 :: rest).getLast?.map addr) :
    Placed n 0 mp (mp1 :: rest) h (front more mp mp1.start (mp1 :: rest) tail h) := by
  refine overlap_placed hmp hord hlt (zero_le _) hn ha hl ?_
  split_ifs <;> omega

end

theorem reach_trim (hle : mp1.start ≤ mp.start) :
    reach mp.start (mp1 :: rest) = reach (max mp.start mp1.stop) rest := if_neg (by omega)

theorem behind_trim (hle : mp1.start ≤ mp.start) :
    behind mp.start (mp1 :: rest) = behind (max mp.start mp1.stop) rest := if_neg (by omega)

theorem Placed.cons {trimmed : Mblk α β} {r : List (Mblk α β) × Option α × ℤ}
    (hr : Placed n mp1.stop trimmed rest h r) (hord : Ordered start stop (mp1 :: rest))
    (hle : mp1.start ≤ mp.start) (ht : trimmed = mp.trim (max mp.start mp1.stop))
    (hn : trimmed.start < trimmed.stop) : Placed n c mp (mp1 :: rest) h (mp1 :: r.1, r.2) := by
  obtain ⟨h1, hrs, ho'⟩ := ordered_cons.mp hord
  have hrc : reach mp.start (mp1 :: rest) = reach (max mp.start mp1.stop) rest := reach_trim hle
  subst ht
  refine ⟨⟨ordered_cons.mpr ⟨h1, fun p hp => ?_, hr.ordered⟩, fun a => ?_, fun p hp => ?_, ?_, fun hnd => ?_⟩, ?_⟩
  · have hp' : Covers start stop r.1 p.start := ⟨p, hp, le_refl _, hr.ordered.1 p hp⟩
    rcases (hr.covers _).mp hp' with hc | ⟨q, hq, hle', -⟩
    · exact le_trans (le_max_right _ _) hc.1
    · exact le_trans (hrs q hq) hle'
  · rw [covers_cons, hr.covers, covers_cons]
    change _ ∨ (max mp.start mp1.stop ≤ a ∧ a < mp.stop) ∨ _ ↔ _
    by_cases ha : mp1.start ≤ a ∧ a < mp1.stop
    · simp [ha]
    · simp only [ha, false_or]
      exact or_congr_left (by omega)
  · rw [hrc]
    rcases mem_cons.mp hp with rfl | hp
    · exact .inl mem_cons_self
    · rcases hr.elems p hp with hp | ⟨e, he, he', rfl⟩
      · exact .inl (mem_cons_of_mem _ hp)
      · refine .inr ⟨e, he, he', ?_⟩
        exact congrArg (cut · e) (trim_trim (le_max_left _ _) le_reach)
  · obtain ⟨q, l, hl⟩ := exists_cons_of_ne_nil (hr.ne_nil hn)
    rw [hr.tail, hl]
    simp
  · simp only [map_cons, nodup_cons, mem_cons, not_or] at hnd
    obtain ⟨⟨hmp, hmem⟩, hm1, hnd⟩ := hnd
    refine nodup_cons.mpr ⟨fun hm => ?_, hr.addrs (nodup_cons.mpr ⟨hmem, hnd⟩)⟩
    obtain ⟨p, hp, he⟩ := mem_map.mp hm
    rcases hr.elems p hp with hp | ⟨e, -, -, rfl⟩
    · exact hm1 (he ▸ mem_map_of_mem hp)
    · exact hmp he
  · have := hr.count
    simp only [holes]
    omega

theorem placed_nil (hmp : mp.start < mp.stop)
    (hc : h' + (if c < n then 1 else 0 : ℕ) = h + (if c < mp.start then 1 else 0 : ℕ) + (if mp.stop < n then 1 else 0 : ℕ)) :
    Placed n c mp [] h ([mp], some mp.addr, h') := by
  have hp : Added mp [] [mp.cut mp.stop] (some mp.addr) :=
    added_cut hmp (le_refl _) ordered_nil (by simp) (fun a _ _ => by omega) rfl
  rw [cut_self] at hp
  refine ⟨hp, ?_⟩
  simp only [holes]
  omega

/-- A piece within a block brings nothing new. -/
theorem placed_old (hord : Ordered start stop (mp1 :: rest)) (hle : mp1.start ≤ mp.start)
    (hs : mp.stop ≤ mp1.stop) (hl : tail = (mp1 :: rest).getLast?.map addr) :
    Placed n c mp (mp1 :: rest) h (mp1 :: rest, tail, h) := by
  refine ⟨⟨hord, fun a => ?_, fun p hp => .inl hp, hl, fun hnd => (nodup_cons.mp hnd).2⟩, rfl⟩
  by_cases ha : mp1.start ≤ a ∧ a < mp1.stop
  · simp [ha]
  · simp [ha]
    omega

theorem trimmed_eq : (if mp.start < mp1.stop then mp.trim mp1.stop else mp) = mp.trim (max mp.start mp1.stop) := by
  split
  case isTrue h => rw [max_eq_right (le_of_lt h)]
  case isFalse h => rw [max_eq_left (by omega), trim_self]

theorem overlap_of_lt (h1 : mp.stop < mp1.start) : overlap more mp (mp1 :: rest) tail h = (mp :: mp1 :: rest, tail, h) :=
  if_neg (by omega)

/-- The walk puts the piece behind the blocks that start before it. -/
theorem middle_placed (hmp : mp.start < mp.stop) (hord : Ordered start stop (mp1 :: rest))
    (hle : mp1.start ≤ mp.start) (hin : ∃ p ∈ mp1 :: rest, mp.start < p.stop) (hn : ∀ p ∈ mp1 :: rest, p.stop ≤ n)
    (ha : Apart n more mp.stop (behind mp.start (mp1 :: rest))) (htl : tail = (mp1 :: rest).getLast?.map addr) :
    ∃ r, middle more mp tail h (mp1 :: rest) = some r ∧ ∀ c, Placed n c mp (mp1 :: rest) h r := by
  induction rest generalizing mp mp1 with
  | nil =>
    have hlt : mp.start < mp1.stop := by simpa using hin
    unfold middle
    by_cases hw : mp.stop ≤ mp1.stop
    · rw [if_pos ⟨hlt, hw⟩]
      exact ⟨_, rfl, fun c => placed_old hord hle hw htl⟩
    · rw [if_neg (by omega)]
      simp only [if_pos hlt]
      refine ⟨_, rfl, fun c => ?_⟩
      have hpl : Placed n mp1.stop (mp.trim mp1.stop) [] h
          ([mp.trim mp1.stop], some mp.addr, if more then h else h - 1) := by
        refine placed_nil (show mp1.stop < mp.stop by omega) ?_
        change _ + _ = h + (if mp1.stop < mp1.stop then 1 else 0 : ℕ) + (if mp.stop < n then 1 else 0 : ℕ)
        cases more with
        | true =>
          have hs := ha.inner rfl
          simp [hs, show mp1.stop < n by omega]
        | false =>
          obtain ⟨hs, -, -⟩ := ha.last rfl
          simp [show mp1.stop < n by omega, hs]
      exact hpl.cons hord hle (by rw [max_eq_right (le_of_lt hlt)]) (show mp1.stop < mp.stop by omega)
  | cons next rest ih =>
    obtain ⟨h1, hrs, ho'⟩ := ordered_cons.mp hord
    unfold middle
    by_cases hw : mp.start < mp1.stop ∧ mp.stop ≤ mp1.stop
    · rw [if_pos hw]
      exact ⟨_, rfl, fun c => placed_old hord hle hw.2 htl⟩
    rw [if_neg hw, trimmed_eq]
    dsimp only
    generalize ht : mp.trim (max mp.start mp1.stop) = trimmed
    have hts : trimmed.start = max mp.start mp1.stop := by rw [← ht]; rfl
    have hte : trimmed.stop = mp.stop := by rw [← ht]; rfl
    have hm : trimmed.start < trimmed.stop := by omega
    rw [behind_trim hle, ← hts, ← hte] at ha
    have ht' : tail = (next :: rest).getLast?.map addr := by simpa using htl
    split
    case isTrue hnx =>
      have hi' : ∃ p ∈ next :: rest, trimmed.start < p.stop := by
        obtain ⟨p, hp, hlt⟩ := hin
        rcases mem_cons.mp hp with rfl | hp
        · have := hrs next mem_cons_self
          have := ho'.1 next mem_cons_self
          exact ⟨next, mem_cons_self, by omega⟩
        · have := hrs p hp
          have := ho'.1 p hp
          exact ⟨p, hp, by omega⟩
      obtain ⟨r, hr, hpl⟩ := ih hm ho' hnx hi' (fun p hp => hn p (mem_cons_of_mem _ hp)) ha ht'
      rw [hr]
      exact ⟨_, rfl, fun c => (hpl _).cons hord hle ht.symm hm⟩
    case isFalse hnx =>
      have hlt : trimmed.start < next.start := by omega
      have hl : behind trimmed.start (next :: rest) = next :: rest := if_pos hlt
      rw [hl] at ha
      have hpl {h' : ℤ} (hh : h' = h + (if mp1.stop < trimmed.start then 1 else 0 : ℕ) -
          (if next.start ≤ trimmed.stop then 1 else 0 : ℕ)) :
          Placed n mp1.stop trimmed (next :: rest) h (overlap more trimmed (next :: rest) tail h') :=
        overlap_placed hm ho' hlt (by omega) (fun p hp => hn p (mem_cons_of_mem _ hp)) ha ht' hh
      have hc (h' : ℤ) (hh : h' = h + (if mp1.stop < trimmed.start then 1 else 0 : ℕ) -
          (if next.start ≤ trimmed.stop then 1 else 0 : ℕ)) (c : ℕ) :
          Placed n c mp (mp1 :: next :: rest) h (mp1 :: (overlap more trimmed (next :: rest) tail h').1,
            (overlap more trimmed (next :: rest) tail h').2) := (hpl hh).cons hord hle ht.symm hm
      split
      case isTrue hf => exact ⟨_, rfl, hc _ (by split_ifs <;> omega)⟩
      case isFalse hf =>
        refine ⟨_, rfl, fun c => ?_⟩
        have := hc (if mp1.stop < trimmed.start then h + 1 else h) (by split_ifs <;> omega) c
        rwa [overlap_of_lt (by omega)] at this

theorem append_placed (hmp : mp.start < mp.stop) (hord : Ordered start stop l)
    (ht : l.getLast? = some t) (hle : t.stop ≤ mp.start) (hc : h' + (if t.stop < n then 1 else 0 : ℕ) =
      h + (if t.stop < mp.start then 1 else 0 : ℕ) + (if mp.stop < n then 1 else 0 : ℕ)) :
    Placed n c mp l h (l ++ [mp], some mp.addr, h') := by
  induction l generalizing c with
  | nil => simp at ht
  | cons mp1 rest ih =>
    obtain ⟨h1, hrs, ho'⟩ := ordered_cons.mp hord
    have hs (hle : mp1.stop ≤ mp.start) (hr : Placed n mp1.stop mp rest h (rest ++ [mp], some mp.addr, h')) :
        Placed n c mp (mp1 :: rest) h (mp1 :: (rest ++ [mp]), some mp.addr, h') :=
      hr.cons hord (by omega) (by rw [max_eq_left hle, trim_self]) hmp
    cases rest with
    | nil =>
      obtain rfl : mp1 = t := by simpa using ht
      exact hs hle (placed_nil hmp hc)
    | cons next rest =>
      have ht' : (next :: rest).getLast? = some t := by simpa using ht
      have := hrs t (mem_of_getLast? ht')
      have := ho'.1 t (mem_of_getLast? ht')
      exact hs (by omega) (ih ho' ht')

section

variable (hnd : (l.map addr).Nodup) (ht : l.getLast? = some t)
include hnd ht

theorem eq_append_tail : ∃ l', l = l' ++ [t] ∧ ∀ p ∈ l', p.addr ≠ t.addr := by
  obtain ⟨l', rfl⟩ := getLast?_eq_some_iff.mp ht
  rw [map_append] at hnd
  exact ⟨l', rfl, fun p hp => (nodup_append.mp hnd).2.2 _ (mem_map_of_mem hp) _ (by simp)⟩

theorem find_tail [DecidableEq α] : l.find? (fun p => p.addr = t.addr) = some t := by
  obtain ⟨l', rfl, hne⟩ := eq_append_tail hnd ht
  rw [find?_append, find?_eq_none.mpr (by simpa using hne)]
  simp

theorem linkAfter_tail [DecidableEq α] : linkAfter t.addr mp l = l ++ [mp] := by
  obtain ⟨l', rfl, hne⟩ := eq_append_tail hnd ht
  clear hnd ht
  induction l' with
  | nil => simp [linkAfter]
  | cons p l' ih =>
    rw [cons_append, linkAfter, if_neg (hne p mem_cons_self), ih fun q hq => hne q (mem_cons_of_mem p hq)]
    rfl

end

end Sol8.Inet.IpReass
