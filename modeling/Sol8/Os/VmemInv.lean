import Sol8.Lib.HashChain
import Sol8.Os.Vmem

/-! The representation of an arena (`os/vmem.c`).

An operation takes segments in hand: off their freelist or hash chain, but still on the arena list,
where they tile like segments in use. With nothing in hand the lists, the bitmap, the hash table and
the count agree. -/

namespace Sol8.Os.Vmem

open Sol8.Lib Sol8.Lib.Tiling Function List Arena

variable {prm : Params} {s : Arena} {hand : List ℕ} {x : ℕ} {l₁ l₂ : List ℕ} {n : ℕ} {k : Kind} {l : List ℕ}

/-! ### What an arena keeps -/

namespace Arena

def entry (s : Arena) (hand : List ℕ) (x : ℕ) : Entry :=
  if x ∈ hand then { (s.seg x).toEntry with kind := .used } else (s.seg x).toEntry

/-- The size under which a segment is on a freelist. -/
def freeSize (s : Arena) (hand : List ℕ) (x : ℕ) : Option ℕ :=
  if x ∈ s.arena ∧ x ∉ hand ∧ (s.seg x).kind = .free then some (s.seg x).size else none

/-- The address under which a segment is in the hash table. -/
def usedStart (s : Arena) (hand : List ℕ) (x : ℕ) : Option ℕ :=
  if x ∈ s.arena ∧ x ∉ hand ∧ (s.seg x).kind = .used then some (s.seg x).start else none

def usedSize (s : Arena) (hand : List ℕ) (x : ℕ) : ℕ :=
  if x ∉ hand ∧ (s.seg x).kind = .used then (s.seg x).size else 0

end Arena

def anchor : Place := ⟨0, 0, false⟩

structure Inv (prm : Params) (s : Arena) (hand : List ℕ) : Prop where
  nodup : s.arena.Nodup
  segfree_nodup : s.segfree.Nodup
  segfree : ∀ x ∈ s.segfree, x ∉ s.arena
  inHand : ∀ x ∈ hand, x ∈ s.arena ∧ (s.seg x).kind ≠ .marker
  walk : ∃ c, Walk prm.quantum anchor (s.arena.map (s.entry hand)) c ∧ c.pos = c.stop
  stop_le : ∀ x ∈ s.arena, (s.seg x).stop ≤ 2 ^ prm.w
  freelist : Chained s.freelist (s.freeSize hand) fun n => highbit n - 1
  freemap : ∀ n, s.freemap.testBit n = true ↔ s.freelist n ≠ []
  hash : Chained s.hashTable (s.usedStart hand) (hashIndex prm s.hashShift s.hashMask)
  inuse : s.memInuse = (s.arena.map (s.usedSize hand)).sum

theorem Params.quantum_pos (prm : Params) : 0 < prm.quantum := Nat.two_pow_pos _

theorem anchor_ok (q : ℕ) : anchor.Ok q := ⟨⟨0, rfl⟩, ⟨0, rfl⟩, le_rfl⟩

theorem Inv.mem (h : Inv prm s hand) (hx : x ∈ s.arena) :
    0 < (s.seg x).start ∧ (s.seg x).start < (s.seg x).stop ∧ prm.quantum ∣ (s.seg x).start ∧
      (x ∉ hand → (s.seg x).kind ≠ .used → prm.quantum ∣ (s.seg x).stop) := by
  obtain ⟨c, hw, -⟩ := h.walk
  have := hw.mem prm.quantum_pos (anchor_ok _) (fun _ => rfl) _ (mem_map_of_mem hx)
  unfold entry at this
  split_ifs at this with hhn
  · exact ⟨this.1, this.2.1, this.2.2.1, fun hn => absurd hhn hn⟩
  · exact ⟨this.1, this.2.1, this.2.2.1, fun _ => this.2.2.2⟩

theorem Inv.highbit_lt (h : Inv prm s hand) (hx : x ∈ s.arena) : highbit (s.seg x).size - 1 < prm.w := by
  obtain ⟨hpos, hlt, -⟩ := h.mem hx
  have hle := h.stop_le x hx
  have hs : (s.seg x).size < 2 ^ prm.w := by
    unfold Entry.size
    omega
  have hne : (s.seg x).size ≠ 0 := by
    unfold Entry.size
    omega
  rw [highbit, if_neg hne]
  exact (Nat.log2_lt hne).mpr hs

theorem Inv.notMem (h : Inv prm s hand) (he : s.arena = l₁ ++ x :: l₂) : (∀ y ∈ l₁, y ≠ x) ∧ ∀ y ∈ l₂, y ≠ x := by
  have hnd := h.nodup
  rw [he, nodup_middle, nodup_cons, mem_append, not_or] at hnd
  exact ⟨fun y hy hyx => hnd.1.1 (hyx ▸ hy), fun y hy hyx => hnd.1.2 (hyx ▸ hy)⟩

/-! ### What an edit leaves alone -/

/-- The two arenas agree but for the segments `d`. -/
def Frame (s : Arena) (hand : List ℕ) (s' : Arena) (hand' d : List ℕ) : Prop :=
  ∀ y ∉ d, (y ∈ s'.arena ↔ y ∈ s.arena) ∧ (y ∈ hand' ↔ y ∈ hand) ∧ s'.seg y = s.seg y

/-- On no freelist and no hash chain. -/
def Idle (s : Arena) (hand : List ℕ) (y : ℕ) : Prop :=
  y ∈ hand ∨ y ∉ s.arena ∨ (s.seg y).kind = .marker

variable {s' : Arena} {hand' d : List ℕ}

theorem Idle.not_kind (h : Idle s hand x) {k : Kind} (hk : .marker ≠ k) :
    ¬ (x ∈ s.arena ∧ x ∉ hand ∧ (s.seg x).kind = k) := by
  rintro ⟨ha, hn, he⟩
  rcases h with h | h | h
  · exact hn h
  · exact h ha
  · exact hk (h.symm.trans he)

theorem Idle.freeSize (h : Idle s hand x) : s.freeSize hand x = none := if_neg (h.not_kind (k := .free) nofun)

theorem Idle.usedStart (h : Idle s hand x) : s.usedStart hand x = none := if_neg (h.not_kind (k := .used) nofun)

namespace Frame

section

variable (h : Frame s hand s' hand' d)
include h

theorem entry (hl : ∀ y ∈ l, y ∉ d) : l.map (s'.entry hand') = l.map (s.entry hand) := by
  apply map_congr_left
  intro y hy
  obtain ⟨-, hn, hs⟩ := h y (hl y hy)
  simp only [Arena.entry, hn, hs]

theorem usedSize (hl : ∀ y ∈ l, y ∉ d) : l.map (s'.usedSize hand') = l.map (s.usedSize hand) := by
  apply map_congr_left
  intro y hy
  obtain ⟨-, hn, hs⟩ := h y (hl y hy)
  simp only [Arena.usedSize, hn, hs]

theorem stop_le (hi : Inv prm s hand) (hd : ∀ y ∈ d, y ∈ s'.arena → (s'.seg y).stop ≤ 2 ^ prm.w) :
    ∀ y ∈ s'.arena, (s'.seg y).stop ≤ 2 ^ prm.w := by
  intro y hy
  by_cases hyd : y ∈ d
  · exact hd y hyd hy
  · obtain ⟨ha, -, hs⟩ := h y hyd
    rw [hs]
    exact hi.stop_le y (ha.mp hy)

theorem inHand (hi : Inv prm s hand) (hd : ∀ y ∈ d, y ∈ hand' → y ∈ s'.arena ∧ (s'.seg y).kind ≠ .marker) :
    ∀ y ∈ hand', y ∈ s'.arena ∧ (s'.seg y).kind ≠ .marker := by
  intro y hy
  by_cases hyd : y ∈ d
  · exact hd y hyd hy
  · obtain ⟨ha, hn, hs⟩ := h y hyd
    rw [hs, ha]
    exact hi.inHand y (hn.mp hy)

end

section

variable (h : Frame s hand s' hand' [x])
include h

theorem sum_usedSize (hi : Inv prm s hand) (he : s.arena = l₁ ++ x :: l₂) :
    (s.arena.map (s'.usedSize hand')).sum + s.usedSize hand x = s.memInuse + s'.usedSize hand' x := by
  obtain ⟨h1, h2⟩ := hi.notMem he
  have e1 := h.usedSize (l := l₁) (by simpa using h1)
  have e2 := h.usedSize (l := l₂) (by simpa using h2)
  simp only [hi.inuse, he, map_append, map_cons, sum_append, sum_cons, e1, e2]
  omega

theorem freeSize_update : s'.freeSize hand' = update (s.freeSize hand) x (s'.freeSize hand' x) := by
  refine eq_update_iff.mpr ⟨rfl, fun y hy => ?_⟩
  obtain ⟨ha, hn, hs⟩ := h y (by simpa using hy)
  simp only [freeSize, ha, hn, hs]

theorem usedStart_update : s'.usedStart hand' = update (s.usedStart hand) x (s'.usedStart hand' x) := by
  refine eq_update_iff.mpr ⟨rfl, fun y hy => ?_⟩
  obtain ⟨ha, hn, hs⟩ := h y (by simpa using hy)
  simp only [usedStart, ha, hn, hs]

end

variable (hidle : ∀ y ∈ d, Idle s hand y ∧ Idle s' hand' y)
include hidle

theorem freeSize (h : Frame s hand s' hand' d) : s'.freeSize hand' = s.freeSize hand := by
  funext y
  by_cases hy : y ∈ d
  · rw [(hidle y hy).1.freeSize, (hidle y hy).2.freeSize]
  · obtain ⟨ha, hn, hs⟩ := h y hy
    simp only [Arena.freeSize, ha, hn, hs]

theorem usedStart (h : Frame s hand s' hand' d) : s'.usedStart hand' = s.usedStart hand := by
  funext y
  by_cases hy : y ∈ d
  · rw [(hidle y hy).1.usedStart, (hidle y hy).2.usedStart]
  · obtain ⟨ha, hn, hs⟩ := h y hy
    simp only [Arena.usedStart, ha, hn, hs]

end Frame

/-! ### The freelists -/

theorem Inv.freeSize_eq (hx : x ∈ s.arena) (hh : x ∉ hand) (hk : (s.seg x).kind = .free) :
    s.freeSize hand x = some (s.seg x).size := if_pos ⟨hx, hh, hk⟩

theorem Inv.of_mem_freelist (h : Inv prm s hand) (hx : x ∈ s.freelist n) :
    x ∈ s.arena ∧ x ∉ hand ∧ (s.seg x).kind = .free := by
  obtain ⟨y, hy, -⟩ := (h.freelist.mem_iff n x).mp hx
  unfold freeSize at hy
  split_ifs at hy with hc
  exact hc

theorem Inv.flistOf_eq (h : Inv prm s hand) (hx : x ∈ s.arena) (hh : x ∉ hand)
    (hk : (s.seg x).kind = .free) : s.flistOf prm x = highbit (s.seg x).size - 1 := by
  have hs := Inv.freeSize_eq hx hh hk
  unfold flistOf
  cases hf : (List.range prm.w).find? fun n => x ∈ s.freelist n with
  | none =>
    have := List.find?_eq_none.mp hf _ (mem_range.mpr (h.highbit_lt hx))
    simp [h.freelist.mem hs] at this
  | some n =>
    have hmem := List.find?_some hf
    obtain ⟨y, hy, hn⟩ := (h.freelist.mem_iff n x).mp (by simpa using hmem)
    rw [hs, Option.some.injEq] at hy
    rw [Option.getD_some, ← hn, hy]

/-- Off a freelist, a bit goes out of the bitmap with the last segment. -/
theorem Inv.freemap_delete (h : Inv prm s hand) (hx : x ∈ s.freelist n) (hn : s.flistOf prm x = n) (m : ℕ) :
    (s.vmemFreelistDelete prm x).freemap.testBit m = true ↔ (s.vmemFreelistDelete prm x).freelist m ≠ [] := by
  have hne : ∀ y ∈ s.freelist n, (s.seg y).start ≠ 0 := fun y hy =>
    (h.mem (h.of_mem_freelist hy).1).1.ne'
  have hr := Cursor.erase_eq_before_append_after x (s.freelist n)
  have hsub : ∀ y ∈ (s.freelist n).erase x, (s.seg y).start ≠ 0 := fun y hy =>
    hne y (mem_of_mem_erase hy)
  rw [hr] at hsub
  simp only [vmemFreelistDelete, hn, hr]
  generalize Cursor.before x (s.freelist n) = bs at hsub
  generalize Cursor.after x (s.freelist n) = as at hsub
  have ht : s.freemap.testBit n = true := (h.freemap n).mpr (ne_nil_of_mem hx)
  by_cases hem : bs = [] ∧ as = []
  · obtain ⟨rfl, rfl⟩ := hem
    by_cases hm : m = n
    · simp [hm, ht]
    · simp [update_of_ne hm, Ne.symm hm, h.freemap]
  · rw [if_neg]
    · by_cases hm : m = n
      · simpa [hm, ht, append_eq_nil_iff] using hem
      · simp [update_of_ne hm, h.freemap]
    · rintro ⟨ha, hb⟩
      apply hem
      constructor
      · cases hl : bs.getLast? with
        | none => exact List.getLast?_eq_none_iff.mp hl
        | some y =>
          rw [hl] at hb
          exact absurd hb (hsub y (mem_append_left _ (mem_of_getLast? hl)))
      · cases hl : as.head? with
        | none => exact List.head?_eq_none_iff.mp hl
        | some y =>
          rw [hl] at ha
          exact absurd ha (hsub y (mem_append_right _ (mem_of_head? hl)))

/-- A stretch of the arena list that may become free. -/
def Apart (s : Arena) (hand l₁ l₂ : List ℕ) : Prop :=
  ¬ LastFree (l₁.map (s.entry hand)) ∧ ¬ HeadFree (l₂.map (s.entry hand))

attribute [local simp] entry

theorem Inv.freelistDelete (h : Inv prm s hand) (he : s.arena = l₁ ++ x :: l₂) (hh : x ∉ hand)
    (hk : (s.seg x).kind = .free) : Inv prm (s.vmemFreelistDelete prm x) (x :: hand) ∧
      Apart (s.vmemFreelistDelete prm x) (x :: hand) l₁ l₂ := by
  have hx : x ∈ s.arena := by simp [he]
  have hn := h.flistOf_eq hx hh hk
  have hs := Inv.freeSize_eq hx hh hk
  set s' := s.vmemFreelistDelete prm x with hs'
  have hidle : Idle s' (x :: hand) x := .inl mem_cons_self
  have hf : Frame s hand s' (x :: hand) [x] := fun y hy =>
    ⟨Iff.rfl, by simp [mem_singleton.not.mp hy], rfl⟩
  obtain ⟨h1, h2⟩ := h.notMem he
  have e1 := hf.entry (l := l₁) (by simpa using h1)
  have e2 := hf.entry (l := l₂) (by simpa using h2)
  have hen : s'.entry (x :: hand) x = { s.entry hand x with kind := .used } := by
    simp [hh, hs', vmemFreelistDelete]
  obtain ⟨c, hw, hc⟩ := h.walk
  rw [he, map_append] at hw
  obtain ⟨⟨c', hw', hm⟩, hl, hd⟩ := hw.use rfl (by simp [hh, hk])
  rw [← hen, ← e1, ← e2, ← map_cons, ← map_append, ← he] at hw'
  refine ⟨{ h with inHand := ?_, walk := ?_, freelist := ?_, freemap := ?_, hash := ?_, inuse := ?_ }, ?_⟩
  · exact hf.inHand h (by simp [hs', vmemFreelistDelete, hx, hk])
  · exact ⟨c', hw', hm.1.trans (hc.trans hm.2.symm)⟩
  · rw [hf.freeSize_update, hidle.freeSize]
    simpa only [hs', vmemFreelistDelete, hn] using h.freelist.remove hs
  · exact h.freemap_delete (h.freelist.mem hs) hn
  · rw [hf.usedStart_update, update_eq_self_iff.mpr]
    · exact h.hash
    · simp [usedStart, hk]
  · have hsum := hf.sum_usedSize h he
    change s.memInuse = (s.arena.map (s'.usedSize (x :: hand))).sum
    simpa [usedSize, hk] using hsum.symm
  · unfold Apart
    rw [e1, e2]
    exact ⟨hl, hd⟩

section

variable (h : Inv prm s (x :: hand)) (he : s.arena = l₁ ++ x :: l₂) (hh : x ∉ hand)
include h he hh

theorem Inv.freelistInsert (ha : Apart s (x :: hand) l₁ l₂) (hq : prm.quantum ∣ (s.seg x).stop) :
    Inv prm (s.vmemFreelistInsert x) hand := by
  have hx : x ∈ s.arena := by simp [he]
  have hidle : Idle s (x :: hand) x := .inl mem_cons_self
  set s' := s.vmemFreelistInsert x with hs'
  have hg : s'.seg x = { s.seg x with kind := .free } := update_self ..
  have hf : Frame s (x :: hand) s' hand [x] := fun y hy =>
    ⟨Iff.rfl, by simp [mem_singleton.not.mp hy], update_of_ne (mem_singleton.not.mp hy) ..⟩
  obtain ⟨h1, h2⟩ := h.notMem he
  have e1 := hf.entry (l := l₁) (by simpa using h1)
  have e2 := hf.entry (l := l₂) (by simpa using h2)
  have hen : s'.entry hand x = { s.entry (x :: hand) x with kind := .free } := by
    simp [hh, hg]
  obtain ⟨c, hw, hc⟩ := h.walk
  rw [he, map_append] at hw
  obtain ⟨c', hw', hs⟩ := hw.unuse rfl (by simp) (by simpa using hq) ha.1 ha.2
  rw [← hen, ← e1, ← e2, ← map_cons, ← map_append, ← he] at hw'
  refine { h with inHand := ?_, walk := ?_, stop_le := ?_, freelist := ?_, freemap := ?_, hash := ?_, inuse := ?_ }
  · exact hf.inHand h (by simp [hh])
  · exact ⟨c', hw', hs.1.trans (hc.trans hs.2.symm)⟩
  · exact hf.stop_le h (by simpa [hg] using fun _ => h.stop_le x hx)
  · rw [hf.freeSize_update, Inv.freeSize_eq (s := s') hx hh (by rw [hg]), hg]
    exact h.freelist.push hidle.freeSize _
  · intro n
    by_cases hn : n = highbit (s.seg x).size - 1
    · simp [hs', vmemFreelistInsert, hn]
    · simp [hs', vmemFreelistInsert, update_of_ne hn, Ne.symm hn, h.freemap]
  · rw [hf.usedStart_update, update_eq_self_iff.mpr]
    · exact h.hash
    · simp [usedStart, hg]
  · have hsum := hf.sum_usedSize h he
    change s.memInuse = (s.arena.map (s'.usedSize hand)).sum
    simpa [usedSize, hg] using hsum.symm

/-! ### The hash table -/

theorem Inv.hashInsert : Inv prm (s.vmemHashInsert prm x) hand := by
  have hx : x ∈ s.arena := by simp [he]
  have hidle : Idle s (x :: hand) x := .inl mem_cons_self
  set s' := s.vmemHashInsert prm x with hs'
  have hg : s'.seg x = { s.seg x with kind := .used } := update_self ..
  have hf : Frame s (x :: hand) s' hand [x] := fun y hy =>
    ⟨Iff.rfl, by simp [mem_singleton.not.mp hy], update_of_ne (mem_singleton.not.mp hy) ..⟩
  have hn : s'.entry hand = s.entry (x :: hand) := by
    funext y
    by_cases hy : y = x
    · simp [hy, hh, hg]
    · simpa using hf.entry (l := [y]) (by simpa using hy)
  refine { h with inHand := ?_, walk := ?_, stop_le := ?_, freelist := ?_, hash := ?_, inuse := ?_ }
  · exact hf.inHand h (by simp [hh])
  · rw [hn]
    exact h.walk
  · exact hf.stop_le h (by simpa [hg] using fun _ => h.stop_le x hx)
  · rw [hf.freeSize_update, update_eq_self_iff.mpr]
    · exact h.freelist
    · simp [freeSize, hg]
  · have hs : s'.usedStart hand x = some (s.seg x).start := by
      rw [usedStart, if_pos ⟨hx, hh, by rw [hg]⟩, hg]
    rw [hf.usedStart_update, hs]
    exact h.hash.push hidle.usedStart _
  · have hsum := hf.sum_usedSize h he
    change s.memInuse + (s.seg x).size = (s.arena.map (s'.usedSize hand)).sum
    simpa [usedSize, Entry.size, hg, hh] using hsum.symm

end

theorem Inv.of_mem_hashTable (h : Inv prm s []) (hx : x ∈ s.hashTable n) : x ∈ s.arena ∧ (s.seg x).kind = .used := by
  obtain ⟨y, hy, -⟩ := (h.hash.mem_iff n x).mp hx
  unfold usedStart at hy
  split_ifs at hy with hc
  exact ⟨hc.1, hc.2.2⟩

/-- A used segment off its hash chain and out of the count. -/
def Arena.unhash (s : Arena) (x k : ℕ) : Arena := { s with
  hashTable := update s.hashTable k ((s.hashTable k).erase x)
  free := s.free + 1
  memInuse := s.memInuse - (s.seg x).size }

theorem Inv.unhash (h : Inv prm s []) (he : s.arena = l₁ ++ x :: l₂) (hk : (s.seg x).kind = .used)
    {k : ℕ} (hky : hashIndex prm s.hashShift s.hashMask (s.seg x).start = k) : Inv prm (s.unhash x k) [x] := by
  have hx : x ∈ s.arena := by simp [he]
  set s' := s.unhash x k with hs'
  have hidle : Idle s' [x] x := .inl mem_cons_self
  have hf : Frame s [] s' [x] [x] := fun y hy =>
    ⟨Iff.rfl, by simp [mem_singleton.not.mp hy], rfl⟩
  have hn : s'.entry [x] = s.entry [] := by
    funext y
    by_cases hy : y = x
    · simp [hy, hs', Arena.unhash, ← hk]
    · simpa using hf.entry (l := [y]) (by simpa using hy)
  refine { h with inHand := ?_, walk := ?_, freelist := ?_, hash := ?_, inuse := ?_ }
  · exact hf.inHand h (by simp [hs', Arena.unhash, hx, hk])
  · rw [hn]
    exact h.walk
  · rw [hf.freeSize_update, update_eq_self_iff.mpr]
    · exact h.freelist
    · simp [freeSize, hk]
  · have hs : s.usedStart [] x = some (s.seg x).start := by simp [usedStart, hx, hk]
    have := h.hash.remove hs
    rw [hky] at this
    rw [hf.usedStart_update, hidle.usedStart]
    exact this
  · have hsum := hf.sum_usedSize h he
    change s.memInuse - (s.seg x).size = (s.arena.map (s'.usedSize [x])).sum
    simp [usedSize, hk] at hsum
    omega

theorem Inv.hashDelete (h : Inv prm s []) {addr size : ℕ} (hs' : s.vmemHashDelete prm addr size = some (s', x)) :
    x ∈ s'.arena ∧ Inv prm s' [x] := by
  unfold vmemHashDelete at hs'
  cases hf : (s.hashTable (hashIndex prm s.hashShift s.hashMask addr)).find? fun x => (s.seg x).start = addr with
  | none => simp [hf] at hs'
  | some y =>
    simp only [hf] at hs'
    split_ifs at hs' with hsz
    simp only [Option.some.injEq, Prod.mk.injEq] at hs'
    obtain ⟨rfl, rfl⟩ := hs'
    have hs : (s.seg y).start = addr := by simpa using List.find?_some hf
    obtain ⟨hy, hk⟩ := h.of_mem_hashTable (mem_of_find?_eq_some hf)
    obtain ⟨l₁, l₂, he⟩ := append_of_mem hy
    rw [← not_not.mp hsz]
    exact ⟨hy, h.unhash he hk (by rw [hs])⟩

/-! ### Segments in hand -/

theorem Idle.usedSize (h : Idle s hand x) (hx : x ∈ s.arena) : s.usedSize hand x = 0 := by
  rw [Arena.usedSize, if_neg]
  rintro ⟨hn, hk⟩
  rcases h with h | h | h
  · exact hn h
  · exact h hx
  · rw [h] at hk
    cases hk

theorem sum_map_filter {f : ℕ → ℕ} (p : ℕ → Bool) (h : ∀ y ∈ l, p y = false → f y = 0) :
    ((l.filter p).map f).sum = (l.map f).sum := by
  induction l with
  | nil => rfl
  | cons y l ih =>
    rw [forall_mem_cons] at h
    rw [filter_cons]
    split_ifs with hy
    · simp [ih h.2]
    · simp [ih h.2, h.1 (by simpa using hy)]

/-- Only segments in hand, and ones that come and go, are different. -/
theorem Inv.rework (h : Inv prm s hand) (hf : Frame s hand s' hand' d)
    (hidle : ∀ y ∈ d, Idle s hand y ∧ Idle s' hand' y)
    (hr : s' = { s with seg := s'.seg, arena := s'.arena, segfree := s'.segfree })
    (hn : s'.arena.Nodup) (hs : s'.segfree.Nodup ∧ ∀ y ∈ s'.segfree, y ∉ s'.arena)
    (ha : s'.arena.filter (· ∉ d) = s.arena.filter (· ∉ d))
    (hhn : ∀ y ∈ d, y ∈ hand' → y ∈ s'.arena ∧ (s'.seg y).kind ≠ .marker)
    (ht : ∀ y ∈ d, y ∈ s'.arena → (s'.seg y).stop ≤ 2 ^ prm.w)
    (hw : ∃ c, Walk prm.quantum anchor (s'.arena.map (s'.entry hand')) c ∧ c.pos = c.stop) : Inv prm s' hand' := by
  have hfr := hf.freeSize hidle
  have hu := hf.usedStart hidle
  have hsum : (s'.arena.map (s'.usedSize hand')).sum = (s.arena.map (s.usedSize hand)).sum := by
    rw [← sum_map_filter (f := s'.usedSize hand') (· ∉ d), ha, hf.usedSize (by simp), sum_map_filter]
    · intro y hy hd
      exact (hidle y (by simpa using hd)).1.usedSize hy
    · intro y hy hd
      exact (hidle y (by simpa using hd)).2.usedSize hy
  refine ⟨hn, hs.1, hs.2, hf.inHand h hhn, hw, hf.stop_le h ht, ?_, ?_, ?_, ?_⟩
  · rw [hfr, hr]
    exact h.freelist
  · rw [hr]
    exact h.freemap
  · rw [hu, hr]
    exact h.hash
  · rw [hsum, hr]
    exact h.inuse

theorem Inv.setStop_trim (h : Inv prm s hand) (he : s.arena = l₁ ++ x :: l₂) (hmem : x ∈ hand) {t : ℕ}
    (hlt : (s.seg x).start < t) (ht : roundUp prm.quantum t = roundUp prm.quantum (s.seg x).stop)
    (hp : t ≤ 2 ^ prm.w) : Inv prm (s.setStop x t) hand := by
  set s' := s.setStop x t with hs'
  have hs : s'.seg x = { s.seg x with stop := t } := update_self ..
  have hf : Frame s hand s' hand [x] := fun y hy =>
    ⟨Iff.rfl, Iff.rfl, update_of_ne (mem_singleton.not.mp hy) ..⟩
  obtain ⟨h1, h2⟩ := h.notMem he
  obtain ⟨c, hw, hc⟩ := h.walk
  refine h.rework hf ?_ rfl h.nodup ⟨h.segfree_nodup, h.segfree⟩ rfl ?_ ?_ ⟨c, ?_, hc⟩
  · simp [Idle, hmem]
  · rintro y (_ | ⟨_, ⟨⟩⟩) -
    rw [hs]
    exact h.inHand x hmem
  · simpa [hs] using fun _ => hp
  · change Walk prm.quantum anchor (s.arena.map (s'.entry hand)) c
    rw [he, map_append, map_cons] at hw ⊢
    rw [hf.entry (by simpa using h1), hf.entry (by simpa using h2)]
    simp only [entry, hmem, if_true, hs] at hw ⊢
    exact hw.trim prm.quantum_pos (anchor_ok _) hlt ht

theorem insertAfter_append (hx : x ∉ l₁) : insertAfter x n (l₁ ++ x :: l₂) = l₁ ++ x :: n :: l₂ := by
  induction l₁ with
  | nil => simp [insertAfter]
  | cons y l ih =>
    rw [mem_cons, not_or] at hx
    simp [insertAfter, Ne.symm hx.1, ih hx.2]

theorem segCreate_eq {vprev : Option ℕ} {a b : ℕ} (hs' : s.vmemSegCreate vprev a b k = some (s', n)) :
    ∃ segfree, s.segfree = n :: segfree ∧ s' = { s with
      seg := update s.seg n ⟨⟨a, b, k⟩, false⟩
      arena := vprev.elim (n :: s.arena) fun p => insertAfter p n s.arena
      segfree := segfree } := by
  unfold vmemSegCreate at hs'
  split at hs'
  · cases hs'
  · next x segfree hf =>
    cases hs'
    exact ⟨segfree, hf, rfl⟩

theorem Inv.cut (h : Inv prm s hand) (he : s.arena = l₁ ++ x :: l₂) (hmem : x ∈ hand) {p t : ℕ}
    (hk : k ≠ .marker) (hp : prm.quantum ∣ p) (hap : (s.seg x).start < p) (hpt : p < t)
    (ht : roundUp prm.quantum t = roundUp prm.quantum (s.seg x).stop) (htp : t ≤ 2 ^ prm.w)
    (hs' : (s.setStop x p).vmemSegCreate (some x) p t k = some (s', n)) :
    Inv prm s' (n :: hand) ∧ s'.arena = l₁ ++ x :: n :: l₂ ∧ n ∉ s.arena ∧
      s'.seg = update (s.setStop x p).seg n ⟨⟨p, t, k⟩, false⟩ := by
  obtain ⟨segfree, hf, hs'⟩ := segCreate_eq hs'
  replace hf : s.segfree = n :: segfree := hf
  obtain ⟨h1, h2⟩ := h.notMem he
  have hse : s'.seg = update (s.setStop x p).seg n ⟨⟨p, t, k⟩, false⟩ := by rw [hs']
  have hs : s'.segfree = segfree := by rw [hs']
  have ha : s'.arena = l₁ ++ x :: n :: l₂ := by
    rw [hs']
    change insertAfter x n s.arena = _
    rw [he, insertAfter_append fun hx => h1 x hx rfl]
  have hn : n ∉ s.arena := h.segfree n (by simp [hf])
  have hn' := hn
  simp only [he, mem_append, mem_cons, not_or] at hn'
  obtain ⟨hn1, hne, hn2⟩ := hn'
  have hg : s'.seg n = ⟨⟨p, t, k⟩, false⟩ := by rw [hse, update_self]
  have hsx : s'.seg x = { s.seg x with stop := p } := by
    rw [hse, update_of_ne (Ne.symm hne)]
    exact update_self ..
  have hr : Frame s hand s' (n :: hand) [x, n] := by
    intro y hy
    simp only [mem_cons, not_mem_nil, or_false, not_or] at hy
    refine ⟨by simp [ha, he, hy.1, hy.2], by simp [hy.2], ?_⟩
    rw [hse, update_of_ne hy.2]
    exact update_of_ne hy.1 ..
  have hd1 : ∀ y ∈ l₁, y ∉ [x, n] := by grind -ring -linarith
  have hd2 : ∀ y ∈ l₂, y ∉ [x, n] := by grind -ring -linarith
  obtain ⟨c, hw, hc⟩ := h.walk
  have hsf := h.segfree_nodup
  have hnd := h.nodup
  rw [hf, nodup_cons] at hsf
  refine ⟨h.rework hr ?_ ?_ ?_ ⟨?_, ?_⟩ ?_ ?_ ?_ ⟨c, ?_, hc⟩, ha, hn, hse⟩
  · simp [Idle, hmem, hn]
  · rw [hs']
    rfl
  · grind -ring -linarith
  · rw [hs]
    exact hsf.2
  · intro y hy
    rw [hs] at hy
    have := h.segfree y (by simp [hf, hy])
    grind -ring -linarith
  · rw [ha, he]
    simp
  · simpa [hg, hsx, ha, hk] using fun _ => (h.inHand x hmem).2
  · simp only [mem_cons, not_mem_nil, or_false, forall_eq_or_imp, forall_eq, hg, hsx]
    omega
  · rw [ha]
    rw [he] at hw
    simp only [map_append, map_cons] at hw ⊢
    rw [hr.entry hd1, hr.entry hd2]
    simp only [entry, hmem, mem_cons, true_or, or_true, if_true, hg, hsx] at hw ⊢
    exact hw.cut prm.quantum_pos (anchor_ok _) hp hap hpt ht

theorem Inv.join {y : ℕ} (h : Inv prm s (y :: hand)) (he : s.arena = l₁ ++ x :: y :: l₂)
    (hmem : x ∈ hand) (hy : y ∉ hand) : Inv prm ((s.setStop x (s.seg y).stop).vmemSegDestroy y) hand ∧
      ((s.setStop x (s.seg y).stop).vmemSegDestroy y).arena = l₁ ++ x :: l₂ := by
  set s' := (s.setStop x (s.seg y).stop).vmemSegDestroy y with hs'
  have hnd := h.nodup
  have hxy : x ≠ y := fun hxy => hy (hxy ▸ hmem)
  have ha : s'.arena = l₁ ++ x :: l₂ := by
    change s.arena.erase y = _
    rw [he, erase_append_right _ (by grind -ring -linarith), erase_cons_tail (by simpa using hxy), erase_cons_head]
  have hs : s'.seg x = { s.seg x with stop := (s.seg y).stop } := update_self ..
  have hr : Frame s (y :: hand) s' hand [x, y] := by
    intro z hz
    simp only [mem_cons, not_mem_nil, or_false, not_or] at hz
    exact ⟨by simp [ha, he, hz.2], by simp [hz.2], update_of_ne hz.1 ..⟩
  obtain ⟨c, hw, hc⟩ := h.walk
  have hyr : y ∈ s.arena := by simp [he]
  refine ⟨h.rework hr ?_ rfl ?_ ⟨?_, ?_⟩ ?_ ?_ ?_ ⟨c, ?_, hc⟩, ha⟩
  · simp only [mem_cons, not_mem_nil, or_false, forall_eq_or_imp, forall_eq, Idle, hmem, or_true,
      true_or, true_and, ha]
    right; left
    grind -ring -linarith
  · grind -ring -linarith
  · exact nodup_cons.mpr ⟨fun hf => h.segfree y hf hyr, h.segfree_nodup⟩
  · rintro z (_ | ⟨_, hz⟩)
    · grind -ring -linarith
    · have := h.segfree z hz
      grind -ring -linarith
  · rw [ha, he]
    simp
  · simpa [hs, ha, hy, hmem] using (h.inHand x (mem_cons_of_mem _ hmem)).2
  · simpa [hs, ha, hxy.symm] using ⟨h.stop_le y hyr, by grind -ring -linarith⟩
  · rw [ha]
    rw [he] at hw
    simp only [map_append, map_cons] at hw ⊢
    rw [hr.entry (by grind -ring -linarith), hr.entry (by grind)]
    simp only [entry, hmem, mem_cons, true_or, or_true, if_true, hs] at hw ⊢
    exact hw.join prm.quantum_pos (anchor_ok _)

theorem insertAfter_getLast? (h : l.Nodup) : l.getLast?.elim (n :: l) (fun p => insertAfter p n l) = l ++ [n] := by
  induction l using List.reverseRecOn with
  | nil => rfl
  | append_singleton l y _ =>
    rw [List.getLast?_append_cons, List.getLast?_singleton, Option.elim_some, insertAfter_append (by grind -ring -linarith),
      append_assoc]
    rfl

theorem Inv.addSpan (h : Inv prm s []) {s1 : Arena} {a b m : ℕ} (ha : 0 < a) (hab : a < b)
    (hq : prm.quantum ∣ a) (hqb : prm.quantum ∣ b) (hb : b ≤ 2 ^ prm.w)
    (hs1 : s.vmemSegCreate s.arena.getLast? a b .marker = some (s1, m))
    (hs' : s1.vmemSegCreate (some m) a b .free = some (s', n)) :
    Inv prm s' [n] ∧ s'.arena = s.arena ++ [m, n] ∧ (s'.seg m).kind = .marker ∧ s'.seg n = ⟨⟨a, b, .free⟩, false⟩ := by
  obtain ⟨segfree1, hf1, hs1⟩ := segCreate_eq hs1
  obtain ⟨segfree, hf, hs'⟩ := segCreate_eq hs'
  rw [insertAfter_getLast? h.nodup] at hs1
  replace hf : segfree1 = n :: segfree := by rw [← hf, hs1]
  subst hf
  have hnd := h.nodup
  have hn := h.segfree_nodup
  have hsf := h.segfree
  simp only [hf1, nodup_cons, mem_cons, not_or, forall_eq_or_imp] at hn hsf
  have hr : s'.arena = s.arena ++ [m, n] := by
    rw [hs', hs1]
    exact insertAfter_append hsf.1
  have hsr : s'.segfree = segfree := by rw [hs']
  have hse : s'.seg = update (update s.seg m ⟨⟨a, b, .marker⟩, false⟩) n ⟨⟨a, b, .free⟩, false⟩ := by
    rw [hs', hs1]
  have hg : s'.seg n = ⟨⟨a, b, .free⟩, false⟩ := by rw [hse, update_self]
  have hs : s'.seg m = ⟨⟨a, b, .marker⟩, false⟩ := by
    rw [hse, update_of_ne hn.1.1, update_self]
  have hfr : Frame s [] s' [n] [m, n] := by
    intro y hy
    simp only [mem_cons, not_mem_nil, or_false, not_or] at hy
    refine ⟨by simp [hr, hy.1, hy.2], by simp [hy.2], ?_⟩
    rw [hse, update_of_ne hy.2, update_of_ne hy.1]
  obtain ⟨c, hw, hc⟩ := h.walk
  refine ⟨h.rework hfr ?_ ?_ ?_ ⟨?_, ?_⟩ ?_ ?_ ?_ ⟨⟨b, b, false⟩, ?_, rfl⟩, hr, by rw [hs], hg⟩
  · simp [Idle, hs, hsf]
  · rw [hs', hs1]
  · grind -ring -linarith
  · rw [hsr]
    exact hn.2.2
  · grind -ring -linarith
  · rw [hr]
    simp
  · simp [hg, hs, hr, hn.1.1]
  · simp [hg, hs, hb]
  · rw [hr, map_append, hfr.entry (by grind -ring -linarith)]
    have := hw.addSpan prm.quantum_pos hc ha hab hq hqb
    simpa [hg, hs, hn.1.1] using this

theorem Inv.dropSpan {m : ℕ} (h : Inv prm s [x]) (he : s.arena = l₁ ++ m :: x :: l₂)
    (hm : (s.seg m).kind = .marker) (hl2 : ∀ y ∈ l₂.head?, (s.seg y).kind = .marker) :
    Inv prm (s.vmemSpanDestroy x) [] := by
  have hnd := h.nodup
  have hl : (Cursor.before x s.arena).getLast? = some m := by
    rw [he, append_cons, Cursor.before_append (by grind -ring -linarith)]
    simp
  set s' := s.vmemSpanDestroy x with hs'
  rw [vmemSpanDestroy, hl] at hs'
  have hg : s'.seg = s.seg := by rw [hs']; rfl
  have hs : s'.segfree = m :: x :: s.segfree := by rw [hs']; rfl
  have ha : s'.arena = l₁ ++ l₂ := by
    rw [hs']
    change (s.arena.erase x).erase m = _
    rw [he, erase_append_right _ (by grind -ring -linarith), erase_cons_tail (by grind), erase_cons_head,
      erase_append_right _ (by grind -ring -linarith), erase_cons_head]
  have hf : Frame s [x] s' [] [m, x] := by
    intro y hy
    simp only [mem_cons, not_mem_nil, or_false, not_or] at hy
    exact ⟨by simp [ha, he, hy.1, hy.2], by simp [hy.2], by rw [hg]⟩
  obtain ⟨c, hw, hc⟩ := h.walk
  refine h.rework hf ?_ ?_ ?_ ⟨?_, ?_⟩ ?_ (by simp) ?_ ?_
  · simp [Idle, hm, hg, ha]
    grind -ring -linarith
  · rw [hs']
    rfl
  · grind -ring -linarith
  · have := h.segfree_nodup
    have := h.segfree
    grind -ring -linarith
  · have := h.segfree
    grind -ring -linarith
  · rw [ha, he]
    simp
  · intro y hy hya
    grind -ring -linarith
  · rw [he] at hw
    simp only [map_append, map_cons] at hw
    rw [ha, map_append, hf.entry (by grind -ring -linarith), hf.entry (by grind)]
    refine hw.dropSpan ?_ hc ?_
    · rw [entry, if_neg (by grind -ring -linarith)]
      exact hm
    · intro e he
      rw [List.head?_map, Option.mem_map] at he
      obtain ⟨y, hy, rfl⟩ := he
      rw [entry, if_neg (by grind -ring -linarith)]
      exact hl2 y hy

end Sol8.Os.Vmem
