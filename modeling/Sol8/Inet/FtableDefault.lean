import Sol8.Inet.FtableRuns

/-! The choice among the default routes in `ire_ftable_lookup`. Every probe of the round robin goes on from the entry at
which the last one stopped, and never back, so a route may be passed over for good. -/

namespace Sol8.Inet.Ftable

open Function Sol8.Lib Sol8.Inet.IpIre List

variable {I F Q L : Type} {s : State I F Q} {l : List I} {x : Option I} {i : I} {p n k : ℕ}

/-- The positions on a chain of `len` entries at which `n` probes stop, from position `p` on. -/
def stops (count : UInt32) (len : ℕ) : ℕ → UInt32 → ℕ → List ℕ
  | 0, _, _ => []
  | n + 1, gIndex, p =>
    let p := min (p + (gIndex % count).toNat) (len - 1)
    p :: stops count len n (gIndex + 1) p

theorem next_eq_getElem? (h : Chain.Spells s.links.next x l) (hp : l[p]? = some i) : s.links.next i = l[p + 1]? := by
  obtain ⟨hlt, rfl⟩ := List.getElem?_eq_some_iff.mp hp
  rw [← take_append_drop p l, drop_eq_getElem_cons hlt] at h
  rw [h.next_eq, head?_drop]

theorem forward_spec (h : Chain.Spells s.links.next x l) (hp : l[p]? = some i) :
    l[min (p + k) (l.length - 1)]? = some (forward s k i) := by
  induction k generalizing p i with
  | zero =>
    have hlt := (List.getElem?_eq_some_iff.mp hp).1
    rw [forward, Nat.min_eq_left (by omega)]
    exact hp
  | succ k ih =>
    have hn := next_eq_getElem? h hp
    rw [forward]
    cases hj : l[p + 1]? with
    | some j =>
      rw [hn, hj]
      have := ih hj
      rwa [Nat.add_right_comm] at this
    | none =>
      have hlt := (List.getElem?_eq_some_iff.mp hp).1
      have hge := getElem?_eq_none_iff.mp hj
      rw [hn, hj, Nat.min_eq_right (by omega), show l.length - 1 = p by omega]
      exact hp

section

variable [DecidableEq F] [DecidableEq Q] [DecidableEq L] (nif : Ipif F L) (s : State I F Q) (l : List I) (addr : Ipaddr)
  (a : Args F Q) (flags : Flags)

/-- The entry is not condemned and meets the criteria. -/
def Eligible (i : I) : Prop :=
  (!s.ireCondemned i && ireMatchArgs nif (s.ire i) addr 0 a flags) = true
deriving Decidable

def Hit (stops : List ℕ) : Prop :=
  ∃ q ∈ stops, ∃ j, l[q]? = some j ∧ Eligible nif s addr a flags j

/-- The answer of a lookup that comes to the default routes `l`. -/
structure Selects (r : Option I) : Prop where
  found : (∃ i ∈ l, (s.ire i).type = .ireDefault ∧ Eligible nif s addr a flags i) →
    ∃ i ∈ l, r = some i ∧ (s.ire i).type = .ireDefault ∧ Eligible nif s addr a flags i
  live : ∀ i, r = some i → s.ireCondemned i = false
  meets : s.ipIreDefaultCount ≠ 0 → ∀ i, r = some i → Eligible nif s addr a flags i

/-- Only default routes are eligible. If there are any, a probe stops at an eligible one or the type of default routes is
asked for and one is eligible; otherwise the first entry is not condemned. -/
structure Reaches : Prop where
  dflt : ∀ i ∈ l, Eligible nif s addr a flags i → (s.ire i).type = .ireDefault
  hit : s.ipIreDefaultCount ≠ 0 → (flags.type = true ∧ a.type .ireDefault = true ∧ ∃ i ∈ l, Eligible nif s addr a flags i) ∨
    Hit nif s l addr a flags (stops s.ipIreDefaultCount l.length s.ipIreDefaultCount.toNat s.ipIreDefaultIndex 0)
  first : s.ipIreDefaultCount = 0 → ∀ i, l.head? = some i → s.ireCondemned i = false

end

variable [DecidableEq F] [DecidableEq Q] [DecidableEq L] {e : Endian} {nif : Ipif F L} {addr : Ipaddr} {a : Args F Q}
  {flags : Flags}

theorem roundRobin_eligible (h : Chain.Spells s.links.next x l) {gIndex : UInt32} (hp : l[p]? = some i)
    (hh : Hit nif s l addr a flags (stops s.ipIreDefaultCount l.length n gIndex p)) :
    roundRobin nif s addr a flags n gIndex i ∈ l ∧
      Eligible nif s addr a flags (roundRobin nif s addr a flags n gIndex i) := by
  induction n generalizing p i gIndex with
  | zero =>
    obtain ⟨q, hq, -⟩ := hh
    cases hq
  | succ n ih =>
    have hs := forward_spec (k := (gIndex % s.ipIreDefaultCount).toNat) h hp
    rw [roundRobin]
    split
    next he => exact ⟨mem_of_getElem? hs, he⟩
    next hne =>
      refine ih hs ?_
      obtain ⟨q, hq, j, hj, he⟩ := hh
      rcases mem_cons.mp hq with rfl | hq
      · rw [hs] at hj
        cases hj
        exact absurd he hne
      · exact ⟨q, hq, j, hj, he⟩

theorem Reaches.selects_eligible (h : Reaches nif s l addr a flags) (hi : i ∈ l) (he : Eligible nif s addr a flags i) :
    Selects nif s l addr a flags (some i) where
  found _ := ⟨i, hi, rfl, h.dflt i hi he, he⟩
  live := by
    rintro _ ⟨⟩
    exact (Bool.not_eq_true' _).mp (Bool.and_eq_true_iff.mp he).1
  meets := by
    rintro - _ ⟨⟩
    exact he

theorem Selects.none (h : ∀ i ∈ l, ¬ Eligible nif s addr a flags i) : Selects nif s l addr a flags none :=
  ⟨fun ⟨i, hi, _, he⟩ => absurd he (h i hi), nofun, nofun⟩

theorem Reaches.defaultRoute {l : Bucket → List I} (h : Core e s l)
    (hc : s.ipIreDefaultCount.toNat = (l (0, 0)).countP fun i => (s.ire i).type = .ireDefault)
    (hf : flags.dflt = true ∧ flags.mask = false) (hr : Reaches nif s (l (0, 0)) addr a flags)
    (ht : ¬ (flags.type = true ∧ a.type .ireDefault = true ∧ ∃ i ∈ l (0, 0), Eligible nif s addr a flags i)) :
    Selects nif s (l (0, 0)) addr a flags (defaultRoute nif s addr a flags).2 := by
  have hh := (h.lists.spells (0, 0)).chain
  rw [Ftable.defaultRoute, hh.head]
  cases hl : (l (0, 0)).head? with
  | none =>
    rw [head?_eq_none_iff.mp hl]
    split <;> exact Selects.none (by rintro _ ⟨⟩)
  | some i =>
    have hne : l (0, 0) ≠ [] := fun hnil => by simp [hnil] at hl
    rw [if_pos ⟨hf.1, hf.2, h.table _ hne⟩]
    by_cases h0 : s.ipIreDefaultCount = 0
    · have hn : ∀ j ∈ l (0, 0), ¬ Eligible nif s addr a flags j := fun j hj he => by
        rw [h0, eq_comm] at hc
        exact countP_eq_zero.mp hc j hj (decide_eq_true (hr.dflt j hj he))
      simp only [h0]
      refine ⟨fun he => he.elim fun j hj => absurd hj.2.2 (hn j hj.1), ?_, fun hne => absurd h0 hne⟩
      rintro _ ⟨⟩
      exact hr.first h0 i hl
    · rw [head?_eq_getElem?] at hl
      obtain ⟨hmem, he⟩ := roundRobin_eligible hh hl ((hr.hit h0).resolve_left ht)
      exact hr.selects_eligible hmem he

end Sol8.Inet.Ftable
