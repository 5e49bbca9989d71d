import Sol8.Lib.RangeList
import Sol8.Lib.Run

/-! The allocator of node identifiers (`os/ddi_nodeid.c`): a sorted list of ranges of available nodeids. -/

namespace Sol8.Os.Nodeid

open Function Sol8.Lib Sol8.Lib.Ranges

variable {P : Type}

/-- `nhead`, the fields of the entries, and which of them are allocated. -/
structure Nodeids (P : Type) where
  nhead : Option P
  nodeid : P → UInt32
  count : P → UInt32
  next : P → Option P
  prev : P → Option P
  live : P → Bool

/-- A loop that does not end, or `CE_PANIC` with the nodeid that is already free. -/
inductive Halt
  | steps
  | alreadyFree (nodeid : UInt32)
deriving DecidableEq, Repr

def OUR_NODEID_MIN : UInt32 := 1

def OUR_NODEID_MAX : UInt32 := 0x10000000

def OUR_NODEID_COUNT : UInt32 := OUR_NODEID_MAX - OUR_NODEID_MIN

def DEVI_PSEUDO_NODEID : UInt32 := -1

def DEVI_SID_NODEID : UInt32 := -2

def DDI_SUCCESS : ℤ := 0

def DDI_FAILURE : ℤ := -1

/-- The entries do not overlap: no walk along the list needs more steps than there are nodeids. -/
def limit : ℕ := 2 ^ 32

variable [DecidableEq P] (s : Nodeids P)

def npAlloc (fp : P) : Nodeids P :=
  { s with
    nodeid := update s.nodeid fp 0
    count := update s.count fp 0
    next := update s.next fp none
    prev := update s.prev fp none
    live := update s.live fp true }

def npFree (np : P) : Nodeids P := { s with live := update s.live np false }

def npUnlink (np : P) : Nodeids P :=
  let s :=
    match s.prev np with
    | some p => { s with next := update s.next p (s.next np) }
    | none => { s with nhead := s.next np }
  match s.next np with
  | some x => { s with prev := update s.prev x (s.prev np) }
  | none => s

@[simp] theorem npUnlink_fields (np : P) :
    (npUnlink s np).nodeid = s.nodeid ∧ (npUnlink s np).count = s.count ∧ (npUnlink s np).live = s.live := by
  simp only [npUnlink]
  split <;> split <;> exact ⟨rfl, rfl, rfl⟩

def npInsert (fp np : P) : Nodeids P :=
  let s := { s with prev := update s.prev fp (s.prev np), next := update s.next fp (some np) }
  let s :=
    match s.prev np with
    | some p => { s with next := update s.next p (some fp) }
    | none => { s with nhead := some fp }
  { s with prev := update s.prev np (some fp) }

@[simp] theorem npInsert_fields (fp np : P) :
    (npInsert s fp np).nodeid = s.nodeid ∧ (npInsert s fp np).count = s.count ∧ (npInsert s fp np).live = s.live := by
  simp only [npInsert]
  split <;> exact ⟨rfl, rfl, rfl⟩

def npLast : ℕ → P → Option P
  | 0, _ => none
  | n + 1, np =>
    match s.next np with
    | none => some np
    | some np' => npLast n np'

def npAdd (fp : P) : Except Halt (Nodeids P) :=
  match s.nhead with
  | none => .ok { s with nhead := some fp }
  | some np =>
    match npLast s limit np with
    | none => .error .steps
    | some np => .ok { s with next := update s.next np (some fp), prev := update s.prev fp (some np) }

def npCoalesce (np : P) : Nodeids P :=
  match s.next np with
  | none => s
  | some xp =>
    if s.nodeid np + s.count np = s.nodeid xp then
      npFree (npUnlink { s with count := update s.count np (s.count np + s.count xp) } xp) xp
    else s

/-- The seed is copied into the entry `np`. -/
def implDdiInitNodeid (np : P) : Nodeids P :=
  let s := npAlloc s np
  { s with
    nodeid := update s.nodeid np OUR_NODEID_MIN
    count := update s.count np OUR_NODEID_COUNT
    nhead := some np }

/-- The return value, the nodeid and the new state. -/
def implDdiAllocNodeid : ℤ × UInt32 × Nodeids P :=
  match s.nhead with
  | none => (DDI_FAILURE, 0, s)
  | some np =>
    let x := s.nodeid np
    let s := { s with nodeid := update s.nodeid np (x + 1), count := update s.count np (s.count np - 1) }
    (DDI_SUCCESS, x, if s.count np = 0 then npFree (npUnlink s np) np else s)

def freeLoop (nodeid : UInt32) (fp : P) : ℕ → Option P → Except Halt (Nodeids P)
  | 0, _ => .error .steps
  | _ + 1, none => npAdd { s with nodeid := update s.nodeid fp nodeid, count := update s.count fp 1 } fp
  | n + 1, some np =>
    if nodeid + 1 = s.nodeid np then
      .ok (npFree { s with nodeid := update s.nodeid np nodeid, count := update s.count np (s.count np + 1) } fp)
    else if nodeid = s.nodeid np + s.count np then
      .ok (npFree (npCoalesce { s with count := update s.count np (s.count np + 1) } np) fp)
    else if nodeid < s.nodeid np then
      .ok (npInsert { s with nodeid := update s.nodeid fp nodeid, count := update s.count fp 1 } fp np)
    else if nodeid < s.nodeid np + s.count np then .error (.alreadyFree nodeid)
    else freeLoop nodeid fp n (s.next np)

def implDdiFreeNodeid (fp : P) (nodeid : UInt32) : Except Halt (Nodeids P) :=
  let s := npAlloc s fp
  freeLoop s nodeid fp limit s.nhead

/-- `np_free` of the memory that was not needed. -/
def release : Option P → Nodeids P
  | none => s
  | some fp => npFree s fp

/-- The entry is split around the nodeid; without memory for another entry nothing is done. -/
def takeMiddle (nodeid : UInt32) (np : P) : Option P → ℤ × Nodeids P
  | none => (-1, s)
  | some fp =>
    let s := { s with nodeid := update s.nodeid fp (s.nodeid np), count := update s.count fp (nodeid - s.nodeid np) }
    let s := { s with
      nodeid := update s.nodeid np (nodeid + 1)
      count := update s.count np (s.count np - s.count fp - 1) }
    (0, npInsert s fp np)

def takeLoop (nodeid : UInt32) (fp : Option P) : ℕ → Option P → Except Halt (ℤ × Nodeids P)
  | 0, _ => .error .steps
  | _ + 1, none => .ok (0, release s fp)
  | n + 1, some np =>
    if nodeid < s.nodeid np then .ok (0, release s fp)
    else if nodeid = s.nodeid np then
      let s := { s with nodeid := update s.nodeid np (s.nodeid np + 1), count := update s.count np (s.count np - 1) }
      if s.count np = 0 then .ok (0, npFree (release (npUnlink s np) fp) np) else .ok (0, release s fp)
    else if nodeid = s.nodeid np + s.count np - 1 then
      .ok (0, release { s with count := update s.count np (s.count np - 1) } fp)
    else if nodeid < s.nodeid np + s.count np - 1 then
      .ok (takeMiddle s nodeid np fp)
    else takeLoop nodeid fp n (s.next np)

/-- Without memory for an entry `fp` is not there. -/
def implDdiTakeNodeid (fp : Option P) (nodeid : UInt32) : Except Halt (ℤ × Nodeids P) :=
  if nodeid < OUR_NODEID_MIN ∨ nodeid > OUR_NODEID_MAX then .ok (0, s)
  else
    let s := fp.elim s (npAlloc s)
    takeLoop s nodeid fp limit s.nhead

/-! ### The entries -/

section Entries

variable {s} {s' : Nodeids P} {l l1 l2 os ms : List P} {np fp xp : P} {nodeid : UInt32} {n : ℕ}

def range (s : Nodeids P) (np : P) : ℕ × ℕ := ((s.nodeid np).toNat, (s.nodeid np).toNat + (s.count np).toNat)

def spans (s : Nodeids P) (l : List P) : List (ℕ × ℕ) := l.map (range s)

def Available (s : Nodeids P) (l : List P) (a : ℕ) : Prop := Covers Prod.fst Prod.snd (spans s l) a

/-- The pointers spell the entries, which are sorted and neither overlap nor touch, and hold no illegal nodeid. -/
def Entries (s : Nodeids P) (l : List P) : Prop := RangeList s.nhead s.next s.prev (range s) (2 ^ 32 - 2) l

section

omit [DecidableEq P]

theorem range_congr (h : s'.nodeid np = s.nodeid np ∧ s'.count np = s.count np) : range s' np = range s np := by
  rw [range, range, h.1, h.2]

theorem Entries.toNat_end (h : Entries s (l1 ++ [np] ++ l2)) : (s.nodeid np + s.count np).toNat = (range s np).2 := by
  obtain ⟨-, hb, -, -⟩ := h.node
  rw [UInt32.toNat_add]
  exact Nat.mod_eq_of_lt (show (range s np).2 < 2 ^ 32 by omega)

end

def Gains (s : Nodeids P) (l : List P) (n : ℕ) (s' : Nodeids P) (l' : List P) : Prop :=
  Entries s' l' ∧ ∀ a, Available s' l' a ↔ Available s l a ∨ a = n

def Loses (s : Nodeids P) (l : List P) (n : ℕ) (s' : Nodeids P) (l' : List P) : Prop :=
  Entries s' l' ∧ ∀ a, Available s' l' a ↔ Available s l a ∧ a ≠ n

section

omit [DecidableEq P]

theorem Entries.merge (h : Entries s (l1 ++ os ++ l2)) (hl : Links.Headed s'.nhead s'.next s'.prev (l1 ++ [np] ++ l2))
    (hs : ∀ p ≠ np, s'.nodeid p = s.nodeid p ∧ s'.count p = s.count p) {b e : ℕ} (hr : range s' np = (b, e))
    (hc : ∀ a, b ≤ a ∧ a < e ↔ Available s os a ∨ (n ≤ a ∧ a < n + 1)) (hpos : b < e) (hb : e ≤ 2 ^ 32 - 2)
    (hw : ∀ r ∈ spans s l1, r.2 < b) (hh : ∀ r ∈ spans s l2, e < r.1) :
    Gains s (l1 ++ os ++ l2) n s' (l1 ++ [np] ++ l2) := by
  obtain ⟨h', ha⟩ := RangeList.merge h hl (fun p hp => range_congr (hs p hp)) hr hc hpos hb hw hh
  exact ⟨h', fun a => (ha a).trans (or_congr_right (by omega))⟩

theorem Entries.loss (h : Entries s (l1 ++ [np] ++ l2)) (hl : Links.Headed s'.nhead s'.next s'.prev (l1 ++ ms ++ l2))
    (hs : ∀ p ∈ l1 ++ l2, s'.nodeid p = s.nodeid p ∧ s'.count p = s.count p)
    (hm : Separated Prod.fst Prod.snd (spans s' ms))
    (hsub : ∀ m ∈ spans s' ms, (range s np).1 ≤ m.1 ∧ m.2 ≤ (range s np).2)
    (hin : (range s np).1 ≤ n ∧ n < (range s np).2)
    (hn : ∀ a, Available s' ms a ↔ ((range s np).1 ≤ a ∧ a < (range s np).2) ∧ ¬ (n ≤ a ∧ a < n + 1)) :
    Loses s (l1 ++ [np] ++ l2) n s' (l1 ++ ms ++ l2) := by
  obtain ⟨h', ha⟩ := RangeList.loss h hl (fun p hp => range_congr (hs p hp)) hm hsub hin.1 hin.2 hn
  exact ⟨h', fun a => (ha a).trans (and_congr_right' (by omega))⟩

end

/-! ### Pointers -/

section

variable (h : Links.Headed s.nhead s.next s.prev (l1 ++ np :: l2))
include h

theorem headed_npUnlink : Links.Headed (npUnlink s np).nhead (npUnlink s np).next (npUnlink s np).prev (l1 ++ l2) := by
  have hs : s.prev np ≠ some np := by
    rw [show s.prev np = l1.getLast? from Links.IsList.prev_of_split h]
    intro e
    exact (List.nodup_append.mp h.nodup).2.2 np (List.mem_of_getLast? e) np List.mem_cons_self rfl
  refine h.remove ?_ (fun a ha => ?_) fun a ha => ?_
  · cases hp : s.prev np with
    | none => cases hn : s.next np <;> simp [npUnlink, hp, hn]
    | some p =>
      have hne : np ≠ p := fun e => hs (e ▸ hp)
      cases hn : s.next np <;> simp [npUnlink, hp, hn, hne]
  all_goals cases hp : s.prev np <;> cases hn : s.next np <;> simp [npUnlink, hp, hn, update_apply]

theorem headed_npInsert (hf : fp ∉ l1 ++ np :: l2) :
    Links.Headed (npInsert s fp np).nhead (npInsert s fp np).next (npInsert s fp np).prev (l1 ++ fp :: np :: l2) := by
  have hr : s.prev np = l1.getLast? := Links.IsList.prev_of_split h
  have hne : np ≠ fp := fun e => hf (by simp [e])
  have hl : l1.getLast? ≠ some fp := fun e => hf (List.mem_append_left _ (List.mem_of_getLast? e))
  refine h.insert hf ?_ (fun a => ?_) fun a => ?_
  · cases hp : l1.getLast? <;> simp [npInsert, hr, hp, hne]
  · cases hp : l1.getLast? with
    | none => simp [npInsert, hr, hp, hne, update_apply]
    | some p =>
      have hpf : p ≠ fp := fun e => hl (e ▸ hp)
      by_cases ha : a = fp
      · simp [npInsert, hr, hp, hne, ha, hpf.symm]
      · simp [npInsert, hr, hp, hne, update_apply, ha]
  · by_cases ha : a = fp
    · cases hp : l1.getLast? <;> simp [npInsert, hr, hp, hne, ha, hne.symm]
    · cases hp : l1.getLast? <;> simp [npInsert, hr, hp, hne, update_apply, ha]

omit [DecidableEq P] in
theorem npLast_eq {k : ℕ} (hk : l2.length < k) : npLast s k np = (np :: l2).getLast? := by
  induction l2 generalizing l1 np k with
  | nil =>
    obtain _ | k := k
    · simp at hk
    have hn : s.next np = none := Links.IsList.next_of_split h
    simp [npLast, hn]
  | cons x l2 ih =>
    obtain _ | k := k
    · simp at hk
    have hn : s.next np = some x := Links.IsList.next_of_split h
    have h' : Links.Headed s.nhead s.next s.prev ((l1 ++ [np]) ++ x :: l2) := by simpa using h
    rw [npLast, hn, List.getLast?_cons_cons]
    exact ih h' (by simpa using hk)

end

theorem npAdd_headed (h : Links.Headed s.nhead s.next s.prev l) (hlen : l.length ≤ limit) (hfp : fp ∉ l)
    (hn : s.next fp = none) (hp : s.prev fp = none) :
    ∃ s', npAdd s fp = .ok s' ∧ Links.Headed s'.nhead s'.next s'.prev (l ++ [fp]) ∧ s'.nodeid = s.nodeid ∧
      s'.count = s.count ∧ s'.live = s.live := by
  have hs : Links.Headed s.nhead s.next s.prev (l ++ []) := by simpa using h
  cases l with
  | nil =>
    have hnn : s.nhead = none := h.first
    refine ⟨{ s with nhead := some fp }, by rw [npAdd, hnn], hs.insert (by simp) rfl (fun a => ?_) fun a => ?_,
      rfl, rfl, rfl⟩
    · by_cases ha : a = fp <;> simp [ha, hn]
    · by_cases ha : a = fp <;> simp [ha, hp]
  | cons np l =>
    have hh : s.nhead = some np := h.first
    obtain ⟨x, hx⟩ : ∃ x, (np :: l).getLast? = some x := ⟨_, List.getLast?_eq_some_getLast (by simp)⟩
    have hf : Links.Headed s.nhead s.next s.prev ([] ++ np :: l) := h
    have hl : npLast s limit np = some x := (npLast_eq hf hlen).trans hx
    have hxf : x ≠ fp := fun e => hfp (e ▸ List.mem_of_getLast? hx)
    refine ⟨{ s with next := update s.next x (some fp), prev := update s.prev fp (some x) },
      by simp only [npAdd, hh, hl], hs.insert (by simpa using hfp) (by simp [hx]) (fun a => ?_) fun a => ?_,
      rfl, rfl, rfl⟩
    · by_cases ha : a = fp
      · simp [ha, hxf.symm, hn]
      · simp [ha, hx, update_apply]
    · simp [hx, update_apply]

end Entries

end Sol8.Os.Nodeid
