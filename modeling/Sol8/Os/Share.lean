import Mathlib

/-! Removal of share reservations (`os/share.c`). The list is the one at `v_shrlocks` of a vnode. -/

namespace Sol8.Os.Share

/-- What `del_share` reads of a `struct shrlock`; `s_own_len` is the length of the owner. -/
structure Shrlock where
  sysid : BitVec 32
  pid : BitVec 32
  owner : List UInt8
deriving DecidableEq

def getsysid (id : BitVec 32) : BitVec 32 := id &&& 0x0000ffff

def getnlmid (sysid : BitVec 32) : BitVec 32 := (sysid &&& 0xffff0000) >>> 16

def isMatchForDel (shr element : Shrlock) : Bool :=
  let nlmid1 := getnlmid shr.sysid
  let nlmid2 := getnlmid element.sysid
  if nlmid1 ≠ 0 then
    if getsysid shr.sysid ≠ 0 ∧ shr.pid = 0 then shr.sysid = element.sysid
    else if getsysid shr.sysid = 0 ∧ shr.pid = 0 then nlmid1 = nlmid2
    else if getsysid shr.sysid = 0 ∧ shr.pid ≠ 0 then nlmid1 = nlmid2 ∧ shr.pid = element.pid
    else false
  else shr.sysid = 0 ∧ shr.pid = element.pid ∨ shr.sysid ≠ 0 ∧ shr.sysid = element.sysid

/-- The test that the loop of `del_share` makes. -/
def matchesShr (shr element : Shrlock) : Bool :=
  shr.owner = element.owner ∨ shr.owner = [] ∧ isMatchForDel shr element

def delLoop (shr : Shrlock) : List Shrlock → ℕ → List Shrlock × ℕ
  | [], found => ([], found)
  | x :: l, found =>
    if matchesShr shr x then delLoop shr l (found + 1)
    else (x :: (delLoop shr l found).1, (delLoop shr l found).2)

inductive Errno
  | einval
deriving DecidableEq

def delShare (shr : Shrlock) (l : List Shrlock) : List Shrlock × Except Errno Unit :=
  let r := delLoop shr l 0
  (r.1, if r.2 ≠ 0 then .ok () else .error .einval)

theorem delLoop_eq (shr : Shrlock) (l : List Shrlock) (found : ℕ) :
    delLoop shr l found = (l.filter (!matchesShr shr ·), found + l.countP (matchesShr shr)) := by
  induction l generalizing found with
  | nil => rfl
  | cons x l ih =>
    rw [delLoop, ih, ih]
    split
    next h => simp [h, Nat.add_assoc, Nat.add_comm]
    next h => simp [h]

/-- A reservation of the requester: made by the same system for the same owner. -/
def Own (shr x : Shrlock) : Prop := x.sysid = shr.sysid ∧ x.owner = shr.owner

instance (shr x : Shrlock) : Decidable (Own shr x) := inferInstanceAs (Decidable (_ ∧ _))

/-- Exactly the reservations of the requester go, and there is an error if there are none. -/
def RemovesOwn (shr : Shrlock) (l : List Shrlock) : Prop :=
  delShare shr l = (l.filter (¬ Own shr ·), if ∃ x ∈ l, Own shr x then .ok () else .error .einval)

/-- The test does not look at the system unless the owner is empty. -/
theorem matchesShr_iff {shr x : Shrlock} (h : shr.owner ≠ []) : matchesShr shr x = true ↔ x.owner = shr.owner := by
  rw [matchesShr, decide_eq_true_iff, eq_comm]
  exact or_iff_left fun hm => h hm.1

/-- `del_share` removes what it should exactly if no other system reserved for an owner of the same bytes. -/
theorem del_share_iff {shr : Shrlock} (h : shr.owner ≠ []) (l : List Shrlock) :
    RemovesOwn shr l ↔ ∀ x ∈ l, x.owner = shr.owner → x.sysid = shr.sysid := by
  rw [RemovesOwn, delShare, delLoop_eq]
  constructor
  · intro heq x hx ho
    by_contra hsy
    have hmem : x ∈ l.filter (¬ Own shr ·) := by simp [hx, Own, hsy]
    rw [← (Prod.mk.inj heq).1] at hmem
    simp [(matchesShr_iff h).mpr ho] at hmem
  · intro ha
    have hs : ∀ x ∈ l, matchesShr shr x = true ↔ Own shr x := fun x hx => by
      rw [matchesShr_iff h, Own]
      exact ⟨fun ho => ⟨ha x hx ho, ho⟩, And.right⟩
    refine Prod.ext (List.filter_congr fun x hx => ?_) (if_congr ?_ rfl rfl)
    · simp [← hs x hx]
    · simp only [Nat.zero_add, ne_eq, List.countP_eq_zero, not_forall, not_not]
      exact ⟨fun ⟨x, hx, hm⟩ => ⟨x, hx, (hs x hx).mp hm⟩, fun ⟨x, hx, hw⟩ => ⟨x, hx, (hs x hx).mpr hw⟩⟩

def shared : List Shrlock := [⟨1, 0, [7]⟩, ⟨2, 0, [7]⟩]

theorem del_share_removes_other : delShare ⟨1, 0, [7]⟩ shared = ([], .ok ()) ∧ ¬ RemovesOwn ⟨1, 0, [7]⟩ shared := by
  unfold RemovesOwn
  decide

theorem del_share_iff_local : RemovesOwn ⟨0, 5, [5]⟩ [⟨0, 6, [6]⟩, ⟨0, 5, [5]⟩] :=
  (del_share_iff (by decide) _).mpr (by decide)

end Sol8.Os.Share
