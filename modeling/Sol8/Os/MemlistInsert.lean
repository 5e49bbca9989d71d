import Sol8.Os.MemlistSpans

/-! Insertion into a sorted memlist: `memlist_insert` (`os/memlist_new.c`). -/

namespace Sol8.Os.Memlist

open Function Sol8.Lib List

variable {P : Type} [DecidableEq P]

def linkBefore (s : Lists P) (new cur : P) : Option (Lists P) :=
  let s' := { s with
    next := update s.next new (some cur)
    prev := update (update s.prev new (s.prev cur)) cur (some new) }
  if s.curmemlist = some cur then some { s' with curmemlist := some new }
  else (s'.prev new).map fun p => { s' with next := update s'.next p (some new) }

/-- The loop over the list, from `cur` on and with the element before it; there is no result after a panic. -/
def insertLoop (s : Lists P) (new : P) : ℕ → Option P → Option P → Option (Lists P)
  | 0, _, _ => none
  | _ + 1, last, none =>
    let s := { s with next := update s.next new none, prev := update s.prev new last }
    match last with
    | none => some s
    | some last => some { s with next := update s.next last (some new) }
  | fuel + 1, _, some cur =>
    if s.address cur ≥ s.address new + s.size new then linkBefore s new cur
    else if s.address cur + s.size cur > s.address new then none
    else insertLoop s new fuel (some cur) (s.next cur)

variable {s s' : Lists P} {l l1 l2 : List P} {new cur : P} {fuel : ℕ}

/-- Each element ends where the next one starts or before. -/
def Sorted (s : Lists P) (l : List P) : Prop := l.Pairwise fun a b => (range s a).2 ≤ (range s b).1

omit [DecidableEq P] in
theorem Sorted.insert (h : Sorted s (l1 ++ l2)) (h1 : ∀ a ∈ l1, (range s a).2 ≤ (range s new).1)
    (h2 : ∀ a ∈ l2, (range s new).2 ≤ (range s a).1) : Sorted s (l1 ++ new :: l2) := by
  obtain ⟨hl1, hl2, hc⟩ := pairwise_append.mp h
  refine pairwise_append.mpr ⟨hl1, pairwise_cons.mpr ⟨h2, hl2⟩, fun a ha b hb => ?_⟩
  rcases mem_cons.mp hb with rfl | hb
  · exact h1 a ha
  · exact hc a ha b hb

end Sol8.Os.Memlist
