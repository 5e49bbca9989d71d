import Mathlib

/-! Arrays of pointers to anonymous pages (`vm/vm_anon.c`): one level, or chunks that are allocated when a pointer is
first stored in them. The number of pages of an array is far below what `ulong_t` can hold. -/

namespace Sol8.Vm.Anon

open Function Nat

/-- `struct anon_hdr`, for chunks of `2 ^ w` pointers. What `array_chunk` points to are pointers to pages in the
single level case, and pointers to chunks otherwise. -/
structure AnonHdr (w : ℕ) (A : Type) where
  size : ℕ
  /-- `ANON_ALLOC_FORCE` -/
  force : Bool
  pages : ℕ → Option A
  chunks : ℕ → Option (ℕ → Option A)

variable {w : ℕ} {A : Type}

def chunkOff (w : ℕ) : ℕ := 2 ^ w - 1

def AnonHdr.single (h : AnonHdr w A) : Bool := h.size ≤ 2 ^ w || h.force

def anonCreate (npages : ℕ) (force : Bool) : AnonHdr w A := ⟨npages, force, fun _ => none, fun _ => none⟩

def AnonHdr.anonGetPtr (h : AnonHdr w A) (i : ℕ) : Option A :=
  if h.single then h.pages i
  else
    match h.chunks (i >>> w) with
    | some app => app (i &&& chunkOff w)
    | none => none

/-- The first of `n` pointers that is not null, and its index. -/
def scan (app : ℕ → Option A) : ℕ → ℕ → Option (A × ℕ)
  | 0, _ => none
  | n + 1, j =>
    match app j with
    | some ap => some (ap, j)
    | none => scan app n (j + 1)

/-- The loop over chunks, from an index and its offset in its chunk. -/
def AnonHdr.nextChunk (h : AnonHdr w A) : ℕ → ℕ → ℕ → Option A × ℕ
  | 0, _, _ => (none, h.size)
  | n + 1, i, chunkoff =>
    if i < h.size then
      match (h.chunks (i >>> w)).bind fun app => scan app (2 ^ w - chunkoff) chunkoff with
      | some (ap, j) => (some ap, i + (j - chunkoff))
      | none => h.nextChunk n ((i + 2 ^ w) >>> w <<< w) 0
    else (none, h.size)

/-- The pointer, and what `*index` is set to. -/
def AnonHdr.anonGetNextPtr (h : AnonHdr w A) (i : ℕ) : Option A × ℕ :=
  if h.single then
    match scan h.pages (h.size - i) i with
    | some (ap, j) => (some ap, j)
    | none => (none, h.size)
  else h.nextChunk h.size i (i &&& chunkOff w)

def kmemZalloc (mem : Bool) : Option (ℕ → Option A) := if mem then some fun _ => none else none

def AnonHdr.setChunk (h : AnonHdr w A) (q : ℕ) (app : ℕ → Option A) : AnonHdr w A :=
  { h with chunks := update h.chunks q (some app) }

/-- No result is `ENOMEM`. -/
def AnonHdr.anonSetPtr (h : AnonHdr w A) (i : ℕ) (ap : Option A) (mem : Bool) : Option (AnonHdr w A) :=
  if h.single then some { h with pages := update h.pages i ap }
  else
    match (h.chunks (i >>> w)).or (kmemZalloc mem) with
    | none => none
    | some app => some (h.setChunk (i >>> w) (update app (i &&& chunkOff w) ap))

def bcopy (src : ℕ → Option A) (s : ℕ) (dst : ℕ → Option A) (d n : ℕ) (i : ℕ) : Option A :=
  if d ≤ i ∧ i < d + n then src (s + (i - d)) else dst i

section Copy

variable (sahp : AnonHdr w A) (mem : ℕ → Bool)

/-- Both arrays have two levels; whether it succeeds, and the array it leaves. -/
def copyChunks : ℕ → ℕ → ℕ → ℕ → AnonHdr w A → Bool × AnonHdr w A
  | 0, _, _, _, dahp => (true, dahp)
  | k + 1, s, d, npages, dahp =>
    if npages = 0 then (true, dahp)
    else
      let sapidx := s &&& chunkOff w
      let dapidx := d &&& chunkOff w
      let chknp := min (2 ^ w - max sapidx dapidx) npages
      match sahp.chunks (s >>> w) with
      | none => copyChunks k (s + chknp) (d + chknp) (npages - chknp) dahp
      | some sap =>
        match (dahp.chunks (d >>> w)).or (kmemZalloc (mem (d >>> w))) with
        | none => (false, dahp)
        | some dap =>
          copyChunks k (s + chknp) (d + chknp) (npages - chknp)
            (dahp.setChunk (d >>> w) (bcopy sap sapidx dap dapidx chknp))

/-- At least one of the arrays is of another kind. -/
def copyEach : ℕ → ℕ → ℕ → AnonHdr w A → Bool × AnonHdr w A
  | 0, _, _, dahp => (true, dahp)
  | n + 1, s, d, dahp =>
    match sahp.anonGetPtr s with
    | none => copyEach n (s + 1) (d + 1) dahp
    | some ap =>
      match dahp.anonSetPtr d (some ap) (mem (d >>> w)) with
      | none => (false, dahp)
      | some dahp => copyEach n (s + 1) (d + 1) dahp

/-- `mem` is whether memory for a chunk of the destination can be allocated. -/
def anonCopyPtr (s : ℕ) (dahp : AnonHdr w A) (d npages : ℕ) : Bool × AnonHdr w A :=
  if (sahp.size ≤ 2 ^ w ∧ dahp.size ≤ 2 ^ w) ∨ (sahp.force ∧ dahp.force) then
    (true, { dahp with pages := bcopy sahp.pages s dahp.pages d npages })
  else if 2 ^ w < sahp.size ∧ 2 ^ w < dahp.size ∧ ¬ sahp.force ∧ ¬ dahp.force then
    copyChunks sahp mem npages s d npages dahp
  else copyEach sahp mem npages s d dahp

end Copy

/-! ### Indices and chunks -/

variable {h h' sahp dahp dahp' : AnonHdr w A} {app : ℕ → Option A} {ap : Option A} {i j k n s d q : ℕ} {m : Bool}
  {mem : ℕ → Bool} {f : ℕ → Option A}

theorem and_chunkOff (i : ℕ) : i &&& chunkOff w = i % 2 ^ w := and_two_pow_sub_one_eq_mod i w

theorem chunk_add (w i k : ℕ) (hk : i % 2 ^ w + k < 2 ^ w) :
    (i + k) / 2 ^ w = i / 2 ^ w ∧ (i + k) % 2 ^ w = i % 2 ^ w + k := by
  rw [Nat.div_mod_unique (Nat.two_pow_pos w)]
  have := Nat.mod_add_div i (2 ^ w)
  omega

theorem AnonHdr.getPtr_single (hh : h.single = true) : h.anonGetPtr = h.pages := funext fun _ => if_pos hh

theorem AnonHdr.getPtr_chunk (hh : h.single = false) (i : ℕ) :
    h.anonGetPtr i = (h.chunks (i / 2 ^ w)).bind fun app => app (i % 2 ^ w) := by
  rw [anonGetPtr, hh, and_chunkOff, shiftRight_eq_div_pow]
  cases h.chunks (i / 2 ^ w) <;> rfl

theorem AnonHdr.getPtr_alloc (hh : h.single = false) (ha : (h.chunks q).or (kmemZalloc m) = some app)
    (hi : i / 2 ^ w = q) : h.anonGetPtr i = app (i % 2 ^ w) := by
  rw [getPtr_chunk hh, hi]
  cases hq : h.chunks q with
  | some app' =>
    rw [hq] at ha
    cases ha
    rfl
  | none =>
    rw [hq] at ha
    cases m <;> cases ha
    rfl

theorem AnonHdr.getPtr_setChunk (hh : h.single = false) (q : ℕ) (app : ℕ → Option A) (i : ℕ) :
    (h.setChunk q app).anonGetPtr i = if i / 2 ^ w = q then app (i % 2 ^ w) else h.anonGetPtr i := by
  rw [getPtr_chunk hh, getPtr_chunk (h := h.setChunk q app) hh]
  simp only [setChunk, update_apply]
  split <;> rfl

/-- Nothing but the pointers has changed. -/
def Alike (h h' : AnonHdr w A) : Prop := h'.size = h.size ∧ h'.force = h.force

theorem anonSetPtr_spec {mem : Bool} (hs : h.anonSetPtr i ap mem = some h') :
    Alike h h' ∧ h'.anonGetPtr = update h.anonGetPtr i ap := by
  rw [AnonHdr.anonSetPtr] at hs
  split at hs
  next hh =>
    cases hs
    rw [AnonHdr.getPtr_single hh]
    exact ⟨⟨rfl, rfl⟩, AnonHdr.getPtr_single hh⟩
  next hh =>
    rw [Bool.not_eq_true] at hh
    rw [and_chunkOff, shiftRight_eq_div_pow] at hs
    split at hs
    · cases hs
    next app ha =>
      cases hs
      refine ⟨⟨rfl, rfl⟩, funext fun j => ?_⟩
      rw [AnonHdr.getPtr_setChunk hh, update_apply, update_apply]
      by_cases hj : j = i
      · simp [hj]
      · split
        next hq =>
          rw [if_neg, AnonHdr.getPtr_alloc hh ha hq]
          intro hr
          exact hj (by rw [← div_add_mod j (2 ^ w), hq, hr, div_add_mod])
        · rfl

/-! ### The next pointer -/

/-- The least index from `i` on that holds a pointer, or the size. -/
def IsNext (f : ℕ → Option A) (size i : ℕ) : Option A × ℕ → Prop
  | (some ap, k) => i ≤ k ∧ k < size ∧ f k = some ap ∧ ∀ j, i ≤ j → j < k → f j = none
  | (none, k) => k = size ∧ ∀ j, i ≤ j → j < size → f j = none

theorem IsNext.extend {size : ℕ} {r : Option A × ℕ} (h : IsNext f size j r) (hij : i ≤ j)
    (hf : ∀ x, i ≤ x → x < j → f x = none) : IsNext f size i r := by
  have ha {k : ℕ} (hk : ∀ x, j ≤ x → x < k → f x = none) (x : ℕ) (hx : i ≤ x) (hxk : x < k) : f x = none := by
    by_cases hj : x < j
    · exact hf x hx hj
    · exact hk x (by omega) hxk
  obtain ⟨_ | ap, k⟩ := r
  · exact ⟨h.1, ha h.2⟩
  · exact ⟨hij.trans h.1, h.2.1, h.2.2.1, ha h.2.2.2⟩

theorem scan_spec (app : ℕ → Option A) (n j : ℕ) :
    IsNext app (j + n) j ((scan app n j).elim (none, j + n) fun r => (some r.1, r.2)) := by
  induction n generalizing j with
  | zero => exact ⟨rfl, fun x hx hxj => absurd hx (by omega)⟩
  | succ n ih =>
    rw [scan]
    cases hj : app j with
    | some ap => exact ⟨le_rfl, by omega, hj, fun x hx hxj => absurd hx (by omega)⟩
    | none =>
      have hn := ih (j + 1)
      rw [add_right_comm] at hn
      refine hn.extend (by omega) fun x hx hxj => ?_
      rwa [show x = j by omega]

theorem nextChunk_spec (hh : h.single = false) (hp : ∀ i, h.size ≤ i → h.anonGetPtr i = none) (hn : h.size ≤ i + n) :
    IsNext h.anonGetPtr h.size i (h.nextChunk n i (i % 2 ^ w)) := by
  induction n generalizing i with
  | zero => exact ⟨rfl, fun x hx hxs => absurd hx (by omega)⟩
  | succ n ih =>
    have hsp := mod_add_div i (2 ^ w)
    rw [AnonHdr.nextChunk, shiftRight_eq_div_pow, shiftRight_eq_div_pow, shiftLeft_eq,
      Nat.add_div_right _ (Nat.two_pow_pos w), Nat.mul_comm]
    -- the pointers up to the end of the chunk
    have hg {x : ℕ} (hx : i ≤ x) (hxe : x < 2 ^ w * (i / 2 ^ w) + 2 ^ w) :
        h.anonGetPtr x = (h.chunks (i / 2 ^ w)).bind fun app => app (i % 2 ^ w + (x - i)) := by
      obtain ⟨hq, hr⟩ := chunk_add w i (x - i) (by omega)
      rw [add_sub_of_le hx] at hq hr
      rw [AnonHdr.getPtr_chunk hh, hq, hr]
    split
    · have hrs (hnn : ∀ x, i ≤ x → x < 2 ^ w * (i / 2 ^ w) + 2 ^ w → h.anonGetPtr x = none) :
          IsNext h.anonGetPtr h.size i (h.nextChunk n (2 ^ w * (i / 2 ^ w) + 2 ^ w) 0) := by
        have hnx := ih (i := 2 ^ w * (i / 2 ^ w) + 2 ^ w) (by omega)
        rw [add_mod_right, mul_mod_right] at hnx
        exact hnx.extend (by omega) hnn
      cases hc : h.chunks (i / 2 ^ w) with
      | none => exact hrs fun x hx hxe => by rw [hg hx hxe, hc]; rfl
      | some app =>
        have hs := scan_spec app (2 ^ w - i % 2 ^ w) (i % 2 ^ w)
        rw [Option.bind_some]
        cases hsc : scan app (2 ^ w - i % 2 ^ w) (i % 2 ^ w) with
        | none =>
          rw [hsc] at hs
          refine hrs fun x hx hxe => ?_
          rw [hg hx hxe, hc]
          exact hs.2 _ (by omega) (by omega)
        | some r =>
          obtain ⟨ap, j⟩ := r
          rw [hsc] at hs
          obtain ⟨hle, hlt, ha, hb⟩ := hs
          have hk : h.anonGetPtr (i + (j - i % 2 ^ w)) = some ap := by
            rw [hg (by omega) (by omega), hc, Option.bind_some, ← ha]
            congr 1
            omega
          refine ⟨by omega, ?_, hk, fun x hx hxk => ?_⟩
          · by_contra hge
            rw [hp _ (by omega)] at hk
            cases hk
          · rw [hg hx (by omega), hc]
            exact hb _ (by omega) (by omega)
    · exact ⟨rfl, fun x hx hxs => absurd hx (by omega)⟩

theorem anonGetNextPtr_spec (hp : ∀ i, h.size ≤ i → h.anonGetPtr i = none) (hi : i ≤ h.size) :
    IsNext h.anonGetPtr h.size i (h.anonGetNextPtr i) := by
  rw [AnonHdr.anonGetNextPtr]
  split
  next hh =>
    have hs := scan_spec h.pages (h.size - i) i
    rw [AnonHdr.getPtr_single hh]
    rw [add_sub_of_le hi] at hs
    split <;> rename_i hr <;> rwa [hr] at hs
  next hh =>
    rw [Bool.not_eq_true] at hh
    rw [and_chunkOff]
    exact nextChunk_spec hh hp (by omega)

/-! ### Copies -/

theorem bcopy_zero (f g : ℕ → Option A) (s d : ℕ) : bcopy f s g d 0 = g := funext fun _ => if_neg (by omega)

theorem bcopy_append (f g : ℕ → Option A) (s d a b : ℕ) :
    bcopy f (s + a) (bcopy f s g d a) (d + a) b = bcopy f s g d (a + b) := by
  funext i
  simp only [bcopy]
  split_ifs <;> first | omega | rfl | (congr 1; omega)

theorem bcopy_one (f g : ℕ → Option A) (s d : ℕ) : bcopy f s g d 1 = update g d (f s) := by
  funext i
  rw [bcopy, update_apply]
  by_cases hi : i = d
  · simp [hi]
  · rw [if_neg hi, if_neg (by omega)]

theorem bcopy_none {g : ℕ → Option A} (hf : ∀ j < n, f (s + j) = none) (hg : ∀ j < n, g (d + j) = none) :
    bcopy f s g d n = g := by
  funext i
  rw [bcopy]
  split
  next hi =>
    have hgi := hg (i - d) (by omega)
    rw [add_sub_of_le hi.1] at hgi
    rw [hf (i - d) (by omega), hgi]
  · rfl

def Copied (sahp : AnonHdr w A) (s d n : ℕ) (dahp dahp' : AnonHdr w A) : Prop :=
  Alike dahp dahp' ∧ dahp'.anonGetPtr = bcopy sahp.anonGetPtr s dahp.anonGetPtr d n

theorem copied_zero : Copied sahp s d 0 dahp dahp := ⟨⟨rfl, rfl⟩, (bcopy_zero ..).symm⟩

theorem Copied.trans {x : AnonHdr w A} (hx : Copied sahp s d k dahp x) (hk : k ≤ n)
    (hn : ∀ j < n, dahp.anonGetPtr (d + j) = none)
    (hr : (∀ j < n - k, x.anonGetPtr (d + k + j) = none) → Copied sahp (s + k) (d + k) (n - k) x dahp') :
    Copied sahp s d n dahp dahp' := by
  obtain ⟨⟨hs, hf⟩, hg⟩ := hx
  have hb : ∀ j < n - k, x.anonGetPtr (d + k + j) = none := by
    intro j hj
    rw [hg, bcopy, if_neg (by omega), add_assoc]
    exact hn (k + j) (by omega)
  obtain ⟨⟨hs', hf'⟩, hg'⟩ := hr hb
  refine ⟨⟨hs'.trans hs, hf'.trans hf⟩, ?_⟩
  rw [hg', hg, bcopy_append, add_sub_of_le hk]

theorem copyEach_spec (hn : ∀ j < n, dahp.anonGetPtr (d + j) = none)
    (hc : copyEach sahp mem n s d dahp = (true, dahp')) : Copied sahp s d n dahp dahp' := by
  induction n generalizing s d dahp with
  | zero =>
    cases hc
    exact copied_zero
  | succ n ih =>
    rw [copyEach] at hc
    split at hc
    next hs =>
      refine Copied.trans (k := 1) ⟨⟨rfl, rfl⟩, ?_⟩ (by omega) hn fun hr => ih hr hc
      rw [bcopy_one, hs, ← hn 0 (by omega), add_zero, update_eq_self]
    next ap hs =>
      split at hc
      · cases hc
      next x ht =>
        obtain ⟨ha, hg⟩ := anonSetPtr_spec ht
        exact Copied.trans (k := 1) ⟨ha, by rw [hg, bcopy_one, hs]⟩ (by omega) hn fun hr => ih hr hc

theorem copied_chunk (hs : sahp.single = false) (hd : dahp.single = false) {sap dap : ℕ → Option A}
    (hsa : sahp.chunks (s / 2 ^ w) = some sap) (hp : (dahp.chunks (d / 2 ^ w)).or (kmemZalloc m) = some dap)
    (hk : s % 2 ^ w + k ≤ 2 ^ w) (hdk : d % 2 ^ w + k ≤ 2 ^ w) :
    Copied sahp s d k dahp (dahp.setChunk (d / 2 ^ w) (bcopy sap (s % 2 ^ w) dap (d % 2 ^ w) k)) := by
  refine ⟨⟨rfl, rfl⟩, funext fun i => ?_⟩
  have hsp := mod_add_div d (2 ^ w)
  have hi := mod_add_div i (2 ^ w)
  rw [AnonHdr.getPtr_setChunk hd, bcopy, bcopy]
  split
  next hq =>
    rw [hq] at hi
    by_cases hr : d ≤ i ∧ i < d + k
    · obtain ⟨hsq, hsr⟩ := chunk_add w s (i - d) (by omega)
      rw [if_pos hr, if_pos (by omega), AnonHdr.getPtr_chunk hs, hsq, hsa]
      congr 1
      omega
    · rw [if_neg hr, if_neg (by omega), AnonHdr.getPtr_alloc hd hp hq]
  next hq =>
    rw [if_neg]
    intro hr
    have ha := (chunk_add w d (i - d) (by omega)).1
    rw [add_sub_of_le hr.1] at ha
    exact hq ha

theorem copyChunks_spec (hs : sahp.single = false) (hd : dahp.single = false)
    (hl : ∀ j < n, dahp.anonGetPtr (d + j) = none) (hk : n ≤ k)
    (hc : copyChunks sahp mem k s d n dahp = (true, dahp')) : Copied sahp s d n dahp dahp' := by
  induction k generalizing s d n dahp with
  | zero =>
    cases hc
    obtain rfl : n = 0 := by omega
    exact copied_zero
  | succ k ih =>
    rw [copyChunks, and_chunkOff, and_chunkOff, shiftRight_eq_div_pow, shiftRight_eq_div_pow] at hc
    split at hc
    next hn =>
      cases hc
      rw [hn]
      exact copied_zero
    next hn =>
      dsimp only at hc
      generalize hh : min (2 ^ w - max (s % 2 ^ w) (d % 2 ^ w)) n = chknp at hc
      split at hc
      next hp =>
        refine Copied.trans ⟨⟨rfl, rfl⟩, (bcopy_none (fun j hj => ?_) fun j hj => hl j (by omega)).symm⟩ (by omega) hl
          fun hr => ih hd hr (by omega) hc
        rw [AnonHdr.getPtr_chunk hs, (chunk_add w s j (by omega)).1, hp]
        rfl
      next sap hp =>
        split at hc
        · cases hc
        next dap hdp =>
          have hrn := copied_chunk hs hd hp hdp (k := chknp) (by omega) (by omega)
          exact hrn.trans (by omega) hl fun hr => ih hd hr (by omega) hc

theorem anonCopyPtr_spec (hn : ∀ j < n, dahp.anonGetPtr (d + j) = none)
    (hc : anonCopyPtr sahp mem s dahp d n = (true, dahp')) : Copied sahp s d n dahp dahp' := by
  rw [anonCopyPtr] at hc
  split at hc
  next hf =>
    cases hc
    have hs : sahp.single = true := by simp only [AnonHdr.single]; grind -ring -linarith
    have hd : dahp.single = true := by simp only [AnonHdr.single]; grind -ring -linarith
    rw [Copied, AnonHdr.getPtr_single hs, AnonHdr.getPtr_single hd]
    exact ⟨⟨rfl, rfl⟩, AnonHdr.getPtr_single hd⟩
  · split at hc
    next hp =>
      have hs : sahp.single = false := by simp only [AnonHdr.single]; grind -ring -linarith
      have hd : dahp.single = false := by simp only [AnonHdr.single]; grind -ring -linarith
      exact copyChunks_spec hs hd hn le_rfl hc
    · exact copyEach_spec hn hc

/-! ### Calls that can wait for memory succeed -/

theorem alloc_true (o : Option (ℕ → Option A)) : ∃ app, o.or (kmemZalloc true) = some app := by
  cases o <;> exact ⟨_, rfl⟩

theorem anonSetPtr_sleep (h : AnonHdr w A) (i : ℕ) (ap : Option A) : ∃ h', h.anonSetPtr i ap true = some h' := by
  obtain ⟨app, ha⟩ := alloc_true (h.chunks (i >>> w))
  rw [AnonHdr.anonSetPtr, ha]
  split <;> exact ⟨_, rfl⟩

theorem copyEach_sleep : (copyEach sahp (fun _ => true) n s d dahp).1 = true := by
  induction n generalizing s d dahp with
  | zero => rfl
  | succ n ih =>
    rw [copyEach]
    split
    · exact ih
    next ap _ =>
      obtain ⟨x, hx⟩ := anonSetPtr_sleep dahp d (some ap)
      rw [hx]
      exact ih

theorem copyChunks_sleep : (copyChunks sahp (fun _ => true) k s d n dahp).1 = true := by
  induction k generalizing s d n dahp with
  | zero => rfl
  | succ k ih =>
    obtain ⟨dap, hd⟩ := alloc_true (dahp.chunks (d >>> w))
    simp only [copyChunks, hd]
    split
    · rfl
    · split <;> exact ih

theorem anonCopyPtr_sleep : (anonCopyPtr sahp (fun _ => true) s dahp d n).1 = true := by
  rw [anonCopyPtr]
  split
  · rfl
  · split
    · exact copyChunks_sleep
    · exact copyEach_sleep

/-! ### Arrays -/

/-- The arrays that successful calls build, and the flat arrays they stand for. -/
inductive Built : AnonHdr w A → (ℕ → Option A) → Prop
  | create (npages : ℕ) (force : Bool) : Built (anonCreate npages force) fun _ => none
  | set {h h' : AnonHdr w A} {f : ℕ → Option A} {i : ℕ} {ap : Option A} {mem : Bool} (hh : Built h f)
    (hi : i < h.size) (hset : h.anonSetPtr i ap mem = some h') : Built h' (update f i ap)
  | copy {sahp dahp dahp' : AnonHdr w A} {f g : ℕ → Option A} {s d npages : ℕ} {mem : ℕ → Bool} (hs : Built sahp f)
    (hd : Built dahp g) (hsn : s + npages ≤ sahp.size) (hdn : d + npages ≤ dahp.size)
    (hnull : ∀ j < npages, dahp.anonGetPtr (d + j) = none)
    (hcopy : anonCopyPtr sahp mem s dahp d npages = (true, dahp')) :
    Built dahp' fun i => if d ≤ i ∧ i < d + npages then f (s + (i - d)) else g i

theorem Built.spec (hh : Built h f) : h.anonGetPtr = f ∧ ∀ i, h.size ≤ i → f i = none := by
  induction hh with
  | create npages force =>
    refine ⟨funext fun i => ?_, fun _ _ => rfl⟩
    rw [AnonHdr.anonGetPtr]
    split <;> rfl
  | set _ hi ht ih =>
    obtain ⟨⟨hs, -⟩, hg⟩ := anonSetPtr_spec ht
    refine ⟨by rw [hg, ih.1], fun j hj => ?_⟩
    rw [update_of_ne (by omega)]
    exact ih.2 j (by omega)
  | copy _ _ hsn hd hn hc ihs ihd =>
    obtain ⟨⟨hs, -⟩, hg⟩ := anonCopyPtr_spec hn hc
    refine ⟨?_, fun j hj => ?_⟩
    · rw [hg, ihs.1, ihd.1]
      rfl
    · dsimp only
      rw [if_neg (by omega)]
      exact ihd.2 j (by omega)

/-- Arrays of either kind behave as flat arrays. -/
theorem anon_flat (hh : Built h f) :
    (∀ i, h.anonGetPtr i = f i) ∧ (∀ i < h.size, IsNext f h.size i (h.anonGetNextPtr i)) ∧
      ∀ sahp g s d n, Built sahp g → s + n ≤ sahp.size → d + n ≤ h.size → (∀ j < n, f (d + j) = none) →
        (anonCopyPtr sahp (fun _ => true) s h d n).1 = true ∧
        ∀ mem h', anonCopyPtr sahp mem s h d n = (true, h') →
          ∀ i, h'.anonGetPtr i = if d ≤ i ∧ i < d + n then g (s + (i - d)) else f i := by
  obtain ⟨rfl, hp⟩ := hh.spec
  refine ⟨fun _ => rfl, fun i hi => anonGetNextPtr_spec hp hi.le, ?_⟩
  intro sahp g s d n hs _ _ hn
  refine ⟨anonCopyPtr_sleep, fun mem h' hc i => ?_⟩
  rw [(anonCopyPtr_spec hn hc).2, hs.spec.1]
  rfl

theorem anon_flat_threeChunks : ∃ h : AnonHdr 1 ℕ, Built h (update (fun _ => none) 3 (some 7)) ∧ h.single = false ∧
    h.anonGetPtr 3 = some 7 ∧ IsNext (update (fun _ => none) 3 (some 7)) 5 0 (h.anonGetNextPtr 0) := by
  have hc : Built (anonCreate 5 false : AnonHdr 1 ℕ) fun _ => none := .create 5 false
  obtain ⟨h, hs⟩ := anonSetPtr_sleep (anonCreate 5 false : AnonHdr 1 ℕ) 3 (some 7)
  have hh := hc.set (by decide) hs
  cases hs
  exact ⟨_, hh, rfl, (anon_flat hh).1 3, (anon_flat hh).2.1 0 (by decide)⟩

end Sol8.Vm.Anon
