import Sol8.Syscall.SemUndo

/-! The loop of `semexit` over the undo entries of a process, while other processes reset and remove semaphores
(`syscall/sem.c`). A step is one round of the loop under the lock of the set, or one call of `semctl`. -/

namespace Sol8.Syscall.SemExit

open Function Sol8.Lib Sol8.Syscall.SemUndo

/-- `struct sem_undo`: `un_cnt` and `un_ent`. What is behind the last entry stays where it is. -/
structure Table where
  cnt : ℕ
  ent : ℕ → Undo

/-- The entries behind `j` move down by one. -/
def squeezeLoop (cnt : ℕ) : ℕ → ℕ → (ℕ → Undo) → ℕ → Undo
  | 0, _, ent => ent
  | n + 1, j, ent => if j + 1 < cnt then squeezeLoop cnt n (j + 1) (update ent j (ent (j + 1))) else ent

def squeeze (t : Table) (i : ℕ) : Table := ⟨t.cnt - 1, squeezeLoop t.cnt t.cnt i t.ent⟩

/-- The loop of `semunrm` over one structure, from the entry `i` on; each round passes an entry or squeezes one out. -/
def semunrmLoop (id : ℤ) (low high : ℕ) : ℕ → ℕ → Table → Table
  | 0, _, t => t
  | n + 1, i, t =>
    if i < t.cnt then
      if id < (t.ent i).id then t
      else if id > (t.ent i).id ∨ low > (t.ent i).num then semunrmLoop id low high n (i + 1) t
      else if high < (t.ent i).num then t
      else semunrmLoop id low high n i (squeeze t i)
    else t

/-- What has happened to a semaphore since the process began to exit. -/
inductive Mark
  | added (id : ℤ) (num : ℕ)
  | reset (id : ℤ) (low high : ℕ)
deriving DecidableEq, Repr

/-- The system, and the process that exits with the index of its loop. -/
structure World (P : Type) where
  semunp : List P
  table : P → Table
  semval : ℤ → ℕ → ℤ
  nsems : ℤ → ℕ
  /-- `semconv_lock` finds the set -/
  live : ℤ → Bool
  i : ℕ
  trace : List Mark

inductive Cmd
  | rmid
  | setval (num : ℕ) (v : ℤ)
  | setall (vals : ℕ → ℤ)

inductive Event
  | round
  | semctl (id : ℤ) (cmd : Cmd)
  | finish

variable {P : Type} [DecidableEq P] {C : Undo → Prop}

/-- Structures without entries leave the list of active ones. -/
def semunrm (w : World P) (id : ℤ) (low high : ℕ) : World P :=
  let table := fun p => if p ∈ w.semunp then semunrmLoop id low high (w.table p).cnt 0 (w.table p) else w.table p
  { w with table := table, semunp := w.semunp.filter fun p => (table p).cnt ≠ 0 }

/-- The semaphores of a set that a command resets. -/
def Cmd.low : Cmd → ℕ
  | .setval num _ => num
  | _ => 0

def Cmd.high (nsems : ℕ) : Cmd → ℕ
  | .setval num _ => num
  | _ => nsems

/-- The part of `semctl` for `IPC_RMID`, `SETVAL` and `SETALL` by a process that may. -/
def semctl (semvmx : ℤ) (w : World P) (id : ℤ) (cmd : Cmd) : Option (World P) :=
  if w.live id then
    let w' := semunrm w id cmd.low (cmd.high (w.nsems id))
    let w' := { w' with trace := w.trace ++ [Mark.reset id cmd.low (cmd.high (w.nsems id))] }
    match cmd with
    | .rmid => some { w' with
        semval := update w.semval id fun num => if num < w.nsems id then 0 else w.semval id num
        live := update w.live id false }
    | .setval num v =>
      if num < w.nsems id ∧ 0 ≤ v ∧ v ≤ semvmx then
        some { w' with semval := update w.semval id (update (w.semval id) num (ushort v)) }
      else none
    | .setall vals =>
      if ∀ num < w.nsems id, 0 ≤ vals num ∧ vals num ≤ semvmx then
        some { w' with semval := update w.semval id fun num => if num < w.nsems id then vals num else w.semval id num }
      else none
  else none

def semexitRound (semvmx : ℤ) (me : P) (w : World P) : Option (World P) :=
  match w.i with
  | 0 => none
  | i + 1 =>
    let e := (w.table me).ent i
    let w := { w with i := i }
    if w.live e.id then
      let v := w.semval e.id e.num + e.aoe
      if v < 0 ∨ v > semvmx then some w
      else some { w with
        semval := update w.semval e.id (update (w.semval e.id) e.num (ushort v))
        trace := w.trace ++ [.added e.id e.num] }
    else some w

def exec (semvmx : ℤ) (me : P) (w : World P) : Event → Option (World P)
  | .round => semexitRound semvmx me w
  | .semctl id cmd => semctl semvmx w id cmd
  | .finish =>
    if w.i = 0 then some { w with
      table := update w.table me { w.table me with cnt := 0 }
      semunp := w.semunp.erase me }
    else none

/-! ### What `semunrm` leaves alone -/

section Tables

variable {t : Table} {id : ℤ} {low high n i j k p : ℕ}

/-- The entry is for one of the semaphores. -/
def Matches (id : ℤ) (low high : ℕ) (e : Undo) : Prop := e.id = id ∧ low ≤ e.num ∧ e.num ≤ high

theorem squeezeLoop_eq {cnt : ℕ} {ent : ℕ → Undo} (hn : cnt ≤ n + j + 1) :
    squeezeLoop cnt n j ent k = if j ≤ k ∧ k + 1 < cnt then ent (k + 1) else ent k := by
  induction n generalizing j ent with
  | zero =>
    have ht : ¬ (j ≤ k ∧ k + 1 < cnt) := by omega
    rw [squeezeLoop, if_neg ht]
  | succ n ih =>
    rw [squeezeLoop]
    by_cases hj : j + 1 < cnt
    · rw [if_pos hj, ih (by omega)]
      rcases Nat.lt_trichotomy k j with hlt | rfl | hgt
      · have h1 : ¬ (j + 1 ≤ k ∧ k + 1 < cnt) := by omega
        have h2 : ¬ (j ≤ k ∧ k + 1 < cnt) := by omega
        rw [if_neg h1, if_neg h2, update_of_ne (by omega)]
      · have h1 : ¬ (k + 1 ≤ k ∧ k + 1 < cnt) := by omega
        rw [if_neg h1, if_pos ⟨le_rfl, hj⟩, update_self]
      · have hf : (j + 1 ≤ k ∧ k + 1 < cnt) ↔ (j ≤ k ∧ k + 1 < cnt) := by omega
        simp only [hf]
        rw [update_of_ne (by omega), update_of_ne (by omega)]
    · have ht : ¬ (j ≤ k ∧ k + 1 < cnt) := by omega
      rw [if_neg hj, if_neg ht]

theorem squeeze_ent : (squeeze t i).ent k = if i ≤ k ∧ k + 1 < t.cnt then t.ent (k + 1) else t.ent k :=
  squeezeLoop_eq (by omega)

/-- Entries stay where they are in front of the first one that is squeezed out. -/
theorem semunrmLoop_below (hp : p ≤ t.cnt) (hn : ∀ k, i ≤ k → k < p → ¬ Matches id low high (t.ent k)) :
    p ≤ (semunrmLoop id low high n i t).cnt ∧ ∀ k < p, (semunrmLoop id low high n i t).ent k = t.ent k := by
  induction n generalizing i t with
  | zero => exact ⟨hp, fun k _ => rfl⟩
  | succ n ih =>
    rw [semunrmLoop]
    split <;> rename_i hi
    · split
      · exact ⟨hp, fun k _ => rfl⟩
      split
      · exact ih hp fun k hk hkp => hn k (by omega) hkp
      split
      · exact ⟨hp, fun k _ => rfl⟩
      · next h1 h2 h3 =>
        -- the entry at `i` matches, so it is not in front of `p`
        have hge : p ≤ i := by
          by_contra hlt
          exact hn i le_rfl (by omega) ⟨by omega, by omega, by omega⟩
        have hs : ∀ k < p, (squeeze t i).ent k = t.ent k := fun k hk => by
          rw [squeeze_ent, if_neg (by omega)]
        have hcn : (squeeze t i).cnt = t.cnt - 1 := rfl
        obtain ⟨hc, he⟩ := ih (i := i) (t := squeeze t i) (by omega) fun k hk hkp => by omega
        exact ⟨hc, fun k hk => (he k hk).trans (hs k hk)⟩
    · exact ⟨hp, fun k _ => rfl⟩

/-- What is behind the last entry stays as it is, and what all entries from `p` on have in common is kept. -/
theorem semunrmLoop_above {c : ℕ} (hn : t.cnt ≤ c) (hc : ∀ k, p ≤ k → k < c → C (t.ent k)) :
    (∀ k, c ≤ k → (semunrmLoop id low high n i t).ent k = t.ent k) ∧
      ∀ k, p ≤ k → k < c → C ((semunrmLoop id low high n i t).ent k) := by
  induction n generalizing i t with
  | zero => exact ⟨fun k _ => rfl, hc⟩
  | succ n ih =>
    rw [semunrmLoop]
    split <;> rename_i hi
    · split
      · exact ⟨fun k _ => rfl, hc⟩
      split
      · exact ih hn hc
      split
      · exact ⟨fun k _ => rfl, hc⟩
      · have hc' : (squeeze t i).cnt ≤ c := (Nat.sub_le t.cnt 1).trans hn
        obtain ⟨hs, hp⟩ := ih (i := i) (t := squeeze t i) hc' fun k hk hkc => by
          rw [squeeze_ent]
          split
          · exact hc (k + 1) (by omega) (by omega)
          · exact hc k hk hkc
        refine ⟨fun k hk => (hs k hk).trans ?_, hp⟩
        rw [squeeze_ent, if_neg (by omega)]
    · exact ⟨fun k _ => rfl, hc⟩

end Tables

/-! ### Whole runs -/

/-- An entry is added once at most, and not after its semaphore was reset or removed. -/
def OnceOnly (trace : List Mark) : Prop :=
  ∀ t₁ t₂ id num, trace = t₁ ++ .added id num :: t₂ →
    .added id num ∉ t₁ ∧ ∀ low high, low ≤ num → num ≤ high → .reset id low high ∉ t₁

/-- The process has entries for different semaphores, and its loop is about to start. -/
def Init (me : P) (w : World P) : Prop :=
  me ∈ w.semunp ∧ w.i = (w.table me).cnt ∧ w.trace = [] ∧ ∀ k k', k < k' → k' < (w.table me).cnt →
      ((w.table me).ent k).id ≠ ((w.table me).ent k').id ∨ ((w.table me).ent k).num ≠ ((w.table me).ent k').num

/-- No entry that the loop has still to visit is for a semaphore that is reset or removed, or a set is removed whose
entries are the last ones of the table. -/
def Quiet (me : P) (w : World P) : Event → Prop
  | .semctl id cmd =>
    (∀ k < w.i, k < (w.table me).cnt → ¬ Matches id cmd.low (cmd.high (w.nsems id)) ((w.table me).ent k)) ∨
      cmd = .rmid ∧ ∀ k k', k ≤ k' → k' < (w.table me).cnt →
        Matches id cmd.low (cmd.high (w.nsems id)) ((w.table me).ent k) →
        Matches id cmd.low (cmd.high (w.nsems id)) ((w.table me).ent k')
  | _ => True

def Step (semvmx : ℤ) (me : P) (w w' : World P) : Prop := ∃ e, Quiet me w e ∧ exec semvmx me w e = some w'

/-- The semaphore of an entry has not been touched, so it may be added. -/
def Fresh (trace : List Mark) (e : Undo) : Prop :=
  .added e.id e.num ∉ trace ∧ ∀ low high, low ≤ e.num → e.num ≤ high → .reset e.id low high ∉ trace

/-- What is still to be visited is dead, or fresh and unlike the rest. -/
structure Inv (me : P) (w : World P) : Prop where
  once : OnceOnly w.trace
  fresh : ∀ k < w.i, w.live ((w.table me).ent k).id = true → Fresh w.trace ((w.table me).ent k)
  distinct : ∀ k k', k < k' → k' < w.i → w.live ((w.table me).ent k).id = true →
    ((w.table me).ent k).id ≠ ((w.table me).ent k').id ∨ ((w.table me).ent k).num ≠ ((w.table me).ent k').num
  stale : ∀ k < w.i, (w.table me).cnt ≤ k → w.live ((w.table me).ent k).id = false

section Runs

variable {w w' : World P} {me : P} {semvmx : ℤ} {trace : List Mark} {p : ℕ}

/-- A new mark keeps the law of the trace if it is not of an entry, or of one that is fresh. -/
theorem OnceOnly.snoc {m : Mark} (h : OnceOnly trace) (hm : ∀ id num, m = .added id num →
      .added id num ∉ trace ∧ ∀ low high, low ≤ num → num ≤ high → .reset id low high ∉ trace) :
    OnceOnly (trace ++ [m]) := by
  intro t1 t2 id num heq
  rcases List.eq_nil_or_concat t2 with rfl | ⟨t2, m', rfl⟩
  · obtain ⟨rfl, hl⟩ := List.append_inj' heq rfl
    exact hm id num (List.singleton_inj.mp hl)
  · rw [List.concat_eq_append, ← List.cons_append, ← List.append_assoc] at heq
    obtain ⟨heq, -⟩ := List.append_inj' heq rfl
    exact h t1 t2 id num heq

omit [DecidableEq P] in
theorem Inv.round (h : Inv me w) (he : semexitRound semvmx me w = some w') : Inv me w' := by
  rw [semexitRound] at he
  split at he
  · cases he
  next i hi =>
    obtain ⟨e, hen⟩ : ∃ e, e = (w.table me).ent i := ⟨_, rfl⟩
    rw [← hen] at he
    -- the loop goes on without a new mark
    have hlt : ∀ k, k < i → k < w.i := by omega
    have hs : Inv me { w with i := i } :=
      ⟨h.once, fun k hk => h.fresh k (hlt k hk), fun k k' hkk hk' => h.distinct k k' hkk (hlt k' hk'),
        fun k hk => h.stale k (hlt k hk)⟩
    dsimp only at he
    split at he
    next hv =>
      split at he
      · cases he
        exact hs
      · cases he
        have hf : Fresh w.trace e := hen ▸ h.fresh i (by omega) (hen ▸ hv)
        refine ⟨h.once.snoc ?_, fun k hk hl => ?_, hs.distinct, hs.stale⟩
        · rintro id num ⟨⟩
          exact hf
        · obtain ⟨ha, hr⟩ := hs.fresh k hk hl
          have hne := h.distinct k i hk (by omega) hl
          rw [← hen] at hne
          refine ⟨?_, fun low high ho hh => ?_⟩
          · simp only [List.mem_append, List.mem_singleton, Mark.added.injEq, not_or, not_and]
            exact ⟨ha, fun hd hn => hne.elim (fun hc => hc hd) fun hc => hc hn⟩
          · simpa using hr low high ho hh
    · cases he
      exact hs

/-- What a command of `semctl` does to the table, the sets and the trace. -/
structure Reset (w w' : World P) (id : ℤ) (cmd : Cmd) : Prop where
  table : w'.table = (semunrm w id cmd.low (cmd.high (w.nsems id))).table
  i : w'.i = w.i
  trace : w'.trace = w.trace ++ [.reset id cmd.low (cmd.high (w.nsems id))]
  live : ∀ id', w'.live id' = true → w.live id' = true
  gone : cmd = .rmid → w'.live id = false

theorem semctl_reset {id : ℤ} {cmd : Cmd} (he : semctl semvmx w id cmd = some w') : Reset w w' id cmd := by
  rw [semctl] at he
  split at he
  next hv =>
    cases cmd with
    | rmid =>
      cases he
      refine ⟨rfl, rfl, rfl, fun id' hl => ?_, fun _ => update_self ..⟩
      by_cases hd : id' = id
      · simpa [hd] using hv
      · simpa [hd] using hl
    | setval | setall =>
      dsimp only at he
      split at he
      · cases he
        exact ⟨rfl, rfl, rfl, fun _ hl => hl, nofun⟩
      · cases he
  · cases he

variable {id : ℤ} {cmd : Cmd}

/-- A reset keeps the invariant if in front of some place it changes nothing that is pending, and behind it every
entry is of a set that is gone. -/
theorem Inv.reset (h : Inv me w) (hr : Reset w w' id cmd) (hp : p ≤ (w'.table me).cnt)
    (hb : ∀ k < p, (w'.table me).ent k = (w.table me).ent k ∧
      ¬ Matches id cmd.low (cmd.high (w.nsems id)) ((w.table me).ent k))
    (ha : ∀ k, p ≤ k → k < w.i → w'.live ((w'.table me).ent k).id = false) : Inv me w' := by
  have hf : ∀ k < w.i, w'.live ((w'.table me).ent k).id = true → k < p := by
    intro k hk hl
    by_contra hle
    rw [ha k (by omega) hk] at hl
    cases hl
  refine ⟨?_, fun k hk hl => ?_, fun k k' hkk hk' hl => ?_, fun k hk hc => ?_⟩
  · rw [hr.trace]
    exact h.once.snoc nofun
  · rw [hr.i] at hk
    obtain ⟨heq, hn⟩ := hb k (hf k hk hl)
    have hl' := hr.live _ hl
    rw [heq] at hl' ⊢
    obtain ⟨had, hrs⟩ := h.fresh k hk hl'
    rw [hr.trace]
    refine ⟨by simpa using had, fun low high ho hh => ?_⟩
    simp only [List.mem_append, List.mem_singleton, Mark.reset.injEq, not_or]
    refine ⟨hrs low high ho hh, ?_⟩
    rintro ⟨hd, rfl, rfl⟩
    exact hn ⟨hd, ho, hh⟩
  · rw [hr.i] at hk'
    have hkp := hf k (by omega) hl
    by_cases hk'p : k' < p
    · have hl' := hr.live _ hl
      rw [(hb k hkp).1] at hl' ⊢
      rw [(hb k' hk'p).1]
      exact h.distinct k k' hkk hk' hl'
    · refine .inl fun hd => ?_
      rw [hd, ha k' (by omega) hk'] at hl
      cases hl
  · rw [hr.i] at hk
    exact ha k (hp.trans hc) hk

theorem Reset.table_cases (hr : Reset w w' id cmd) (me : P) : w'.table me = w.table me ∨ w'.table me =
      semunrmLoop id cmd.low (cmd.high (w.nsems id)) (w.table me).cnt 0 (w.table me) := by
  rw [hr.table, semunrm]
  dsimp only
  split
  · exact .inr rfl
  · exact .inl rfl

/-- In front of the first entry that matches nothing changes, and behind the last entry neither. -/
theorem Reset.frame (hr : Reset w w' id cmd) (me : P) (hp : p ≤ (w.table me).cnt)
    (hn : ∀ k < p, ¬ Matches id cmd.low (cmd.high (w.nsems id)) ((w.table me).ent k))
    (hc : ∀ k, p ≤ k → k < (w.table me).cnt → C ((w.table me).ent k)) :
    p ≤ (w'.table me).cnt ∧ (∀ k < p, (w'.table me).ent k = (w.table me).ent k) ∧
      (∀ k, (w.table me).cnt ≤ k → (w'.table me).ent k = (w.table me).ent k) ∧
      ∀ k, p ≤ k → k < (w.table me).cnt → C ((w'.table me).ent k) := by
  rcases hr.table_cases me with heq | heq
  · rw [heq]
    exact ⟨hp, fun _ _ => rfl, fun _ _ => rfl, hc⟩
  · have hb := semunrmLoop_below (n := (w.table me).cnt) (i := 0) hp fun k _ hk => hn k hk
    rw [heq]
    exact ⟨hb.1, hb.2, semunrmLoop_above le_rfl hc⟩

theorem Inv.stale_after (h : Inv me w) (hr : Reset w w' id cmd) {k : ℕ} (hk : k < w.i) (hc : (w.table me).cnt ≤ k)
    (heq : (w'.table me).ent k = (w.table me).ent k) : w'.live ((w'.table me).ent k).id = false := by
  rw [heq]
  by_contra hl
  have hl' := hr.live _ (Bool.eq_true_of_not_eq_false hl)
  rw [h.stale k hk hc] at hl'
  cases hl'

theorem Inv.semctl (h : Inv me w) (hq : Quiet me w (.semctl id cmd)) (he : semctl semvmx w id cmd = some w') :
    Inv me w' := by
  have hr := semctl_reset he
  rcases hq with hn | ⟨hrm, hs⟩
  · -- no pending entry matches: whatever moves is behind the index
    obtain ⟨hp, hb, ha, -⟩ := hr.frame me (p := min w.i (w.table me).cnt) (C := fun _ => True)
      (Nat.min_le_right ..) (fun k hk => hn k (by omega) (by omega)) fun _ _ _ => trivial
    refine h.reset hr hp (fun k hk => ⟨hb k hk, hn k (by omega) (by omega)⟩) fun k hpk hk => ?_
    exact h.stale_after hr hk (by omega) (ha k (by omega))
  · -- the entries of the removed set are the last ones: what is left behind the others are copies of them
    obtain ⟨m, hm, hl, hh⟩ : ∃ m ≤ (w.table me).cnt,
        (∀ k < m, ¬ Matches id cmd.low (cmd.high (w.nsems id)) ((w.table me).ent k)) ∧
        ∀ k, m ≤ k → k < (w.table me).cnt → ((w.table me).ent k).id = id := by
      classical
      by_cases hex : ∃ m < (w.table me).cnt, Matches id cmd.low (cmd.high (w.nsems id)) ((w.table me).ent m)
      · obtain ⟨hlt, ht⟩ := Nat.find_spec hex
        refine ⟨Nat.find hex, hlt.le, fun k hk hc => Nat.find_min hex hk ⟨hk.trans hlt, hc⟩, fun k hk hcn => ?_⟩
        exact (hs _ k hk hcn ht).1
      · exact ⟨_, le_rfl, fun k hk hc => hex ⟨k, hk, hc⟩, fun k hk hcn => by omega⟩
    obtain ⟨hp, hb, ha, hkp⟩ := hr.frame me (C := fun e => e.id = id) hm hl hh
    refine h.reset hr hp (fun k hk => ⟨hb k hk, hl k hk⟩) fun k hpk hk => ?_
    by_cases hcn : k < (w.table me).cnt
    · rw [hkp k hpk hcn]
      exact hr.gone hrm
    · exact h.stale_after hr hk (by omega) (ha k (by omega))

omit [DecidableEq P] in
theorem Init.inv (h : Init me w) : Inv me w := by
  obtain ⟨-, hi, ht, hd⟩ := h
  refine ⟨?_, fun k hk _ => ?_, fun k k' hkk hk' _ => hd k k' hkk (hi ▸ hk'), fun k hk hc => by omega⟩
  · rw [ht]
    intro t1 t2 id num heq
    simp at heq
  · rw [ht]
    exact ⟨List.not_mem_nil, fun _ _ _ _ => List.not_mem_nil⟩

theorem Inv.step (h : Inv me w) (hs : Step semvmx me w w') : Inv me w' := by
  obtain ⟨e, hq, he⟩ := hs
  cases e with
  | round => exact h.round he
  | semctl id cmd => exact h.semctl hq he
  | finish =>
    rw [exec] at he
    split at he
    next hi =>
      cases he
      exact ⟨h.once, fun k hk => absurd hk (by simp [hi]), fun k k' _ hk' => absurd hk' (by simp [hi]),
        fun k hk => absurd hk (by simp [hi])⟩
    · cases he

/-- While the process exits, each of its undo entries is added to its semaphore once at most, and not after a reset or a
removal of the semaphore. -/
theorem entries_added_once (hr : Reachable (Init me) (Step semvmx me) w) : OnceOnly w.trace :=
  (hr.invariant (fun _ => Init.inv) fun _ _ => Inv.step).once

/-- A process with an entry for each of two sets of one semaphore, about to run the loop. -/
def twoSets : World Unit where
  semunp := [()]
  table := fun _ => ⟨2, fun k => if k = 0 then ⟨1, 0, 1⟩ else ⟨1, 0, 2⟩⟩
  semval := fun _ _ => 0
  nsems := fun _ => 1
  live := fun _ => true
  i := 2
  trace := []

theorem init_twoSets : Init () twoSets := by
  refine ⟨List.mem_singleton.mpr rfl, rfl, rfl, fun k k' hk hk' => ?_⟩
  have hc : k' < 2 := hk'
  obtain ⟨rfl, rfl⟩ : k = 0 ∧ k' = 1 := by omega
  exact .inl (by decide)

/-- The set of the last entry is removed before its round; the other entry is added. -/
theorem entries_added_once_removed : ∃ w : World Unit, Reachable (Init ()) (Step 32767 ()) w ∧
    w.semval 1 0 = 1 ∧ w.trace = [.reset 2 0 1, .added 1 0] ∧ OnceOnly w.trace := by
  have hq : Quiet () twoSets (.semctl 2 .rmid) := by
    refine Or.inr ⟨rfl, fun k k' hkk hk' hm => ?_⟩
    have hc : k' < 2 := hk'
    have hk : k ≠ 0 := by
      rintro rfl
      exact absurd hm.1 (by decide)
    obtain ⟨rfl, rfl⟩ : k = 1 ∧ k' = 1 := by omega
    exact hm
  have hin : Reachable (Init ()) (Step 32767 ()) twoSets := .start init_twoSets
  have hr := ((hin.next ⟨.semctl 2 .rmid, hq, rfl⟩).next ⟨.round, trivial, rfl⟩).next ⟨.round, trivial, rfl⟩
  exact ⟨_, hr, by decide, by decide, entries_added_once hr⟩

/-- The set of the first entry is reset when the second has been added: the second moves down to where the loop comes
next, and is added again. -/
theorem entry_added_twice : Init () twoSets ∧ ∃ w : World Unit,
    runList (exec 32767 ()) twoSets [.round, .semctl 1 (.setval 0 5), .round] = some w ∧
    w.semval 2 0 = 2 ∧ w.trace = [.added 2 0, .reset 1 0 0, .added 2 0] ∧ ¬ OnceOnly w.trace := by
  refine ⟨init_twoSets, _, rfl, by decide, by decide, fun ho => ?_⟩
  exact (ho [.added 2 0, .reset 1 0 0] [] 2 0 rfl).1 (List.mem_cons_self ..)

end Runs

end Sol8.Syscall.SemExit
