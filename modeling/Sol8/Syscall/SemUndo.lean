import Sol8.Syscall.Sem

/-! One pass of `semop` over its operations, with the undo entries of the caller (`syscall/sem.c`): the operations are
carried out one by one, and undone again in the opposite order if one of them cannot be. -/

namespace Sol8.Syscall.SemUndo

open Function Sol8.Syscall.Sem List

def short (z : ℤ) : ℤ := z.bmod (2 ^ 16)

def ushort (z : ℤ) : ℤ := z % 2 ^ 16

/-- The fields of `seminfo` that bound values and tables. -/
structure Limits where
  semvmx : ℤ
  semaem : ℤ
  semume : ℕ

structure Undo where
  aoe : ℤ
  num : ℕ
  id : ℤ
deriving DecidableEq, Repr

/-- `sem_undo[p_slot]` with its `un_cnt` entries, and the number of structures on `semfup`. -/
structure Undos where
  slot : Option (List Undo)
  free : ℕ
deriving DecidableEq, Repr

variable (lim : Limits)

/-- The number of entries in front of the place for the semaphore. -/
def search (id : ℤ) (num : ℕ) : List Undo → ℕ
  | [] => 0
  | e :: es => if e.id < id ∨ (e.id = id ∧ e.num < num) then search id num es + 1 else 0

/-- A new entry at the place `i`. -/
def insertEntry (val id : ℤ) (num i : ℕ) (es : List Undo) : Option Errno × List Undo :=
  if es.length ≥ lim.semume then (some .einval, es)
  else (none, es.take i ++ ⟨short (-val), num, id⟩ :: es.drop i)

/-- `semaoe` on the entries of the structure of the process. -/
def semaoeEntries (val id : ℤ) (num : ℕ) (es : List Undo) : Option Errno × List Undo :=
  let i := search id num es
  match es.drop i with
  | [] => insertEntry lim val id num i es
  | uup :: rest =>
    if uup.id = id ∧ uup.num = num then
      let aoe := short (uup.aoe - val)
      if aoe > lim.semaem ∨ aoe < -lim.semaem then
        (some .erange, es.take i ++ { uup with aoe := short (aoe + val) } :: rest)
      else if aoe = 0 then (none, es.take i ++ rest)
      else (none, es.take i ++ { uup with aoe := aoe } :: rest)
    else insertEntry lim val id num i es

def semaoe (val id : ℤ) (num : ℕ) (u : Undos) : Option Errno × Undos :=
  if val = 0 then (none, u)
  else if val > lim.semaem ∨ val < -lim.semaem then (some .erange, u)
  else
    match u.slot with
    | some es =>
      let r := semaoeEntries lim val id num es
      (r.1, { u with slot := some r.2 })
    | none =>
      if u.free = 0 then (some .enospc, u)
      else
        let r := semaoeEntries lim val id num []
        (r.1, ⟨some r.2, u.free - 1⟩)

/-- The values of the set and the undo structures. -/
structure Pass where
  semval : ℕ → ℤ
  undo : Undos

def Pass.addVal (s : Pass) (num : ℕ) (v : ℤ) : Pass :=
  { s with semval := update s.semval num (ushort (s.semval num + v)) }

/-- `semundo` on the operations that were done, the last one first. -/
def semundo (id : ℤ) : List Sembuf → Pass → Pass
  | [], s => s
  | op :: ops, s =>
    if op.semOp = 0 then semundo id ops s
    else
      let s := s.addVal op.semNum (-op.semOp)
      let s := if op.undo then { s with undo := (semaoe lim (short (-op.semOp)) id op.semNum s.undo).2 } else s
      semundo id ops s

inductive Verdict
  | done
  | error (e : Errno)
  | sleep
deriving DecidableEq

/-- `semaoe` for an operation with `SEM_UNDO`. -/
def adjust (id : ℤ) (op : Sembuf) (u : Undos) : Option Errno × Undos :=
  if op.undo then semaoe lim op.semOp id op.semNum u else (none, u)

/-- An operation that cannot be carried out now. -/
def refuse (op : Sembuf) : Verdict := if op.nowait then .error .eagain else .sleep

/-- The loop of `semop` from `check:` on, after the operations of `done` (the last one first). -/
def check (id : ℤ) : List Sembuf → List Sembuf → Pass → Pass × Verdict
  | _, [], s => (s, .done)
  | done, op :: ops, s =>
    if op.semOp > 0 then
      if op.semOp + s.semval op.semNum > lim.semvmx then (semundo lim id done s, .error .erange)
      else
        match adjust lim id op s.undo with
        | (some e, u) => (semundo lim id done { s with undo := u }, .error e)
        | (none, u) => check id (op :: done) ops (Pass.addVal { s with undo := u } op.semNum op.semOp)
    else if op.semOp < 0 then
      if s.semval op.semNum ≥ -op.semOp then
        match adjust lim id op s.undo with
        | (some e, u) => (semundo lim id done { s with undo := u }, .error e)
        | (none, u) => check id (op :: done) ops (Pass.addVal { s with undo := u } op.semNum op.semOp)
      else (semundo lim id done s, refuse op)
    else if s.semval op.semNum ≠ 0 then (semundo lim id done s, refuse op)
    else check id (op :: done) ops s

/-! ### The table of entries -/

/-- The entry belongs before that of the semaphore. -/
def Before (id : ℤ) (num : ℕ) (e : Undo) : Prop := e.id < id ∨ (e.id = id ∧ e.num < num)

/-- Entries are sorted, fit into the structure, and their values are not 0 and within the limit. -/
structure Wf (es : List Undo) : Prop where
  sorted : es.Pairwise fun e e' => Before e'.id e'.num e
  length : es.length ≤ lim.semume
  small : ∀ e ∈ es, e.aoe ≠ 0 ∧ -lim.semaem ≤ e.aoe ∧ e.aoe ≤ lim.semaem

/-- The value of the entry of a semaphore, 0 without one. -/
def aoeOf (es : List Undo) (id : ℤ) (num : ℕ) : ℤ :=
  ((es.find? fun e => e.id = id ∧ e.num = num).map Undo.aoe).getD 0

variable {lim} {es before rest : List Undo} {id val : ℤ} {num : ℕ} {e : Undo} {o : Option Undo} {a z : ℤ}

/-- The entries in front of the one of a semaphore, that one if there is one, and those behind it. -/
structure Split (id : ℤ) (num : ℕ) (before : List Undo) (o : Option Undo) (rest : List Undo) : Prop where
  front : ∀ e ∈ before, Before id num e
  own : ∀ e ∈ o, e.id = id ∧ e.num = num
  behind : ∀ e ∈ rest, id < e.id ∨ (id = e.id ∧ num < e.num)

theorem exists_split (h : es.Pairwise fun e e' => Before e'.id e'.num e) (id : ℤ) (num : ℕ) :
    ∃ before o rest, es = before ++ o.toList ++ rest ∧ Split id num before o rest := by
  induction es with
  | nil => exact ⟨[], none, [], rfl, by simp, by simp, by simp⟩
  | cons e es ih =>
    obtain ⟨hh, ht⟩ := pairwise_cons.mp h
    obtain ⟨before, o, rest, rfl, hs⟩ := ih ht
    simp only [Before] at hh
    by_cases hlt : Before id num e
    · exact ⟨e :: before, o, rest, by simp, forall_mem_cons.mpr ⟨hlt, hs.front⟩, hs.own, hs.behind⟩
    simp only [Before] at hlt
    by_cases heq : e.id = id ∧ e.num = num
    · refine ⟨[], some e, before ++ o.toList ++ rest, by simp, by simp, by simpa using heq, fun e' he' => ?_⟩
      have := hh e' he'
      omega
    · refine ⟨[], none, e :: (before ++ o.toList ++ rest), by simp, by simp, by simp, fun e' he' => ?_⟩
      rcases mem_cons.mp he' with rfl | he'
      · omega
      · have := hh e' he'
        omega

theorem Split.search_eq (h : Split id num before o rest) : search id num (before ++ o.toList ++ rest) = before.length := by
  induction before with
  | nil =>
    cases o with
    | none =>
      cases rest with
      | nil => rfl
      | cons e rest =>
        have hb := h.behind e mem_cons_self
        have hn : ¬ (e.id < id ∨ (e.id = id ∧ e.num < num)) := by omega
        simp [search, hn]
    | some e =>
      have ho := h.own e rfl
      have hn : ¬ (e.id < id ∨ (e.id = id ∧ e.num < num)) := by omega
      simp [search, hn]
  | cons e before ih =>
    have hf : e.id < id ∨ (e.id = id ∧ e.num < num) := h.front e mem_cons_self
    have hr : Split id num before o rest := ⟨fun e' he' => h.front e' (mem_cons_of_mem e he'), h.own, h.behind⟩
    rw [cons_append, cons_append, search, if_pos hf, ih hr, length_cons]

theorem Split.semaoeEntries_none (h : Split id num before none rest) : semaoeEntries lim val id num (before ++ rest) =
      if (before ++ rest).length ≥ lim.semume then (some .einval, before ++ rest)
      else (none, before ++ ⟨short (-val), num, id⟩ :: rest) := by
  have hs : search id num (before ++ rest) = before.length := by simpa using h.search_eq
  simp only [semaoeEntries, hs, drop_left', insertEntry, take_left']
  cases rest with
  | nil => rfl
  | cons e rest =>
    have hb := h.behind e mem_cons_self
    have hn : ¬ (e.id = id ∧ e.num = num) := by omega
    simp [hn]

theorem Split.semaoeEntries_some (h : Split id num before (some e) rest) :
    semaoeEntries lim val id num (before ++ e :: rest) =
      if short (e.aoe - val) > lim.semaem ∨ short (e.aoe - val) < -lim.semaem then
        (some .erange, before ++ { e with aoe := short (short (e.aoe - val) + val) } :: rest)
      else if short (e.aoe - val) = 0 then (none, before ++ rest)
      else (none, before ++ { e with aoe := short (e.aoe - val) } :: rest) := by
  have hs : search id num (before ++ e :: rest) = before.length := by simpa using h.search_eq
  simp only [semaoeEntries, hs, drop_left', take_left', h.own e rfl, and_self, if_true]

theorem short_eq (hl : -2 ^ 15 ≤ z) (hh : z < 2 ^ 15) : short z = z := by
  rw [short, Int.bmod_eq_of_le] <;> omega

/-- The entry of a semaphore for the value `a`; there is none for 0. -/
def own (id : ℤ) (num : ℕ) (a : ℤ) : Option Undo := if a = 0 then none else some ⟨a, num, id⟩

/-- The entries with the value `a` for one semaphore. -/
def table (id : ℤ) (num : ℕ) (before rest : List Undo) (a : ℤ) : List Undo := before ++ (own id num a).toList ++ rest

/-- The entries before and behind that of a semaphore. -/
structure Around (id : ℤ) (num : ℕ) (before rest : List Undo) : Prop where
  front : ∀ e ∈ before, Before id num e
  behind : ∀ e ∈ rest, id < e.id ∨ (id = e.id ∧ num < e.num)

theorem Around.split (h : Around id num before rest) (a : ℤ) : Split id num before (own id num a) rest := by
  refine ⟨h.front, fun e he => ?_, h.behind⟩
  by_cases ha : a = 0
  · simp [own, ha] at he
  · simp [own, ha] at he
    simp [← he]

theorem table_zero : table id num before rest 0 = before ++ rest := by simp [table, own]

theorem table_of_ne (ha : a ≠ 0) : table id num before rest a = before ++ ⟨a, num, id⟩ :: rest := by
  simp [table, own, ha]

theorem Wf.exists_table (h : Wf lim es) (hsem : 0 ≤ lim.semaem) (id : ℤ) (num : ℕ) :
    ∃ before rest a, es = table id num before rest a ∧ Around id num before rest ∧ -lim.semaem ≤ a ∧ a ≤ lim.semaem := by
  obtain ⟨before, o, rest, rfl, hs⟩ := exists_split h.sorted id num
  have hr : Around id num before rest := ⟨hs.front, hs.behind⟩
  cases o with
  | none => exact ⟨before, rest, 0, by simp [table_zero], hr, by omega, hsem⟩
  | some e =>
    obtain ⟨hne, hl, hh⟩ := h.small e (by simp)
    obtain ⟨hd, hn⟩ := hs.own e rfl
    refine ⟨before, rest, e.aoe, ?_, hr, hl, hh⟩
    rw [table_of_ne hne, ← hd, ← hn]
    simp

section Table

variable {a : ℤ} (h : Around id num before rest) (hsem : lim.semaem ≤ 2 ^ 14) (ha : -lim.semaem ≤ a ∧ a ≤ lim.semaem)
  (hval : -lim.semaem ≤ val ∧ val ≤ lim.semaem)

include h hsem ha hval

theorem semaoeEntries_ok (hne : val ≠ 0) (hrs : -lim.semaem ≤ a - val ∧ a - val ≤ lim.semaem)
    (hr : a = 0 → (before ++ rest).length < lim.semume) :
    semaoeEntries lim val id num (table id num before rest a) = (none, table id num before rest (a - val)) := by
  have hs := h.split a
  by_cases hzr : a = 0
  · subst hzr
    have hh : short (-val) = -val := short_eq (by omega) (by omega)
    rw [table_zero, hs.semaoeEntries_none, if_neg (by omega), hh, zero_sub, table_of_ne (by omega)]
  · have hm : own id num a = some ⟨a, num, id⟩ := if_neg hzr
    rw [hm] at hs
    have hh : short (a - val) = a - val := short_eq (by omega) (by omega)
    have hin : ¬ (a - val > lim.semaem ∨ a - val < -lim.semaem) := by omega
    rw [table_of_ne hzr, hs.semaoeEntries_some]
    rw [hh, if_neg hin]
    by_cases hz : a - val = 0
    · rw [if_pos hz, hz, table_zero]
    · rw [if_neg hz, table_of_ne hz]

theorem semaoeEntries_error (hd : ¬ ((-lim.semaem ≤ a - val ∧ a - val ≤ lim.semaem) ∧
      (a = 0 → (before ++ rest).length < lim.semume))) :
    ∃ e, semaoeEntries lim val id num (table id num before rest a) = (some e, table id num before rest a) := by
  have hs := h.split a
  by_cases hz : a = 0
  · subst hz
    have hf : (before ++ rest).length ≥ lim.semume := by
      by_contra hlt
      exact hd ⟨by omega, fun _ => by omega⟩
    exact ⟨.einval, by rw [table_zero, hs.semaoeEntries_none, if_pos hf]⟩
  · have hm : own id num a = some ⟨a, num, id⟩ := if_neg hz
    rw [hm] at hs
    refine ⟨.erange, ?_⟩
    rw [table_of_ne hz, hs.semaoeEntries_some]
    -- at the largest value the subtraction leaves the range of a short
    rcases lt_or_eq_of_le (show a - val ≤ 2 ^ 15 by omega) with hlt | heq
    · have hh : short (a - val) = a - val := short_eq (by omega) hlt
      rw [hh, if_pos (by omega), sub_add_cancel, short_eq (by omega) (by omega)]
    · have hw : short (a - val) = -2 ^ 15 := by
        rw [heq]
        decide
      have hb : short (-2 ^ 15 + val) = a := by
        obtain rfl : a = 2 ^ 14 := by omega
        obtain rfl : val = -2 ^ 14 := by omega
        decide
      rw [hw, if_pos (by omega), hb]

end Table

theorem length_table : (table id num before rest a).length = (before ++ rest).length + if a = 0 then 0 else 1 := by
  by_cases ha : a = 0
  · simp [ha, table_zero]
  · simp [ha, table_of_ne]
    omega

theorem Wf.table {a' : ℤ} (h : Wf lim (table id num before rest a)) (har : Around id num before rest)
    (ha' : -lim.semaem ≤ a' ∧ a' ≤ lim.semaem) (hm : a = 0 → (before ++ rest).length < lim.semume) :
    Wf lim (SemUndo.table id num before rest a') := by
  have hsub : (before ++ rest).Sublist (SemUndo.table id num before rest a) := by
    rw [SemUndo.table, append_assoc]
    exact (sublist_append_right _ _).append_left _
  have hp : (before ++ rest).Pairwise fun e e' => Before e'.id e'.num e := h.sorted.sublist hsub
  have hlen := h.length
  rw [length_table] at hlen
  have hs : ∀ e ∈ before ++ rest, e.aoe ≠ 0 ∧ -lim.semaem ≤ e.aoe ∧ e.aoe ≤ lim.semaem :=
    fun e he => h.small e (hsub.subset he)
  by_cases hz : a' = 0
  · subst hz
    rw [table_zero]
    exact ⟨hp, by omega, hs⟩
  · rw [table_of_ne hz]
    refine ⟨?_, ?_, fun e he => ?_⟩
    · rw [pairwise_append, pairwise_cons]
      obtain ⟨hb, hr, hbr⟩ := pairwise_append.mp hp
      refine ⟨hb, ⟨har.behind, hr⟩, fun e he e' he' => ?_⟩
      rcases mem_cons.mp he' with rfl | he'
      · exact har.front e he
      · exact hbr e he e' he'
    · simp only [length_append, length_cons] at hlen hm ⊢
      by_cases ha : a = 0
      · have := hm ha
        omega
      · rw [if_neg ha] at hlen
        omega
    · rw [mem_append, mem_cons] at he
      rcases he with he | rfl | he
      · exact hs e (mem_append_left _ he)
      · exact ⟨hz, ha'⟩
      · exact hs e (mem_append_right _ he)

theorem aoeOf_table (h : Around id num before rest) : aoeOf (table id num before rest a) id num = a := by
  have hf : before.find? (fun e => e.id = id ∧ e.num = num) = none := by
    rw [List.find?_eq_none]
    intro e he
    have hlt : e.id < id ∨ (e.id = id ∧ e.num < num) := h.front e he
    simp
    omega
  have hb : rest.find? (fun e => e.id = id ∧ e.num = num) = none := by
    rw [List.find?_eq_none]
    intro e he
    have hgt := h.behind e he
    simp
    omega
  by_cases ha : a = 0
  · rw [ha, table_zero, aoeOf, List.find?_append, hf, hb]
    rfl
  · rw [table_of_ne ha, aoeOf, List.find?_append, hf]
    simp

theorem aoeOf_table_of_ne {id' : ℤ} {num' : ℕ} (hne : ¬ (id' = id ∧ num' = num)) :
    aoeOf (table id num before rest a) id' num' = aoeOf (before ++ rest) id' num' := by
  by_cases ha : a = 0
  · rw [ha, table_zero]
  · have ho : ¬ (id = id' ∧ num = num') := fun e => hne ⟨e.1.symm, e.2.symm⟩
    simp [aoeOf, table_of_ne ha, List.find?_append, ho]

/-! ### One operation and its inverse -/

/-- `semaoe` on the entries either changes the value of the semaphore, in a way that `semaoe` of the opposite value takes
back, or changes nothing. -/
theorem semaoeEntries_spec (hw : Wf lim es) (hsem : lim.semaem ≤ 2 ^ 14) (hval : -lim.semaem ≤ val ∧ val ≤ lim.semaem)
    (hne : val ≠ 0) (id : ℤ) (num : ℕ) : (∃ e, semaoeEntries lim val id num es = (some e, es)) ∨
      ∃ es', semaoeEntries lim val id num es = (none, es') ∧ Wf lim es' ∧
        (∀ id' num', aoeOf es' id' num' = aoeOf es id' num' - if id' = id ∧ num' = num then val else 0) ∧
        semaoeEntries lim (-val) id num es' = (none, es) := by
  obtain ⟨before, rest, a, rfl, har, ha⟩ := hw.exists_table (by omega) id num
  by_cases hg : (-lim.semaem ≤ a - val ∧ a - val ≤ lim.semaem) ∧ (a = 0 → (before ++ rest).length < lim.semume)
  · right
    obtain ⟨hrs, hr⟩ := hg
    have hlen := hw.length
    rw [length_table] at hlen
    have hb : semaoeEntries lim (-val) id num (table id num before rest (a - val)) =
        (none, table id num before rest (a - val - -val)) :=
      semaoeEntries_ok har hsem hrs (by omega) (by omega) (by omega) fun hz => by
        rw [if_neg (by omega)] at hlen
        omega
    rw [sub_neg_eq_add, sub_add_cancel] at hb
    refine ⟨_, semaoeEntries_ok har hsem ha hval hne hrs hr, hw.table har hrs hr, fun id' num' => ?_, hb⟩
    by_cases hk : id' = id ∧ num' = num
    · obtain ⟨rfl, rfl⟩ := hk
      rw [aoeOf_table har, aoeOf_table har, if_pos ⟨rfl, rfl⟩]
    · rw [aoeOf_table_of_ne hk, aoeOf_table_of_ne hk, if_neg hk, sub_zero]
  · exact .inl (semaoeEntries_error har hsem ha hval hg)

/-- The entries of the structure of the process, if it has one. -/
def entries (u : Undos) : List Undo := u.slot.getD []

theorem semaoe_spec {u : Undos} (hw : Wf lim (entries u)) (hsem : lim.semaem ≤ 2 ^ 14) (hne : val ≠ 0) (id : ℤ) (num : ℕ) :
    (∃ e u', semaoe lim val id num u = (some e, u') ∧ entries u' = entries u ∧ (u.slot.isSome → u'.slot.isSome)) ∨
      ∃ u', semaoe lim val id num u = (none, u') ∧ u'.slot.isSome ∧ Wf lim (entries u') ∧
        (∀ id' num', aoeOf (entries u') id' num' = aoeOf (entries u) id' num' - if id' = id ∧ num' = num then val else 0) ∧
        ∀ t, t.slot = some (entries u') →
          (semaoe lim (short (-val)) id num t).2 = { t with slot := some (entries u) } := by
  by_cases hg : val > lim.semaem ∨ val < -lim.semaem
  · exact .inl ⟨.erange, u, by rw [semaoe, if_neg hne, if_pos hg], rfl, fun hs => hs⟩
  have hval : -lim.semaem ≤ val ∧ val ≤ lim.semaem := by omega
  have hh : short (-val) = -val := short_eq (by omega) (by omega)
  have hp := semaoeEntries_spec hw hsem hval hne id num
  have hl : (u.slot = none ∧ u.free = 0) ∨
      ∃ n, semaoe lim val id num u = ((semaoeEntries lim val id num (entries u)).1,
        ⟨some (semaoeEntries lim val id num (entries u)).2, n⟩) := by
    cases hs : u.slot with
    | none =>
      by_cases hf : u.free = 0
      · exact .inl ⟨rfl, hf⟩
      · refine .inr ⟨u.free - 1, ?_⟩
        simp only [semaoe, if_neg hne, if_neg hg, hs, if_neg hf, entries, Option.getD_none]
    | some es =>
      refine .inr ⟨u.free, ?_⟩
      simp only [semaoe, if_neg hne, if_neg hg, hs, entries, Option.getD_some]
  rcases hl with ⟨hn, hf⟩ | ⟨n, heq⟩
  · refine .inl ⟨.enospc, u, ?_, rfl, fun hs => hs⟩
    simp only [semaoe, if_neg hne, if_neg hg, hn, if_pos hf]
  rcases hp with ⟨e, hen⟩ | ⟨es', hen, hw', ho, hb⟩
  · exact .inl ⟨e, ⟨some (entries u), n⟩, heq.trans (by rw [hen]), rfl, fun _ => rfl⟩
  · refine .inr ⟨⟨some es', n⟩, heq.trans (by rw [hen]), rfl, hw', ho, fun t ht => ?_⟩
    have hne' : -val ≠ 0 := by omega
    have hb' : ¬ (-val > lim.semaem ∨ -val < -lim.semaem) := by omega
    rw [show entries ⟨some es', n⟩ = es' from rfl] at ht
    simp only [hh, semaoe, if_neg hne', if_neg hb', ht, hb]

/-! ### A whole pass -/

/-- The values that the operations leave, one after the other. -/
def apply : (ℕ → ℤ) → List Sembuf → ℕ → ℤ
  | v, [] => v
  | v, op :: ops => apply (update v op.semNum (v op.semNum + op.semOp)) ops

/-- Each operation could be carried out in its turn. -/
def InOrder (lim : Limits) : (ℕ → ℤ) → List Sembuf → Prop
  | _, [] => True
  | v, op :: ops =>
    0 ≤ v op.semNum + op.semOp ∧ v op.semNum + op.semOp ≤ lim.semvmx ∧ (op.semOp = 0 → v op.semNum = 0) ∧
      InOrder lim (update v op.semNum (v op.semNum + op.semOp)) ops

def undoSum (ops : List Sembuf) (num : ℕ) : ℤ := ((ops.filter fun op => op.undo ∧ op.semNum = num).map Sembuf.semOp).sum

/-- The values and the entries are within the limits. -/
structure Good (lim : Limits) (s : Pass) : Prop where
  val : ∀ j, 0 ≤ s.semval j ∧ s.semval j ≤ lim.semvmx
  wf : Wf lim (entries s.undo)

/-- `semundo` of the operations leads from `s` back to `s₀`. -/
def Undoes (lim : Limits) (id : ℤ) (done : List Sembuf) (s s₀ : Pass) : Prop :=
  ∀ t : Pass, t.semval = s.semval → entries t.undo = entries s.undo → (s.undo.slot.isSome → t.undo.slot.isSome) →
    (semundo lim id done t).semval = s₀.semval ∧ entries (semundo lim id done t).undo = entries s₀.undo

variable {s s₀ : Pass} {op : Sembuf} {ops done : List Sembuf}

theorem ushort_eq (hl : 0 ≤ z) (hh : z < 2 ^ 16) : ushort z = z := Int.emod_eq_of_lt hl hh

/-- An operation that is allowed is done, with its entry, or nothing happens to the entries. -/
theorem adjust_spec (hg : Good lim s) (hsem : lim.semaem ≤ 2 ^ 14) (hv : lim.semvmx < 2 ^ 16) (hne : op.semOp ≠ 0)
    (ho : 0 ≤ s.semval op.semNum + op.semOp) (hh : s.semval op.semNum + op.semOp ≤ lim.semvmx)
    (hun : Undoes lim id done s s₀) :
    (∃ e u, adjust lim id op s.undo = (some e, u) ∧ entries u = entries s.undo ∧ (s.undo.slot.isSome → u.slot.isSome)) ∨
      ∃ u, adjust lim id op s.undo = (none, u) ∧ Good lim (Pass.addVal { s with undo := u } op.semNum op.semOp) ∧
        (Pass.addVal { s with undo := u } op.semNum op.semOp).semval =
          update s.semval op.semNum (s.semval op.semNum + op.semOp) ∧
        (∀ id' num', aoeOf (entries u) id' num' =
          aoeOf (entries s.undo) id' num' - if id' = id ∧ num' = op.semNum ∧ op.undo then op.semOp else 0) ∧
        Undoes lim id (op :: done) (Pass.addVal { s with undo := u } op.semNum op.semOp) s₀ := by
  have hval : ushort (s.semval op.semNum + op.semOp) = s.semval op.semNum + op.semOp := ushort_eq ho (by omega)
  have hb : ushort (s.semval op.semNum + op.semOp + -op.semOp) = s.semval op.semNum := by
    have := hg.val op.semNum
    rw [add_neg_cancel_right]
    exact ushort_eq this.1 (by omega)
  have hin : ∀ j, 0 ≤ update s.semval op.semNum (s.semval op.semNum + op.semOp) j ∧
      update s.semval op.semNum (s.semval op.semNum + op.semOp) j ≤ lim.semvmx := by
    intro j
    by_cases hj : j = op.semNum
    · subst hj
      simpa using ⟨ho, hh⟩
    · simpa [hj] using hg.val j
  have hs (u : Undos) : (Pass.addVal { s with undo := u } op.semNum op.semOp).semval =
      update s.semval op.semNum (s.semval op.semNum + op.semOp) := by
    rw [Pass.addVal, hval]
  -- the value is restored whatever hp to the entries
  have hr (t : Pass) (ht : t.semval = update s.semval op.semNum (s.semval op.semNum + op.semOp)) :
      (t.addVal op.semNum (-op.semOp)).semval = s.semval := by
    rw [Pass.addVal, ht]
    rw [update_self, hb, update_idem, update_eq_self]
  by_cases hu : op.undo
  · rcases semaoe_spec hg.wf hsem hne id op.semNum with ⟨e, u, heq, hn, hl⟩ | ⟨u, heq, hm, hw, hao, hiv⟩
    · exact .inl ⟨e, u, by rw [adjust, if_pos hu, heq], hn, hl⟩
    refine .inr ⟨u, by rw [adjust, if_pos hu, heq], ⟨by rw [hs]; exact hin, hw⟩, hs u, ?_, fun t ht hn hl => ?_⟩
    · simpa [hu] using hao
    · rw [hs] at ht
      have hts : t.undo.slot = some (entries u) := by
        obtain ⟨es, hes⟩ := Option.isSome_iff_exists.mp (hl hm)
        rw [entries, hes, Option.getD_some] at hn
        rw [hes, hn]
        rfl
      rw [semundo, if_neg hne]
      simp only [if_pos hu]
      refine hun _ (hr t ht) ?_ fun _ => ?_
      all_goals
        rw [show (t.addVal op.semNum (-op.semOp)).undo = t.undo from rfl, hiv t.undo hts]
        rfl
  · refine .inr ⟨s.undo, by rw [adjust, if_neg hu], ⟨by rw [hs]; exact hin, hg.wf⟩, hs _, ?_, fun t ht hn hl => ?_⟩
    · simp [hu]
    · rw [hs] at ht
      rw [semundo, if_neg hne]
      simp only [if_neg hu]
      exact hun _ (hr t ht) hn hl

/-- All the operations have been carried out from `s` on, or everything is as it was at `s₀`. -/
def Outcome (lim : Limits) (id : ℤ) (ops : List Sembuf) (s s₀ : Pass) (r : Pass × Verdict) : Prop :=
  (r.2 = .done ∧ r.1.semval = apply s.semval ops ∧ InOrder lim s.semval ops ∧ Good lim r.1 ∧
      ∀ id' num, aoeOf (entries r.1.undo) id' num =
        aoeOf (entries s.undo) id' num - if id' = id then undoSum ops num else 0) ∨
    (r.2 ≠ .done ∧ r.1.semval = s₀.semval ∧ entries r.1.undo = entries s₀.undo)

end Sol8.Syscall.SemUndo
