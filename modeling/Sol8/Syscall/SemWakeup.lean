import Sol8.Syscall.Sem

/-! Wake-ups of System V semaphores (`syscall/sem.c`).

A sleeping process waits for a value that it has seen too low, or not zero. The value changes in
its favour only together with a wake-up of the condition variable. On the `cv_signal` path one
process is woken for one unit; the others sleep on although the value is positive, and the units
are covered by processes that are woken and have not run yet. -/

namespace Sol8.Syscall.Sem

open Sol8.Lib Function List State

variable {P : Type} {prm : Params} {binaryType : Bool} {v : ℤ} {val : ℕ → ℤ}

/-! ### Arrays of operations -/

/-- All operations of the array in turn, from the given values. -/
def canCarryOut (semvmx : ℤ) : List Sembuf → (ℕ → ℤ) → Bool
  | [], _ => true
  | op :: ops, val =>
    (if op.semOp > 0 then op.semOp + val op.semNum ≤ semvmx
      else if op.semOp < 0 then val op.semNum ≥ -op.semOp
      else val op.semNum = 0) &&
    canCarryOut semvmx ops (update val op.semNum (val op.semNum + op.semOp))

/-- What the operations add to a value. -/
def net : List Sembuf → ℕ → ℤ
  | [], _ => 0
  | op :: ops, j => (if j = op.semNum then op.semOp else 0) + net ops j

theorem net_append (ops ops' : List Sembuf) (j : ℕ) : net (ops ++ ops') j = net ops j + net ops' j := by
  induction ops with
  | nil => simp [net]
  | cons op ops ih =>
    rw [cons_append, net, net, ih, add_assoc]

theorem net_reverse (ops : List Sembuf) (j : ℕ) : net ops.reverse j = net ops j := by
  induction ops with
  | nil => rfl
  | cons op ops ih =>
    rw [reverse_cons, net_append]
    simp only [net]
    omega

theorem canCarryOut_append {semvmx : ℤ} {ops ops' : List Sembuf} (h : canCarryOut semvmx (ops ++ ops') val = true) :
    canCarryOut semvmx ops' (fun j => val j + net ops j) = true := by
  induction ops generalizing val with
  | nil => simpa [net] using h
  | cons op ops ih =>
    rw [cons_append, canCarryOut, Bool.and_eq_true] at h
    have := ih h.2
    convert this using 2
    funext j
    rw [net, update_apply]
    split_ifs with hj
    · rw [hj]
      omega
    · omega

/-- The operation that a process waits for is still in its way. -/
def Waiter.Blocked (w : Waiter P) (val : ℕ → ℤ) : Prop :=
  if w.op.semOp < 0 then val w.op.semNum + net w.done w.op.semNum + w.op.semOp < 0
  else w.op.semOp = 0 ∧ val w.op.semNum + net w.done w.op.semNum ≠ 0

theorem Waiter.Blocked.not_canCarryOut {w : Waiter P} (h : w.Blocked val)
    (semvmx : ℤ) : canCarryOut semvmx w.ops val = false := by
  by_contra hc
  rw [Bool.not_eq_false] at hc
  have ho := canCarryOut_append hc
  rw [canCarryOut, Bool.and_eq_true] at ho
  have ho := ho.1
  unfold Waiter.Blocked at h
  split_ifs at h with hn
  · rw [if_neg (by omega), if_pos hn, decide_eq_true_eq] at ho
    omega
  · rw [if_neg (by omega), if_neg hn, decide_eq_true_eq] at ho
    exact h.2 ho

/-- Nobody sleeps on an array that could be carried out, unless a process is about to look. -/
def NoLostWakeup (prm : Params) (s : State P) : Prop :=
  s.runnable = [] → ∀ c, ∀ w ∈ s.cv c, canCarryOut prm.semvmx w.ops s.semval = false

/-! ### What a state keeps -/

variable {s s' : State P} {c : ℕ × Kind} {j : ℕ} {w : Waiter P}

/-- A process that takes one unit and nothing else. -/
def Waiter.IsUnit (w : Waiter P) : Prop := w.done = [] ∧ w.rest = [] ∧ w.op.semOp = -1

instance : Decidable w.IsUnit := inferInstanceAs (Decidable (_ ∧ _))

/-- The units that processes woken through a condition variable will take. -/
def State.credit (s : State P) : ℕ := s.runnable.countP fun r => r.1 = .cv ∧ r.2.IsUnit

def Valid (prm : Params) (ops : List Sembuf) : Prop := ∀ op ∈ ops, op.semNum < prm.nsems

structure Queued (prm : Params) (s : State P) : Prop where
  cnt_pos : ∀ c, s.cv c ≠ [] → 1 ≤ s.cnt c
  chan : ∀ c, ∀ w ∈ s.cv c, w.chan = c
  valid : ∀ c, ∀ w ∈ s.cv c, Valid prm w.ops
  runnable_valid : ∀ r ∈ s.runnable, Valid prm r.2.ops
  /-- a process sleeps for zero only if its earlier operations leave the value alone -/
  zero : ∀ c, ∀ w ∈ s.cv c, ¬ w.op.semOp < 0 → w.op.semOp = 0 ∧ net w.done w.op.semNum = 0
  unit : s.binaryType prm = true → ∀ w ∈ s.cv (0, .n), w.IsUnit

structure Asleep (prm : Params) (s : State P) : Prop where
  nonneg : ∀ j, 0 ≤ s.semval j
  blocked : ∀ c, ∀ w ∈ s.cv c, w.Blocked s.semval ∨ prm.nsems = 1 ∧ w.IsUnit ∧ s.semval 0 ≤ s.credit

structure Woke (s s' : State P) : Prop where
  cv : ∀ c, s'.cv c ⊆ s.cv c
  credit : s.credit ≤ s'.credit
  binary : s'.binary = s.binary

theorem Waiter.mem_ops (w : Waiter P) : w.op ∈ w.ops := mem_append_right _ mem_cons_self

theorem Queued.semNum_eq_zero (hq : Queued prm s) (hw : w ∈ s.cv c) (ho : prm.nsems = 1) : w.op.semNum = 0 := by
  have := hq.valid c w hw w.op w.mem_ops
  omega

theorem Waiter.IsUnit.blocked_iff (hu : w.IsUnit) : w.Blocked val ↔ val w.op.semNum < 1 := by
  obtain ⟨hd, -, ho⟩ := hu
  rw [Waiter.Blocked, if_pos (by omega), hd, net]
  omega

theorem Asleep.noLostWakeup (h : Asleep prm s) (hq : Queued prm s) : NoLostWakeup prm s := by
  intro hr c w hw
  apply Waiter.Blocked.not_canCarryOut
  rcases h.blocked c w hw with hb | ⟨ho, hu, hle⟩
  · exact hb
  · rw [hu.blocked_iff, hq.semNum_eq_zero hw ho]
    rw [credit, hr] at hle
    exact lt_of_le_of_lt hle Int.zero_lt_one

theorem Woke.refl (s : State P) : Woke s s := ⟨fun _ => List.Subset.refl _, le_rfl, rfl⟩

theorem Woke.trans {s1 s2 s3 : State P} (h : Woke s1 s2) (h' : Woke s2 s3) : Woke s1 s3 :=
  ⟨fun c => List.Subset.trans (h'.cv c) (h.cv c), h.credit.trans h'.credit, h'.binary.trans h.binary⟩

theorem woke_broadcast (s : State P) (c : ℕ × Kind) : Woke s (s.broadcast c) where
  cv c' := by
    simp only [broadcast, update_apply]
    split_ifs
    · exact nil_subset _
    · exact List.Subset.refl _
  credit := by
    rw [credit, credit, broadcast, countP_append]
    omega
  binary := rfl

theorem woke_wakeAll (s : State P) (c : ℕ × Kind) : Woke s (s.wakeAll c) := by
  unfold wakeAll
  split_ifs
  · exact woke_broadcast s c
  · exact Woke.refl s

theorem Queued.broadcast (h : Queued prm s) (c : ℕ × Kind) : Queued prm (s.broadcast c) := by
  have hsub := (woke_broadcast s c).cv
  exact {
    cnt_pos := by
      intro c' hne
      simp only [State.broadcast, update_apply] at hne ⊢
      split_ifs at hne ⊢ with hc
      · exact absurd rfl hne
      · exact h.cnt_pos c' hne
    chan := fun c' w hw => h.chan c' w (hsub c' hw)
    valid := fun c' w hw => h.valid c' w (hsub c' hw)
    runnable_valid := by
      intro r hr
      rcases mem_append.mp hr with hr | hr
      · obtain ⟨w, hw, rfl⟩ := mem_map.mp hr
        exact h.valid c w hw
      · exact h.runnable_valid r hr
    zero := fun c' w hw => h.zero c' w (hsub c' hw)
    unit := fun hb w hw => h.unit hb w (hsub _ hw) }

theorem Queued.wakeAll (h : Queued prm s) (c : ℕ × Kind) : Queued prm (s.wakeAll c) ∧ (s.wakeAll c).cv c = [] := by
  unfold State.wakeAll
  split_ifs with hc
  · exact ⟨h.broadcast c, update_self _ _ _⟩
  · refine ⟨h, ?_⟩
    by_contra hne
    have := h.cnt_pos c hne
    omega

theorem Asleep.change (h : Asleep prm s) (hq : Queued prm s) (hv : ∀ c, s'.cv c ⊆ s.cv c)
    (hj : j < prm.nsems) (hs : ∀ i ≠ j, s'.semval i = s.semval i) (h0 : 0 ≤ s'.semval j)
    (hn : s'.semval j ≤ s.semval j ∧ s'.semval j + s.credit ≤ s.semval j + s'.credit ∨ s'.cv (j, .n) = [])
    (hz : s'.semval j ≠ 0 ∨ s'.cv (j, .z) = []) : Asleep prm s' where
  nonneg i := by
    by_cases hi : i = j
    · exact hi ▸ h0
    · exact (hs i hi).symm ▸ h.nonneg i
  blocked c w hmem := by
    have hm0 := hv c hmem
    have hc := hq.chan c w hm0
    rcases h.blocked c w hm0 with hb | ⟨ho, hu, hle⟩
    · refine .inl ?_
      by_cases hw : w.op.semNum = j
      · unfold Waiter.Blocked at hb ⊢
        rw [Waiter.chan, hw] at hc
        split_ifs at hb hc ⊢ with hg
        · rw [hw] at hb ⊢
          have := hn.resolve_right fun hnil => by
            rw [← hc, hnil] at hmem
            cases hmem
          omega
        · obtain ⟨hp, ht⟩ := hq.zero c w hm0 hg
          refine ⟨hp, ?_⟩
          rw [ht, add_zero, hw]
          exact hz.resolve_right fun hnil => by
            rw [← hc, hnil] at hmem
            cases hmem
      · unfold Waiter.Blocked at hb ⊢
        rwa [hs _ hw]
    · -- the only semaphore is the one that changes
      have hm := hq.semNum_eq_zero hm0 ho
      obtain rfl : j = 0 := by omega
      rw [Waiter.chan, hm, if_pos (by have := hu.2.2; omega)] at hc
      have := hn.resolve_right fun hnil => by
        rw [← hc, hnil] at hmem
        cases hmem
      exact .inr ⟨ho, hu, by omega⟩

/-! ### One operation -/

structure Inv (prm : Params) (s : State P) : Prop where
  queued : Queued prm s
  asleep : Asleep prm s

theorem Inv.setAoe (h : Inv prm s) (aoe : P → ℕ → ℤ) : Inv prm { s with aoe := aoe } :=
  ⟨{ h.queued with }, { h.asleep with }⟩

/-- Every process on `semncnt_cv` is counted. -/
def Counted (s : State P) : Prop := (s.cv (0, .n)).length ≤ s.cnt (0, .n)

section Operations

variable {op : Sembuf} {pick : ℕ}

theorem Queued.addVal (h : Queued prm s) (j : ℕ) (v : ℤ) : Queued prm (s.addVal j v) := { h with }

theorem woke_addVal (s : State P) (j : ℕ) (v : ℤ) : Woke s (s.addVal j v) := { Woke.refl s with }

theorem semval_wakeAll (s : State P) (c : ℕ × Kind) : (s.wakeAll c).semval = s.semval := by
  unfold wakeAll
  split_ifs <;> rfl

theorem cv_wakeAll_of_ne (s : State P) {c c' : ℕ × Kind} (h : c' ≠ c) :
    (s.wakeAll c).cv c' = s.cv c' ∧ (s.wakeAll c).cnt c' = s.cnt c' := by
  unfold wakeAll
  split_ifs
  · exact ⟨update_of_ne h _ _, update_of_ne h _ _⟩
  · exact ⟨rfl, rfl⟩

structure Carried (prm : Params) (s s' : State P) (op : Sembuf) : Prop where
  inv : Inv prm s'
  woke : Woke s s'
  semval : s'.semval = update s.semval op.semNum (s.semval op.semNum + op.semOp)

/-- Units are taken, by a process whose own unit may have been counted on in `s`. -/
theorem Inv.semaP (h : Inv prm s) {s1 : State P} (hq : Queued prm s1) (hcv : s1.cv = s.cv)
    (hl : s1.semval = s.semval) (hc : s.credit + op.semOp ≤ s1.credit)
    (hj : op.semNum < prm.nsems) (hn : op.semOp < 0) (hge : s.semval op.semNum ≥ -op.semOp) :
    Carried prm s1 (s1.semaP op) op ∧ (Counted s1 → Counted (s1.semaP op)) := by
  have hq := hq.addVal op.semNum op.semOp
  have hw := woke_addVal s1 op.semNum op.semOp
  have hv : (s1.addVal op.semNum op.semOp).semval op.semNum = s.semval op.semNum + op.semOp := by
    rw [← hl]
    exact update_self _ _ _
  have hs : ∀ i ≠ op.semNum, (s1.addVal op.semNum op.semOp).semval i = s.semval i := by
    intro i hi
    rw [← hl]
    exact update_of_ne hi _ _
  unfold State.semaP
  dsimp only
  split_ifs with h0
  · obtain ⟨hq', hnil⟩ := hq.wakeAll (op.semNum, .z)
    have hw' := hw.trans (woke_wakeAll _ (op.semNum, .z))
    have := hw'.credit
    refine ⟨⟨⟨hq', h.asleep.change h.queued (hcv ▸ hw'.cv) hj ?_ ?_ (.inl ?_) (.inr hnil)⟩, hw', ?_⟩, ?_⟩
    · rwa [semval_wakeAll]
    · rw [semval_wakeAll]
      omega
    · rw [semval_wakeAll]
      omega
    · rw [semval_wakeAll]
      rfl
    · unfold Counted
      rw [(cv_wakeAll_of_ne _ (by simp)).1, (cv_wakeAll_of_ne _ (by simp)).2]
      exact id
  · have := hw.credit
    exact ⟨⟨⟨hq, h.asleep.change h.queued (hcv ▸ hw.cv) hj hs (by omega) (.inl (by omega))
      (.inl h0)⟩, hw, rfl⟩, id⟩

theorem Inv.assign (h : Inv prm s) (hj : j < prm.nsems) (hv : 0 ≤ v)
    (hn : v ≤ s.semval j ∨ c = (j, .n)) (hz : v ≠ 0 ∨ c = (j, .z)) :
    Inv prm (({ s with semval := update s.semval j v } : State P).wakeAll c) := by
  have hs : Woke s { s with semval := update s.semval j v } := { Woke.refl s with }
  have hw := hs.trans (woke_wakeAll _ c)
  have hq : Queued prm { s with semval := update s.semval j v } := { h.queued with }
  obtain ⟨hq', hnil⟩ := hq.wakeAll c
  have hl : (({ s with semval := update s.semval j v } : State P).wakeAll c).semval =
      update s.semval j v := semval_wakeAll _ c
  have := hw.credit
  refine ⟨hq', h.asleep.change h.queued hw.cv hj ?_ ?_ ?_ ?_⟩
  · intro i hi
    rw [hl, update_of_ne hi]
  · rwa [hl, update_self]
  · rw [hl, update_self]
    rcases hn with hle | rfl
    · exact .inl ⟨hle, by omega⟩
    · exact .inr hnil
  · rw [hl, update_self]
    rcases hz with hne | rfl
    · exact .inl hne
    · exact .inr hnil

theorem Inv.addVal_broadcast (h : Inv prm s) (hj : op.semNum < prm.nsems) (hpos : 0 < op.semOp) :
    Carried prm s ((s.addVal op.semNum op.semOp).wakeAll (op.semNum, .n)) op := by
  have := h.asleep.nonneg op.semNum
  exact ⟨h.assign hj (by omega) (.inr rfl) (.inl (by omega)),
    (woke_addVal s op.semNum op.semOp).trans (woke_wakeAll _ (op.semNum, .n)), semval_wakeAll _ _⟩

theorem woke_signal (s : State P) (c : ℕ × Kind) (pick : ℕ) : Woke s (s.signal c pick) where
  cv c' := by
    simp only [signal, update_apply]
    split_ifs with h
    · rw [h]
      exact eraseIdx_subset
    · exact List.Subset.refl _
  credit := by
    rw [credit, credit, signal, countP_append]
    omega
  binary := rfl

theorem signal_runnable (hne : s.cv c ≠ []) (pick : ℕ) :
    ∃ w ∈ s.cv c, (s.signal c pick).runnable = (.cv, w) :: s.runnable ∧
      ((s.signal c pick).cv c).length = (s.cv c).length - 1 := by
  have hlt : pick % (s.cv c).length < (s.cv c).length := Nat.mod_lt _ (length_pos_iff.mpr hne)
  refine ⟨(s.cv c)[pick % (s.cv c).length], getElem_mem hlt, ?_, ?_⟩
  · simp [signal, List.getElem?_eq_getElem hlt]
  · simp only [signal, update_self]
    exact length_eraseIdx_of_lt hlt

theorem signal_of_nil (hnil : s.cv c = []) (pick : ℕ) :
    (s.signal c pick).runnable = s.runnable ∧ (s.signal c pick).cv c = [] := by
  simp [signal, hnil]

theorem Queued.signal (h : Queued prm s) (hc : (s.cv c).length ≤ s.cnt c) (pick : ℕ) :
    Queued prm (s.signal c pick) ∧ ((s.signal c pick).cv c).length ≤ (s.signal c pick).cnt c := by
  have hsub := (woke_signal s c pick).cv
  have hcn : (s.signal c pick).cnt c = s.cnt c - 1 := update_self _ _ _
  have hlen : ((s.signal c pick).cv c).length ≤ (s.signal c pick).cnt c := by
    by_cases hnil : s.cv c = []
    · rw [(signal_of_nil hnil pick).2]
      exact Nat.zero_le _
    · obtain ⟨w, -, -, hl⟩ := signal_runnable hnil pick
      omega
  refine ⟨{
    cnt_pos := ?_
    chan := fun c' w hw => h.chan c' w (hsub c' hw)
    valid := fun c' w hw => h.valid c' w (hsub c' hw)
    runnable_valid := ?_
    zero := fun c' w hw => h.zero c' w (hsub c' hw)
    unit := fun hb w hw => h.unit hb w (hsub _ hw) }, hlen⟩
  · intro c' hne
    by_cases hcc : c' = c
    · subst hcc
      have := length_pos_iff.mpr hne
      omega
    · have hv : (s.signal c pick).cv c' = s.cv c' := update_of_ne hcc _ _
      rw [hv] at hne
      exact (h.cnt_pos c' hne).trans_eq (update_of_ne hcc _ _).symm
  · intro r hr
    by_cases hnil : s.cv c = []
    · rw [(signal_of_nil hnil pick).1] at hr
      exact h.runnable_valid r hr
    · obtain ⟨w, hw, hn, -⟩ := signal_runnable hnil pick
      rw [hn] at hr
      rcases mem_cons.mp hr with rfl | hr
      · exact h.valid c w hw
      · exact h.runnable_valid r hr

/-- One unit on the `cv_signal` path: the process woken covers it. -/
theorem Inv.addVal_signal (h : Inv prm s) (hb : s.binaryType prm = true) (hc : Counted s)
    (hj : op.semNum = 0) (hp : op.semOp = 1) (pick : ℕ) : Carried prm s ((s.addVal 0 1).signal (0, .n) pick) op ∧
      Counted ((s.addVal 0 1).signal (0, .n) pick) := by
  have ho : prm.nsems = 1 := by
    rw [binaryType, Bool.and_eq_true, decide_eq_true_eq] at hb
    exact hb.2
  obtain ⟨hq, hlen⟩ := (h.queued.addVal 0 1).signal hc pick
  have hk := (woke_addVal s 0 1).trans (woke_signal _ (0, .n) pick)
  have hl : ((s.addVal 0 1).signal (0, .n) pick).semval = update s.semval 0 (s.semval 0 + 1) := rfl
  refine ⟨⟨⟨hq, ⟨?_, ?_⟩⟩, hk, by rw [hl, hj, hp]⟩, hlen⟩
  · intro i
    rw [hl, update_apply]
    have := h.asleep.nonneg 0
    split_ifs
    · omega
    · exact h.asleep.nonneg i
  · intro c w hw
    have hw0 := hk.cv c hw
    have hn := h.queued.semNum_eq_zero hw0 ho
    have hh := h.queued.chan c w hw0
    by_cases hg : w.op.semOp < 0
    · -- a unit more, and one more process to take it
      refine .inr ⟨ho, ?_⟩
      rw [Waiter.chan, hn, if_pos hg] at hh
      subst hh
      have hu := h.queued.unit hb w hw0
      have hne : s.cv (0, .n) ≠ [] := ne_nil_of_mem hw0
      obtain ⟨v, hv, hr, -⟩ := signal_runnable (s := s.addVal 0 1) hne pick
      have hcr : ((s.addVal 0 1).signal (0, .n) pick).credit = s.credit + 1 := by
        rw [credit, hr, countP_cons_of_pos (by simpa using h.queued.unit hb v hv)]
        rfl
      refine ⟨hu, ?_⟩
      rw [hl, update_self]
      rcases h.asleep.blocked _ w hw0 with hbl | ⟨-, -, hle⟩
      · rw [hu.blocked_iff, hn] at hbl
        omega
      · omega
    · obtain ⟨hz, ht⟩ := h.queued.zero c w hw0 hg
      rw [Waiter.Blocked, if_neg hg, ht, hl, hn, update_self]
      have := h.asleep.nonneg 0
      omega

theorem Inv.semaV (h : Inv prm s) (hj : op.semNum < prm.nsems)
    (hpos : 0 < op.semOp) (hb : binaryType = s.binaryType prm)
    (hc : op.semOp = 1 → binaryType = true → Counted s) (pick : ℕ) : Carried prm s (s.semaV binaryType pick op) op ∧
      (Counted s → Counted (s.semaV binaryType pick op)) := by
  -- the value is positive, so nobody waits for zero in vain
  have hz : ∀ s1 : State P, Carried prm s s1 op → ¬ (s1.cnt (op.semNum, .z) ≠ 0 ∧ s1.semval op.semNum = 0) := by
    rintro s1 hs1 ⟨-, h0⟩
    rw [hs1.semval, update_self] at h0
    have := h.asleep.nonneg op.semNum
    omega
  have hs : Carried prm s ((s.addVal op.semNum op.semOp).wakeAll (op.semNum, .n)) op ∧
      (Counted s → Counted ((s.addVal op.semNum op.semOp).wakeAll (op.semNum, .n))) := by
    refine ⟨h.addVal_broadcast hj hpos, fun hcs => ?_⟩
    unfold Counted
    by_cases h0 : op.semNum = 0
    · rw [h0, ((h.queued.addVal _ _).wakeAll (0, .n)).2]
      exact Nat.zero_le _
    · have hne : ((0, .n) : ℕ × Kind) ≠ (op.semNum, .n) := by simpa using Ne.symm h0
      rw [(cv_wakeAll_of_ne _ hne).1, (cv_wakeAll_of_ne _ hne).2]
      exact hcs
  by_cases hg : op.semOp = 1 ∧ binaryType = true
  · have ht := hb.symm.trans hg.2
    have hn : op.semNum = 0 := by
      rw [State.binaryType, Bool.and_eq_true, decide_eq_true_eq] at ht
      omega
    by_cases hcn : (s.addVal op.semNum op.semOp).cnt (op.semNum, .n) ≠ 0
    · have hf := h.addVal_signal ht (hc hg.1 hg.2) hn hg.1 pick
      rw [← hg.1, ← hn] at hf
      simp only [State.semaV, if_pos hcn, if_pos hg, if_neg (hz _ hf.1)]
      exact ⟨hf.1, fun _ => hn ▸ hf.2⟩
    · simp only [State.semaV, if_neg hcn]
      rw [wakeAll, if_neg hcn] at hs
      rwa [if_neg (hz _ hs.1)]
  · have hst : (if (s.addVal op.semNum op.semOp).cnt (op.semNum, .n) ≠ 0 then
        (s.addVal op.semNum op.semOp).broadcast (op.semNum, .n)
        else s.addVal op.semNum op.semOp) =
        (s.addVal op.semNum op.semOp).wakeAll (op.semNum, .n) := rfl
    simp only [State.semaV, if_neg hg, hst, if_neg (hz _ hs.1)]
    exact hs

end Operations

theorem Asleep.mono (h : Asleep prm s) (hw : Woke s s') (hv : s'.semval = s.semval) : Asleep prm s' where
  nonneg j := hv ▸ h.nonneg j
  blocked c w hmem := by
    have := hw.credit
    rcases h.blocked c w (hw.cv c hmem) with hb | ⟨ho, hu, hle⟩
    · exact .inl (hv ▸ hb)
    · exact .inr ⟨ho, hu, by rw [hv]; omega⟩

/-! ### A pass over the array -/

section Pass

variable [DecidableEq P] {p : P} {o : Oracle} {op : Sembuf} {ops done : List Sembuf} {full : Option Errno}

theorem semaoe_ok {num : ℕ} (h : s.semaoe prm full p num v = .ok s') : ∃ aoe, s' = { s with aoe := aoe } := by
  unfold semaoe at h
  dsimp only at h
  split_ifs at h
  · cases h
    exact ⟨s.aoe, rfl⟩
  · split at h
    · cases h
    · cases h
      exact ⟨_, rfl⟩
  · cases h
    exact ⟨_, rfl⟩

theorem adjust_ok (h : s.adjust prm full p op = .ok s') : ∃ aoe, s' = { s with aoe := aoe } := by
  unfold adjust at h
  split_ifs at h
  · exact semaoe_ok h
  · cases h
    exact ⟨s.aoe, rfl⟩

theorem semundo_eq (prm : Params) (s : State P) (p : P) (done : List Sembuf) : ∃ aoe, s.semundo prm p done =
      { s with semval := fun j => s.semval j - net done j, aoe := aoe } := by
  induction done generalizing s with
  | nil => exact ⟨s.aoe, by simp [semundo, net]⟩
  | cons op ops ih =>
    -- the entry has no influence on the values
    have hs : ∀ aoe1, ∃ aoe, ({ s.addVal op.semNum (-op.semOp) with aoe := aoe1 } : State P).semundo prm p ops =
          { s with semval := fun j => s.semval j - net (op :: ops) j, aoe := aoe } := by
      intro aoe1
      obtain ⟨aoe, he⟩ := ih { s.addVal op.semNum (-op.semOp) with aoe := aoe1 }
      refine ⟨aoe, ?_⟩
      rw [he]
      simp only [addVal, mk.injEq, and_true]
      funext j
      rw [net, update_apply]
      split_ifs with hj
      · rw [hj]
        omega
      · omega
    unfold semundo
    split_ifs with ho hu
    · obtain ⟨aoe, he⟩ := ih s
      rw [he]
      simp [net, ho]
    · dsimp only
      split
      · rename_i s1 hs1
        obtain ⟨aoe1, rfl⟩ := semaoe_ok hs1
        exact hs aoe1
      · exact hs s.aoe
    · exact hs s.aoe

/-- What a pass leaves: the values are those from before unless it is through. -/
def PassOk (prm : Params) (s₀ : State P) (ops : List Sembuf) : State P × Verdict P → Prop
  | (s, .done) => Inv prm s
  | (s, .error _) => Inv prm s ∧ s.semval = s₀.semval
  | (s, .wait w) => Inv prm s ∧ s.binary = s₀.binary ∧ w.ops = ops ∧ w.Blocked s.semval ∧ w.op.semOp ≤ 0

theorem semopLoop_ok {s0 : State P} (h₀ : Inv prm s0) (h : Inv prm s)
    (hw : Woke s0 s) (ha : ∀ j, s.semval j = s0.semval j + net done j)
    (hb : binaryType = s0.binaryType prm) (hl : Valid prm ops)
    (hc : (∃ op ∈ ops, op.semOp = 1) → binaryType = true → Counted s) :
    PassOk prm s0 (done.reverse ++ ops) (semopLoop prm binaryType o p done ops s) := by
  induction ops generalizing done s with
  | nil =>
    exact h
  | cons op ops ih =>
    obtain ⟨hm, hv'⟩ := forall_mem_cons.mp hl
    obtain ⟨aoe, hu⟩ := semundo_eq prm s p done
    have hv0 : (fun j => s.semval j - net done j) = s0.semval := by
      funext j
      rw [ha]
      omega
    rw [hv0] at hu
    -- a pass that fails has only woken processes
    have hbc : Inv prm (s.semundo prm p done) ∧
        (s.semundo prm p done).semval = s0.semval ∧ (s.semundo prm p done).binary = s0.binary := by
      rw [hu]
      have hw' : Woke s0 { s with semval := s0.semval, aoe := aoe } := { hw with }
      exact ⟨⟨{ h.queued with }, h₀.asleep.mono hw' rfl⟩, rfl, hw.binary⟩
    have her : ∀ e, PassOk prm s0 (done.reverse ++ op :: ops)
        (s.semundo prm p done, .error e) := fun e => ⟨hbc.1, hbc.2.1⟩
    have hn : ∀ s1, Woke s s1 → Inv prm s1 → (Counted s → Counted s1) →
        s1.semval = update s.semval op.semNum (s.semval op.semNum + op.semOp) →
        PassOk prm s0 (done.reverse ++ op :: ops) (semopLoop prm binaryType o p (op :: done) ops s1) := by
      intro s1 hw1 h₁ hc1 hv1
      rw [show done.reverse ++ op :: ops = (op :: done).reverse ++ ops by simp]
      refine ih h₁ (hw.trans hw1) ?_ hv' ?_
      · intro j
        rw [hv1, net, update_apply]
        split_ifs with hj
        · rw [hj, ha]
          omega
        · rw [ha]
          omega
      · rintro ⟨op', ho', ho⟩ ht
        exact hc1 (hc ⟨op', mem_cons_of_mem _ ho', ho⟩ ht)
    have hwt : op.semOp ≤ 0 → (⟨p, done.reverse, op, ops⟩ : Waiter P).Blocked s0.semval →
        PassOk prm s0 (done.reverse ++ op :: ops) (s.semundo prm p done, .wait ⟨p, done.reverse, op, ops⟩) := by
      intro hle hbl
      exact ⟨hbc.1, hbc.2.2, rfl, hbc.2.1.symm ▸ hbl, hle⟩
    have hv := ha op.semNum
    rw [semopLoop]
    split_ifs with hpos hmax hg hge hnw hne hnw
    · exact her .erange
    · split
      · exact her _
      · rename_i s1 hs1
        obtain ⟨aoe1, rfl⟩ := adjust_ok hs1
        have ht : binaryType = ({ s with aoe := aoe1 } : State P).binaryType prm := by
          rw [hb, State.binaryType, State.binaryType, ← hw.binary]
        obtain ⟨hr, hcn⟩ := (h.setAoe aoe1).semaV hm hpos ht
          (fun ho => hc ⟨op, mem_cons_self, ho⟩) (o.pick done.length)
        exact hn _ { hr.woke with } hr.inv hcn hr.semval
    · split
      · exact her _
      · rename_i s1 hs1
        obtain ⟨aoe1, rfl⟩ := adjust_ok hs1
        obtain ⟨hr, hcn⟩ := h.semaP (h.setAoe aoe1).queued rfl rfl
          (show s.credit + op.semOp ≤ s.credit by omega) hm hg hge
        exact hn _ { hr.woke with } hr.inv hcn hr.semval
    · exact her .eagain
    · apply hwt (by omega)
      rw [Waiter.Blocked, if_pos hg, net_reverse]
      dsimp only
      omega
    · exact her .eagain
    · apply hwt (by omega)
      rw [Waiter.Blocked, if_neg hg, net_reverse]
      dsimp only
      omega
    · refine hn s (Woke.refl s) h id ?_
      rw [eq_comm, update_eq_self_iff]
      omega

end Pass

/-! ### Steps -/

section Steps

variable [DecidableEq P] {p : P} {o : Oracle} {ops : List Sembuf} {r : Cause × Waiter P}

theorem Inv.check (h : Inv prm s) (hv : Valid prm ops)
    (hc : (∃ op ∈ ops, op.semOp = 1) → s.binaryType prm = true → Counted s) : PassOk prm s ops (s.check prm o p ops) :=
  semopLoop_ok h h (Woke.refl s) (fun j => by simp [net]) rfl hv hc

omit [DecidableEq P] in
theorem Inv.sleep (h : Inv prm s) (hl : Valid prm w.ops) (hbl : w.Blocked s.semval)
    (ho : w.op.semOp ≤ 0) (hcn : s.cnt w.chan + 1 < 2 ^ 16) (hz : w.op.semOp = 0 → net w.done w.op.semNum = 0)
    (hu : w.op.semOp = -1 → s.binaryType prm = true → w.done = [] ∧ w.rest = []) : Inv prm (s.sleep w) := by
  have hmem : ∀ c v, v ∈ (s.sleep w).cv c → v ∈ s.cv c ∨ v = w ∧ c = w.chan := by
    intro c v hv
    simp only [State.sleep, update_apply] at hv
    split_ifs at hv with hc
    · rw [hc]
      rcases mem_append.mp hv with hv | hv
      · exact .inl hv
      · exact .inr ⟨mem_singleton.mp hv, rfl⟩
    · exact .inl hv
  refine ⟨⟨?_, ?_, ?_, h.queued.runnable_valid, ?_, ?_⟩, h.asleep.nonneg, ?_⟩
  · intro c hne
    simp only [State.sleep, update_apply] at hne ⊢
    split_ifs at hne ⊢
    · rw [Nat.mod_eq_of_lt hcn]
      omega
    · exact h.queued.cnt_pos c hne
  · intro c v hv
    rcases hmem c v hv with hv | ⟨rfl, rfl⟩
    · exact h.queued.chan c v hv
    · rfl
  · intro c v hv
    rcases hmem c v hv with hv | ⟨rfl, -⟩
    · exact h.queued.valid c v hv
    · exact hl
  · intro c v hv hn
    rcases hmem c v hv with hv | ⟨rfl, -⟩
    · exact h.queued.zero c v hv hn
    · exact ⟨by omega, hz (by omega)⟩
  · intro hb v hv
    simp only [State.binaryType, State.sleep, Bool.and_eq_true, Bool.not_eq_true',
      decide_eq_false_iff_not, decide_eq_true_eq] at hb
    have hb' : s.binaryType prm = true := by simp [State.binaryType, hb]
    rcases hmem _ v hv with hv | ⟨rfl, hc⟩
    · exact h.queued.unit hb' v hv
    · have hn : v.op.semOp < 0 := by
        by_contra hn
        rw [Waiter.chan, if_neg hn] at hc
        simp at hc
      obtain ⟨hd, hr⟩ := hu (by omega) hb'
      exact ⟨hd, hr, by omega⟩
  · intro c v hv
    rcases hmem c v hv with hv | ⟨rfl, -⟩
    · exact h.asleep.blocked c v hv
    · exact .inl hbl

/-- A process that goes to sleep does not overflow the counter, does not wait for a zero that its
own earlier operations move, and has a single operation if `cv_signal` may wake it. -/
def SleepOk (prm : Params) (s : State P) : State P × Verdict P → Prop
  | (s', .wait w) => s'.cnt w.chan + 1 < 2 ^ 16 ∧
    (w.op.semOp = 0 → net w.done w.op.semNum = 0) ∧
    (w.op.semOp = -1 → s.binaryType prm = true → w.done = [] ∧ w.rest = [])
  | _ => True

/-- The provisos of one pass over an array; on the `cv_signal` path everyone asleep is counted. -/
def SafePass (prm : Params) (s : State P) (o : Oracle) (p : P) (ops : List Sembuf) : Prop :=
  ((∃ op ∈ ops, op.semOp = 1) → s.binaryType prm = true → Counted s) ∧ SleepOk prm s (s.check prm o p ops)

theorem Inv.finish (h : Inv prm s) (hv : Valid prm ops) (hs : SafePass prm s o p ops) :
    Inv prm (.finish (s.check prm o p ops)) := by
  have hok := h.check (o := o) (p := p) hv hs.1
  have hw := hs.2
  cases hc : s.check prm o p ops with
  | mk s1 v =>
    rw [hc] at hok hw
    cases v with
    | done => exact hok
    | error e => exact hok.1
    | wait w =>
      obtain ⟨h₁, hn, rfl, hl, ho⟩ := hok
      obtain ⟨hcn, hz, hu⟩ := hw
      refine h₁.sleep hv hl ho hcn hz fun h1 hb => hu h1 ?_
      rwa [binaryType, ← hn]

/-- A woken process that would take a unit may only leave if nobody else sleeps for one. -/
def MayLeave (prm : Params) (s : State P) (r : Cause × Waiter P) : Prop :=
  prm.nsems = 1 → r.1 = .cv → r.2.IsUnit → ∀ w ∈ s.cv (0, .n), ¬ w.IsUnit

/-- As above, if the pass over the array fails. -/
def LeaveOk (prm : Params) (s : State P) (r : Cause × Waiter P) : State P × Verdict P → Prop
  | (_, .error _) => MayLeave prm s r
  | _ => True

theorem credit_erase (hr : r ∈ s.runnable) : s.credit = ({ s with runnable := s.runnable.erase r } : State P).credit +
      if r.1 = .cv ∧ r.2.IsUnit then 1 else 0 := by
  have := perm_cons_erase hr
  rw [credit, this.countP_eq, countP_cons]
  simp [credit]

section

variable (h : Inv prm s)
include h

theorem Inv.erase (hr : r ∈ s.runnable) (hs : s.semval 0 = 0 ∨ MayLeave prm s r) :
    Inv prm { s with runnable := s.runnable.erase r } := by
  have hcr := credit_erase hr
  refine ⟨{ h.queued with
    runnable_valid := fun r' hr' => h.queued.runnable_valid r' (mem_of_mem_erase hr') },
    h.asleep.nonneg, ?_⟩
  intro c w hw
  rcases h.asleep.blocked c w hw with hb | ⟨ho, hu, hle⟩
  · exact .inl hb
  · refine .inr ⟨ho, hu, ?_⟩
    dsimp only
    split_ifs at hcr with hv
    · have hmem : w ∈ s.cv (0, .n) := by
        have hc := h.queued.chan c w hw
        rw [Waiter.chan, h.queued.semNum_eq_zero hw ho, if_pos (by have := hu.2.2; omega)] at hc
        rwa [← hc] at hw
      have h0 := hs.resolve_right fun hm => hm ho hv.1 hv.2 w hmem hu
      omega
    · omega

theorem Inv.takeUnit (hr : r ∈ s.runnable) (ho : prm.nsems = 1)
    (hcv : r.1 = .cv) (hu : r.2.IsUnit) (hv : 1 ≤ s.semval 0) (aoe : P → ℕ → ℤ) :
    Inv prm (({ s with runnable := s.runnable.erase r, aoe := aoe } : State P).semaP r.2.op) := by
  have hc : s.credit = ({ s with runnable := s.runnable.erase r, aoe := aoe } : State P).credit + 1 := by
    rw [credit_erase hr, if_pos ⟨hcv, hu⟩]
    rfl
  have hn : r.2.op.semNum = 0 := by
    have := h.queued.runnable_valid r hr r.2.op r.2.mem_ops
    omega
  have hq : Queued prm ({ s with runnable := s.runnable.erase r, aoe := aoe } : State P) :=
    { h.queued with
      runnable_valid := fun r' hr' => h.queued.runnable_valid r' (mem_of_mem_erase hr') }
  have hp := hu.2.2
  exact (h.semaP hq rfl rfl (by omega) (by omega) (by omega) (by rw [hn]; omega)).1.inv

theorem Inv.recheck (hr : r ∈ s.runnable)
    (hs : SafePass prm { s with runnable := s.runnable.erase r } o r.2.proc r.2.ops)
    (hlv : LeaveOk prm s r (({ s with runnable := s.runnable.erase r } : State P).check prm o r.2.proc r.2.ops)) :
    Inv prm (.finish (({ s with runnable := s.runnable.erase r } : State P).check prm o r.2.proc r.2.ops)) := by
  have hv := h.queued.runnable_valid r hr
  by_cases hm : s.semval 0 = 0 ∨ MayLeave prm s r
  · exact (h.erase hr hm).finish hv hs
  · -- the process was counted on, so it takes its unit
    have hno := fun hl => hm (.inr hl)
    have ho : prm.nsems = 1 := by
      by_contra hne
      exact hno fun h1 => absurd h1 hne
    have hc : r.1 = .cv := by
      by_contra hne
      exact hno fun _ h1 => absurd h1 hne
    have hu : r.2.IsUnit := by
      by_contra hne
      exact hno fun _ _ h1 => absurd h1 hne
    have hvl : 1 ≤ s.semval 0 := by
      have := h.asleep.nonneg 0
      omega
    have hos : r.2.ops = [r.2.op] := by
      rw [Waiter.ops, hu.1, hu.2.1]
      rfl
    have hn : r.2.op.semNum = 0 := by
      have := hv r.2.op r.2.mem_ops
      omega
    have hp := hu.2.2
    have hge : s.semval r.2.op.semNum ≥ -r.2.op.semOp := by
      rw [hn, hp]
      exact hvl
    rw [hos] at hlv ⊢
    simp only [State.check, semopLoop, if_neg (show ¬ r.2.op.semOp > 0 by omega),
      if_pos (show r.2.op.semOp < 0 by omega), if_pos hge] at hlv ⊢
    split
    · rename_i e he
      rw [he] at hlv
      exact absurd hlv hno
    · rename_i s1 hs1
      obtain ⟨aoe, rfl⟩ := adjust_ok hs1
      exact h.takeUnit hr ho hc hu hvl aoe

omit [DecidableEq P] in
theorem Inv.leave (c : ℕ × Kind) : Inv prm (s.leave c) := by
  unfold State.leave
  split_ifs with hc
  · exact ⟨h.queued.broadcast c, h.asleep.mono (woke_broadcast s c) rfl⟩
  · refine ⟨{ h.queued with cnt_pos := ?_ }, { h.asleep with }⟩
    intro c' hne
    dsimp only
    rw [update_apply]
    split_ifs
    · omega
    · exact h.queued.cnt_pos c' hne

theorem Inv.interrupt (hw : w ∈ s.cv c) : Inv prm { s with
      cv := update s.cv c ((s.cv c).erase w), runnable := (.signal, w) :: s.runnable } := by
  have hsub : ∀ c', update s.cv c ((s.cv c).erase w) c' ⊆ s.cv c' := by
    intro c'
    rw [update_apply]
    split_ifs with hc
    · rw [hc]
      exact erase_subset
    · exact List.Subset.refl _
  refine ⟨⟨?_, ?_, ?_, ?_, ?_, ?_⟩, h.asleep.mono ⟨hsub, ?_, rfl⟩ rfl⟩
  · intro c' hne
    exact h.queued.cnt_pos c' fun hnil => hne (subset_nil.mp (hnil ▸ hsub c'))
  · exact fun c' v hv => h.queued.chan c' v (hsub c' hv)
  · exact fun c' v hv => h.queued.valid c' v (hsub c' hv)
  · exact forall_mem_cons.mpr ⟨h.queued.valid c w hw, h.queued.runnable_valid⟩
  · exact fun c' v hv => h.queued.zero c' v (hsub c' hv)
  · exact fun hb v hv => h.queued.unit hb v (hsub _ hv)
  · rw [credit, credit, countP_cons]
    omega

omit [DecidableEq P] in
theorem Inv.setVal (hj : j < prm.nsems) (v : ℕ) : Inv prm (s.setVal j v) := by
  unfold State.setVal
  dsimp only
  split_ifs with hv
  · exact h.assign hj (by omega) (.inr rfl) (.inl (by omega))
  · exact h.assign hj (by omega) (.inl (by have := h.asleep.nonneg j; omega)) (.inr rfl)

omit [DecidableEq P] in
theorem Inv.semexitRound (hj : j < prm.nsems) (p : P) : Inv prm (s.semexitRound prm p j) := by
  have h0 := h.asleep.nonneg j
  unfold State.semexitRound
  dsimp only
  split_ifs with hr hpos hv hv
  · exact h
  · omega
  · exact h.assign hj (by omega) (.inr rfl) (.inl hv)
  · exact h.assign hj (by omega) (.inl (by omega)) (.inr rfl)
  · refine ⟨{ h.queued with }, h.asleep.change h.queued (fun _ => List.Subset.refl _) hj
      (fun i hi => update_of_ne hi _ _) ?_ (.inl ⟨?_, ?_⟩) (.inl ?_)⟩ <;> dsimp only <;>
      rw [update_self]
    · omega
    · omega
    · have : credit { s with semval := update s.semval j (s.semval j + s.aoe p j) } = s.credit := rfl
      omega
    · exact hv

end

end Steps

/-! ### Runs -/

section Runs

theorem Inv.newSet : Inv prm (newSet : State P) := by
  constructor
  all_goals constructor <;> simp [Sem.newSet]

theorem Inv.foldl_setVal (h : Inv prm s) {js : List ℕ} (hs : ∀ j ∈ js, j < prm.nsems)
    (vals : ℕ → ℕ) : Inv prm (js.foldl (fun s j => s.setVal j (vals j)) s) := by
  induction js generalizing s with
  | nil => exact h
  | cons j js ih =>
    obtain ⟨hj, hs⟩ := forall_mem_cons.mp hs
    exact ih (h.setVal hj (vals j)) hs

variable [DecidableEq P]

/-- The condition on a step under which no wake-up is lost. -/
def Safe (prm : Params) (s : State P) : Event P → Prop
  | .semop p ops o => SafePass prm s o p ops
  | .recheck r o =>
    SafePass prm { s with runnable := s.runnable.erase r } o r.2.proc r.2.ops ∧
    LeaveOk prm s r (({ s with runnable := s.runnable.erase r } : State P).check prm o r.2.proc r.2.ops)
  | .eintr r => MayLeave prm s r
  | _ => True

def Step (prm : Params) (s s' : State P) : Prop := ∃ e, s.exec prm e = some s'

def SafeStep (prm : Params) (s s' : State P) : Prop := ∃ e, Safe prm s e ∧ s.exec prm e = some s'

theorem Inv.exec (h : Inv prm s) {e : Event P} (hs : Safe prm s e) (he : s.exec prm e = some s') : Inv prm s' := by
  cases e with simp only [State.exec] at he
  | semop p ops o =>
    split_ifs at he with hb
    · cases he
      exact h
    · cases he
      refine h.finish (fun op ho => ?_) hs
      by_contra hn
      exact hb (.inr (.inr ⟨op, ho, not_lt.mp hn⟩))
  | recheck r o =>
    split_ifs at he with hr
    cases he
    exact h.recheck hr hs.1 hs.2
  | interrupt w =>
    split_ifs at he with hw
    cases he
    exact h.interrupt hw
  | eintr r =>
    split_ifs at he with hr
    cases he
    exact (h.erase hr (.inr hs)).leave r.2.chan
  | setval num v =>
    split_ifs at he with hb <;> cases he
    · exact h
    · exact (h.setVal (by omega) v).setAoe _
  | setall vals =>
    split_ifs at he <;> cases he
    · exact h
    · exact Inv.foldl_setVal (h.setAoe _) (fun j hj => mem_range.mp hj) vals
  | semexit p num =>
    split_ifs at he with hn
    cases he
    exact h.semexitRound hn.1 p
  | semexitEnd p =>
    cases he
    exact h.setAoe _

/-- In every run whose steps meet the condition nobody oversleeps. -/
theorem noLostWakeup_of_safe (h : Reachable (· = newSet) (SafeStep prm) s) : NoLostWakeup prm s := by
  have hin : Inv prm s := by
    apply h.invariant
    · rintro s rfl
      exact Inv.newSet
    · rintro s s' hs ⟨e, hf, he⟩
      exact hs.exec hf he
  exact hin.asleep.noLostWakeup hin.queued

instance : Decidable (Counted s) := inferInstanceAs (Decidable (_ ≤ _))

instance (r : State P × Verdict P) : Decidable (SleepOk prm s r) :=
  match r with
  | (_, .wait _) => inferInstanceAs (Decidable (_ ∧ _ ∧ _))
  | (_, .done) => .isTrue trivial
  | (_, .error _) => .isTrue trivial

instance (o : Oracle) (p : P) (ops : List Sembuf) : Decidable (SafePass prm s o p ops) :=
  inferInstanceAs (Decidable (_ ∧ _))

instance (r : Cause × Waiter P) : Decidable (MayLeave prm s r) :=
  inferInstanceAs (Decidable (_ → _ → _ → ∀ w ∈ _, _))

instance (r : Cause × Waiter P) (v : State P × Verdict P) : Decidable (LeaveOk prm s r v) :=
  match v with
  | (_, .error _) => inferInstanceAs (Decidable (MayLeave prm s r))
  | (_, .done) => .isTrue trivial
  | (_, .wait _) => .isTrue trivial

instance (e : Event P) : Decidable (Safe prm s e) :=
  match e with
  | .semop _ _ _ => inferInstanceAs (Decidable (SafePass _ _ _ _ _))
  | .recheck _ _ => inferInstanceAs (Decidable (_ ∧ _))
  | .eintr _ => inferInstanceAs (Decidable (MayLeave _ _ _))
  | .interrupt _ => .isTrue trivial
  | .setval _ _ => .isTrue trivial
  | .setall _ => .isTrue trivial
  | .semexit _ _ => .isTrue trivial
  | .semexitEnd _ => .isTrue trivial

end Runs

/-! ### Lost wake-ups -/

/-- One semaphore, with the limits that the kernel comes with. -/
def oneSem : Params := ⟨1, 32767, 16384, 10, by decide⟩

def sembuf (semOp : ℤ) : Sembuf := ⟨0, semOp, false, false⟩

/-- Undo entries fit, and `cv_signal` finds who slept first. -/
def first : Oracle := ⟨fun _ => none, fun _ => 0⟩

/-- Process `p` in `cv_wait_sig` for one unit. -/
def unitWaiter (p : ℕ) : Waiter ℕ := ⟨p, [], sembuf (-1), []⟩

/-- Three processes sleep for a unit; the one woken for it is interrupted. -/
def interruptedAfterSignal : List (Event ℕ) :=
  [.semop 1 [sembuf (-1)] first, .semop 2 [sembuf (-1)] first, .semop 3 [sembuf (-1)] first,
    .semop 4 [sembuf 1] first, .eintr (.cv, unitWaiter 1)]

/-- The process woken for a unit needs two. -/
def twoUnits : List (Event ℕ) :=
  [.semop 1 [sembuf (-1), sembuf (-1)] first, .semop 2 [sembuf (-1)] first,
    .semop 3 [sembuf 1] first, .recheck (.cv, ⟨1, [], sembuf (-1), [sembuf (-1)]⟩) first]

/-- A process waits for the zero that its own first operation leads to from 1. -/
def movedZero : List (Event ℕ) :=
  [.semop 1 [sembuf 2] first, .semop 2 [sembuf (-1), sembuf 0] first, .semop 3 [sembuf (-1)] first]

def State.oversleeps (s : State P) (prm : Params) : Bool :=
  s.runnable.isEmpty && [Kind.n, .z].any fun k =>
    (s.cv (0, k)).any fun w => canCarryOut prm.semvmx w.ops s.semval

theorem State.not_noLostWakeup (h : s.oversleeps prm = true) : ¬ NoLostWakeup prm s := by
  intro hn
  rw [oversleeps, Bool.and_eq_true, List.isEmpty_iff, List.any_eq_true] at h
  obtain ⟨hr, k, -, h⟩ := h
  obtain ⟨w, hw, hc⟩ := any_eq_true.mp h
  rw [hn hr (0, k) w hw] at hc
  cases hc

theorem lost_of_oversleeps {es : List (Event ℕ)}
    (h : (runList (fun s e => s.exec oneSem e) newSet es).map (·.oversleeps oneSem) = some true) :
    ∃ s : State ℕ, runList (fun s e => s.exec oneSem e) newSet es = some s ∧
      Reachable (· = newSet) (Step oneSem) s ∧ ¬ NoLostWakeup oneSem s := by
  obtain ⟨s, hs, ho⟩ := Option.map_eq_some_iff.mp h
  refine ⟨s, hs, Reachable.runList (fun s e s' he => ⟨e, he⟩) (.start rfl) hs, ?_⟩
  exact s.not_noLostWakeup ho

theorem noLostWakeup_fails : [interruptedAfterSignal, twoUnits, movedZero].Forall fun es =>
    ∃ s : State ℕ, runList (fun s e => s.exec oneSem e) newSet es = some s ∧
      Reachable (· = newSet) (Step oneSem) s ∧ ¬ NoLostWakeup oneSem s :=
  ⟨lost_of_oversleeps (by decide), lost_of_oversleeps (by decide), lost_of_oversleeps (by decide)⟩

/-- Two processes sleep for a unit, and the first takes the unit that it is woken for. -/
theorem noLostWakeup_of_safe_twoWaiters : ∃ s : State ℕ, Reachable (· = newSet) (SafeStep oneSem) s ∧ s.semval 0 = 0 ∧
      s.cv (0, .n) = [unitWaiter 2] ∧ NoLostWakeup oneSem s := by
  have hn : (runList (fun s e => if Safe oneSem s e then s.exec oneSem e else none) newSet
      [.semop 1 [sembuf (-1)] first, .semop 2 [sembuf (-1)] first, .semop 3 [sembuf 1] first,
        .recheck (.cv, unitWaiter 1) first]).map (fun s => (s.semval 0, s.cv (0, .n))) =
      some (0, [unitWaiter 2]) := by decide
  obtain ⟨s, hs, hen⟩ := Option.map_eq_some_iff.mp hn
  obtain ⟨hv, hc⟩ := Prod.mk.inj hen
  have hr : Reachable (· = newSet) (SafeStep oneSem) s := by
    refine Reachable.runList (fun s e s' he => ?_) (.start rfl) hs
    split_ifs at he with hf
    exact ⟨e, hf, he⟩
  exact ⟨s, hr, hv, hc, noLostWakeup_of_safe hr⟩

end Sol8.Syscall.Sem
