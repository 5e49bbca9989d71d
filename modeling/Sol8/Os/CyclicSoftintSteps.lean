import Sol8.Os.CyclicSoftintInv

/-! The steps of a soft interrupt keep the invariant (`os/cyclic.c`). -/

namespace Sol8.Os.CyclicSoftint

open Function Sol8.Lib LevelState

variable {κ : Type} {s s' : State κ} {c c' : Shared κ} {v v' : LevelState κ} {w w' : ℕ → ℕ} {l : Level} {i : ℕ} {n : ℕ}
  {pc : Pc}

/-! ### Steps of one level -/

structure SameFor (c : Shared κ) (w : ℕ → ℕ) (c' : Shared κ) (w' : ℕ → ℕ) (l : Level) : Prop where
  cyclics : c'.cyclics = c.cyclics
  size : c'.size = c.size
  modifier : c'.modifier = c.modifier
  rpend : c'.rpend = c.rpend
  wait : ∀ i, c.modifier = .removeWait i → (c.cur i).level = l → c'.modifyWait = c.modifyWait
  old : ∀ g, g ≠ c.cyclics → c'.mem g = c.mem g
  handler : ∀ i, (c'.cur i).handler = (c.cur i).handler
  level : ∀ i, (c'.cur i).level = (c.cur i).level
  free : ∀ i, (c'.cur i).free = (c.cur i).free
  owed : ∀ i, (c.cur i).level = l → w' i = w i
  calls : ∀ i, Held c w i → (c.cur i).level = l → c'.calls (c.cur i).handler = c.calls (c.cur i).handler
  expires : ∀ i, Held c w i → (c.cur i).level = l → c'.expires (c.cur i).handler = c.expires (c.cur i).handler

namespace SameFor

section

variable (h : SameFor c w c' w' l)
include h

theorem arrayOk (ha : ArrayOk c v) : ArrayOk c' v := by
  rcases ha with ha | ⟨hm, hne, ha⟩
  · exact .inl (ha.trans h.cyclics.symm)
  · by_cases he : v.frame.cyclics = c.cyclics
    · exact .inl (he.trans h.cyclics.symm)
    · refine .inr ⟨h.modifier.trans hm, hne, fun i => ?_⟩
      rw [h.old _ he, h.free, h.handler]
      exact ha i

theorem frameOk (hf : FrameOk c v w l) : FrameOk c' v w' l where
  array hpc := h.arrayOk (hf.array hpc)
  soft := hf.soft
  cons := hf.cons
  entry := hf.entry
  fetched := hf.fetched
  cyclic := hf.cyclic
  handler hpc := by
    rw [h.handler]
    exact hf.handler hpc
  cas := hf.cas
  stateTest hpc := by
    rw [h.modifier, h.cyclics]
    exact hf.stateTest hpc
  removePend hpc := by
    rw [h.modifier]
    exact hf.removePend hpc
  removing hpc := by
    obtain ⟨hm, hw, hr, hl⟩ := hf.removing hpc
    rw [h.modifier, h.wait _ hm hl, h.rpend, h.level]
    exact ⟨hm, hw, hr, hl⟩
  removeCall hpc := by
    rw [h.owed _ (hf.removing (.inl hpc)).2.2.2, h.handler]
    exact hf.removeCall hpc
  removePost hpc := by
    rw [h.owed _ (hf.removing (.inr hpc)).2.2.2]
    exact hf.removePost hpc
  past := hf.past
  switch hpc := (hf.switch hpc).trans h.cyclics.symm
  store := hf.store
  check := hf.check
  ended := hf.ended
  resized hr hpc := by
    rw [h.modifier]
    exact hf.resized hr hpc
  bump := hf.bump
  kick hpc := h.modifier.trans (hf.kick hpc)

theorem held (hi : (c.cur i).level = l) : Held c' w' i ↔ Held c w i := by
  simp only [Held, h.free, h.owed i hi]

theorem levelOk (hl : LevelOk c v w l) : LevelOk c' v w' l where
  frame := h.frameOk hl.frame
  mask := hl.mask.trans h.size.symm
  cons_le := hl.cons_le
  agree hne := h.modifier.trans (hl.agree hne)
  fresh hm := by
    rw [h.size]
    exact hl.fresh (h.modifier.symm.trans hm)
  nodup := hl.nodup
  mem_live i := by
    rw [hl.mem_live, h.level]
    by_cases hi : (c.cur i).level = l
    · rw [h.owed i hi]
    · simp [hi]
  removed i hm hi hw := by
    rw [h.level] at hi
    rw [h.owed i hi] at hw ⊢
    rw [h.rpend]
    exact hl.removed i (h.modifier.symm.trans hm) hi hw
  account i hh hi := by
    rw [h.level] at hi
    rw [h.held hi] at hh
    rw [h.handler, h.owed i hi, h.calls i hh hi, h.expires i hh hi]
    exact hl.account i hh hi

end

end SameFor

def Level.other : Level → Level
  | .low => .lock
  | .lock => .low

theorem Level.sum (f : Level → ℕ) (l : Level) : f .low + f .lock = f l + f l.other := by
  cases l
  · rfl
  · exact Nat.add_comm ..

theorem Level.eq_other_of_ne {l l' : Level} (h : l' ≠ l) : l' = l.other := by
  cases l <;> cases l' <;> simp_all [Level.other]

theorem Level.other_ne (l : Level) : l.other ≠ l := by
  cases l <;> simp [Level.other]

theorem Inv.ofLevel (h : Inv s w) (hh : SharedOk c' w') (hv : LevelOk c' v' w' l)
    (hsm : SameFor s.shared w c' w' l.other)
    (hm : ModifyOk c' w' (v'.seen + (s.lev l.other).seen) (v'.kicks + (s.lev l.other).kicks)) :
    Inv ⟨c', update s.lev l v'⟩ w' := by
  refine ⟨hh, fun l' => ?_, ?_⟩
  · by_cases hl : l' = l
    · subst hl
      simpa using hv
    · dsimp only
      rw [update_of_ne hl]
      have := hsm.levelOk (h.level l.other)
      rwa [← Level.eq_other_of_ne hl] at this
  · have hn := Level.sum (fun l' => (update s.lev l v' l').seen) l
    have hk := Level.sum (fun l' => (update s.lev l v' l').kicks) l
    simp only [update_self, update_of_ne l.other_ne] at hn hk
    rw [hn, hk]
    exact hm

theorem SameFor.refl : SameFor c w c w l where
  cyclics := rfl
  size := rfl
  modifier := rfl
  rpend := rfl
  wait _ _ _ := rfl
  old _ _ := rfl
  handler _ := rfl
  level _ := rfl
  free _ := rfl
  owed _ _ := rfl
  calls _ _ _ := rfl
  expires _ _ _ := rfl

def LevelState.head (v : LevelState κ) : ℕ :=
  (v.softbuf.buf v.softbuf.soft).buf
    ((v.softbuf.buf v.softbuf.soft).consndx &&& (v.softbuf.buf v.softbuf.soft).sizemask)

namespace LevelOk

variable (h : LevelOk c v w l)
include h

theorem head_eq (hpc : v.frame.pc.fetched = true) : v.frame.cyclic.2 = v.head := by
  have hr : v.frame.pc.reading = true := by
    simp only [Pc.reading, Pc.onEntry, hpc, Bool.or_true, Bool.true_or]
  obtain ⟨h1, h2⟩ := h.frame.cons hr
  rw [h.frame.fetched hpc, h1, h2]
  rfl

theorem live_cons (hpc : v.frame.pc.onEntry = true) :
    v.live = v.head :: ((v.softbuf.buf v.softbuf.soft).entries 1 ++ v.hardPart) := by
  have hd : v.frame.pc.dead = false := by
    cases he : v.frame.pc <;> simp_all [Pc.onEntry, Pc.fetched, Pc.called, Pc.dead]
  have hlt := h.frame.entry (.inl hpc)
  rw [live, softPart, hd, if_neg Bool.false_ne_true, PcBuffer.entries, Nat.add_zero, Ring.slice_cons hlt]
  rfl

theorem head_owed (hpc : v.frame.pc.onEntry = true) : w v.head ≠ 0 ∧ (c.cur v.head).level = l := by
  have hmem : v.head ∈ v.live := by simp [h.live_cons hpc]
  obtain ⟨hw, hl, -⟩ := (h.mem_live _).mp hmem
  exact ⟨hw, hl⟩

end LevelOk

theorem Pc.onEntry_of_fetched (h : pc.fetched = true) : pc.onEntry = true := by
  simp [Pc.onEntry, h]

theorem Pc.fetched_of_called (h : pc.called = true) : pc.fetched = true := by
  cases pc <;> simp_all [Pc.called, Pc.fetched]

theorem LevelOk.cyclic_owed (h : LevelOk c v w l) (hpc : v.frame.pc.fetched = true) :
    w v.frame.cyclic.2 ≠ 0 ∧ (c.cur v.frame.cyclic.2).level = l := by
  rw [h.head_eq hpc]
  exact h.head_owed (Pc.onEntry_of_fetched hpc)

theorem SharedOk.not_free (h : SharedOk c w) (hw : w i ≠ 0) (hm : c.modifier = .expandWait) :
    (c.cur i).free = false := by
  by_contra hf
  have := h.freed i (by simpa using hf) hw
  rw [hm] at this
  cases this

theorem ModifyOk.congr {seen kicks seen' kicks' : ℕ} (h : ModifyOk c w seen kicks)
    (hm : c'.modifier = c.modifier) (hw : c'.modifyWait = c.modifyWait)
    (hl : c'.modifyLevels = c.modifyLevels) (hr : c'.rpend = c.rpend)
    (ho : ∀ i, c.modifier = .removeWait i → c.modifyWait ≠ 0 → w' i = w i)
    (hn : seen' = seen) (hk : kicks' = kicks) : ModifyOk c' w' seen' kicks' := by
  unfold ModifyOk at h ⊢
  rw [hm, hw, hl, hr, hn, hk]
  cases he : c.modifier with
  | removeWait i =>
    rw [he] at h
    rcases h with h | ⟨h1, h2, h3⟩
    · exact .inl h
    · exact .inr ⟨h1, (ho i he (by omega)).trans h2, h3⟩
  | _ =>
    rw [he] at h
    exact h

theorem Inv.modify_level (h : Inv s w) (l : Level) :
    ModifyOk s.shared w ((s.lev l).seen + (s.lev l.other).seen) ((s.lev l).kicks + (s.lev l.other).kicks) := by
  have hmod := h.modify
  rwa [Level.sum (fun l => (s.lev l).seen) l, Level.sum (fun l => (s.lev l).kicks) l] at hmod

/-- Where nothing of the level counts, the semaphore and the count of levels stay as they are. -/
theorem Inv.ofLevel_quiet (h : Inv s w) (hl : LevelOk s.shared v' w l)
    (hn : v'.seen = (s.lev l).seen) (hk : v'.kicks = (s.lev l).kicks) : Inv { s with lev := update s.lev l v' } w := by
  refine h.ofLevel h.shared hl .refl ?_
  exact (h.modify_level l).congr rfl rfl rfl rfl (fun _ _ _ => rfl) (by rw [hn]) (by rw [hk])

theorem LevelState.goto_live (h : pc.dead = v.frame.pc.dead) : (v.goto pc).live = v.live := by
  simp only [live, softPart, hardPart, goto, h]
  rfl

theorem SharedOk.owe (h : SharedOk c w) (hfree : (c.cur i).free = true) (hw : w i ≠ 0)
    (hn : n = 0 → c.calls (c.cur i).handler = c.expires (c.cur i).handler) : SharedOk c (update w i n) := by
  have hh : ∀ j, Held c (update w i n) j → Held c w j := by
    rintro j (hj | hj)
    · exact .inl hj
    · by_cases he : j = i
      · exact .inr (he ▸ hw)
      · exact .inr (by rwa [update_of_ne he] at hj)
  refine { h with active := ?_, freed := ?_, inj := ?_, gone := ?_ }
  · intro j hj
    have he : j ≠ i := fun he => by simp [he, hfree] at hj
    rw [update_of_ne he]
    exact h.active j hj
  · intro j hj hwj
    by_cases he : j = i
    · exact he ▸ h.freed i hfree hw
    · rw [update_of_ne he] at hwj
      exact h.freed j hj hwj
  · intro j j' hj hj'
    exact h.inj j j' (hh j hj) (hh j' hj')
  · intro k hk
    by_cases hki : k = (c.cur i).handler ∧ n = 0
    · rw [hki.1]
      exact hn hki.2
    · apply h.gone k
      intro j hj hjk
      by_cases he : j = i
      · subst he
        apply hki
        refine ⟨hjk.symm, ?_⟩
        by_contra hn0
        exact hk j (.inr (by rwa [update_self])) hjk
      · refine hk j ?_ hjk
        rw [Held, update_of_ne he]
        exact hj

theorem SameFor.owe (hl : (c.cur i).level ≠ l) : SameFor c w c (update w i n) l :=
  { (SameFor.refl : SameFor c w c w l) with
    owed := fun j hj => by
      have he : j ≠ i := fun he => hl (he ▸ hj)
      rw [update_of_ne he] }

section Steps

attribute [local simp] Pc.called Pc.fetched Pc.onEntry Pc.dead Pc.past Pc.ended Pc.reading Pc.hasSoft ahead
  Pc.hasArray Pc.reports ArrayOk goto seen kicks

theorem LevelOk.removePend (h : LevelOk c v w l) (hpc : v.frame.pc = .removePend)
    (ht : c.modifyWait = 0) (hr : c.rpend ≠ 0) {k : κ} (hk : k = (c.cur v.frame.cyclic.2).handler)
    (hw : w v.frame.cyclic.2 = c.rpend) :
    LevelOk c { v with frame := { v.frame with handler := k, pend := c.rpend - 1, pc := .removeCall } }
      (update w v.frame.cyclic.2 (c.rpend - 1)) l := by
  obtain ⟨-, hlev⟩ := h.cyclic_owed (by simp [hpc])
  have hh := h.head_eq (by simp [hpc])
  have hc := h.live_cons (by simp [hpc])
  have hnd := h.nodup
  rw [hc, List.nodup_cons, ← hh] at hnd
  set v' : LevelState κ :=
    { v with frame := { v.frame with handler := k, pend := c.rpend - 1, pc := .removeCall } } with hv'
  have hv : v'.live = (v.softbuf.buf v.softbuf.soft).entries 1 ++ v.hardPart := rfl
  have hf : FrameOk c v' (update w v.frame.cyclic.2 (c.rpend - 1)) l := by
    have hb := h.frame.base
    have hmod := h.frame.removePend hpc
    constructor <;> simp_all
  refine { h with frame := hf, nodup := ?_, mem_live := ?_, removed := ?_, account := ?_ }
  · exact hnd.2
  · intro i
    rw [hv]
    by_cases he : i = v.frame.cyclic.2
    · subst he
      simp [hnd.1, hv']
    · have := h.mem_live i
      rw [hc, ← hh] at this
      simpa [he, hpc, Ne.symm he, hv'] using this
  · intro i _ _ _
    exact .inl rfl
  · intro i hi hl
    have hn : v'.ahead i = 0 := by simp [hv']
    by_cases he : i = v.frame.cyclic.2
    · subst he
      have ha := h.account _ (.inr (by omega)) hl
      rw [update_self]
      simp only [ahead, hpc, Pc.called, true_and, if_true] at ha
      omega
    · have ha := h.account i (by rwa [Held, update_of_ne he] at hi) hl
      rw [update_of_ne he]
      simpa [Ne.symm he] using ha

theorem Inv.removePend (h : Inv s w) (hpc : (s.lev l).frame.pc = .removePend) :
    ∃ w', Inv { s with lev := update s.lev l { s.lev l with frame := { (s.lev l).frame with
      handler := (s.shared.mem (s.lev l).frame.cyclic.1 (s.lev l).frame.cyclic.2).handler
      pend := (s.shared.rpend + (2 ^ 32 - 1)) % 2 ^ 32
      pc := .removeCall } } } w' := by
  have hl := h.level l
  have hm := hl.frame.removePend hpc
  obtain ⟨hw, hv⟩ := hl.cyclic_owed (by simp [hpc])
  have hh := hl.frame.handler_eq (by simp [hpc]) (by simp [hpc]) (by simp [hm])
  have hr := (hl.removed _ hm hv hw).resolve_left (by simp [hpc])
  have hmod := h.modify
  have ht : s.shared.modifyWait = 0 := by
    simp only [ModifyOk, hm] at hmod
    rcases hmod with hmod | hmod
    · exact hmod
    · exact absurd hmod.2.1 hw
  have hsm := h.shared.small.1
  have hp : (s.shared.rpend + (2 ^ 32 - 1)) % 2 ^ 32 = s.shared.rpend - 1 := by omega
  rw [hp]
  refine ⟨update w (s.lev l).frame.cyclic.2 (s.shared.rpend - 1), ?_⟩
  refine h.ofLevel (h.shared.owe (h.shared.removeWait _ hm).1 hw ?_)
    (hl.removePend hpc ht (by omega) hh hr)
    (.owe fun he => l.other_ne (he.symm.trans hv)) ?_
  · intro hn
    have ha := hl.account _ (.inr hw) hv
    simp only [ahead, hpc, Pc.called, true_and, if_true] at ha
    omega
  · refine (h.modify_level l).congr rfl rfl rfl rfl (fun _ _ hne => absurd ht hne) ?_ ?_
    all_goals simp [hpc]

theorem FrameOk.removeCall_removePost (h : FrameOk c v w l) (hpc : v.frame.pc = .removeCall)
    (hp : v.frame.pend = 0) : FrameOk c (v.goto .removePost) w l := by
  have hb := h.base
  have hr := h.removing
  have hc := h.removeCall
  constructor <;> simp_all

theorem Inv.removeCall_removePost (h : Inv s w) (hpc : (s.lev l).frame.pc = .removeCall)
    (hp : (s.lev l).frame.pend = 0) : Inv { s with lev := update s.lev l ((s.lev l).goto .removePost) } w := by
  have hl := h.level l
  refine h.ofLevel_quiet ?_ (by simp [hpc]) (by simp [hpc])
  refine hl.reframe (hl.frame.removeCall_removePost hpc hp) rfl (by simp [hpc]) ?_ ?_ (by simp)
  · simp [hpc]
  · intro _
    rw [(hl.frame.removeCall hpc).1, hp]

theorem FrameOk.removePost_advance (h : FrameOk c v w l) (hpc : v.frame.pc = .removePost) :
    FrameOk c (v.goto .advance) w l := by
  have hb := h.base
  constructor <;> simp_all

theorem Inv.removePost (h : Inv s w) (hpc : (s.lev l).frame.pc = .removePost) :
    Inv ⟨{ s.shared with modifyWait := s.shared.modifyWait + 1 },
      update s.lev l ((s.lev l).goto .advance)⟩ w := by
  have hl := h.level l
  obtain ⟨hm, ht, hr, hlev⟩ := hl.frame.removing (.inr hpc)
  have hw := hl.frame.removePost hpc
  have hv : LevelOk s.shared ((s.lev l).goto .advance) w l := by
    refine hl.reframe (hl.frame.removePost_advance hpc) rfl (by simp [hpc]) ?_ (by simp [hpc]) (by simp)
    simp [hpc]
  refine h.ofLevel { h.shared with } ?_ ?_ ?_
  · exact { hv with frame := { hv.frame with removing := by simp } }
  · -- the removed cyclic is of this level, so no removal waits on the other
    refine { (SameFor.refl : SameFor s.shared w s.shared w l.other) with wait := ?_ }
    intro i hi hil
    rw [hm, Modifier.removeWait.injEq] at hi
    subst hi
    exact absurd (hil.symm.trans hlev) l.other_ne
  · simp only [ModifyOk, hm, ht]
    exact .inr ⟨by simp, hw, hr⟩

theorem LevelOk.advance (h : LevelOk c v w l) (hpc : v.frame.pc = .advance) (hv' : v' = { v with
      softbuf := { v.softbuf with
        buf := update v.softbuf.buf v.frame.soft { v.pcbuf with consndx := v.frame.consndx + 1 } }
      frame := { v.frame with consndx := v.frame.consndx + 1, pc := .test } }) : LevelOk c v' w l := by
  have hsf := h.frame.soft (by simp [hpc])
  obtain ⟨hc, hms⟩ := h.frame.cons (by simp [hpc])
  have hlt := h.frame.entry (by simp [hpc])
  obtain ⟨eh, es⟩ : v'.softbuf.hard = v.softbuf.hard ∧ v'.softbuf.soft = v.softbuf.soft := by simp [hv']
  have hbf : v'.softbuf.buf v.softbuf.soft =
      { v.softbuf.buf v.softbuf.soft with consndx := (v.softbuf.buf v.softbuf.soft).consndx + 1 } := by
    simp [hv', hsf, hc, pcbuf]
  have ho {b : Bool} (hb : b ≠ v.softbuf.soft) : v'.softbuf.buf b = v.softbuf.buf b := by
    simp [hv', hsf, hb]
  have hp : v'.softPart = v.softPart := by
    simp [softPart, PcBuffer.entries, hpc, hv', hsf, hc, pcbuf]
  have hh : v'.hardPart = v.hardPart := by
    by_cases he : v.softbuf.soft = v.softbuf.hard
    · simp [hardPart, hv', he]
    · simp [hardPart, hv', he, hsf, Ne.symm he]
  have hl : v'.live = v.live := by rw [live, hp, hh, live]
  have hf : FrameOk c v' w l := by
    have hr := h.frame.resized
    have ha := h.frame.array
    constructor <;> simp_all
  refine h.rework hf ?_ ?_ (es ▸ eh ▸ h.agree) ?_ hl (by simp [hpc, hv']) (by simp [hpc]) (by simp [hv'])
  · rw [eh]
    by_cases he : v.softbuf.hard = v.softbuf.soft
    · have := h.mask
      rw [he] at this ⊢
      rw [hbf]
      exact this
    · rw [ho he]
      exact h.mask
  · intro b
    by_cases he : b = v.softbuf.soft
    · rw [he, hbf]
      exact hlt
    · rw [ho he]
      exact h.cons_le b
  · intro hm
    have he : v.softbuf.soft = v.softbuf.hard := by
      by_contra hne
      have := h.agree hne
      rw [hm] at this
      cases this
    rw [eh, ho (by simp [he])]
    exact h.fresh hm

theorem Inv.quiet (h : Inv s w) (hq : Quiet (s.lev l) v') (hf : FrameOk s.shared v' w l) :
    Inv { s with lev := update s.lev l v' } w :=
  h.ofLevel_quiet (hq.levelOk (h.level l) hf) hq.seen hq.kicks

theorem LevelOk.switchStore (h : LevelOk c v w l) (hpc : v.frame.pc = .switchStore) (hv' : v' = { v with
      softbuf := { v.softbuf with soft := v.frame.hard }
      frame := { v.frame with resized := true, pc := .top } }) : LevelOk c v' w l := by
  obtain ⟨hne, hnil⟩ := h.frame.past (by simp [hpc])
  have ht := h.frame.store hpc
  have hw := h.frame.switch (.inr hpc)
  have hm := h.agree hne
  have hl : v'.live = v.live := by
    rw [live, live, hnil]
    simp [softPart, hardPart, hv', ht, hne]
  have hf : FrameOk c v' w l := by
    constructor <;> simp_all
  subst hv'
  exact h.rework hf h.mask h.cons_le (fun _ => hm) h.fresh hl (by simp [hpc]) (by simp [hpc]) (by simp)

theorem Inv.switchStore (h : Inv s w) (hpc : (s.lev l).frame.pc = .switchStore) :
    Inv { s with lev := update s.lev l { s.lev l with
      softbuf := { (s.lev l).softbuf with soft := (s.lev l).frame.hard }
      frame := { (s.lev l).frame with resized := true, pc := .top } } } w := by
  have hne := ((h.level l).frame.past (by simp [hpc])).1
  refine h.ofLevel_quiet ((h.level l).switchStore hpc rfl) ?_ ?_
  · simp [hne]
  · simp [hpc]

theorem FrameOk.goto_ended (h : FrameOk c v w l) (hpc : v.frame.pc.ended = true)
    (hpc' : pc = .idle ∨ pc = .kick ∨ pc = .postDown) (hm : pc = .kick → c.modifier = .expandWait) :
    FrameOk c (v.goto pc) w l := by
  have hdd : v.frame.pc.dead = false := by
    cases he : v.frame.pc <;> simp_all
  have ho := h.ended hpc
  have hl (pc : Pc) (hd : pc.dead = false) : (v.goto pc).live = v.live :=
    goto_live (hd.trans hdd.symm)
  rcases hpc' with rfl | rfl | rfl
  all_goals
    constructor
    all_goals simp_all

theorem LevelOk.goto_ended (h : LevelOk c v w l) (hpc : v.frame.pc.ended = true)
    (hpc' : pc = .idle ∨ pc = .kick ∨ pc = .postDown) (hm : pc = .kick → c.modifier = .expandWait) :
    LevelOk c (v.goto pc) w l := by
  have hn : v.frame.pc.dead = false ∧ v.frame.pc.called = false ∧ v.frame.pc ≠ .removeCall := by
    cases he : v.frame.pc <;> simp_all
  have hn' : pc.dead = false ∧ pc.called = false ∧ pc ≠ .removeCall := by
    rcases hpc' with rfl | rfl | rfl <;> simp
  refine h.reframe (h.frame.goto_ended hpc hpc' hm) rfl (hn'.1.trans hn.1.symm) ?_
    (fun hp => absurd hp hn.2.2) hn'.2.2
  intro i
  simp only [ahead, goto, hn.2.1, hn'.2.1]

theorem Inv.bumpCas (h : Inv s w) (hpc : (s.lev l).frame.pc = .bumpCas)
    (hlev : s.shared.modifyLevels = (s.lev l).frame.lev) :
    Inv ⟨{ s.shared with modifyLevels := (s.lev l).frame.lev + 1 },
      update s.lev l ((s.lev l).goto (if (s.lev l).frame.lev + 1 = 2 then .kick
        else if l ≠ .low then .postDown else .idle))⟩ w := by
  have hl := h.level l
  have hr := hl.frame.bump (.inr hpc)
  obtain ⟨hm, heq⟩ := hl.frame.resized hr (by simp [hpc])
  have hmod := h.modify_level l
  have hn : (s.lev l).seen = 0 := by simp [hr, hpc]
  have hk : (s.lev l).kicks = 0 := by simp [hpc]
  have ho : (s.lev l.other).seen ≤ 1 := by
    unfold seen
    split_ifs <;> omega
  simp only [ModifyOk, hm, hn, hk] at hmod
  set pc : Pc := if (s.lev l).frame.lev + 1 = 2 then .kick else if l ≠ .low then .postDown else .idle with hp
  have hpc' : pc = .idle ∨ pc = .kick ∨ pc = .postDown := by
    rw [hp]
    split_ifs <;> simp
  have hv := hl.goto_ended (by simp [hpc]) hpc' fun _ => hm
  refine h.ofLevel { h.shared with } { hv with frame := { hv.frame with } }
    { (SameFor.refl : SameFor s.shared w s.shared w l.other) with } ?_
  have hs' : ((s.lev l).goto pc).seen = 1 := by
    rcases hpc' with he | he | he <;> simp [he, heq]
  have hk' : ((s.lev l).goto pc).kicks = if (s.lev l).frame.lev + 1 = 2 then 1 else 0 := by
    rw [hp]
    split_ifs <;> simp
  simp only [ModifyOk, hm, hs', hk']
  split_ifs at hmod ⊢ <;> omega

theorem Inv.kick (h : Inv s w) (hpc : (s.lev l).frame.pc = .kick) :
    Inv ⟨{ s.shared with modifyWait := s.shared.modifyWait + 1 },
      update s.lev l ((s.lev l).goto .idle)⟩ w := by
  have hl := h.level l
  have hm := hl.frame.kick hpc
  have hv := hl.goto_ended (by simp [hpc]) (.inl rfl : Pc.idle = .idle ∨ _) (by simp)
  have hmod := h.modify_level l
  refine h.ofLevel { h.shared with } { hv with frame := { hv.frame with removing := by simp } } ?_ ?_
  · refine { (SameFor.refl : SameFor s.shared w s.shared w l.other) with wait := ?_ }
    intro i hi
    rw [hm] at hi
    cases hi
  · have hn : ((s.lev l).goto .idle).seen = (s.lev l).seen := by
      simp [hpc]
    have hk : (s.lev l).kicks = 1 ∧ ((s.lev l).goto .idle).kicks = 0 := by
      simp [hpc]
    simp only [ModifyOk, hm, hn, hk] at hmod ⊢
    omega

section SetPend

variable (c : Shared κ) (i n j : ℕ)

theorem setPend_cur : (c.setPend c.cyclics i n).cur j = if j = i then { c.cur j with pend := n } else c.cur j := by
  simp only [Shared.setPend, Shared.cur, update_self, update_apply]
  split_ifs with hj
  · rw [hj]
  · rfl

theorem setPend_handler : ((c.setPend c.cyclics i n).cur j).handler = (c.cur j).handler := by
  rw [setPend_cur]
  split_ifs <;> rfl

theorem setPend_level : ((c.setPend c.cyclics i n).cur j).level = (c.cur j).level := by
  rw [setPend_cur]
  split_ifs <;> rfl

theorem setPend_free : ((c.setPend c.cyclics i n).cur j).free = (c.cur j).free := by
  rw [setPend_cur]
  split_ifs <;> rfl

theorem setPend_old {g : ℕ} (hg : g ≠ c.cyclics) : (c.setPend c.cyclics i n).mem g = c.mem g :=
  update_of_ne hg ..

end SetPend

theorem SharedOk.setPend (h : SharedOk c w) (hfree : (c.cur i).free = false) (hn : n < 2 ^ 31) :
    SharedOk (c.setPend c.cyclics i n) (update w i n) := by
  have hh : ∀ j, Held (c.setPend c.cyclics i n) (update w i n) j ↔ Held c w j := by
    intro j
    rw [Held, Held, setPend_free]
    by_cases hj : j = i
    · simp [hj, hfree]
    · rw [update_of_ne hj]
  refine ⟨h.size, ?_, ?_, ?_, ?_, ?_, ?_, h.state, ?_, ?_, h.rpend, h.small.1, ?_⟩
  · intro j hj
    rw [setPend_free]
    exact h.range j hj
  · intro j hj
    rw [setPend_free] at hj
    have hne : j ≠ i := fun he => by simp [he, hfree] at hj
    rw [setPend_cur, if_neg hne]
    exact h.free j hj
  · intro j hj
    rw [setPend_free] at hj
    rw [setPend_cur, update_apply]
    split_ifs
    · rfl
    · exact h.active j hj
  · intro j hj hw
    rw [setPend_free] at hj
    have hne : j ≠ i := fun he => by simp [he, hfree] at hj
    rw [update_of_ne hne] at hw
    exact h.freed j hj hw
  · intro j j' hj hj'
    rw [setPend_handler, setPend_handler]
    exact h.inj j j' ((hh j).mp hj) ((hh j').mp hj')
  · intro k hk
    refine h.gone k fun j hj => ?_
    have := hk j ((hh j).mpr hj)
    rwa [setPend_handler] at this
  · intro j hj
    rw [setPend_free]
    exact h.remove j hj
  · intro j hj
    rw [setPend_free]
    exact h.removeWait j hj
  · intro j
    rw [setPend_cur]
    split_ifs
    · exact hn
    · exact h.small.2 j

theorem SameFor.setPend (hl : (c.cur i).level ≠ l) : SameFor c w (c.setPend c.cyclics i n) (update w i n) l :=
  { (SameFor.refl : SameFor c w c w l) with
    old := fun _ hg => setPend_old c i n hg
    handler := setPend_handler c i n
    level := setPend_level c i n
    free := setPend_free c i n
    owed := (SameFor.owe hl).owed
    wait := fun _ _ _ => rfl
    calls := fun _ _ _ => rfl
    expires := fun _ _ _ => rfl }

theorem FrameOk.setPend (h : FrameOk c v w l)
    (hw : v.frame.pc = .removeCall ∨ v.frame.pc = .removePost → w' v.frame.cyclic.2 = w v.frame.cyclic.2) :
    FrameOk (c.setPend c.cyclics i n) v w' l :=
  { h with
    array := fun hp => by
      rcases h.array hp with ha | ⟨hm, hne, ha⟩
      · exact .inl ha
      · by_cases he : v.frame.cyclics = c.cyclics
        · exact .inl he
        · refine .inr ⟨hm, hne, fun j => ?_⟩
          rw [setPend_old c i n he, setPend_free, setPend_handler]
          exact ha j
    handler := fun hp => by
      rw [setPend_handler]
      exact h.handler hp
    removing := fun hp => by
      rw [setPend_level]
      exact h.removing hp
    removeCall := fun hp => by
      rw [hw (.inl hp), setPend_handler]
      exact h.removeCall hp
    removePost := fun hp => by
      rw [hw (.inr hp)]
      exact h.removePost hp }

section

variable (h : LevelOk c v w l) (hs : SharedOk c w) (hpc : v.frame.pc = .cas)
  (hfree : (c.cur v.frame.cyclic.2).free = false)
include h hs hpc hfree

/-- The pend count of the entry at hand is decremented; what is left says whether it stays. -/
theorem LevelOk.paid (hn : w v.frame.cyclic.2 = n + 1) (hb : v'.softbuf = v.softbuf)
    (hf : FrameOk (c.setPend c.cyclics v.frame.cyclic.2 n) v' (update w v.frame.cyclic.2 n) l)
    (hp : v'.live.Nodup) (hv : ∀ j, j ∈ v'.live ↔ j ∈ v.live ∧ (j = v.frame.cyclic.2 → n ≠ 0))
    (hpc' : v'.frame.pc ≠ .removeCall ∧ v'.frame.pc.called = false) :
    LevelOk (c.setPend c.cyclics v.frame.cyclic.2 n) v' (update w v.frame.cyclic.2 n) l := by
  obtain ⟨sb, f, posted⟩ := v'
  obtain rfl : sb = v.softbuf := hb
  refine ⟨hf, h.mask, h.cons_le, h.agree, h.fresh, hp, ?_, ?_, ?_⟩
  · intro j
    rw [hv, h.mem_live, setPend_level]
    by_cases hj : j = v.frame.cyclic.2
    · subst hj
      simp [hpc, hpc'.1, hn, and_comm]
    · simp [hpc, hpc'.1, hj]
  · intro j hm hl hw
    have hj : j ≠ v.frame.cyclic.2 := by
      rintro rfl
      have := (hs.removeWait _ hm).1
      rw [hfree] at this
      cases this
    rw [update_of_ne hj] at hw ⊢
    rw [setPend_level] at hl
    exact .inr ((h.removed j hm hl hw).resolve_left (by simp [hpc]))
  · intro j hj hl
    rw [setPend_level] at hl
    rw [setPend_handler]
    have ht : ahead ⟨v.softbuf, f, posted⟩ j = 0 := by
      rw [ahead, hpc'.2]
      simp
    change c.calls _ + _ = c.expires _ + _
    rw [ht]
    by_cases he : j = v.frame.cyclic.2
    · subst he
      have ha := h.account _ (.inl hfree) hl
      simp only [ahead, hpc, Pc.called, true_and, if_true] at ha
      rw [update_self]
      omega
    · have hh : Held c w j := by
        rwa [Held, setPend_free, update_of_ne he] at hj
      have ha := h.account j hh hl
      rw [update_of_ne he]
      simpa [Ne.symm he] using ha

theorem LevelOk.cas_call (hn : w v.frame.cyclic.2 = n + 1) (hpos : n ≠ 0) :
    LevelOk (c.setPend c.cyclics v.frame.cyclic.2 n) (v.goto .call) (update w v.frame.cyclic.2 n) l := by
  have hl : (v.goto .call).live = v.live := goto_live (by simp [hpc])
  refine h.paid hs hpc hfree hn rfl ?_ ?_ ?_ (by simp)
  · have hb := h.frame.base
    have hc := h.frame.cyclic
    have hf : FrameOk c (v.goto .call) w l := by
      constructor <;> simp_all
    exact hf.setPend (by simp)
  · rw [hl]
    exact h.nodup
  · intro j
    rw [hl]
    simp [hpos]

theorem LevelOk.cas_advance (hn : w v.frame.cyclic.2 = 1) :
    LevelOk (c.setPend c.cyclics v.frame.cyclic.2 0) (v.goto .advance) (update w v.frame.cyclic.2 0) l := by
  have hh := h.head_eq (by simp [hpc])
  have hl := h.live_cons (by simp [hpc])
  have hl' : (v.goto .advance).live = (v.softbuf.buf v.softbuf.soft).entries 1 ++ v.hardPart := rfl
  have hnd := h.nodup
  rw [hl, ← hh, ← hl', List.nodup_cons] at hnd
  refine h.paid hs hpc hfree hn rfl ?_ hnd.2 ?_ (by simp)
  · have hb := h.frame.base
    have hf : FrameOk c (v.goto .advance) w l := by
      constructor <;> simp_all
    exact hf.setPend (by simp)
  · intro j
    rw [hl, ← hh, ← hl']
    by_cases hj : j = v.frame.cyclic.2
    · simp [-goto, hj, hnd.1]
    · simp [hj]

end

section

variable (h : Inv s w)
include h

theorem Inv.cas (hpc : (s.lev l).frame.pc = .cas)
    (heq : (s.shared.mem (s.lev l).frame.cyclic.1 (s.lev l).frame.cyclic.2).pend = (s.lev l).frame.pend) :
    ∃ w', Inv ⟨s.shared.setPend (s.lev l).frame.cyclic.1 (s.lev l).frame.cyclic.2 ((s.lev l).frame.pend - 1),
      update s.lev l ((s.lev l).goto (if 0 < (s.lev l).frame.pend - 1 ∧ (s.lev l).frame.pend - 1 < 2 ^ 31
        then .call else .advance))⟩ w' := by
  have hl := h.level l
  have hp := hl.frame.cas hpc
  have hc := hl.frame.cyclic (by simp [hpc]) (by simp [hpc])
  obtain ⟨hw, hv⟩ := hl.cyclic_owed (by simp [hpc])
  -- a stale array has no pend count, so it is the current one
  have hcy : (s.lev l).frame.cyclics = s.shared.cyclics := by
    rcases hl.frame.array (by simp [hpc]) with ha | ⟨-, -, ha⟩
    · exact ha
    · rw [hc, (ha _).1] at heq
      exact absurd heq.symm hp
  rw [hc, hcy] at heq ⊢
  change (s.shared.cur _).pend = _ at heq
  have hfree : (s.shared.cur (s.lev l).frame.cyclic.2).free = false := by
    by_contra hf
    have := h.shared.free _ (by simpa using hf)
    omega
  have hac := h.shared.active _ hfree
  have hsl := h.shared.small.2 (s.lev l).frame.cyclic.2
  obtain ⟨n, hn⟩ := Nat.exists_eq_succ_of_ne_zero hp
  rw [hn]
  rw [heq, hn] at hac hsl
  refine ⟨update w (s.lev l).frame.cyclic.2 n, ?_⟩
  have hmod := h.modify_level l
  have hm (v' : LevelState κ) (hsn : v'.seen = (s.lev l).seen) (hk : v'.kicks = (s.lev l).kicks) :
      ModifyOk (s.shared.setPend s.shared.cyclics (s.lev l).frame.cyclic.2 n)
        (update w (s.lev l).frame.cyclic.2 n) (v'.seen + (s.lev l.other).seen)
        (v'.kicks + (s.lev l.other).kicks) := by
    refine hmod.congr rfl rfl rfl rfl ?_ (by rw [hsn]) (by rw [hk])
    intro i hi _
    have hne : i ≠ (s.lev l).frame.cyclic.2 := by
      rintro rfl
      have := (h.shared.removeWait _ hi).1
      rw [hfree] at this
      cases this
    rw [update_of_ne hne]
  have hh := h.shared.setPend hfree (show n < 2 ^ 31 by omega)
  have hsm : SameFor s.shared w (s.shared.setPend s.shared.cyclics (s.lev l).frame.cyclic.2 n)
      (update w (s.lev l).frame.cyclic.2 n) l.other := .setPend fun he => l.other_ne (he.symm.trans hv)
  by_cases hpos : n = 0
  · subst hpos
    refine h.ofLevel hh (hl.cas_advance h.shared hpc hfree hac) hsm (hm _ ?_ ?_)
    all_goals simp [hpc]
  · rw [if_pos (by omega)]
    refine h.ofLevel hh (hl.cas_call h.shared hpc hfree hac hpos) hsm (hm _ ?_ ?_)
    all_goals simp [hpc]

theorem Inv.test (hpc : (s.lev l).frame.pc = .test) : Inv { s with lev := update s.lev l ((s.lev l).goto
      (if (s.lev l).frame.consndx ≠ (s.lev l).pcbuf.prodndx then .pick else .check)) } w := by
  have hl := h.level l
  have hle := hl.cons_le (s.lev l).softbuf.soft
  have hf := hl.frame.soft (by simp [hpc])
  have hc := (hl.frame.cons (by simp [hpc])).1
  rw [pcbuf, hf, hc]
  split_ifs with hne
  · refine h.quiet ?_ (hl.frame.test_pick hpc (lt_of_le_of_ne hle hne))
    constructor <;> simp [hpc]
  · refine h.quiet ?_ (hl.frame.test_check hpc (by omega))
    constructor <;> simp [hpc]

theorem Inv.reread (hpc : (s.lev l).frame.pc = .reread) :
    Inv { s with lev := update s.lev l { s.lev l with frame := { (s.lev l).frame with
      pend := (s.shared.mem (s.lev l).frame.cyclic.1 (s.lev l).frame.cyclic.2).pend
      pc := if (s.shared.mem (s.lev l).frame.cyclic.1 (s.lev l).frame.cyclic.2).pend = 0 then .stateTest
        else .cas } } } w := by
  have hl := h.level l
  obtain ⟨hw, -⟩ := hl.cyclic_owed (by simp [hpc])
  refine h.quiet ?_ (hl.frame.reread hpc fun _ hz => ?_)
  · split_ifs
    all_goals constructor <;> simp [hpc]
  · -- a cyclic on the CPU is owed its pend count
    cases hf : (s.shared.cur (s.lev l).frame.cyclic.2).free with
    | false => exact absurd ((h.shared.active _ hf).trans hz) hw
    | true => exact h.shared.freed _ hf hw

theorem Inv.stateTest (hpc : (s.lev l).frame.pc = .stateTest) : Inv { s with lev := update s.lev l ((s.lev l).goto
      (if s.shared.cypState = .removing then .removePend else .reload)) } w := by
  have hl := (h.level l).frame
  split_ifs with hr
  · refine h.quiet ?_ (hl.goto_called (by simp [hpc]) (by simp [hpc]) (.inr (.inr rfl)) fun _ => ?_)
    · constructor <;> simp [hpc]
    · exact hl.stateTest_removing hpc h.shared.state hr
  · refine h.quiet ?_ (hl.goto_called (by simp [hpc]) (by simp [hpc]) (.inr (.inl rfl)) (by simp))
    constructor <;> simp [hpc]

theorem Inv.check (hpc : (s.lev l).frame.pc = .check) :
    Inv { s with lev := update s.lev l ((s.lev l).goto (if (s.lev l).frame.soft ≠ (s.lev l).softbuf.hard
      then .grow else if (s.lev l).frame.resized then .bump else .idle)) } w := by
  have hl := (h.level l).frame
  by_cases hne : (s.lev l).frame.soft = (s.lev l).softbuf.hard
  · rw [if_neg (not_not.mpr hne)]
    refine h.quiet ?_ (hl.check_over hpc hne)
    split_ifs with hr
    · constructor <;> simp [hpc]
    · constructor <;> simp [hpc, hr]
  · rw [if_pos hne]
    refine h.quiet ?_ (hl.check_grow hpc hne)
    constructor <;> simp [hpc]

theorem Inv.advance (hpc : (s.lev l).frame.pc = .advance) (b : PcBuffer)
    (hb : b = { (s.lev l).pcbuf with consndx := (s.lev l).frame.consndx + 1 }) :
    Inv { s with lev := update s.lev l { s.lev l with
      softbuf := { (s.lev l).softbuf with buf := update (s.lev l).softbuf.buf (s.lev l).frame.soft b }
      frame := { (s.lev l).frame with consndx := (s.lev l).frame.consndx + 1, pc := .test } } } w := by
  subst hb
  refine h.ofLevel_quiet ((h.level l).advance hpc rfl) ?_ ?_
  all_goals simp [hpc]

end

theorem LevelOk.post (h : LevelOk c v w l) : LevelOk c { v with posted := true } w l :=
  { h with frame := { h.frame with
      check := fun hp => by
        have := h.frame.check hp
        split_ifs at this ⊢
        · exact fun _ => rfl
        · exact this
      ended := fun _ _ => rfl } }

theorem Inv.post (h : Inv s w) (l : Level) : Inv { s with lev := update s.lev l { s.lev l with posted := true } } w :=
  h.ofLevel_quiet (h.level l).post rfl rfl

theorem Inv.softint (h : Inv s w) (hpc : (s.lev l).frame.pc = .idle) : Inv { s with lev := update s.lev l { s.lev l with
      frame := { (s.lev l).frame with pc := .load, resized := false }, posted := false } } w := by
  have hl := h.level l
  refine h.ofLevel_quiet ?_ ?_ ?_
  · have hf : FrameOk s.shared { s.lev l with
        frame := { (s.lev l).frame with pc := .load, resized := false }, posted := false } w l := by
      constructor <;> simp
    exact hl.reframe hf rfl (by simp [hpc]) (by simp [hpc]) (by simp [hpc]) (by simp)
  all_goals simp [hpc]

/-! ### Calls of handlers -/

variable [DecidableEq κ]

@[simp] theorem called_cur (k : κ) : (c.called k).cur = c.cur := rfl
@[simp] theorem called_rpend (k : κ) : (c.called k).rpend = c.rpend := rfl

theorem SharedOk.called (h : SharedOk c w) (hi : Held c w i) : SharedOk (c.called (c.cur i).handler) w where
  size := h.size
  range := h.range
  free := h.free
  active := h.active
  freed := h.freed
  inj := h.inj
  gone k hk := by
    have hne : k ≠ (c.cur i).handler := fun he => hk i hi he.symm
    simp only [Shared.called, update_of_ne hne]
    exact h.gone k hk
  state := h.state
  remove := h.remove
  removeWait := h.removeWait
  rpend := h.rpend
  small := h.small

theorem SharedOk.calls_of_ne (h : SharedOk c w) (hi : Held c w i) {j : ℕ} (hj : Held c w j) (hne : j ≠ i) :
    (c.called (c.cur i).handler).calls (c.cur j).handler = c.calls (c.cur j).handler :=
  update_of_ne (fun he => hne (h.inj j i hj hi he)) ..

theorem SharedOk.calls_self : (c.called (c.cur i).handler).calls (c.cur i).handler =
    c.calls (c.cur i).handler + 1 := update_self ..

theorem SameFor.called (h : SharedOk c w) (hi : Held c w i) (hl : (c.cur i).level ≠ l) :
    SameFor c w (c.called (c.cur i).handler) w l :=
  { (SameFor.refl : SameFor c w c w l) with
    calls := fun _ hj hjl => h.calls_of_ne hi hj fun he => hl (he ▸ hjl) }

theorem FrameOk.call (h : FrameOk c v w l) (hpc : v.frame.pc = .call) (k : κ) :
    FrameOk (c.called k) (v.goto .reread) w l := by
  have hb := h.base
  have hc := h.cyclic
  have h' : FrameOk c (v.goto .reread) w l := by
    constructor <;> simp_all
  exact { h' with }

theorem LevelOk.call (h : LevelOk c v w l) (hs : SharedOk c w) (hpc : v.frame.pc = .call) :
    LevelOk (c.called (c.cur v.frame.cyclic.2).handler) (v.goto .reread) w l := by
  obtain ⟨hw, -⟩ := h.cyclic_owed (by simp [hpc])
  have hv : (v.goto .reread).live = v.live := goto_live (by simp [hpc])
  refine { h with frame := h.frame.call hpc _, nodup := ?_, mem_live := ?_, removed := ?_, account := ?_ }
  · rw [hv]
    exact h.nodup
  · intro i
    rw [hv]
    have := h.mem_live i
    simpa [hpc] using this
  · intro i hm hl hwi
    have := h.removed i hm hl hwi
    simpa [hpc] using this
  · intro i hi hl
    have ha := h.account i hi hl
    simp only [ahead, hpc, Pc.called, Bool.false_eq_true, false_and, if_false, Nat.add_zero] at ha
    change (c.called _).calls (c.cur i).handler + w i = c.expires (c.cur i).handler + (v.goto .reread).ahead i
    by_cases he : i = v.frame.cyclic.2
    · subst he
      rw [SharedOk.calls_self]
      simp only [ahead, goto, Pc.called, true_and, if_true]
      omega
    · rw [hs.calls_of_ne (.inr hw) hi he]
      simp only [ahead, goto, Pc.called, true_and, Ne.symm he, if_false]
      omega

theorem Inv.call (h : Inv s w) (hpc : (s.lev l).frame.pc = .call) :
    Inv ⟨s.shared.called (s.lev l).frame.handler, update s.lev l ((s.lev l).goto .reread)⟩ w := by
  have hl := h.level l
  obtain ⟨hw, hv⟩ := hl.cyclic_owed (by simp [hpc])
  rw [hl.frame.handler (.inl hpc)]
  refine h.ofLevel (h.shared.called (.inr hw)) (hl.call h.shared hpc)
    (.called h.shared (.inr hw) fun he => l.other_ne (he.symm.trans hv)) ?_
  refine (h.modify_level l).congr rfl rfl rfl rfl (fun _ _ _ => rfl) ?_ ?_
  all_goals simp [hpc]

theorem LevelOk.removeCall (h : LevelOk c v w l) (hs : SharedOk c w)
    (hpc : v.frame.pc = .removeCall) (hpn : v.frame.pend ≠ 0) :
    LevelOk (c.called (c.cur v.frame.cyclic.2).handler) { v with frame := { v.frame with pend := v.frame.pend - 1 } }
      (update w v.frame.cyclic.2 (v.frame.pend - 1)) l := by
  obtain ⟨hw, hh⟩ := h.frame.removeCall hpc
  set v' : LevelState κ := { v with frame := { v.frame with pend := v.frame.pend - 1 } } with hv'
  have hf : FrameOk (c.called (c.cur v.frame.cyclic.2).handler) v'
      (update w v.frame.cyclic.2 (v.frame.pend - 1)) l :=
    { h.frame with
      cas := fun hp => absurd (hpc.symm.trans hp) (by simp)
      removeCall := fun _ => ⟨update_self .., hh⟩
      removePost := fun hp => absurd (hpc.symm.trans hp) (by simp) }
  refine { h with frame := hf, mem_live := ?_, removed := fun _ _ _ _ => .inl hpc, account := ?_ }
  · intro i
    have hmem := h.mem_live i
    change i ∈ v.live ↔ _ ∧ (c.cur i).level = l ∧ ¬ (v.frame.pc = .removeCall ∧ v.frame.cyclic.2 = i)
    by_cases he : i = v.frame.cyclic.2
    · subst he
      simpa [hpc] using hmem
    · rw [update_of_ne he]
      exact hmem
  · intro i hi hl
    have hn : v.ahead i = 0 := by simp [hpc]
    change (c.called _).calls (c.cur i).handler + _ = c.expires (c.cur i).handler + v.ahead i
    by_cases he : i = v.frame.cyclic.2
    · subst he
      have ha := h.account _ (.inr (by omega)) hl
      rw [update_self, SharedOk.calls_self]
      omega
    · have hhl : Held c w i := by rwa [Held, update_of_ne he] at hi
      have ha := h.account i hhl hl
      rw [update_of_ne he, hs.calls_of_ne (.inr (by omega)) hhl he]
      omega

theorem Inv.removeCall (h : Inv s w) (hpc : (s.lev l).frame.pc = .removeCall) (hp : (s.lev l).frame.pend ≠ 0) :
    ∃ w', Inv ⟨s.shared.called (s.lev l).frame.handler, update s.lev l { s.lev l with
      frame := { (s.lev l).frame with pend := (s.lev l).frame.pend - 1 } }⟩ w' := by
  have hl := h.level l
  obtain ⟨hw, hh⟩ := hl.frame.removeCall hpc
  obtain ⟨hm, ht, -, hv⟩ := hl.frame.removing (.inl hpc)
  have hhl : Held s.shared w (s.lev l).frame.cyclic.2 := .inr (by omega)
  rw [hh]
  refine ⟨update w (s.lev l).frame.cyclic.2 ((s.lev l).frame.pend - 1), ?_⟩
  have hsm : SameFor s.shared w (s.shared.called (s.shared.cur (s.lev l).frame.cyclic.2).handler)
      (update w (s.lev l).frame.cyclic.2 ((s.lev l).frame.pend - 1)) l.other := by
    have hne : (s.shared.cur (s.lev l).frame.cyclic.2).level ≠ l.other :=
      fun he => l.other_ne (he.symm.trans hv)
    exact { SameFor.called h.shared hhl hne with owed := (SameFor.owe hne).owed }
  refine h.ofLevel ((h.shared.called hhl).owe (h.shared.removeWait _ hm).1 (by omega) ?_)
    (hl.removeCall h.shared hpc hp) hsm ?_
  · intro hn
    have ha := hl.account _ hhl hv
    rw [called_cur, SharedOk.calls_self]
    simp only [ahead, hpc, Pc.called, Bool.false_eq_true, false_and, if_false] at ha
    change _ = s.shared.expires _
    omega
  · exact (h.modify_level l).congr rfl rfl rfl rfl (fun _ _ hne => absurd ht hne) rfl rfl

theorem Inv.softintStep (h : Inv s w) {post : Bool} (hs : softintStep l s.shared (s.lev l) = some (c', v', post)) :
    ∃ w', Inv ⟨c', update s.lev l v'⟩ w' := by
  have hl := h.level l
  unfold CyclicSoftint.softintStep at hs
  dsimp only at hs
  cases hpc : (s.lev l).frame.pc <;> rw [hpc] at hs <;> dsimp only at hs
  case removeCall =>
    split_ifs at hs with hp
    · cases hs
      exact ⟨w, h.removeCall_removePost hpc hp⟩
    · cases hs
      simpa only [hpc] using h.removeCall hpc hp
  case cas =>
    split at hs <;> rename_i heq <;> cases hs
    · exact h.cas hpc heq
    · refine ⟨w, h.quiet ?_ (hl.frame.goto_called (by simp [hpc]) (by simp [hpc]) (.inl rfl) (by simp))⟩
      constructor <;> simp [hpc]
  case bumpCas =>
    split at hs <;> rename_i heq <;> cases hs
    · exact ⟨w, h.bumpCas hpc heq⟩
    · refine ⟨w, h.quiet ?_ (hl.frame.bumpCas_bump hpc)⟩
      constructor <;> simp [hpc]
  all_goals cases hs
  case test =>
    exact ⟨w, h.test hpc⟩
  case call =>
    exact ⟨w, h.call hpc⟩
  case reread =>
    exact ⟨w, h.reread hpc⟩
  case stateTest =>
    exact ⟨w, h.stateTest hpc⟩
  case removePend =>
    exact h.removePend hpc
  case removePost =>
    exact ⟨w, h.removePost hpc⟩
  case repick =>
    refine ⟨w, h.quiet ?_ (hl.frame.repick hpc)⟩
    have hf := hl.frame.fetched (by simp [hpc])
    have hsf := hl.frame.soft (by simp [hpc])
    constructor <;> simp [hpc, hf, hsf, pcbuf]
  case advance =>
    exact ⟨w, h.advance hpc _ rfl⟩
  case check =>
    exact ⟨w, h.check hpc⟩
  case grow =>
    refine ⟨w, h.quiet ?_ (hl.frame.grow hpc)⟩
    split_ifs
    all_goals constructor <;> simp [hpc]
  case switchStore =>
    exact ⟨w, h.switchStore hpc⟩
  case kick =>
    exact ⟨w, h.kick hpc⟩
  case postDown =>
    refine ⟨w, h.ofLevel_quiet (hl.goto_ended (by simp [hpc]) (.inl rfl) (by simp)) ?_ ?_⟩
    all_goals simp [hpc]
  -- the other steps write the frame alone
  all_goals refine ⟨w, h.quiet (by constructor <;> simp [hpc]) ?_⟩
  case load =>
    exact hl.frame.load hpc
  case top =>
    exact hl.frame.top hpc
  case fill =>
    exact hl.frame.fill hpc
  case pick =>
    exact hl.frame.pick hpc
  case fetch =>
    obtain ⟨hw, -⟩ := hl.cyclic_owed (by simp [hpc])
    exact hl.frame.fetch hpc fun hm => h.shared.not_free hw hm
  case reload =>
    exact hl.frame.reload hpc
  case growLoad =>
    exact hl.frame.growLoad hpc
  case switchLoad =>
    exact hl.frame.switchLoad hpc
  case bump =>
    exact hl.frame.bump_bumpCas hpc _

theorem Inv.step (h : Inv s w) (hs : s.exec (.step l) = some s') : ∃ w', Inv s' w' := by
  simp only [State.exec, Option.map_eq_some_iff] at hs
  obtain ⟨⟨c', v', post⟩, ht, rfl⟩ := hs
  obtain ⟨w', h'⟩ := h.softintStep ht
  cases post with
  | false => exact ⟨w', h'⟩
  | true => exact ⟨w', h'.post .low⟩

end Steps

end Sol8.Os.CyclicSoftint
