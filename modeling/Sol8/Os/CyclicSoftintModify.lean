import Sol8.Os.CyclicSoftintSteps

/-! Resizing, adding and removing keep the invariant of the soft interrupts (`os/cyclic.c`). -/

namespace Sol8.Os.CyclicSoftint

open Function Sol8.Lib LevelState

variable {κ : Type} {s s' : State κ} {c c' : Shared κ} {v v' : LevelState κ} {w w' : ℕ → ℕ} {l : Level} {i : ℕ}

section Modify

attribute [local simp] Pc.called Pc.fetched Pc.onEntry Pc.dead Pc.past Pc.ended Pc.reading Pc.hasSoft
  Pc.hasArray Pc.reports

/-! ### The thread that resizes or removes -/

/-- No soft interrupt has to do with a resize or a removal. -/
structure Calm (v : LevelState κ) : Prop where
  soft : v.softbuf.soft = v.softbuf.hard
  pc : v.frame.pc ≠ .stateTest ∧ v.frame.pc ≠ .removePend ∧ v.frame.pc ≠ .removeCall ∧
    v.frame.pc ≠ .removePost ∧ v.frame.pc ≠ .kick
  resized : v.frame.resized = true → v.frame.pc.reports = false

theorem LevelOk.calm (h : LevelOk c v w l) (hm : c.modifier ≠ .expandWait)
    (hr : ∀ i, c.modifier ≠ .removeWait i) : Calm v := by
  have hf : v.softbuf.soft = v.softbuf.hard := not_not.mp fun hne => hm (h.agree hne)
  refine ⟨hf, ⟨?_, ?_, ?_, ?_, ?_⟩, ?_⟩
  · intro hpc
    rcases h.frame.stateTest hpc with hs | hs
    · exact hr _ hs
    · rcases h.frame.array (by simp [hpc]) with ha | ha
      · exact hs ha
      · exact hm ha.1
  · exact fun hpc => hr _ (h.frame.removePend hpc)
  · exact fun hpc => hr _ (h.frame.removing (.inl hpc)).1
  · exact fun hpc => hr _ (h.frame.removing (.inr hpc)).1
  · exact fun hpc => hm (h.frame.kick hpc)
  · intro hrs
    by_contra hp
    exact hm (h.frame.resized hrs (by simpa using hp)).1

theorem Calm.frameOk (hc : Calm v) (h : FrameOk c v w l) (hcy : c'.cyclics = c.cyclics)
    (hh : (c'.cur v.frame.cyclic.2).handler = (c.cur v.frame.cyclic.2).handler ∨
      ¬ (v.frame.pc = .call ∨ v.frame.pc.called = true)) : FrameOk c' v w' l :=
  { h with
    array := fun hp => by
      rcases h.array hp with ha | ha
      · exact .inl (ha.trans hcy.symm)
      · exact absurd hc.soft ha.2.1
    handler := fun hp => by
      rw [hh.resolve_right (not_not.mpr hp)]
      exact h.handler hp
    stateTest := fun hp => absurd hp hc.pc.1
    removePend := fun hp => absurd hp hc.pc.2.1
    removing := fun hp => absurd hp (not_or.mpr ⟨hc.pc.2.2.1, hc.pc.2.2.2.1⟩)
    removeCall := fun hp => absurd hp hc.pc.2.2.1
    removePost := fun hp => absurd hp hc.pc.2.2.2.1
    switch := fun hp => (h.switch hp).trans hcy.symm
    resized := fun hr hp => absurd hp (by rw [hc.resized hr]; exact Bool.false_ne_true)
    kick := fun hp => absurd hp hc.pc.2.2.2.2 }

theorem LevelOk.setModifier (h : LevelOk c v w l) (hc : Calm v) {r n : ℕ} {st : CypState} {m : Modifier}
    (hr : ∀ i, m ≠ .removeWait i) (he : m ≠ .expand) :
    LevelOk { c with rpend := r, modifyWait := n, cypState := st, modifier := m } v w l :=
  { h with
    frame := hc.frameOk h.frame rfl (.inl rfl)
    agree := fun hne => absurd hc.soft hne
    fresh := fun hm => absurd hm he
    removed := fun i hm => absurd hm (hr i) }

theorem SharedOk.owed_of_free (h : SharedOk c w) (hr : ∀ i, c.modifier ≠ .removeWait i)
    (hf : (c.cur i).free = true) : w i = 0 := not_not.mp fun hw => hr i (h.freed i hf hw)

/-- As `LevelOk.setModifier`, where no removal is left to do. -/
theorem SharedOk.setModifier (h : SharedOk c w) (hfr : ∀ i, (c.cur i).free = true → w i = 0) {r n : ℕ}
    {m : Modifier} (hr : ∀ i, m ≠ .removeWait i) (hrm : ∀ i, m = .remove i → (c.cur i).free = false)
    (hr0 : r = 0) : SharedOk { c with
      rpend := r, modifyWait := n, cypState := m.cypState, modifier := m } w :=
  { h with
    freed := fun i hf hw => absurd (hfr i hf) hw
    state := rfl
    remove := hrm
    removeWait := fun i hm => absurd hm (hr i)
    rpend := fun _ => hr0
    small := ⟨by subst hr0; exact Nat.two_pow_pos _, h.small.2⟩ }

theorem ne_removeWait {m : Modifier} (hm : s.shared.modifier = m) (h : ∀ j, m ≠ .removeWait j) :
    ∀ j, s.shared.modifier ≠ .removeWait j := hm ▸ h

theorem Inv.remove (h : Inv s w) (hm : s.shared.modifier = .idle) (hf : (s.shared.cur i).free = false) :
    Inv { s with shared := { s.shared with cypState := .removing, modifier := .remove i } } w := by
  have hr := ne_removeWait hm nofun
  have hmod := h.modify
  simp only [ModifyOk, hm] at hmod
  refine ⟨?_, fun l => ?_, hmod⟩
  · exact h.shared.setModifier (fun j hj => h.shared.owed_of_free hr hj) (m := .remove i) (by simp)
      (by rintro j ⟨⟩; exact hf) (h.shared.rpend hr)
  · exact (h.level l).setModifier ((h.level l).calm (by simp [hm]) hr) (by simp) (by simp)

theorem LevelState.calm_of_seen (hsn : v.seen = 1) (hk : v.kicks = 0) (h : LevelOk c v w l)
    (hm : c.modifier = .expandWait) : Calm v := by
  have hn : ¬ (v.softbuf.soft ≠ v.softbuf.hard ∨ v.frame.resized = true ∧ v.frame.pc.reports = true) := by
    intro hor
    rw [seen, if_pos hor] at hsn
    cases hsn
  rw [not_or, not_not, not_and, Bool.not_eq_true] at hn
  refine ⟨hn.1, ⟨?_, ?_, ?_, ?_, ?_⟩, hn.2⟩
  · intro hpc
    rcases h.frame.stateTest hpc with hs | hs
    · rw [hm] at hs
      cases hs
    · rcases h.frame.array (by simp [hpc]) with ha | ha
      · exact hs ha
      · exact ha.2.1 hn.1
  · intro hpc
    have := h.frame.removePend hpc
    rw [hm] at this
    cases this
  · intro hpc
    have := (h.frame.removing (.inl hpc)).1
    rw [hm] at this
    cases this
  · intro hpc
    have := (h.frame.removing (.inr hpc)).1
    rw [hm] at this
    cases this
  · intro hpc
    simp [kicks, hpc] at hk

theorem Inv.expandDone (h : Inv s w) (hm : s.shared.modifier = .expandWait) (hw : 0 < s.shared.modifyWait) :
    Inv { s with shared := { s.shared with
      modifyWait := s.shared.modifyWait - 1, cypState := .online, modifier := .idle } } w := by
  have hr := ne_removeWait hm nofun
  -- both levels have taken part
  have hs (v : LevelState κ) : v.seen ≤ 1 := by
    unfold seen
    split_ifs <;> omega
  have hmod := h.modify
  simp only [ModifyOk, hm] at hmod
  have hlw := hs (s.lev .low)
  have hl := hs (s.lev .lock)
  split_ifs at hmod with h2
  · have hc : ∀ l, (s.lev l).seen = 1 ∧ (s.lev l).kicks = 0 := by
      rintro (_ | _) <;> omega
    refine ⟨?_, fun l => ?_, ?_⟩
    · exact h.shared.setModifier (fun j hj => h.shared.owed_of_free hr hj) (m := .idle) (by simp) (by simp)
        (h.shared.rpend hr)
    · exact (h.level l).setModifier (calm_of_seen (hc l).1 (hc l).2 (h.level l) hm) (by simp) (by simp)
    · change s.shared.modifyWait - 1 = 0
      omega
  · omega

theorem Inv.removeDone (h : Inv s w) (hm : s.shared.modifier = .removeWait i)
    (hd : ¬ (s.shared.rpend ≠ 0 ∧ s.shared.modifyWait = 0)) : Inv { s with shared := { s.shared with
      modifyWait := if s.shared.rpend ≠ 0 then s.shared.modifyWait - 1 else s.shared.modifyWait
      rpend := 0, cypState := .online, modifier := .idle } } w := by
  have hmod := h.modify
  simp only [ModifyOk, hm] at hmod
  have hwi : w i = 0 := by
    rcases hmod with h0 | h1
    · by_contra hw
      rcases (h.level _).removed i hm rfl hw with hpc | heq
      · exact hd ⟨((h.level _).frame.removing (.inl hpc)).2.2.1, h0⟩
      · exact hd ⟨heq ▸ hw, h0⟩
    · exact h1.2.1
  have hf : ∀ j, (s.shared.cur j).free = true → w j = 0 := by
    intro j hj
    by_contra hw
    have := h.shared.freed j hj hw
    rw [hm, Modifier.removeWait.injEq] at this
    exact hw (this ▸ hwi)
  have hcl (l : Level) : Calm (s.lev l) := by
    have hl := h.level l
    have hn (hp : (s.lev l).frame.pc.fetched = true)
        (hc : s.shared.modifier = .removeWait (s.lev l).frame.cyclic.2) : False := by
      rw [hm, Modifier.removeWait.injEq] at hc
      exact (hl.cyclic_owed hp).1 (hc ▸ hwi)
    have hn' (hp : (s.lev l).frame.pc = .removeCall ∨ (s.lev l).frame.pc = .removePost) : False :=
      hd ⟨(hl.frame.removing hp).2.2.1, (hl.frame.removing hp).2.1⟩
    refine ⟨?_, ⟨?_, ?_, ?_, ?_, ?_⟩, ?_⟩
    · by_contra hne
      have := hl.agree hne
      rw [hm] at this
      cases this
    · intro hpc
      rcases hl.frame.stateTest hpc with hs | hs
      · exact hn (by simp [hpc]) hs
      · rcases hl.frame.array (by simp [hpc]) with ha | ha
        · exact hs ha
        · rw [hm] at ha
          cases ha.1
    · exact fun hpc => hn (by simp [hpc]) (hl.frame.removePend hpc)
    · exact fun hpc => hn' (.inl hpc)
    · exact fun hpc => hn' (.inr hpc)
    · intro hpc
      have := hl.frame.kick hpc
      rw [hm] at this
      cases this
    · intro hr
      by_contra hrp
      have := (hl.frame.resized hr (by simpa using hrp)).1
      rw [hm] at this
      cases this
  refine ⟨h.shared.setModifier hf (m := .idle) (by simp) (by simp) rfl, fun l => ?_, ?_⟩
  · exact (h.level l).setModifier (hcl l) (by simp) (by simp)
  · change (if s.shared.rpend ≠ 0 then s.shared.modifyWait - 1 else s.shared.modifyWait) = 0
    split_ifs <;> omega

/-- `cyclic_remove_xcall` turns the pend count into what is left to call. -/
theorem Inv.removeXcall (h : Inv s w) (hm : s.shared.modifier = .remove i) : Inv (s.cyclicRemoveXcall i) w := by
  have hl := h.level
  have hr := ne_removeWait hm nofun
  have hf := h.shared.remove i hm
  have hr0 := h.shared.rpend hr
  have ha := h.shared.active i hf
  set c' := (s.cyclicRemoveXcall i).shared with hc'
  have hrp : c'.rpend = w i := by
    rw [ha]
    change (if (s.shared.cur i).pend ≠ 0 then (s.shared.cur i).pend else s.shared.rpend) = _
    split_ifs with hp
    · rfl
    · rw [hr0, not_not.mp hp]
  have hu (j : ℕ) : c'.cur j = if j = i then { s.shared.cur j with pend := 0, free := true }
      else s.shared.cur j := by
    simp only [hc', State.cyclicRemoveXcall, Shared.cur, update_self, update_apply]
    split_ifs with hj
    · rw [hj]
    · rfl
  have hh (j : ℕ) : (c'.cur j).handler = (s.shared.cur j).handler := by
    rw [hu]
    split_ifs <;> rfl
  have hv (j : ℕ) : (c'.cur j).level = (s.shared.cur j).level := by
    rw [hu]
    split_ifs <;> rfl
  have hcr {j : ℕ} (hj : j ≠ i) : c'.cur j = s.shared.cur j := by rw [hu, if_neg hj]
  have hfr : (c'.cur i).free = true := by rw [hu, if_pos rfl]
  have hhl {j : ℕ} (hj : Held c' w j) : Held s.shared w j := by
    by_cases he : j = i
    · exact .inl (he ▸ hf)
    · rwa [Held, hcr he] at hj
  have hmod := h.modify
  simp only [ModifyOk, hm] at hmod
  refine ⟨⟨h.shared.size, ?_, ?_, ?_, ?_, ?_, ?_, ?_, ?_, ?_, ?_, ?_, ?_⟩, fun l => ?_, .inl hmod⟩
  · intro j hj
    by_cases he : j = i
    · rw [he]
      exact hfr
    · rw [hcr he]
      exact h.shared.range j hj
  · intro j hj
    by_cases he : j = i
    · rw [hu, if_pos he]
    · rw [hcr he] at hj ⊢
      exact h.shared.free j hj
  · intro j hj
    have he : j ≠ i := by
      rintro rfl
      exact Bool.false_ne_true (hj.symm.trans hfr)
    rw [hcr he] at hj ⊢
    exact h.shared.active j hj
  · intro j hj hw
    by_cases he : j = i
    · rw [he]
      rfl
    · rw [hcr he] at hj
      exact absurd (h.shared.freed j hj hw) (hr j)
  · intro j j' hj hj'
    rw [hh, hh]
    exact h.shared.inj j j' (hhl hj) (hhl hj')
  · intro k hk
    by_cases hki : k = (s.shared.cur i).handler ∧ w i = 0
    · -- the cyclic goes with nothing left to call
      have hac := (hl (s.shared.cur i).level).account i (.inl hf) rfl
      have hah : (s.lev (s.shared.cur i).level).ahead i = 0 := by
        rw [ahead, if_neg]
        rintro ⟨hc, hci⟩
        have := ((hl _).cyclic_owed (Pc.fetched_of_called hc)).1
        rw [hci] at this
        exact this hki.2
      rw [hki.1]
      change s.shared.calls _ = s.shared.expires _
      omega
    · apply h.shared.gone k
      intro j hj hjk
      have hj' : ¬ Held c' w j := fun hj' => hk j hj' ((hh j).trans hjk)
      have he : j = i := by
        by_contra he
        exact hj' (by rwa [Held, hcr he])
      subst he
      exact hki ⟨hjk.symm, not_not.mp fun hw => hj' (.inr hw)⟩
  · have := h.shared.state
    rw [hm] at this
    exact this
  · intro j hj
    cases hj
  · rintro j ⟨⟩
    refine ⟨hfr, ?_⟩
    by_contra hi
    have := h.shared.range i (not_lt.mp hi)
    rw [hf] at this
    cases this
  · intro hne
    exact absurd rfl (hne i)
  · rw [hrp, ha]
    exact h.shared.small.2 i
  · intro j
    rw [hu]
    split_ifs
    · exact Nat.two_pow_pos _
    · exact h.shared.small.2 j
  · have hcl := (hl l).calm (by simp [hm]) hr
    refine ⟨hcl.frameOk (hl l).frame rfl (.inl (hh _)), (hl l).mask, (hl l).cons_le, ?_, ?_,
      (hl l).nodup, ?_, ?_, ?_⟩
    · exact fun hne => absurd hcl.soft hne
    · intro he
      cases he
    · intro j
      rw [hv]
      exact (hl l).mem_live j
    · rintro j ⟨⟩ _ _
      exact .inr hrp.symm
    · intro j hj hjl
      rw [hv] at hjl
      rw [hh]
      exact (hl l).account j (hhl hj) hjl

theorem LevelOk.expand (h : LevelOk c v w l) (hc : Calm v) {n : ℕ} (b : PcBuffer)
    (hb : b.consndx = 0 ∧ b.prodndx = 0 ∧ b.sizemask + 1 = 2 * c.size) :
    LevelOk { c with cypState := .expanding, modifyLevels := n, modifier := .expand }
      { v with softbuf := { v.softbuf with buf := update v.softbuf.buf (!v.softbuf.hard) b } } w l := by
  set v' : LevelState κ :=
    { v with softbuf := { v.softbuf with buf := update v.softbuf.buf (!v.softbuf.hard) b } } with hv'
  have hs : v'.softbuf.buf v.softbuf.soft = v.softbuf.buf v.softbuf.soft := by
    simp [hv', hc.soft]
  have hp : v'.softPart = v.softPart := by
    simp only [softPart]
    rw [hs]
  have hl : v'.live = v.live := by
    rw [live, live, hp]
    simp [hardPart, hv', hc.soft]
  have hf : FrameOk { c with cypState := .expanding, modifyLevels := n, modifier := .expand } v w l :=
    hc.frameOk h.frame rfl (.inl rfl)
  have hh := hf.check
  have ho := hf.ended
  have hps := hf.past
  have hn := hf.cons
  have hen := hf.entry
  have ht := hf.fetched
  rw [← hl] at ho
  rw [← hl, ← hp] at hh
  rw [← hp] at hps
  rw [← hs] at hn hen ht
  refine ⟨?_, ?_, ?_, ?_, ?_, ?_, ?_, (by rintro i ⟨⟩), ?_⟩
  · exact { hf with
      check := hh, ended := ho, past := hps, cons := hn, entry := hen, fetched := ht }
  · simpa [hv'] using h.mask
  · intro b'
    by_cases hb' : b' = !v.softbuf.hard
    · simp [hv', hb', hb]
    · simpa [hv', hb'] using h.cons_le b'
  · exact fun hne => absurd hc.soft hne
  · intro _
    simpa [hv'] using hb
  · rw [hl]
    exact h.nodup
  · intro i
    rw [hl]
    exact h.mem_live i
  · exact h.account

theorem Inv.expand (h : Inv s w) (hm : s.shared.modifier = .idle) : Inv s.cyclicExpand w := by
  have hr := ne_removeWait hm nofun
  have hmod := h.modify
  simp only [ModifyOk, hm] at hmod
  obtain ⟨k, hk⟩ := h.shared.size
  have hpos : 0 < s.shared.size := hk ▸ Nat.two_pow_pos k
  refine ⟨?_, fun l => ?_, ⟨hmod, rfl⟩⟩
  · exact { h.shared.setModifier (fun j hj => h.shared.owed_of_free hr hj) (n := s.shared.modifyWait)
      (m := .expand) (by simp) (by simp) (h.shared.rpend hr) with }
  · refine (h.level l).expand ((h.level l).calm (by simp [hm]) hr) _ ⟨rfl, rfl, ?_⟩
    dsimp only
    omega

/-- A soft interrupt that has found its buffer empty has not missed an entry. -/
def SafeToExpand (s : State κ) : Prop :=
  ∀ l, (s.lev l).frame.pc = .check →
    ((s.lev l).softbuf.buf (s.lev l).softbuf.soft).consndx = ((s.lev l).softbuf.buf (s.lev l).softbuf.soft).prodndx

theorem expandXcall_cur (hr : ∀ i, s.shared.size ≤ i → (s.shared.cur i).free = true) (i : ℕ) :
    (i < s.shared.size → s.cyclicExpandXcall.shared.cur i = s.shared.cur i) ∧
    (s.cyclicExpandXcall.shared.cur i).free = (s.shared.cur i).free ∧
    (s.shared.size ≤ i → (s.cyclicExpandXcall.shared.cur i).pend = 0) := by
  have hc : s.cyclicExpandXcall.shared.cur i = if i < s.shared.size then s.shared.cur i
      else { s.shared.mem (s.shared.cyclics + 1) i with pend := 0, free := true } := by
    simp [State.cyclicExpandXcall, Shared.cur]
  rw [hc]
  split_ifs with hi
  · exact ⟨fun _ => rfl, rfl, fun hle => absurd hi (not_lt.mpr hle)⟩
  · exact ⟨fun hlt => absurd hlt hi, (hr i (not_lt.mp hi)).symm, fun _ => rfl⟩

theorem expandXcall_old (i : ℕ) : s.cyclicExpandXcall.shared.mem s.shared.cyclics i =
    if i < s.shared.size then { s.shared.cur i with pend := 0 } else s.shared.cur i := by
  simp [State.cyclicExpandXcall]

theorem SharedOk.expandXcall (h : SharedOk s.shared w) (hm : s.shared.modifier = .expand) :
    SharedOk s.cyclicExpandXcall.shared w := by
  have hc := expandXcall_cur h.range
  have hr := ne_removeWait hm nofun
  have hlt {i : ℕ} (hf : (s.shared.cur i).free = false) : i < s.shared.size := by
    by_contra hi
    rw [h.range i (not_lt.mp hi)] at hf
    cases hf
  have hs {i : ℕ} (hf : (s.shared.cur i).free = false) :
      s.cyclicExpandXcall.shared.cur i = s.shared.cur i := (hc i).1 (hlt hf)
  have hh {i : ℕ} (hi : Held s.cyclicExpandXcall.shared w i) : (s.shared.cur i).free = false := by
    rcases hi with hi | hi
    · rwa [(hc i).2.1] at hi
    · by_contra hf
      exact hi (h.owed_of_free hr (by simpa using hf))
  have ht := h.state
  rw [hm] at ht
  obtain ⟨k, hk⟩ := h.size
  refine ⟨⟨k + 1, ?_⟩, ?_, ?_, ?_, ?_, ?_, ?_, ht, ?_, ?_, fun _ => h.rpend hr, h.small.1, ?_⟩
  · change 2 * s.shared.size = 2 ^ (k + 1)
    rw [hk, pow_succ, Nat.mul_comm]
  · intro i hi
    change 2 * s.shared.size ≤ i at hi
    rw [(hc i).2.1]
    exact h.range i (by omega)
  · intro i hi
    rw [(hc i).2.1] at hi
    by_cases hlt : i < s.shared.size
    · rw [(hc i).1 hlt]
      exact h.free i hi
    · exact (hc i).2.2 (not_lt.mp hlt)
  · intro i hi
    rw [(hc i).2.1] at hi
    rw [hs hi]
    exact h.active i hi
  · intro i hi hw
    rw [(hc i).2.1] at hi
    exact absurd (h.owed_of_free hr hi) hw
  · intro i j hi hj
    rw [hs (hh hi), hs (hh hj)]
    exact h.inj i j (.inl (hh hi)) (.inl (hh hj))
  · intro k hk
    refine h.gone k fun i hi => ?_
    have hf : (s.shared.cur i).free = false := by
      rcases hi with hi | hi
      · exact hi
      · by_contra hf
        exact hi (h.owed_of_free hr (by simpa using hf))
    have := hk i (.inl ((hc i).2.1.trans hf))
    rwa [hs hf] at this
  · intro i hi
    cases hi
  · intro i hi
    cases hi
  · intro i
    by_cases hlt : i < s.shared.size
    · rw [(hc i).1 hlt]
      exact h.small.2 i
    · rw [(hc i).2.2 (not_lt.mp hlt)]
      exact Nat.two_pow_pos _

theorem LevelOk.expandXcall (h : LevelOk s.shared (s.lev l) w l) (hs : SharedOk s.shared w)
    (hm : s.shared.modifier = .expand) (hsf : SafeToExpand s) :
    LevelOk s.cyclicExpandXcall.shared (s.cyclicExpandXcall.lev l) w l := by
  have hcr := expandXcall_cur hs.range
  have hr := ne_removeWait hm nofun
  have hc := h.calm (by simp [hm]) hr
  obtain ⟨hcn, hpd, hms⟩ := h.fresh hm
  have hfr {i : ℕ} (hw : w i ≠ 0) : (s.shared.cur i).free = false := by
    by_contra hf
    exact hw (hs.owed_of_free hr (by simpa using hf))
  have hsm {i : ℕ} (hf : (s.shared.cur i).free = false) : s.cyclicExpandXcall.shared.cur i = s.shared.cur i := by
    apply (hcr i).1
    by_contra hi
    rw [hs.range i (not_lt.mp hi)] at hf
    cases hf
  set v' := s.cyclicExpandXcall.lev l with hv'
  have hne : v'.softbuf.soft ≠ v'.softbuf.hard := by
    change (s.lev l).softbuf.soft ≠ !(s.lev l).softbuf.hard
    rw [hc.soft]
    simp
  have hpr : v'.softPart = (s.lev l).softPart := rfl
  have hv : v'.live = (s.lev l).live := by
    have hh : v'.hardPart = [] := by
      rw [hardPart, if_neg hne]
      apply Ring.slice_eq_nil_iff.mpr
      change ((s.lev l).softbuf.buf (!(s.lev l).softbuf.hard)).prodndx ≤ _
      omega
    rw [live, hpr, hh, live, hardPart, if_pos hc.soft]
  have ht : v'.frame.pc.hasArray = true → ArrayOk s.cyclicExpandXcall.shared v' := by
    intro hp
    rcases h.frame.array hp with ha | ha
    · refine .inr ⟨rfl, hne, fun i => ?_⟩
      rw [show v'.frame.cyclics = s.shared.cyclics from ha, expandXcall_old, (hcr i).2.1]
      by_cases hi : i < s.shared.size
      · rw [if_pos hi, (hcr i).1 hi]
        exact ⟨rfl, fun _ => rfl⟩
      · have hf := hs.range i (not_lt.mp hi)
        rw [if_neg hi]
        exact ⟨hs.free i hf, fun hf' => absurd (hf.symm.trans hf') (by simp)⟩
    · exact absurd hc.soft ha.2.1
  have hn : (s.lev l).frame.pc.past = false := by
    by_contra hp
    exact (h.frame.past (by simpa using hp)).1 hc.soft
  have hfm : FrameOk s.cyclicExpandXcall.shared v' w l :=
    { h.frame with
      array := ht
      handler := fun hp => by
        have hft : (s.lev l).frame.pc.fetched = true := by
          rcases hp with hp | hp
          · rw [show (s.lev l).frame.pc = .call from hp]
            rfl
          · exact Pc.fetched_of_called hp
        rw [show v'.frame.cyclic.2 = (s.lev l).frame.cyclic.2 from rfl, hsm (hfr (h.cyclic_owed hft).1)]
        exact h.frame.handler hp
      stateTest := fun hp => absurd hp hc.pc.1
      removePend := fun hp => absurd hp hc.pc.2.1
      removing := fun hp => absurd hp (not_or.mpr ⟨hc.pc.2.2.1, hc.pc.2.2.2.1⟩)
      removeCall := fun hp => absurd hp hc.pc.2.2.1
      removePost := fun hp => absurd hp hc.pc.2.2.2.1
      past := fun hp => absurd (hp.symm.trans hn) (by simp)
      switch := fun hp => absurd hn (by rcases hp with hp | hp <;> simp [show (s.lev l).frame.pc = _ from hp])
      store := fun hp => absurd hn (by simp [show (s.lev l).frame.pc = _ from hp])
      check := fun hp => by
        rw [if_neg hne, hpr]
        have hd : (s.lev l).frame.pc.dead = false := by rw [show (s.lev l).frame.pc = _ from hp]; rfl
        rw [softPart, hd]
        exact Ring.slice_eq_nil_iff.mpr (Nat.le_of_eq (hsf l hp).symm)
      ended := fun hp hl => by
        rw [hv] at hl
        change ((s.lev l).posted || decide (l = .lock)) = true
        rw [h.frame.ended hp hl, Bool.true_or]
      resized := fun hr hp => absurd hp (by rw [show v'.frame.pc.reports = false from hc.resized hr]; simp)
      kick := fun hp => absurd hp hc.pc.2.2.2.2 }
  refine ⟨hfm, hms, h.cons_le, fun _ => rfl, (by rintro ⟨⟩), ?_, ?_, (by rintro i ⟨⟩), ?_⟩
  · rw [hv]
    exact h.nodup
  · intro i
    rw [hv, h.mem_live]
    refine and_congr_right fun hw => ?_
    rw [hsm (hfr hw)]
    rfl
  · intro i hi hl
    have hf : (s.shared.cur i).free = false := by
      rcases hi with hi | hi
      · rwa [(hcr i).2.1] at hi
      · exact hfr hi
    rw [hsm hf] at hl ⊢
    exact h.account i (.inl hf) hl

theorem Inv.expandXcall (h : Inv s w) (hm : s.shared.modifier = .expand) (hf : SafeToExpand s) :
    Inv s.cyclicExpandXcall w := by
  have hmod := h.modify
  simp only [ModifyOk, hm] at hmod
  have hc (l : Level) := (h.level l).calm (by simp [hm]) (by simp [hm])
  have hs (l : Level) : (s.cyclicExpandXcall.lev l).seen = 0 := by
    have hne : (s.lev l).softbuf.soft ≠ !(s.lev l).softbuf.hard := by simp [(hc l).soft]
    exact if_pos (.inl hne)
  have hk (l : Level) : (s.cyclicExpandXcall.lev l).kicks = 0 := if_neg (hc l).pc.2.2.2.2
  refine ⟨h.shared.expandXcall hm, fun l => (h.level l).expandXcall h.shared hm hf, ?_⟩
  rw [hs, hs, hk, hk]
  change s.shared.modifyLevels = 0 ∧ s.shared.modifyWait + 0 = if s.shared.modifyLevels = 2 then 1 else 0
  simp [hmod]

end Modify

/-! ### A new cyclic -/

section Add

variable {k : κ} {lv : Level}

theorem add_cur_self : (s.cyclicAddXcall i lv k).shared.cur i =
    { s.shared.cur i with level := lv, handler := k, free := false } := by
  simp [State.cyclicAddXcall, Shared.cur]

theorem add_cur_of_ne {j : ℕ} (hj : j ≠ i) : (s.cyclicAddXcall i lv k).shared.cur j = s.shared.cur j := by
  simp [State.cyclicAddXcall, Shared.cur, hj]

variable (hm : s.shared.modifier = .idle) (hf : (s.shared.cur i).free = true)
  (hn : ∀ j, (s.shared.cur j).free = false → (s.shared.cur j).handler ≠ k)
include hm hf hn

theorem SharedOk.add (h : SharedOk s.shared w) (hi : i < s.shared.size) :
    SharedOk (s.cyclicAddXcall i lv k).shared w := by
  have hr := ne_removeWait hm nofun
  have hw := h.owed_of_free hr hf
  have hl {j : ℕ} (hj : j ≠ i) (hh : Held (s.cyclicAddXcall i lv k).shared w j) : (s.shared.cur j).free = false := by
    rcases hh with hh | hh
    · rwa [add_cur_of_ne hj] at hh
    · by_contra hf'
      exact hh (h.owed_of_free hr (by simpa using hf'))
  refine { h with range := ?_, free := ?_, active := ?_, freed := ?_, inj := ?_, gone := ?_, remove := ?_,
                  removeWait := fun j hj => absurd hj (hr j), small := ⟨h.small.1, ?_⟩ }
  · intro j hj
    have hne : j ≠ i := fun he => absurd hi (not_lt.mpr (he ▸ hj))
    rw [add_cur_of_ne hne]
    exact h.range j hj
  · intro j hj
    by_cases he : j = i
    · rw [he, add_cur_self] at hj
      cases hj
    · rw [add_cur_of_ne he] at hj ⊢
      exact h.free j hj
  · intro j hj
    by_cases he : j = i
    · rw [he, add_cur_self, hw]
      exact (h.free i hf).symm
    · rw [add_cur_of_ne he] at hj ⊢
      exact h.active j hj
  · intro j hj hwj
    by_cases he : j = i
    · exact absurd (he ▸ hw) hwj
    · rw [add_cur_of_ne he] at hj
      exact h.freed j hj hwj
  · intro j j' hj hj' heq
    by_cases he : j = i <;> by_cases he' : j' = i
    · rw [he, he']
    · rw [he, add_cur_self, add_cur_of_ne he'] at heq
      exact absurd heq.symm (hn j' (hl he' hj'))
    · rw [he', add_cur_self, add_cur_of_ne he] at heq
      exact absurd heq (hn j (hl he hj))
    · rw [add_cur_of_ne he, add_cur_of_ne he'] at heq
      exact h.inj j j' (.inl (hl he hj)) (.inl (hl he' hj')) heq
  · intro k' hk'
    refine h.gone k' fun j hj => ?_
    have he : j ≠ i := by
      rintro rfl
      rcases hj with hj | hj
      · rw [hf] at hj
        cases hj
      · exact hj hw
    have := hk' j (by rwa [Held, add_cur_of_ne he])
    rwa [add_cur_of_ne he] at this
  · intro j hj
    rw [show s.shared.modifier = .remove j from hj] at hm
    cases hm
  · intro j
    by_cases he : j = i
    · rw [he, add_cur_self]
      exact h.small.2 i
    · rw [add_cur_of_ne he]
      exact h.small.2 j

theorem LevelOk.add (h : LevelOk s.shared (s.lev l) w l) (hs : SharedOk s.shared w) :
    LevelOk (s.cyclicAddXcall i lv k).shared (s.lev l) w l := by
  have hr := ne_removeWait hm nofun
  have hw := hs.owed_of_free hr hf
  have hc := h.calm (by simp [hm]) hr
  have ht (hp : (s.lev l).frame.pc.fetched = true) : (s.lev l).frame.cyclic.2 ≠ i :=
    fun he => (h.cyclic_owed hp).1 (he ▸ hw)
  refine { h with frame := hc.frameOk h.frame rfl ?_, mem_live := ?_, account := ?_,
                  removed := fun j hj => absurd hj (hr j) }
  · by_cases hp : (s.lev l).frame.pc.fetched = true
    · exact .inl (by rw [add_cur_of_ne (ht hp)])
    · refine .inr fun hq => hp ?_
      rcases hq with hq | hq
      · rw [hq]
        rfl
      · exact Pc.fetched_of_called hq
  · intro j
    rw [h.mem_live]
    refine and_congr_right fun hwj => ?_
    have hne : j ≠ i := fun he => hwj (he ▸ hw)
    rw [add_cur_of_ne hne]
  · intro j hj hl
    by_cases he : j = i
    · subst he
      have hg : s.shared.calls k = s.shared.expires k := by
        refine hs.gone k fun j' hj' => ?_
        rcases hj' with hj' | hj'
        · exact hn j' hj'
        · exact hn j' (by
            by_contra hf'
            exact hj' (hs.owed_of_free hr (by simpa using hf')))
      have ha : (s.lev l).ahead j = 0 := if_neg fun hp => ht (Pc.fetched_of_called hp.1) hp.2
      rw [add_cur_self, ha, hw]
      exact hg
    · rw [add_cur_of_ne he] at hl ⊢
      refine h.account j ?_ hl
      rwa [Held, add_cur_of_ne he] at hj

theorem Inv.add (h : Inv s w) (hi : i < s.shared.size) : Inv (s.cyclicAddXcall i lv k) w :=
  ⟨h.shared.add hm hf hn hi, fun l => (h.level l).add hm hf hn h.shared, h.modify⟩

end Add

end Sol8.Os.CyclicSoftint
